import CaveRuntime.Etcd.Store

/-!
# The etcd-compatible store: the comparisons of a transaction

What the comparisons of a transaction are to mean, over the pairs of the store, and how `txn` judges them.
Versions and revisions are judged as they are meant. The order of values is never looked at, and a value is
compared by its text, which is another one if the value is not valid UTF-8. A value comparison in which the
key or the wanted value is missing has no meaning of its own: what it is to mean there is a parameter.
-/

namespace Etcd
open Utf8

/-- The relation that a `CompareResult` names. -/
def CompareResult.Relates {α : Type} [LT α] (result : CompareResult) (actual wanted : α) : Prop :=
  match result with
  | .equal => actual = wanted
  | .notEqual => actual ≠ wanted
  | .greater => wanted < actual
  | .less => actual < wanted

lemma CompareResult.test_iff (result : CompareResult) (actual wanted : ℕ) :
    result.test actual wanted ↔ result.Relates actual wanted := by
  cases result <;> simp [test, Relates]

namespace Compare

section Meaning

variable (lacking : CompareResult → Option Bytes → Option Bytes → Prop) (cmp : Compare) (kv : Option KeyValue)

/-- What a comparison means for the pair of its key. Values are compared in the order of byte strings;
`lacking` is what it means if one of the values is missing. -/
def Means : Prop :=
  match cmp.target with
  | .version => cmp.result.Relates ((kv.map (·.version)).getD 0) (cmp.version.getD 0)
  | .create => cmp.result.Relates ((kv.map (·.createRevision)).getD 0) (cmp.modRevision.getD 0)
  | .mod => cmp.result.Relates ((kv.map (·.modRevision)).getD 0) (cmp.modRevision.getD 0)
  | .value =>
    match kv.map (·.value), cmp.value.map (·.asBytes) with
    | some actual, some wanted => cmp.result.Relates actual wanted
    | actual, wanted => lacking cmp.result actual wanted

/-- A comparison of values that passes and does not hold: one by order, of values that are not in this order;
one for equality, of a value that is not valid UTF-8 and another one with the same text; or one in which a
value is missing. -/
def TooWeak : Prop :=
  cmp.target = .value ∧
    match kv.map (·.value), cmp.value.map (·.asBytes) with
    | some actual, some wanted =>
      match cmp.result with
      | .greater => ¬ wanted < actual
      | .less => ¬ actual < wanted
      | .equal => actual ≠ wanted ∧ fromUtf8Lossy actual = wanted
      | .notEqual => False
    | actual, wanted =>
      ¬ lacking cmp.result actual wanted ∧
        match cmp.result with
        | .equal => actual = none ∧ wanted = none
        | .notEqual => ¬ (actual = none ∧ wanted = none)
        | _ => True

/-- A comparison of values that fails and holds: one for a difference, of a value that is not valid UTF-8 and
another one with the same text; or one in which a value is missing. -/
def TooStrict : Prop :=
  cmp.target = .value ∧
    match kv.map (·.value), cmp.value.map (·.asBytes) with
    | some actual, some wanted => cmp.result = .notEqual ∧ actual ≠ wanted ∧ fromUtf8Lossy actual = wanted
    | actual, wanted =>
      lacking cmp.result actual wanted ∧
        match cmp.result with
        | .equal => ¬ (actual = none ∧ wanted = none)
        | .notEqual => actual = none ∧ wanted = none
        | _ => False

end Meaning

variable {lacking : CompareResult → Option Bytes → Option Bytes → Prop} {cmp : Compare} {kv : Option KeyValue}

lemma TooWeak.not_means (h : cmp.TooWeak lacking kv) : ¬ cmp.Means lacking kv := by
  obtain ⟨target, h⟩ := h
  unfold Means
  rw [target]
  dsimp only
  split at h
  · cases result : cmp.result with
    | equal =>
      rw [result] at h
      exact h.1
    | notEqual =>
      rw [result] at h
      exact h.elim
    | greater =>
      rw [result] at h
      exact h
    | less =>
      rw [result] at h
      exact h
  · exact h.1

lemma TooStrict.means (h : cmp.TooStrict lacking kv) : cmp.Means lacking kv := by
  obtain ⟨target, h⟩ := h
  unfold Means
  rw [target]
  dsimp only
  split at h
  · rw [h.1]
    exact h.2.1
  · exact h.1

/-- Where a comparison differs from its meaning. -/
lemma pass_iff : cmp.pass kv ↔ cmp.TooWeak lacking kv ∨ cmp.Means lacking kv ∧ ¬ cmp.TooStrict lacking kv := by
  unfold pass TooWeak TooStrict Means
  cases target : cmp.target with
  | version => simp [CompareResult.test_iff]
  | create => simp [CompareResult.test_iff]
  | mod => simp [CompareResult.test_iff]
  | value =>
    have text (wanted : Str) : fromUtf8Lossy wanted.asBytes = wanted.asBytes := wanted.2
    cases kv with
    | none =>
      cases cmp.value with
      | none => cases cmp.result <;> simp [Classical.or_iff_not_imp_left]
      | some wanted => cases cmp.result <;> simp [Classical.or_iff_not_imp_left]
    | some kv =>
      cases cmp.value with
      | none => cases cmp.result <;> simp [Classical.or_iff_not_imp_left]
      | some wanted =>
        cases cmp.result with
        | equal =>
          simp only [KeyValue.valueStr, CompareResult.Relates]
          by_cases same : kv.value = wanted.asBytes
          · simp [same, text]
          · simp [same]
        | notEqual =>
          simp only [KeyValue.valueStr, CompareResult.Relates]
          by_cases same : kv.value = wanted.asBytes
          · simp [same, text]
          · simp [same]
        | greater => simp [CompareResult.Relates, Classical.or_iff_not_imp_left]
        | less => simp [CompareResult.Relates, Classical.or_iff_not_imp_left]

end Compare

namespace KvStore

section Property

variable (lacking : CompareResult → Option Bytes → Option Bytes → Prop) (s : KvStore) (req : TxnRequest)

/-- Operations, one after the other. -/
def execute : KvStore → List (RequestOp × Order Bytes) → KvStore
  | s, [] => s
  | s, (.range _, _) :: ops => s.execute ops
  | s, (.put req, _) :: ops => (s.put req).2.execute ops
  | s, (.deleteRange req, order) :: ops => (s.deleteRange order req).2.execute ops

/-- Every comparison holds, as it is meant. -/
def GuardHolds : Prop := ∀ cmp ∈ req.compare, cmp.Means lacking (s.current.lookup cmp.key.asBytes)

/-- The transaction runs the branch that its comparisons choose. -/
structure RunsGuarded (orders : ℕ → Order Bytes) : Prop where
  succeeded : (s.txn orders req).1.succeeded ↔ s.GuardHolds lacking req
  success : s.GuardHolds lacking req → (s.txn orders req).2 = s.execute (ordered req.success orders)
  failure : ¬ s.GuardHolds lacking req → (s.txn orders req).2 = s.execute (ordered req.failure orders)

/-- The comparison is judged as it is meant. -/
def JudgedRight (cmp : Compare) : Prop :=
  ¬ cmp.TooWeak lacking (s.current.lookup cmp.key.asBytes) ∧
    ¬ cmp.TooStrict lacking (s.current.lookup cmp.key.asBytes)

/-- The wrong judgements do not decide: there are none, one that is right fails, or there are wrong ones of
both kinds. -/
def JudgedWell : Prop :=
  (∀ cmp ∈ req.compare, s.JudgedRight lacking cmp) ∨
    (∃ cmp ∈ req.compare, s.JudgedRight lacking cmp ∧ ¬ cmp.Means lacking (s.current.lookup cmp.key.asBytes)) ∨
    (∃ cmp ∈ req.compare, cmp.TooWeak lacking (s.current.lookup cmp.key.asBytes)) ∧
      ∃ cmp ∈ req.compare, cmp.TooStrict lacking (s.current.lookup cmp.key.asBytes)

end Property

variable {lacking : CompareResult → Option Bytes → Option Bytes → Prop} {s : KvStore} {req : TxnRequest}

lemma execute_eq (s : KvStore) (ops : List (RequestOp × Order Bytes)) : s.execute ops = ops.foldl runOp s := by
  induction ops generalizing s with
  | nil => rfl
  | cons op ops ih =>
    obtain ⟨op, order⟩ := op
    cases op with
    | range req => exact ih s
    | put req => exact ih _
    | deleteRange req => exact ih _

lemma holds_eq (s : KvStore) (cmp : Compare) : s.holds cmp = cmp.pass (s.current.lookup cmp.key.asBytes) := by
  unfold holds
  congr 1
  show ((s.current.lookup cmp.key.asBytes).toList).head? = _
  exact Option.head?_toList

lemma holds_iff {cmp : Compare} : s.holds cmp ↔
    cmp.TooWeak lacking (s.current.lookup cmp.key.asBytes) ∨
      cmp.Means lacking (s.current.lookup cmp.key.asBytes) ∧
        ¬ cmp.TooStrict lacking (s.current.lookup cmp.key.asBytes) := by
  rw [holds_eq]
  exact Compare.pass_iff

lemma JudgedRight.holds_iff {cmp : Compare} (right : s.JudgedRight lacking cmp) :
    s.holds cmp ↔ cmp.Means lacking (s.current.lookup cmp.key.asBytes) := by
  rw [KvStore.holds_iff, or_iff_right right.1, and_iff_left right.2]

/-- A guard is right if all comparisons are, one rightly fails, or wrong ones make up for each other. -/
lemma judged_iff : (req.compare.all s.holds ↔ s.GuardHolds lacking req) ↔ s.JudgedWell lacking req := by
  rw [List.all_eq_true]
  constructor
  · intro same
    by_cases right : ∀ cmp ∈ req.compare, s.JudgedRight lacking cmp
    · exact .inl right
    refine .inr ?_
    by_cases fails : ∃ cmp ∈ req.compare,
        s.JudgedRight lacking cmp ∧ ¬ cmp.Means lacking (s.current.lookup cmp.key.asBytes)
    · exact .inl fails
    push Not at fails
    -- whatever fails is judged wrong, and something is judged wrong
    by_cases guard : s.GuardHolds lacking req
    · exfalso
      refine right fun cmp mem => ?_
      refine ⟨fun weak => weak.not_means (guard cmp mem), fun strict => ?_⟩
      obtain weak | ⟨-, lax⟩ := holds_iff.mp (same.mpr guard cmp mem)
      · exact weak.not_means (guard cmp mem)
      · exact lax strict
    · have judged : ¬ ∀ cmp ∈ req.compare, s.holds cmp := fun all => guard (same.mp all)
      unfold GuardHolds at guard
      push Not at guard judged
      obtain ⟨cmp, mem, unmet⟩ := guard
      obtain ⟨cmp', mem', failed⟩ := judged
      refine .inr ⟨⟨cmp, mem, ?_⟩, cmp', mem', ?_⟩
      · by_contra not
        exact unmet (fails cmp mem ⟨not, fun strict => unmet strict.means⟩)
      · by_contra not
        have weak : ¬ cmp'.TooWeak lacking (s.current.lookup cmp'.key.asBytes) :=
          fun weak => failed (holds_iff.mpr (.inl weak))
        exact failed (holds_iff.mpr (.inr ⟨fails cmp' mem' ⟨weak, not⟩, not⟩))
  · rintro (right | ⟨cmp, mem, right, unmet⟩ | ⟨⟨cmp, mem, weak⟩, cmp', mem', strict⟩)
    · exact forall₂_congr fun cmp mem => (right cmp mem).holds_iff
    · refine iff_of_false (fun all => unmet ?_) fun guard => unmet (guard cmp mem)
      exact right.holds_iff.mp (all cmp mem)
    · refine iff_of_false (fun all => ?_) fun guard => weak.not_means (guard cmp mem)
      obtain weak' | ⟨-, lax⟩ := holds_iff.mp (all cmp' mem')
      · exact weak'.not_means strict.means
      · exact lax strict

/-- A transaction runs the branch that its comparisons choose, as they are meant, and nothing else, exactly if
no wrong judgement decides. -/
theorem runs_guarded_iff (lacking : CompareResult → Option Bytes → Option Bytes → Prop) (s : KvStore)
    (req : TxnRequest) (orders : ℕ → Order Bytes) :
    s.RunsGuarded lacking req orders ↔ s.JudgedWell lacking req := by
  rw [← judged_iff]
  constructor
  · intro runs
    exact runs.succeeded
  · intro same
    refine ⟨same, fun guard => ?_, fun guard => ?_⟩
    · rw [execute_eq, txn, branch, if_pos (same.mpr guard)]
    · rw [execute_eq, txn, branch, if_neg fun all => guard (same.mp all)]

/-- The put of "b" is for a value of "a" that comes after "b". -/
def orderedPut : TxnRequest :=
  { compare := [{ key := keyA, target := .value, result := .greater, value := some keyB }]
    success := [.put { key := keyB, value := keyB }] }

/-- A store in which the value of "a" is "a". -/
def storeA : KvStore := (new.put { key := keyA, value := keyA }).2

/-- The value "a" does not come after "b", and the put is done. -/
theorem order_of_values_ignored :
    (storeA.txn (fun _ => .asIs) orderedPut).1.succeeded ∧
      ((storeA.txn (fun _ => .asIs) orderedPut).2.current.lookup keyB.asBytes).isSome ∧
      ∀ lacking, ¬ storeA.GuardHolds lacking orderedPut ∧
        ¬ storeA.RunsGuarded lacking orderedPut fun _ => .asIs := by
  have succeeded : (storeA.txn (fun _ => .asIs) orderedPut).1.succeeded := by decide
  refine ⟨succeeded, by decide, fun lacking => ?_⟩
  have unmet : ¬ storeA.GuardHolds lacking orderedPut := by
    intro guard
    have greater : keyB.asBytes < keyA.asBytes := guard _ (List.mem_singleton.mpr rfl)
    exact absurd greater (by decide)
  exact ⟨unmet, fun runs => unmet (runs.succeeded.mp succeeded)⟩

end KvStore

end Etcd
