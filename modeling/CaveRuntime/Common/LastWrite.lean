import CaveRuntime.Common.Table

/-!
# The last write wins

Several writers write one after the other into one map. A key has what was written to it last. The order of the
writers does not matter exactly if no two of them end with different values for one key.
-/

namespace LastWrite

variable {κ ν ω : Type*} [DecidableEq κ]

/-- What was written to a key last. -/
def last (k : κ) : List (κ × ν) → Option ν
  | [] => none
  | w :: ws => (last k ws).or (if w.1 = k then some w.2 else none)

lemma last_append (k : κ) (ws ws' : List (κ × ν)) : last k (ws ++ ws') = (last k ws').or (last k ws) := by
  induction ws with
  | nil => exact (Option.or_none).symm
  | cons w ws ih => rw [List.cons_append, last, last, ih, Option.or_assoc]

lemma lookup_foldl_insert {β : Type*} (f : ν → β) (k : κ) (ws : List (κ × ν)) (t : Table κ β) :
    (ws.foldl (fun t w => t.insert w.1 (f w.2)) t).lookup k = ((last k ws).map f).or (t.lookup k) := by
  induction ws generalizing t with
  | nil => rfl
  | cons w ws ih =>
    rw [List.foldl_cons, ih, Table.lookup_insert_eq, last]
    cases last k ws with
    | some v => rfl
    | none =>
      by_cases same : w.1 = k
      · simp [same]
      · simp [same, Ne.symm same]

section Writers

variable (writes : ω → List (κ × ν))

/-- No two writers end with different values for a key. -/
def Compatible (l : List ω) : Prop :=
  ∀ a ∈ l, ∀ b ∈ l, ∀ k v v', last k (writes a) = some v → last k (writes b) = some v' → v = v'

variable {writes} {l l' : List ω}

lemma exists_of_last {k : κ} {v : ν} (written : last k (l.flatMap writes) = some v) :
    ∃ a ∈ l, last k (writes a) = some v := by
  induction l with
  | nil => cases written
  | cons a l ih =>
    rw [List.flatMap_cons, last_append, Option.or_eq_some_iff] at written
    rcases written with rest | ⟨-, first⟩
    · obtain ⟨b, mem, eq⟩ := ih rest
      exact ⟨b, List.mem_cons_of_mem _ mem, eq⟩
    · exact ⟨a, List.mem_cons_self, first⟩

lemma last_isSome {k : κ} {a : ω} {v : ν} (mem : a ∈ l) (here : last k (writes a) = some v) :
    ∃ v', last k (l.flatMap writes) = some v' := by
  obtain ⟨before, after, rfl⟩ := List.append_of_mem mem
  rw [List.flatMap_append, last_append, List.flatMap_cons, last_append, here, Option.or_some, Option.some_or]
  exact ⟨_, rfl⟩

lemma last_flatMap_iff (compatible : Compatible writes l) {k : κ} {v : ν} :
    last k (l.flatMap writes) = some v ↔ ∃ a ∈ l, last k (writes a) = some v := by
  refine ⟨exists_of_last, ?_⟩
  rintro ⟨a, mem, here⟩
  obtain ⟨v', eq⟩ := last_isSome mem here
  obtain ⟨b, mem', there⟩ := exists_of_last eq
  rw [eq, compatible a mem b mem' k v v' here there]

/-- Compatible writers may come in any order. -/
theorem last_perm (compatible : Compatible writes l) (perm : l'.Perm l) (k : κ) :
    last k (l'.flatMap writes) = last k (l.flatMap writes) := by
  have compatible' : Compatible writes l' := fun a mem b mem' =>
    compatible a (perm.mem_iff.mp mem) b (perm.mem_iff.mp mem')
  ext v
  rw [last_flatMap_iff compatible', last_flatMap_iff compatible]
  simp only [perm.mem_iff]

end Writers

end LastWrite
