import CaveRuntime.RaftCore.Outcome

/-!
# RaftCore: logs and the append loop

The entry at position `i` of a log carries the index `i + 1` (`Indexed`). On such logs the append loop
of `handle_append_entries` has one meaning (`merge_eq`): with `p` the leader's log up to the last entry
of the request, the follower keeps its log if `p` is already a prefix of it, and replaces it by `p`
otherwise.
-/

namespace RaftCore
open RaftCore.Core Positions

/-- The `index` field of every entry is its position, counted from one. -/
abbrev Indexed (l : List LogEntry) : Prop := Positions.Indexed LogEntry.index l

lemma Core.lastLogIndex_eq {c : Core} (ix : Indexed c.log) : c.lastLogIndex = c.log.length :=
  ix.getLast?_index

@[simp] lemma logAt_succ (l : List LogEntry) (i : ℕ) : logAt l (i + 1) = l[i]? := rfl

variable {l : List LogEntry} {e : LogEntry} {pos : ℕ} {entries : List LogEntry}

lemma appendEntriesToLog_end (idx : e.index = l.length + 1) :
    appendEntriesToLog l [e] = l ++ [e] := by
  simp only [appendEntriesToLog, List.foldl_cons, List.foldl_nil, idx, wrappingSub_succ,
    lt_self_iff_false, if_false]

/-- One round of the append loop for the entry that belongs at position `pos`: it is skipped if the log
has an entry of its term there, and otherwise ends the log. -/
lemma appendOne_cases (b : Bool) (le : pos ≤ l.length)
    (idx : e.index = pos + 1) :
    (∃ a, l[pos]? = some a ∧ a.term = e.term ∧ appendOne (l, b) e = (l, b)) ∨
      ((∀ a, l[pos]? = some a → a.term ≠ e.term) ∧
        appendOne (l, b) e = (l.take pos ++ [e], true)) := by
  have len : (l.take pos).length = pos := List.length_take_of_le le
  have push := appendEntriesToLog_end (idx.trans (congrArg (· + 1) len.symm))
  cases at_l : l[pos]? with
  | none =>
    have all : l.take pos = l := List.take_of_length_le (List.getElem?_eq_none_iff.mp at_l)
    refine .inr ⟨nofun, ?_⟩
    rw [all] at push ⊢
    simp only [appendOne, idx, logAt_succ, at_l, push]
  | some a =>
    by_cases same : a.term = e.term
    · refine .inl ⟨a, rfl, same, ?_⟩
      simp only [appendOne, idx, logAt_succ, at_l, ne_eq, same, not_true_eq_false, if_false]
    · have lt := (List.getElem?_eq_some_iff.mp at_l).1
      refine .inr ⟨fun x hx => Option.some.inj hx ▸ same, ?_⟩
      simp only [appendOne, idx, logAt_succ, at_l, ne_eq, same, not_false_eq_true, if_true,
        Nat.add_sub_cancel, truncateLogTo, lt, push]

lemma foldl_appendOne_end {pre : List LogEntry} (ix : Indexed (pre ++ entries)) :
    entries.foldl appendOne (pre, true) = (pre ++ entries, true) := by
  induction entries generalizing pre with
  | nil => simp
  | cons e es ih =>
    have idx : e.index = pre.length + 1 := ix _ _ (by simp)
    have one : appendOne (pre, true) e = (pre ++ [e], true) := by
      simp [appendOne, appendEntriesToLog_end idx, idx]
    rw [List.append_cons] at ix ⊢
    rw [List.foldl_cons, one, ih ix]

/-- The append loop keeps a log that already has the request's entries and otherwise leaves exactly the
leader's log up to the last of them. -/
lemma foldl_appendOne {pre : List LogEntry} (ix : Indexed (pre ++ entries)) (hp : pre <+: l)
    (agree : ∀ i a b, l[i]? = some a → (pre ++ entries)[i]? = some b → a.term = b.term →
      l.take (i + 1) = (pre ++ entries).take (i + 1)) :
    entries.foldl appendOne (l, false) =
      if pre ++ entries <+: l then (l, false) else (pre ++ entries, true) := by
  induction entries generalizing pre with
  | nil => simp [hp]
  | cons e es ih =>
    have idx : e.index = pre.length + 1 := ix _ _ (by simp)
    have at_p : (pre ++ e :: es)[pre.length]? = some e := by simp
    have cut : l.take pre.length = pre := (List.prefix_iff_eq_take.mp hp).symm
    rw [List.append_cons] at ix agree at_p ⊢
    rw [List.foldl_cons]
    rcases appendOne_cases false hp.length_le idx with ⟨a, at_l, same, one⟩ | ⟨differ, one⟩
    · have grown : pre ++ [e] <+: l := by
        have eq : l.take (pre.length + 1) = pre ++ [e] := by
          rw [agree _ _ _ at_l at_p same, List.take_append_of_le_length (by simp),
            List.take_of_length_le (by simp)]
        rw [← eq]
        exact List.take_prefix _ _
      rw [one, ih ix grown agree]
    · rw [one, cut, foldl_appendOne_end ix, if_neg]
      rintro ⟨t, rfl⟩
      rw [List.getElem?_append_left (by simp)] at differ
      exact differ e at_p rfl

lemma contiguous_cons {es : List LogEntry}
    (cont : ∀ k a, (e :: es)[k]? = some a → a.index = pos + k + 1) :
    e.index = pos + 1 ∧ ∀ k a, es[k]? = some a → a.index = pos + 1 + k + 1 := by
  refine ⟨cont 0 e rfl, fun k a ha => ?_⟩
  have := cont (k + 1) a ha
  omega

lemma Indexed.foldl_appendOne {b : Bool} (ix : Indexed l)
    (le : pos ≤ l.length) (cont : ∀ k e, entries[k]? = some e → e.index = pos + k + 1) :
    Indexed (entries.foldl appendOne (l, b)).1 := by
  induction entries generalizing l b pos with
  | nil => exact ix
  | cons e es ih =>
    obtain ⟨idx, cont'⟩ := contiguous_cons cont
    rw [List.foldl_cons]
    rcases appendOne_cases b le idx with ⟨a, at_l, _, one⟩ | ⟨_, one⟩
    · rw [one]
      exact ih ix (List.getElem?_eq_some_iff.mp at_l).1 cont'
    · have len : (l.take pos).length = pos := List.length_take_of_le le
      rw [one]
      refine ih ((ix.cut (List.take_prefix _ _)).concat (len.symm ▸ idx)) ?_ cont'
      simp [len]

/-- Entries before the first conflict stay. -/
lemma foldl_appendOne_keep {b : Bool} {i : ℕ} (le : pos ≤ l.length)
    (cont : ∀ k e, entries[k]? = some e → e.index = pos + k + 1) (hi : i ≤ l.length)
    (spare : ∀ e ∈ entries, ∀ x ∈ logAt l e.index, x.term ≠ e.term → i < e.index) :
    (entries.foldl appendOne (l, b)).1.take i = l.take i := by
  induction entries generalizing l b pos with
  | nil => rfl
  | cons e es ih =>
    obtain ⟨idx, cont'⟩ := contiguous_cons cont
    rw [List.foldl_cons]
    rcases appendOne_cases b le idx with ⟨a, at_l, _, one⟩ | ⟨differ, one⟩
    · rw [one]
      exact ih (List.getElem?_eq_some_iff.mp at_l).1 cont' hi
        fun x hx => spare x (List.mem_cons_of_mem _ hx)
    · have before : i ≤ pos := by
        cases at_l : l[pos]? with
        | none =>
          have := List.getElem?_eq_none_iff.mp at_l
          omega
        | some x =>
          have at_e : x ∈ logAt l e.index := by
            rw [idx, logAt_succ, at_l]
            rfl
          have := spare e List.mem_cons_self x at_e (differ x at_l)
          omega
      have len : (l.take pos ++ [e]).length = pos + 1 := by
        simp [List.length_take_of_le le]
      rw [one, ih len.ge cont' (by omega)]
      · rw [List.take_append_of_le_length (by simp; omega), List.take_take,
          Nat.min_eq_left before]
      · -- the later entries are past the end of the log that was cut
        intro x hx y hy
        obtain ⟨k, hk⟩ := List.mem_iff_getElem?.mp hx
        rw [cont' k x hk, logAt_succ, List.getElem?_eq_none (by omega)] at hy
        cases hy

lemma takeLoop_eq {k i : ℕ} (le : i + k ≤ l.length) :
    takeLoop l i k = (l.drop i).take k := by
  induction k generalizing i with
  | zero => rfl
  | succ k ih =>
    have lt : i < l.length := by omega
    rw [takeLoop, logAt_succ, ih (by omega), List.drop_eq_getElem_cons lt,
      List.getElem?_eq_getElem lt]
    rfl

/-- A request that passes the prev-log check finds its predecessor in the log. -/
lemma prev_le_of_pass {c : Core} {args : AppendEntriesArgs} (pass : prevLogConflict c args = none) :
    args.prevLogIndex ≤ c.log.length := by
  rcases Nat.eq_zero_or_pos args.prevLogIndex with zero | pos
  · omega
  obtain ⟨i, hi⟩ : ∃ i, args.prevLogIndex = i + 1 := ⟨_, (Nat.succ_pred_eq_of_pos pos).symm⟩
  unfold prevLogConflict at pass
  rw [if_pos pos, hi, logAt_succ] at pass
  cases he : c.log[i]? with
  | none => simp [he] at pass
  | some e =>
    have lt := (List.getElem?_eq_some_iff.mp he).1
    omega

/-- The entries of a request follow its `prev_log_index` without a gap. -/
def AppendEntriesArgs.Contiguous (args : AppendEntriesArgs) : Prop :=
  args.entries.map (·.index) = List.range' (args.prevLogIndex + 1) args.entries.length
deriving Decidable

lemma AppendEntriesArgs.Contiguous.index {args : AppendEntriesArgs} (cont : args.Contiguous) {k : ℕ}
    (he : args.entries[k]? = some e) : e.index = args.prevLogIndex + k + 1 := by
  have eq := congrArg (·[k]?) cont
  have lt := (List.getElem?_eq_some_iff.mp he).1
  simp only [List.getElem?_map, he, Option.map_some, List.getElem?_range' lt, Option.some.injEq] at eq
  omega

end RaftCore
