import CaveRuntime.Common.Run
import CaveRuntime.Ha.Log

/-!
# cave-ha: the contract of the in-memory log

`MemLog` by itself, under any calls of `append`, `truncate_to` and `compact` that its documentation allows.
The entries stay at their places as long as nothing is appended at or below the snapshot, where the index of
the entry minus the first index is negative. An `append` drops whatever the log has from the first entry on, so
that entries that are present are left alone only if they are the last ones of the log.
-/

namespace Ha
open Positions Run

/-- A call of the log. -/
inductive LogCall where
  | append (entries : List LogEntry)
  | truncateTo (lastIndex : ℕ)
  | compact (index term : ℕ)

/-- The log after a call. -/
def LogCall.apply (m : MemLog) : LogCall → MemLog
  | .append entries => m.append entries
  | .truncateTo lastIndex => m.truncateTo lastIndex
  | .compact index term => m.compact index term

/-- The differences of indices that a call computes. -/
def LogCall.differences (m : MemLog) : LogCall → List (ℕ × ℕ)
  | .append entries => entries.map fun e => (e.index, m.firstIndex)
  | .truncateTo lastIndex => if lastIndex < m.firstIndex then [] else [(lastIndex, m.firstIndex)]
  | .compact index _ =>
    if index ≤ m.snapshotIndex then [] else if m.firstIndex ≤ index then [(index, m.firstIndex)] else []

namespace MemLog

variable {m : MemLog} {es : List LogEntry} {start : ℕ}

/-- A call, as a step of a run. -/
def call (m : MemLog) (c : LogCall) : Option MemLog := some (c.apply m)

/-- Every entry is at the place that its index says. -/
def Regular (m : MemLog) : Prop := ∀ j e, m.entries[j]? = some e → e.index = m.snapshotIndex + 1 + j

/-- The log has an entry with the index and the term of this one. -/
def Present (m : MemLog) (e : LogEntry) : Prop := ∃ old ∈ m.entry e.index, old.term = e.term
deriving Decidable

/-- The calls of the contract: entries have consecutive indices, and the first one is at most the next index
of the log. -/
def Allowed (m : MemLog) : LogCall → Prop
  | .append entries => ∀ first ∈ entries.head?, 1 ≤ first.index ∧ first.index ≤ m.lastIndex + 1 ∧
    ∀ e ∈ entries.zipIdx, e.1.index = first.index + e.2
  | _ => True

/-- What a call is to do. -/
structure Kept (m : MemLog) (c : LogCall) : Prop where
  nonnegative : ∀ d ∈ c.differences m, d.2 ≤ d.1
  regular : (c.apply m).Regular
  unchanged : ∀ entries, c = .append entries → (∀ e ∈ entries, m.Present e) → (m.append entries).entries = m.entries

/-- Entries are appended above the snapshot, and if they are all present they are the last ones of the log. -/
def AppendsBehind (m : MemLog) : LogCall → Prop
  | .append entries => (∀ first ∈ entries.head?, m.snapshotIndex < first.index) ∧
    ((∀ e ∈ entries, m.Present e) →
      (∀ last ∈ entries.getLast?, last.index = m.lastIndex) ∧ ∀ e ∈ entries, m.entry e.index = some e)
  | _ => True

instance (m : MemLog) : DecidablePred m.Allowed
  | .append entries => inferInstanceAs (Decidable (∀ first ∈ entries.head?,
      1 ≤ first.index ∧ first.index ≤ m.lastIndex + 1 ∧ ∀ e ∈ entries.zipIdx, e.1.index = first.index + e.2))
  | .truncateTo _ => inferInstanceAs (Decidable True)
  | .compact _ _ => inferInstanceAs (Decidable True)

instance (m : MemLog) : DecidablePred m.AppendsBehind
  | .append entries => inferInstanceAs (Decidable ((∀ first ∈ entries.head?, m.snapshotIndex < first.index) ∧
      ((∀ e ∈ entries, m.Present e) →
        (∀ last ∈ entries.getLast?, last.index = m.lastIndex) ∧ ∀ e ∈ entries, m.entry e.index = some e)))
  | .truncateTo _ => inferInstanceAs (Decidable True)
  | .compact _ _ => inferInstanceAs (Decidable True)

namespace Regular

lemma new : MemLog.new.Regular := nofun

lemma lastIndex (h : m.Regular) : m.lastIndex = m.snapshotIndex + m.entries.length := by
  unfold MemLog.lastIndex
  rw [List.getLast?_eq_getElem?]
  split
  · rename_i none
    rw [List.getElem?_eq_none_iff] at none
    omega
  · rename_i e found
    have place := h _ e found
    have lt := (List.getElem?_eq_some_iff.mp found).1
    omega

lemma take (h : m.Regular) (k : ℕ) : { m with entries := m.entries.take k }.Regular := by
  intro j e found
  have found : (m.entries.take k)[j]? = some e := found
  rw [List.getElem?_take] at found
  split at found
  · exact h j e found
  · cases found

lemma truncateTo (h : m.Regular) (lastIndex : ℕ) : (m.truncateTo lastIndex).Regular := by
  unfold MemLog.truncateTo
  split
  · exact nofun
  · exact h.take _

lemma compact (h : m.Regular) (index term : ℕ) : (m.compact index term).Regular := by
  unfold MemLog.compact
  split
  · exact h
  · rename_i above
    have first : m.firstIndex ≤ index := not_le.mp above
    have trim : index - m.firstIndex + 1 = index - m.snapshotIndex := by
      rw [firstIndex] at first ⊢
      omega
    intro j e found
    simp only [if_pos first, trim] at found ⊢
    split at found
    · rw [List.getElem?_drop] at found
      have place := h _ e found
      omega
    · cases found

lemma splice (h : m.Regular) (above : m.snapshotIndex < start) (reach : start ≤ m.lastIndex + 1)
    (consecutive : ∀ j e, es[j]? = some e → e.index = start + j) :
    { m with entries := m.entries.take (start - m.firstIndex) ++ es }.Regular := by
  have len : (m.entries.take (start - m.firstIndex)).length = start - m.firstIndex := by
    rw [h.lastIndex] at reach
    rw [List.length_take, firstIndex]
    omega
  intro j e found
  have found : (m.entries.take (start - m.firstIndex) ++ es)[j]? = some e := found
  show e.index = m.snapshotIndex + 1 + j
  by_cases old : j < start - m.firstIndex
  · rw [List.getElem?_append_left (by omega)] at found
    exact h.take _ j e found
  · rw [List.getElem?_append_right (by omega), len] at found
    have place := consecutive _ e found
    rw [firstIndex] at place old
    omega

end Regular

lemma push_eq {e : LogEntry} (above : m.snapshotIndex < e.index) :
    m.push e = { m with entries := m.entries.take (e.index - m.firstIndex) ++ [e] } := by
  have offset : wrappingSub e.index m.firstIndex = e.index - m.firstIndex := wrappingSub_of_le above
  unfold push
  dsimp only
  rw [offset]
  split
  · rfl
  · rename_i past
    rw [List.take_of_length_le (not_lt.mp past)]

/-- An append of consecutive entries cuts the log before the first and adds them. -/
lemma Regular.append_eq (h : m.Regular) (above : m.snapshotIndex < start) (reach : start ≤ m.lastIndex + 1)
    (consecutive : ∀ j e, es[j]? = some e → e.index = start + j) (ne : es ≠ []) :
    m.append es = { m with entries := m.entries.take (start - m.firstIndex) ++ es } := by
  induction es generalizing m start with
  | nil => exact absurd rfl ne
  | cons e es ih =>
    have here : e.index = start := consecutive 0 e rfl
    subst here
    have pushed := push_eq above
    cases es with
    | nil => exact pushed
    | cons e' es =>
      have regular : (m.push e).Regular := by
        rw [pushed]
        refine h.splice above reach fun j a found => ?_
        cases j with
        | zero =>
          cases found
          rfl
        | succ j => cases found
      -- the log ends with the entry, so nothing is dropped any more
      have reached : (m.push e).lastIndex = e.index := push_lastIndex m e
      have rest := @ih (m.push e) (e.index + 1) regular (show m.snapshotIndex < e.index + 1 by omega)
        (by rw [reached]) (fun j a found => by have next := consecutive (j + 1) a found; omega)
        (List.cons_ne_nil _ _)
      have whole : (m.push e).entries.take (e.index + 1 - m.firstIndex) = (m.push e).entries := by
        refine List.take_of_length_le ?_
        have last := regular.lastIndex
        rw [reached] at last
        have same : (m.push e).snapshotIndex = m.snapshotIndex := rfl
        rw [firstIndex]
        omega
      show (m.push e).append (e' :: es) = _
      rw [rest]
      show { m.push e with entries := (m.push e).entries.take (e.index + 1 - m.firstIndex) ++ e' :: es } = _
      rw [whole, pushed]
      simp only [List.append_assoc, List.singleton_append]

lemma entry_of_lt {i : ℕ} (above : m.snapshotIndex < i) : m.entry i = m.entries[i - m.firstIndex]? :=
  if_neg (not_le.mpr above)

/-- Consecutive entries are what the log ends with if they are its entries and reach its last index. -/
lemma Regular.splice_eq_iff (h : m.Regular) (above : m.snapshotIndex < start) (reach : start ≤ m.lastIndex + 1)
    (consecutive : ∀ j e, es[j]? = some e → e.index = start + j) (ne : es ≠ []) :
    m.entries.take (start - m.firstIndex) ++ es = m.entries ↔
      (∀ last ∈ es.getLast?, last.index = m.lastIndex) ∧ ∀ e ∈ es, m.entry e.index = some e := by
  have long := h.lastIndex
  have len : (m.entries.take (start - m.firstIndex)).length = start - m.firstIndex := by
    rw [List.length_take, firstIndex]
    omega
  have at_place (j : ℕ) (e : LogEntry) (found : es[j]? = some e) :
      m.entry e.index = m.entries[start - m.firstIndex + j]? := by
    rw [consecutive j e found, entry_of_lt (by omega)]
    congr 1
    rw [firstIndex]
    omega
  constructor
  · intro same
    constructor
    · intro last found
      have ends : m.entries.getLast? = some last := by
        rw [← same, List.getLast?_append, found]
        rfl
      unfold MemLog.lastIndex
      rw [ends]
    · intro e mem
      obtain ⟨j, found⟩ := List.mem_iff_getElem?.mp mem
      rw [at_place j e found, ← same, List.getElem?_append_right (by omega), len, Nat.add_sub_cancel_left]
      exact found
  · rintro ⟨last, same⟩
    have length : m.entries.length = start - m.firstIndex + es.length := by
      obtain ⟨e, found⟩ := List.getLast?_isSome.mpr ne |> Option.isSome_iff_exists.mp
      have ends := last e found
      rw [List.getLast?_eq_getElem?] at found
      have place := consecutive _ e found
      have pos := List.length_pos_iff.mpr ne
      rw [firstIndex]
      omega
    refine List.ext_getElem? fun i => ?_
    by_cases old : i < start - m.firstIndex
    · rw [List.getElem?_append_left (by omega), List.getElem?_take_of_lt old]
    · obtain ⟨j, rfl⟩ := Nat.exists_eq_add_of_le (not_lt.mp old)
      rw [List.getElem?_append_right (by omega), len, Nat.add_sub_cancel_left]
      cases found : es[j]? with
      | some e => rw [← at_place j e found, same e (List.mem_of_getElem? found)]
      | none =>
        rw [List.getElem?_eq_none_iff] at found
        exact (List.getElem?_eq_none (by omega)).symm

/-- Only an append can break the contract. -/
lemma Regular.kept_iff (h : m.Regular) {c : LogCall} (allowed : m.Allowed c) :
    m.Kept c ↔ m.AppendsBehind c := by
  cases c with
  | truncateTo lastIndex =>
    refine iff_of_true ⟨?_, h.truncateTo lastIndex, fun _ eq => by cases eq⟩ trivial
    intro d mem
    have mem : d ∈ if lastIndex < m.firstIndex then [] else [(lastIndex, m.firstIndex)] := mem
    split at mem
    · cases mem
    · rename_i le
      rw [List.mem_singleton.mp mem]
      exact not_lt.mp le
  | compact index term =>
    refine iff_of_true ⟨?_, h.compact index term, fun _ eq => by cases eq⟩ trivial
    intro d mem
    have mem : d ∈ if index ≤ m.snapshotIndex then []
        else if m.firstIndex ≤ index then [(index, m.firstIndex)] else [] := mem
    split at mem
    · cases mem
    split at mem
    · rename_i le
      rw [List.mem_singleton.mp mem]
      exact le
    · cases mem
  | append es =>
    cases es with
    | nil => exact iff_of_true ⟨nofun, h, fun _ eq _ => by cases eq; rfl⟩ ⟨nofun, fun _ => ⟨nofun, nofun⟩⟩
    | cons first es =>
      obtain ⟨-, reach, places⟩ := allowed first rfl
      have consecutive (j : ℕ) (e : LogEntry) (found : (first :: es)[j]? = some e) :
          e.index = first.index + j :=
        places (e, j) (List.mk_mem_zipIdx_iff_getElem?.mpr found)
      by_cases above : m.snapshotIndex < first.index
      · have ends := h.append_eq above reach consecutive (List.cons_ne_nil _ _)
        have same := h.splice_eq_iff above reach consecutive (List.cons_ne_nil _ _)
        constructor
        · intro kept
          refine ⟨fun e eq => Option.some.inj eq ▸ above, fun present => same.mp ?_⟩
          have unchanged := kept.unchanged _ rfl present
          rwa [ends] at unchanged
        · rintro ⟨-, behind⟩
          refine ⟨?_, ?_, ?_⟩
          · intro d mem
            obtain ⟨e, he, rfl⟩ := List.mem_map.mp mem
            obtain ⟨j, found⟩ := List.mem_iff_getElem?.mp he
            have place := consecutive j e found
            show m.snapshotIndex + 1 ≤ e.index
            omega
          · show (m.append _).Regular
            rw [ends]
            exact h.splice above reach consecutive
          · rintro entries ⟨⟩ present
            rw [ends]
            exact same.mpr (behind present)
      · refine iff_of_false (fun kept => above ?_) fun behind => above (behind.1 first rfl)
        exact kept.nonnegative (first.index, m.firstIndex) List.mem_cons_self

/-- In every run of allowed calls, no difference of indices is negative, every entry stays at its place and
entries that are present are not touched, exactly if every call appends above the snapshot and, if the entries
are all present, the last entries of the log. -/
theorem contract_kept_iff {calls : List LogCall} (allowed : Guarded call Allowed new calls) :
    Guarded call Kept new calls ↔ Guarded call AppendsBehind new calls := by
  refine allowed.iff_of (P := Regular) (fun regular allowed => regular.kept_iff allowed) ?_ Regular.new
  intro m c m' _ _ kept st
  cases st
  exact kept.regular

/-- Entries 1 to 3, a snapshot of the first one, the last two once more, another third entry and a cut. -/
def spliceCalls : List LogCall :=
  [.append [.newBarrier 1 1, .newNormal 2 1 [7], .newNormal 3 1 [8]], .compact 1 1,
    .append [.newNormal 2 1 [7], .newNormal 3 1 [8]], .append [.newNormal 3 2 [9], .newNormal 4 2 []],
    .truncateTo 3]

theorem contract_kept_splice :
    Guarded call Allowed new spliceCalls ∧ Guarded call AppendsBehind new spliceCalls ∧
      Guarded call Kept new spliceCalls := by
  have allowed : Guarded call Allowed new spliceCalls := by decide
  have behind : Guarded call AppendsBehind new spliceCalls := by decide
  exact ⟨allowed, behind, (contract_kept_iff allowed).mpr behind⟩

/-- The first two entries are sent again without the third. -/
def redelivered : List LogCall :=
  [.append [.newBarrier 1 1, .newNormal 2 1 [7], .newNormal 3 1 [8]],
    .append [.newBarrier 1 1, .newNormal 2 1 [7]]]

/-- The first entry is sent again after a snapshot of it. -/
def belowSnapshot : List LogCall :=
  [.append [.newBarrier 1 1, .newNormal 2 1 [7]], .compact 1 1, .append [.newBarrier 1 1]]

/-- The third entry is dropped though the others are present; and below the snapshot the difference of the
indices is negative, and the first entry ends up behind the second. -/
theorem contract_broken :
    (Guarded call Allowed new redelivered ∧ ¬ Guarded call Kept new redelivered ∧
        (run call new redelivered).map (fun m => m.entries.map LogEntry.index) = some [1, 2]) ∧
      Guarded call Allowed new belowSnapshot ∧ ¬ Guarded call Kept new belowSnapshot ∧
        (run call new belowSnapshot).map (fun m => m.entries.map LogEntry.index) = some [2, 1] := by
  refine ⟨⟨by decide, fun kept => ?_, by decide⟩, by decide, fun kept => ?_, by decide⟩
  · have unchanged := (kept.2 _ rfl).1.unchanged _ rfl (by decide)
    exact absurd unchanged (by decide)
  · have nonnegative := ((kept.2 _ rfl).2 _ rfl).1.nonnegative
    exact absurd (nonnegative (1, 2) (by decide)) (by decide)

end MemLog

end Ha
