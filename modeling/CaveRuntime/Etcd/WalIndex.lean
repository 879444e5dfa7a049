import CaveRuntime.Common.Run
import CaveRuntime.Etcd.WalRecovery

/-!
# The write-ahead log of cave-etcd: entry indices

`append_entry` numbers an entry after `last_entry_index`, which `Wal::open` and `truncate_through`
recompute from the records that are left. The indices it returns increase strictly over the life of a log
as long as a truncation leaves the entry with the last index and the index does not overflow. A
truncation through the last index forgets it, and the next entry gets an index that was used before.
-/

namespace Etcd
open Utf8

variable {codec : WalCodec}

/-- An event of the life of a log. -/
inductive WalEvent where
  | call (c : WalCall)
  | truncateThrough (index : UInt64)
  | reopen

/-- A log and the indices that `append_entry` has returned so far. -/
structure Lifetime where
  wal : Wal
  returned : List UInt64

/-- The index that a call returns if it succeeds. -/
def WalCall.returns (w : Wal) : WalCall → List UInt64
  | .append _ => []
  | .appendEntry _ _ => [w.lastEntryIndex + 1]

namespace Lifetime

/-- A log in a new directory. -/
def new : Lifetime := ⟨⟨[], 0, 0, 0⟩, []⟩

/-- An event; a call that fails leaves the log as it was. -/
def next (codec : WalCodec) (s : Lifetime) : WalEvent → Lifetime
  | .call c =>
    match c.run codec s.wal with
    | .ok w => ⟨w, s.returned ++ c.returns s.wal⟩
    | .error _ => s
  | .truncateThrough index =>
    match s.wal.truncateThrough codec index with
    | .ok w => ⟨w, s.returned⟩
    | .error _ => s
  | .reopen =>
    match Wal.openDir codec s.wal.file with
    | .ok w => ⟨w, s.returned⟩
    | .error _ => s

/-- An event, as a step of a run. -/
def step (codec : WalCodec) (s : Lifetime) (e : WalEvent) : Option Lifetime := some (s.next codec e)

/-- The entry with the last index is not truncated, and an index is not the last there is. -/
def Unused (s : Lifetime) : WalEvent → Prop
  | .call (.appendEntry _ _) => s.wal.lastEntryIndex < 0xFFFFFFFFFFFFFFFF
  | .truncateThrough index => index < s.wal.lastEntryIndex ∨ s.wal.lastEntryIndex = 0
  | _ => True

instance (s : Lifetime) : ∀ e, Decidable (s.Unused e)
  | .call (.append _) => inferInstanceAs (Decidable True)
  | .call (.appendEntry _ _) => inferInstanceAs (Decidable (_ < _))
  | .truncateThrough _ => inferInstanceAs (Decidable (_ ∨ _))
  | .reopen => inferInstanceAs (Decidable True)

end Lifetime

lemma indices_mono {rs rs' : List WalRecord} (sub : rs ⊆ rs') : indices rs ⊆ indices rs' := by
  rintro i ⟨e, he, eq⟩
  exact ⟨e, sub he, eq⟩

lemma mem_indices_kept {rs : List WalRecord} {index i : UInt64} (mem : i ∈ indices rs) (lt : index < i) :
    i ∈ indices (rs.filter (·.keptAfter index)) := by
  obtain ⟨e, he, rfl⟩ := mem
  exact ⟨e, List.mem_filter.mpr ⟨he, by simpa [WalRecord.keptAfter] using lt⟩, rfl⟩

lemma writeRecords_frames {rs : List WalRecord} (all : ∀ r ∈ rs, Writable codec r) :
    writeRecords codec rs = .ok (frames codec rs) := by
  induction rs with
  | nil => rfl
  | cons r rs ih =>
    obtain ⟨payload, hp⟩ := all r List.mem_cons_self
    have one : writeRecord codec r = .ok (frame codec r) := by
      rw [hp.frame_eq]
      simp only [writeRecord, hp.encoded, if_neg (Nat.not_lt.mpr hp.fits)]
    have rest := ih fun x hx => all x (List.mem_cons_of_mem _ hx)
    rw [frames_cons]
    simp only [writeRecords, one, rest]
    rfl

namespace Wal

variable {w : Wal} {rs : List WalRecord}

/-- A log that is opened again holds the same records, and knows their greatest index. -/
lemma Holds.reopen (h : Holds codec w rs) :
    ∃ w', openDir codec w.file = .ok w' ∧ Holds codec w' rs ∧
      IsGreatest (insert 0 (indices rs)) w'.lastEntryIndex := by
  obtain ⟨w', opened, holds, greatest⟩ := openDir_frames h.writable (rfl : nextFrame [] = none)
  rw [List.append_nil, ← h.file] at opened
  exact ⟨w', opened, holds, greatest⟩

/-- A truncated log holds the records that are kept, and knows their greatest index. -/
lemma Holds.truncateThrough (h : Holds codec w rs) (index : UInt64) :
    ∃ w', w.truncateThrough codec index = .ok w' ∧
      Holds codec w' (rs.filter (·.keptAfter index)) ∧
      IsGreatest (insert 0 (indices (rs.filter (·.keptAfter index)))) w'.lastEntryIndex := by
  have all : ∀ r ∈ rs.filter (·.keptAfter index), Writable codec r :=
    fun r hr => h.writable r (List.mem_of_mem_filter hr)
  obtain ⟨s, scan, -, greatest⟩ := scan_frames all (rfl : nextFrame [] = none)
  rw [List.append_nil] at scan
  have replay : replayFile codec w.file = .ok rs := h.replay
  refine ⟨⟨frames codec _, (frames codec _).length, s.lastEntryIndex, s.recordCount⟩, ?_,
    ⟨all, rfl, rfl⟩, greatest⟩
  simp only [Wal.truncateThrough, replay, bind, Except.bind, writeRecords_frames all, scan]
  rfl

end Wal

namespace Lifetime

/-- The log holds `rs`, knows the index of one of its entries and has returned increasing indices, none
of them greater. -/
structure Rising (codec : WalCodec) (s : Lifetime) (rs : List WalRecord) : Prop where
  holds : Wal.Holds codec s.wal rs
  last : s.wal.lastEntryIndex ∈ insert 0 (indices rs)
  bound : ∀ i ∈ s.returned, i ≤ s.wal.lastEntryIndex
  rising : s.returned.Pairwise (· < ·)

variable {s : Lifetime} {rs : List WalRecord}

lemma Rising.rescan (h : Rising codec s rs) {w : Wal} {rs' : List WalRecord}
    (holds : Wal.Holds codec w rs') (greatest : IsGreatest (insert 0 (indices rs')) w.lastEntryIndex)
    (left : s.wal.lastEntryIndex ∈ insert 0 (indices rs')) : Rising codec ⟨w, s.returned⟩ rs' where
  holds := holds
  last := greatest.1
  bound i hi := UInt64.le_trans (h.bound i hi) (greatest.2 left)
  rising := h.rising

lemma lt_succ {i : UInt64} (lt : i < 0xFFFFFFFFFFFFFFFF) : i < i + 1 := by
  rw [UInt64.lt_iff_toNat_lt] at lt ⊢
  rw [UInt64.toNat_add]
  have : (0xFFFFFFFFFFFFFFFF : UInt64).toNat = 2 ^ 64 - 1 := rfl
  have : (1 : UInt64).toNat = 1 := rfl
  omega

lemma Rising.appendEntry (h : Rising codec s rs) {term : UInt64} {op : WalOp} {w : Wal}
    (holds : Wal.Holds codec w (rs ++ [s.wal.entryRecord term op]))
    (last : w.lastEntryIndex = s.wal.lastEntryIndex + 1)
    (small : s.wal.lastEntryIndex < 0xFFFFFFFFFFFFFFFF) :
    Rising codec ⟨w, s.returned ++ [s.wal.lastEntryIndex + 1]⟩
      (rs ++ [s.wal.entryRecord term op]) where
  holds := holds
  last := by
    rw [last]
    exact Or.inr ⟨_, List.mem_append_right _ List.mem_cons_self, rfl⟩
  bound := by
    intro i hi
    rw [last]
    cases List.mem_append.mp hi with
    | inl old => exact UInt64.le_trans (h.bound i old) (UInt64.le_of_lt (lt_succ small))
    | inr new => exact List.mem_singleton.mp new ▸ UInt64.le_refl _
  rising := by
    refine List.pairwise_append.mpr ⟨h.rising, List.pairwise_singleton _ _, ?_⟩
    intro i hi j hj
    rw [List.mem_singleton.mp hj]
    exact UInt64.lt_of_le_of_lt (h.bound i hi) (lt_succ small)

lemma Rising.call (h : Rising codec s rs) {c : WalCall} (unused : s.Unused (.call c)) :
    ∃ rs', Rising codec (s.next codec (.call c)) rs' := by
  simp only [next]
  split
  · rename_i w st
    have holds := h.holds.run st
    cases c with
    | append r =>
      simp only [WalCall.run, Wal.append, bind, Except.bind] at st
      split at st
      · cases st
      · cases st
        refine ⟨_, holds, ?_, ?_, ?_⟩
        · exact Set.insert_subset_insert (indices_mono (List.subset_append_left _ _)) h.last
        · simpa [WalCall.returns, Wal.write] using h.bound
        · simpa [WalCall.returns] using h.rising
    | appendEntry term op =>
      simp only [WalCall.run, Wal.appendEntry, bind, Except.bind] at st
      split at st
      · cases st
      · cases st
        exact ⟨_, h.appendEntry holds rfl unused⟩
  · exact ⟨rs, h⟩

lemma Rising.next (h : Rising codec s rs) {e : WalEvent} (unused : s.Unused e) :
    ∃ rs', Rising codec (s.next codec e) rs' := by
  cases e with
  | call c => exact h.call unused
  | truncateThrough index =>
    obtain ⟨w, eq, holds, greatest⟩ := h.holds.truncateThrough index
    simp only [Lifetime.next, eq]
    refine ⟨_, h.rescan holds greatest ?_⟩
    cases unused with
    | inl lt =>
      cases h.last with
      | inl zero =>
        rw [zero] at lt
        exact absurd lt (UInt64.not_lt.mpr UInt64.zero_le)
      | inr mem => exact Or.inr (mem_indices_kept mem lt)
    | inr zero => exact Or.inl zero
  | reopen =>
    obtain ⟨w, eq, holds, greatest⟩ := h.holds.reopen
    simp only [Lifetime.next, eq]
    exact ⟨rs, h.rescan holds greatest h.last⟩

/-- In a life of a log in which every truncation leaves the entry with the last index, every index that
`append_entry` returns is greater than those before. -/
theorem entry_indices_increase (codec : WalCodec) (es : List WalEvent) (s : Lifetime)
    (gd : Run.Guarded (step codec) Unused new es) (hr : Run.run (step codec) new es = some s) :
    s.returned.Pairwise (· < ·) := by
  have init : ∃ rs, Rising codec new rs :=
    ⟨[], ⟨by simp, rfl, rfl⟩, Or.inl rfl, by simp [new], List.Pairwise.nil⟩
  have keep {s s' : Lifetime} {e : WalEvent} (h : ∃ rs, Rising codec s rs) (unused : s.Unused e)
      (st : step codec s e = some s') : ∃ rs, Rising codec s' rs := by
    obtain ⟨rs, h⟩ := h
    cases st
    exact h.next unused
  obtain ⟨rs, h⟩ := Run.invariant_of_guarded (P := fun s => ∃ rs, Rising codec s rs) keep gd hr init
  exact h.rising

/-- The event that puts "b" under "a" in term 1. -/
def putEvent : WalEvent := .call (.appendEntry 1 (.put [97] [98] none))

/-- Two entries, a truncation through the first, a restart, and another entry. -/
def truncateBelow : List WalEvent := [putEvent, putEvent, .truncateThrough 1, .reopen, putEvent]

theorem entry_indices_increase_truncate :
    ∃ s, Run.run (step putCodec) new truncateBelow = some s ∧ s.returned = [1, 2, 3] ∧
      s.returned.Pairwise (· < ·) := by
  obtain ⟨s, hr, returned⟩ := Run.exists_of_test (step putCodec) new truncateBelow
    (fun s => s.returned = [1, 2, 3]) (by decide +kernel)
  exact ⟨s, hr, of_decide_eq_true returned,
    entry_indices_increase putCodec truncateBelow s (by decide +kernel) hr⟩

/-- After a truncation through the last index the next entry gets it again. -/
theorem truncated_index_returned_again :
    ∃ s, Run.run (step putCodec) new [putEvent, .truncateThrough 1, putEvent] = some s ∧
      s.returned = [1, 1] := by
  obtain ⟨s, hr, returned⟩ := Run.exists_of_test (step putCodec) new
    [putEvent, .truncateThrough 1, putEvent] (fun s => s.returned = [1, 1]) (by decide +kernel)
  exact ⟨s, hr, of_decide_eq_true returned⟩

end Lifetime

end Etcd
