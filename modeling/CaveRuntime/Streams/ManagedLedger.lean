import CaveRuntime.Common.Utf8
import Mathlib.Data.List.Induction
import Mathlib.Data.List.Sort

/-!
# Managed ledgers

Model of `cave-streams/src/pulsar_managed_ledger.rs`: a log in ledgers that are rolled over, and cursors that
acknowledge its entries one by one. `ack_individual` moves the mark to the next entry of the same ledger as
long as this is acknowledged. A fresh mark stands at `(0, 0)` and the first ledger has the id 1, so the mark
waits for an entry that no ledger has. Ids and sizes do not reach 2^64.
-/

namespace ManagedLedger
open Utf8

structure EntryId where
  ledger : ℕ
  entry : ℕ
deriving DecidableEq, Repr

def EntryId.lt (a b : EntryId) : Bool := a.ledger < b.ledger || (a.ledger = b.ledger && a.entry < b.entry)

/-- `next_after`. -/
def EntryId.next (e : EntryId) : EntryId := ⟨e.ledger, e.entry + 1⟩

structure LedgerSegment where
  id : ℕ
  entries : List Bytes := []
  sizeBytes : ℕ := 0
  closed : Bool := false
  createdAtMs : ℤ
deriving DecidableEq, Repr

/-- `LedgerSegment::append`. -/
def LedgerSegment.append (data : Bytes) (s : LedgerSegment) : LedgerSegment :=
  { s with entries := s.entries ++ [data], sizeBytes := s.sizeBytes + data.length }

/-- `ManagedLedger`; `last` is the last of its segments and `segments` are those before it. -/
structure Ledger where
  segments : List LedgerSegment
  last : LedgerSegment
  rollAfterEntries : ℕ
  rollAfterBytes : ℕ
  nextLedgerId : ℕ
  clockMs : ℤ
deriving DecidableEq, Repr

namespace Ledger

/-- `ManagedLedger::new`, with the two bounds set to any values. -/
def new (rollAfterEntries rollAfterBytes : ℕ) : Ledger where
  segments := []
  last := { id := 1, createdAtMs := 0 }
  rollAfterEntries := rollAfterEntries
  rollAfterBytes := rollAfterBytes
  nextLedgerId := 2
  clockMs := 0

def setClock (ms : ℤ) (l : Ledger) : Ledger := { l with clockMs := ms }

/-- `need_roll`. -/
def needRoll (l : Ledger) : Bool :=
  l.last.closed || l.rollAfterEntries ≤ l.last.entries.length || l.rollAfterBytes ≤ l.last.sizeBytes

/-- Close the last segment and open the next. -/
def roll (l : Ledger) : Ledger :=
  { l with
    segments := l.segments ++ [{ l.last with closed := true }]
    last := { id := l.nextLedgerId, createdAtMs := l.clockMs }
    nextLedgerId := l.nextLedgerId + 1 }

def append (data : Bytes) (l : Ledger) : EntryId × Ledger :=
  let l := if l.needRoll then l.roll else l
  (⟨l.last.id, l.last.entries.length⟩, { l with last := l.last.append data })

/-- Entries appended one after the other, each at a time of the clock: their ids and the ledger. -/
def appendAll : List (ℤ × Bytes) → Ledger → List EntryId × Ledger
  | [], l => ([], l)
  | (ms, data) :: rest, l =>
    let (id, l) := (l.setClock ms).append data
    let (ids, l) := l.appendAll rest
    (id :: ids, l)

end Ledger

structure Cursor where
  markDeletePosition : EntryId := ⟨0, 0⟩
  pendingAcks : List EntryId := []
deriving DecidableEq, Repr

namespace Cursor

/-- The loop of `ack_individual`. -/
def collapse (c : Cursor) : Cursor :=
  if _acked : c.markDeletePosition.next ∈ c.pendingAcks then
    collapse ⟨c.markDeletePosition.next, c.pendingAcks.erase c.markDeletePosition.next⟩
  else c
termination_by c.pendingAcks.length
decreasing_by
  have := List.length_pos_of_mem _acked
  rw [List.length_erase_of_mem _acked]
  omega

def ackIndividual (c : Cursor) (target : EntryId) : Cursor :=
  let pending := if target ∈ c.pendingAcks then c.pendingAcks else c.pendingAcks ++ [target]
  collapse { c with pendingAcks := pending.mergeSort fun a b => !b.lt a }

end Cursor

/-! ## Ids -/

lemma Ledger.append_pos {l : Ledger} (data : Bytes) (last : 0 < l.last.id) (next : 0 < l.nextLedgerId) :
    0 < (l.append data).1.ledger ∧ 0 < (l.append data).2.last.id ∧ 0 < (l.append data).2.nextLedgerId := by
  unfold append
  by_cases roll : l.needRoll = true
  · rw [if_pos roll]
    exact ⟨next, next, Nat.succ_pos _⟩
  · rw [if_neg roll]
    exact ⟨last, last, next⟩

lemma Ledger.appendAll_pos {l : Ledger} (items : List (ℤ × Bytes)) (last : 0 < l.last.id)
    (next : 0 < l.nextLedgerId) : ∀ id ∈ (l.appendAll items).1, 0 < id.ledger := by
  induction items generalizing l with
  | nil => exact fun id mem => absurd mem List.not_mem_nil
  | cons item items ih =>
    obtain ⟨here, last, next⟩ := Ledger.append_pos (l := l.setClock item.1) item.2 last next
    intro id mem
    rcases List.mem_cons.mp mem with rfl | mem
    · exact here
    · exact ih last next id mem

lemma Ledger.length_appendAll (items : List (ℤ × Bytes)) (l : Ledger) :
    (l.appendAll items).1.length = items.length := by
  induction items generalizing l with
  | nil => rfl
  | cons item items ih => exact congrArg (· + 1) (ih _)

/-! ## Acknowledgements -/

/-- The mark of a fresh cursor, with all that has been acknowledged pending. -/
structure Acked (acks : List EntryId) (c : Cursor) : Prop where
  mark : c.markDeletePosition = ⟨0, 0⟩
  pending : ∀ id, id ∈ c.pendingAcks ↔ id ∈ acks

lemma Acked.collapse {acks : List EntryId} {c : Cursor} (h : Acked acks c)
    (pos : ∀ id ∈ acks, 0 < id.ledger) : c.collapse = c := by
  rw [Cursor.collapse, dif_neg]
  intro acked
  rw [h.mark, h.pending] at acked
  exact absurd (pos _ acked) (Nat.lt_irrefl 0)

lemma Acked.ackIndividual {acks : List EntryId} {c : Cursor} {target : EntryId} (h : Acked acks c)
    (pos : ∀ id ∈ acks ++ [target], 0 < id.ledger) : Acked (acks ++ [target]) (c.ackIndividual target) := by
  have pushed : Acked (acks ++ [target]) { c with
      pendingAcks := (if target ∈ c.pendingAcks then c.pendingAcks else c.pendingAcks ++ [target]).mergeSort
        fun a b => !b.lt a } := by
    refine ⟨h.mark, fun id => ?_⟩
    rw [List.mem_mergeSort, List.mem_append, List.mem_singleton, ← h.pending]
    split
    next present => exact ⟨.inl, fun mem => mem.elim (fun mem => mem) fun e => e ▸ present⟩
    next => rw [List.mem_append, List.mem_singleton]
  rw [Cursor.ackIndividual, pushed.collapse pos]
  exact pushed

lemma acked_foldl {acks : List EntryId} (pos : ∀ id ∈ acks, 0 < id.ledger) :
    Acked acks (acks.foldl Cursor.ackIndividual {}) := by
  induction acks using List.reverseRecOn with
  | nil => exact ⟨rfl, fun _ => Iff.rfl⟩
  | append_singleton acks target ih =>
    rw [List.foldl_concat]
    exact (ih fun id mem => pos id (List.mem_append_left _ mem)).ackIndividual pos

/-- After these acknowledgements the mark is at the last entry, nothing is pending, and the mark has never
passed an entry that was not acknowledged. -/
structure Converges (ids acks : List EntryId) : Prop where
  mark : ∀ last ∈ ids.getLast?, (acks.foldl Cursor.ackIndividual {}).markDeletePosition = last
  pending : (acks.foldl Cursor.ackIndividual {}).pendingAcks = []
  passed : ∀ acked, acked <+: acks → ∀ id ∈ ids, id ∉ acked →
    id.lt (acked.foldl Cursor.ackIndividual {}).markDeletePosition = false ∧
      id ≠ (acked.foldl Cursor.ackIndividual {}).markDeletePosition

lemma EntryId.not_lt_zero {id : EntryId} (pos : 0 < id.ledger) : id.lt ⟨0, 0⟩ = false ∧ id ≠ ⟨0, 0⟩ := by
  refine ⟨?_, fun e => absurd pos (e ▸ Nat.lt_irrefl 0)⟩
  rw [EntryId.lt, Bool.or_eq_false_iff, Bool.and_eq_false_iff]
  exact ⟨decide_eq_false (Nat.not_lt_zero _), .inl (decide_eq_false pos.ne')⟩

/-- Acknowledging all entries moves the mark to the last one only if there are none. -/
theorem ackIndividual_converges_iff (rollAfterEntries rollAfterBytes : ℕ) (items : List (ℤ × Bytes))
    (acks : List EntryId)
    (all : ∀ id, id ∈ acks ↔ id ∈ ((Ledger.new rollAfterEntries rollAfterBytes).appendAll items).1) :
    Converges ((Ledger.new rollAfterEntries rollAfterBytes).appendAll items).1 acks ↔ items = [] := by
  set ids := ((Ledger.new rollAfterEntries rollAfterBytes).appendAll items).1 with ids_eq
  have length : ids.length = items.length := Ledger.length_appendAll items _
  have pos : ∀ id ∈ ids, 0 < id.ledger := Ledger.appendAll_pos items Nat.one_pos Nat.two_pos
  have fresh {acked : List EntryId} (part : acked <+: acks) :
      (acked.foldl Cursor.ackIndividual {}).markDeletePosition = ⟨0, 0⟩ :=
    (acked_foldl fun id mem => pos id ((all id).mp (part.subset mem))).mark
  constructor
  · intro h
    by_contra some
    have nonempty : ids ≠ [] := by
      intro e
      rw [e] at length
      exact some (List.eq_nil_of_length_eq_zero length.symm)
    have mark := h.mark _ (List.getLast?_eq_some_getLast nonempty)
    rw [fresh (List.prefix_refl acks)] at mark
    exact (EntryId.not_lt_zero (pos _ (List.getLast_mem nonempty))).2 mark.symm
  · intro none
    have empty : ids = [] := List.eq_nil_of_length_eq_zero (by rw [length, none, List.length_nil])
    have nothing : acks = [] := List.eq_nil_iff_forall_not_mem.mpr fun id mem => by
      have mem := (all id).mp mem
      rw [empty] at mem
      exact absurd mem List.not_mem_nil
    rw [empty, nothing]
    exact ⟨fun _ mem => (by cases mem), rfl, fun _ _ _ mem => absurd mem List.not_mem_nil⟩

/-- Three entries in two segments are acknowledged from the last to the first, one of them twice. -/
theorem ackIndividual_converges_out_of_order :
    let items := [(0, [7]), (0, [8]), (0, [9])]
    ((Ledger.new 2 8388608).appendAll items).1 = [⟨1, 0⟩, ⟨1, 1⟩, ⟨2, 0⟩] ∧
      ¬Converges ((Ledger.new 2 8388608).appendAll items).1 [⟨2, 0⟩, ⟨1, 1⟩, ⟨2, 0⟩, ⟨1, 0⟩] := by
  intro items
  have ids : ((Ledger.new 2 8388608).appendAll items).1 = [⟨1, 0⟩, ⟨1, 1⟩, ⟨2, 0⟩] := by decide
  refine ⟨ids, fun converges => ?_⟩
  have none := (ackIndividual_converges_iff 2 8388608 items _ fun id => ?_).mp converges
  · exact List.cons_ne_nil _ _ none
  · rw [ids]
    simp only [List.mem_cons, List.not_mem_nil, or_false]
    tauto

/-- One entry is appended and acknowledged. -/
theorem ackIndividual_one_pending :
    ((Ledger.new 1000 8388608).appendAll [(0, [7])]).1 = [⟨1, 0⟩] ∧
      ([⟨1, 0⟩].foldl Cursor.ackIndividual {}).markDeletePosition = ⟨0, 0⟩ ∧
      ¬Converges ((Ledger.new 1000 8388608).appendAll [(0, [7])]).1 [⟨1, 0⟩] := by
  have ids : ((Ledger.new 1000 8388608).appendAll [(0, [7])]).1 = [⟨1, 0⟩] := by decide
  have mark : ([⟨1, 0⟩].foldl Cursor.ackIndividual {}).markDeletePosition = ⟨0, 0⟩ :=
    (acked_foldl (by decide)).mark
  refine ⟨ids, mark, fun h => ?_⟩
  have moved := h.mark ⟨1, 0⟩ (by rw [ids]; rfl)
  rw [mark] at moved
  exact absurd moved (by decide)

end ManagedLedger
