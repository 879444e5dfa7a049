import CaveRuntime.Cache.Types
import CaveRuntime.Common.Run

/-!
# Partial resynchronisation

Model of `MasterState` of `cave-cache/src/replication.rs`: the commands that are recorded, the backlog that keeps
the last of their bytes, and the answer to a `PSYNC`. The replicas that are registered play no part in it.
-/

namespace Cache.Psync
open MachineInt Run Text Utf8

structure MasterState where
  replId : Bytes
  masterReplOffset : ℕ := 0
  backlog : Bytes := []
  backlogCapacity : ℕ
  backlogFloorOffset : ℕ := 0

inductive PsyncDecision
  | partialResync (replId : Bytes) (fromOffset toOffset : ℕ) (bytes : Bytes)
  | fullResync (replId : Bytes) (masterOffset : ℕ)

inductive ReplicationError
  | replIdMismatch (have_ asked : Bytes)

namespace MasterState

def recordByte (checks : Bool) (s : MasterState) (b : UInt8) : Option MasterState :=
  if s.backlog.length = s.backlogCapacity then
    (addU64 checks s.backlogFloorOffset 1).map fun floor =>
      { s with backlog := s.backlog.tail ++ [b], backlogFloorOffset := floor }
  else some { s with backlog := s.backlog ++ [b] }

/-- The new offset, which it returns, is that of the new state. -/
def recordCommandBytes (checks : Bool) (s : MasterState) (bytes : Bytes) : Option MasterState :=
  (bytes.foldlM (recordByte checks) s).bind fun s =>
    (addU64 checks s.masterReplOffset bytes.length).map fun offset => { s with masterReplOffset := offset }

def handlePsync (s : MasterState) (requestedReplId : Bytes) (requestedOffset : ℕ) :
    Except ReplicationError PsyncDecision :=
  if requestedReplId ≠ s.replId ∧ requestedReplId ≠ word "?" then
    .error (.replIdMismatch s.replId requestedReplId)
  else if requestedReplId = word "?" ∨ requestedOffset < s.backlogFloorOffset then
    .ok (.fullResync s.replId s.masterReplOffset)
  else
    .ok (.partialResync s.replId requestedOffset s.masterReplOffset
      (s.backlog.drop (requestedOffset - s.backlogFloorOffset)))

/-- The backlog is the end of what has been recorded. -/
structure Holds (s : MasterState) (stream : Bytes) : Prop where
  floor : s.backlogFloorOffset ≤ stream.length
  backlog : s.backlog = stream.drop s.backlogFloorOffset
  capacity : 1 ≤ s.backlogCapacity

section
variable (checks : Bool) {s : MasterState} {stream : Bytes}

lemma Holds.recordByte (holds : s.Holds stream) (b : UInt8) (fits : stream.length + 1 < 2 ^ 64) :
    ∃ s', s.recordByte checks b = some s' ∧ s'.Holds (stream ++ [b]) ∧ s'.replId = s.replId ∧
      s'.masterReplOffset = s.masterReplOffset := by
  have floor := holds.floor
  have capacity := holds.capacity
  unfold MasterState.recordByte
  by_cases full : s.backlog.length = s.backlogCapacity
  · have length := congrArg List.length holds.backlog
    rw [List.length_drop] at length
    rw [if_pos full, addU64, if_pos (by omega)]
    refine ⟨_, rfl, ⟨?_, ?_, capacity⟩, rfl, rfl⟩
    · rw [List.length_append, List.length_singleton]
      dsimp only
      omega
    · dsimp only
      rw [List.drop_append_of_le_length (by omega), holds.backlog, List.tail_drop]
  · rw [if_neg full]
    refine ⟨_, rfl, ⟨?_, ?_, capacity⟩, rfl, rfl⟩
    · rw [List.length_append]
      dsimp only
      omega
    · dsimp only
      rw [List.drop_append_of_le_length floor, holds.backlog]

lemma Holds.foldlM (holds : s.Holds stream) (bytes : Bytes) (fits : stream.length + bytes.length < 2 ^ 64) :
    ∃ s', bytes.foldlM (MasterState.recordByte checks) s = some s' ∧ s'.Holds (stream ++ bytes) ∧
      s'.replId = s.replId ∧ s'.masterReplOffset = s.masterReplOffset := by
  induction bytes generalizing s stream with
  | nil => exact ⟨s, rfl, (List.append_nil stream).symm ▸ holds, rfl, rfl⟩
  | cons b bytes ih =>
    rw [List.length_cons] at fits
    obtain ⟨s₁, recorded, holds, id, offset⟩ := holds.recordByte checks b (by omega)
    rw [List.foldlM_cons, recorded]
    obtain ⟨s₂, rest, holds, id', offset'⟩ := ih holds (by
      rw [List.length_append, List.length_singleton]
      omega)
    rw [List.append_assoc, List.singleton_append] at holds
    exact ⟨s₂, rest, holds, id'.trans id, offset'.trans offset⟩

lemma Holds.recordCommandBytes (holds : s.Holds stream) (offset : s.masterReplOffset = stream.length)
    (bytes : Bytes) (fits : stream.length + bytes.length < 2 ^ 64) :
    ∃ s', s.recordCommandBytes checks bytes = some s' ∧ s'.Holds (stream ++ bytes) ∧
      s'.replId = s.replId ∧ s'.masterReplOffset = (stream ++ bytes).length := by
  obtain ⟨s', recorded, holds, id, same⟩ := holds.foldlM checks bytes fits
  unfold MasterState.recordCommandBytes
  rw [recorded, Option.bind_some, same, offset, addU64, if_pos fits]
  exact ⟨_, rfl, ⟨holds.floor, holds.backlog, holds.capacity⟩, id, (List.length_append ..).symm⟩

lemma Holds.run (holds : s.Holds stream) (offset : s.masterReplOffset = stream.length) (calls : List Bytes)
    (fits : stream.length + calls.flatten.length < 2 ^ 64) :
    ∃ s', Run.run (MasterState.recordCommandBytes checks) s calls = some s' ∧
      s'.Holds (stream ++ calls.flatten) ∧ s'.replId = s.replId ∧
      s'.masterReplOffset = (stream ++ calls.flatten).length := by
  induction calls generalizing s stream with
  | nil => exact ⟨s, rfl, (List.append_nil stream).symm ▸ holds, rfl, (List.append_nil stream).symm ▸ offset⟩
  | cons bytes calls ih =>
    rw [List.flatten_cons, List.length_append] at fits
    obtain ⟨s₁, recorded, holds, id, offset⟩ :=
      holds.recordCommandBytes checks offset bytes (by omega)
    obtain ⟨s₂, rest, holds, id', offset'⟩ := ih holds offset (by
      rw [List.length_append]
      omega)
    rw [List.append_assoc, ← List.flatten_cons] at holds offset'
    exact ⟨s₂, run_cons.mpr ⟨s₁, recorded, rest⟩, holds, id'.trans id, offset'⟩

end

/-- A partial resynchronisation hands over what was recorded from the requested offset on, and the offset is one
the master has reached. -/
def HandsOver (s : MasterState) (stream : Bytes) (requestedReplId : Bytes) (requestedOffset : ℕ) : Prop :=
  match s.handlePsync requestedReplId requestedOffset with
  | .ok (.partialResync _ fromOffset toOffset bytes) =>
    fromOffset = requestedOffset ∧ toOffset = s.masterReplOffset ∧ requestedOffset ≤ s.masterReplOffset ∧
      bytes = (stream.take s.masterReplOffset).drop requestedOffset
  | _ => True

lemma Holds.handsOver_iff {s : MasterState} {stream : Bytes} (holds : s.Holds stream)
    (offset : s.masterReplOffset = stream.length) (id : Bytes) (requested : ℕ) :
    s.HandsOver stream id requested ↔
      (id = s.replId → id ≠ word "?" → requested ≤ s.masterReplOffset) := by
  have floor := holds.floor
  unfold HandsOver handlePsync
  by_cases other : id ≠ s.replId ∧ id ≠ word "?"
  · rw [if_pos other]
    exact iff_of_true trivial fun same => absurd same other.1
  rw [if_neg other]
  by_cases whole : id = word "?" ∨ requested < s.backlogFloorOffset
  · rw [if_pos whole]
    refine iff_of_true trivial fun _ known => ?_
    have := whole.resolve_left known
    omega
  rw [if_neg whole]
  obtain ⟨known, within⟩ := not_or.mp whole
  have same : id = s.replId := not_not.mp fun ne => other ⟨ne, known⟩
  dsimp only
  constructor
  · exact fun hands _ _ => hands.2.2.1
  · intro reached
    refine ⟨rfl, rfl, reached same known, ?_⟩
    rw [holds.backlog, List.drop_drop, offset, List.take_length]
    congr 1
    omega

end MasterState
open MasterState

/-- **Partial resynchronisation**: the bytes that are handed over are the missing ones exactly for the requests
that name no offset beyond the master's. -/
theorem handlePsync_handsOver_iff (checks : Bool) (replId : Bytes) (capacity : ℕ) (some : 1 ≤ capacity)
    (calls : List Bytes) (fits : calls.flatten.length < 2 ^ 64) :
    ∃ s, run (recordCommandBytes checks) { replId := replId, backlogCapacity := capacity } calls = .some s ∧
      ∀ id requested, s.HandsOver calls.flatten id requested ↔
        (id = replId → id ≠ word "?" → requested ≤ s.masterReplOffset) := by
  have holds : Holds { replId := replId, backlogCapacity := capacity } [] := ⟨Nat.le_refl 0, rfl, some⟩
  obtain ⟨s, ran, holds, same, offset⟩ := holds.run checks rfl calls (by simpa using fits)
  refine ⟨s, ran, fun id requested => ?_⟩
  have iff := holds.handsOver_iff offset id requested
  rw [same] at iff
  exact iff

theorem handlePsync_handsOver_two :
    ∃ s, run (recordCommandBytes true) { replId := [97], backlogCapacity := 1 } [[1], [2]] = some s ∧
      s.HandsOver [1, 2] [97] 1 := by
  obtain ⟨s, ran, iff⟩ := handlePsync_handsOver_iff true [97] 1 (by decide) [[1], [2]] (by decide)
  refine ⟨s, ran, (iff [97] 1).mpr fun _ _ => ?_⟩
  cases ran
  decide

/-- After two bytes a replica that asks from offset 5 on is told to go on with nothing missing. -/
theorem handlePsync_beyond :
    ∃ s, run (recordCommandBytes true) { replId := [97], backlogCapacity := 4 } [[1, 2]] = some s ∧
      ¬s.HandsOver [1, 2] [97] 5 := by
  refine ⟨_, rfl, fun hands => ?_⟩
  exact absurd hands.2.2.1 (by decide)

end Cache.Psync
