import CaveRuntime.Common.Positions
import CaveRuntime.Ha.Types

/-!
# cave-ha: the in-memory log

Model of `MemLog` in `crates/compute/cave-ha/src/raft/log.rs`. A `MemLog` forgets the entries that a
snapshot covers. The error of `entry` carries nothing that a caller reads.
-/

namespace Ha
open Positions

structure MemLog where
  entries : List LogEntry
  snapshotIndex : ℕ
  snapshotTerm : ℕ
  deriving DecidableEq, Repr

namespace MemLog

def new : MemLog := ⟨[], 0, 0⟩

def lastIndex (m : MemLog) : ℕ :=
  match m.entries.getLast? with
  | none => m.snapshotIndex
  | some e => e.index

def firstIndex (m : MemLog) : ℕ := m.snapshotIndex + 1

def entry (m : MemLog) (index : ℕ) : Option LogEntry :=
  if index ≤ m.snapshotIndex then none else m.entries[index - m.firstIndex]?

/-- One round of the loop of `append`: whatever the log has from the entry's position on goes, whether
it differs from the entry or not. An entry below the snapshot wraps around and ends up at the end. -/
def push (m : MemLog) (e : LogEntry) : MemLog :=
  let offset := wrappingSub e.index m.firstIndex
  let kept := if offset < m.entries.length then m.entries.take offset else m.entries
  { m with entries := kept ++ [e] }

def append (m : MemLog) (entries : List LogEntry) : MemLog := entries.foldl push m

@[simp] lemma push_lastIndex (m : MemLog) (e : LogEntry) : (m.push e).lastIndex = e.index := by
  simp [lastIndex, push]

def truncateTo (m : MemLog) (lastIndex : ℕ) : MemLog :=
  if lastIndex < m.firstIndex then { m with entries := [] }
  else { m with entries := m.entries.take (lastIndex - m.firstIndex + 1) }

def compact (m : MemLog) (index : ℕ) (term : ℕ) : MemLog :=
  if index ≤ m.snapshotIndex then m
  else
    let trim := if m.firstIndex ≤ index then index - m.firstIndex + 1 else 0
    { entries := if trim ≤ m.entries.length then m.entries.drop trim else []
      snapshotIndex := index
      snapshotTerm := term }

end MemLog

end Ha
