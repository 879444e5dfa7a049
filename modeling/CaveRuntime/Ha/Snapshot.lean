import CaveRuntime.Ha.Types

/-!
# cave-ha: snapshots and their transfer

Model of `crates/compute/cave-ha/src/raft/snapshot.rs`: a snapshot is cut into chunks, and a
`SnapshotReceiver` puts chunks together.
-/

namespace Ha

structure Snapshot where
  info : SnapshotMeta
  data : Bytes
  deriving DecidableEq

structure SnapshotChunk where
  info : SnapshotMeta
  offset : ℕ
  data : Bytes
  done : Bool
  deriving DecidableEq

namespace Snapshot

/-- The loop of `chunks`; every round advances, so the number of bytes is fuel enough. -/
def chunkLoop (s : Snapshot) (chunkSize : ℕ) : ℕ → ℕ → List SnapshotChunk
  | 0, _ => []
  | fuel + 1, offset =>
    if offset < s.data.length then
      let stop := min (offset + chunkSize) s.data.length
      ⟨s.info, offset, (s.data.drop offset).take (stop - offset), stop = s.data.length⟩ ::
        chunkLoop s chunkSize fuel stop
    else []

def chunks (s : Snapshot) (chunkSize : ℕ) : List SnapshotChunk :=
  if s.data = [] then [⟨s.info, 0, [], true⟩] else s.chunkLoop chunkSize s.data.length 0

end Snapshot

structure SnapshotReceiver where
  info : Option SnapshotMeta
  buffer : Bytes
  nextOffset : ℕ
  deriving DecidableEq

namespace SnapshotReceiver

def new : SnapshotReceiver := ⟨none, [], 0⟩

/-- The receiver when a chunk arrives: a first chunk starts over. -/
def begin (r : SnapshotReceiver) (chunk : SnapshotChunk) : SnapshotReceiver :=
  if chunk.offset = 0 then ⟨some chunk.info, [], 0⟩
  else { r with info := some (r.info.getD chunk.info) }

/-- The rest of `feed`: a chunk out of order is dropped together with all bytes so far. -/
def store (r : SnapshotReceiver) (chunk : SnapshotChunk) : Option Snapshot × SnapshotReceiver :=
  if chunk.offset ≠ r.nextOffset then (none, { r with buffer := [], nextOffset := 0 })
  else if chunk.done then (some ⟨r.info.getD .default, r.buffer ++ chunk.data⟩, new)
  else (none, ⟨r.info, r.buffer ++ chunk.data, r.nextOffset + chunk.data.length⟩)

/-- Rust `feed`: the complete snapshot after the last chunk, and the receiver. -/
def feed (r : SnapshotReceiver) (chunk : SnapshotChunk) : Option Snapshot × SnapshotReceiver :=
  (r.begin chunk).store chunk

end SnapshotReceiver

end Ha
