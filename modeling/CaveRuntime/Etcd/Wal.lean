import CaveRuntime.Etcd.Store

/-!
# The write-ahead log of cave-etcd: format and operations

Model of `crates/compute/cave-etcd/src/wal.rs`, lines 57-471. The file is its list of bytes, and a `Wal`
handle has the position its next write goes to. A frame is a length, a CRC-32 and a JSON payload. CRC-32
and the JSON codec are the parameters of a `WalCodec`; an input or output error of the operating system
is not modelled, a crash is a file that is cut.
-/

namespace Etcd
open Utf8

def recordHeaderLen : ℕ := 8

def maxPayloadLen : ℕ := 8 * 1024 * 1024

inductive WalOp where
  | put (key value : Bytes) (lease : Option ℤ)
  | delete (key : Bytes) (rangeEnd : Option Bytes)
  | txn (ops : List WalOp)
  | compact (revision : ℤ)
  | leaseGrant (leaseId ttlSeconds : ℤ)
  | leaseRevoke (leaseId : ℤ)

structure EntryRecord where
  index : UInt64
  term : UInt64
  op : WalOp

inductive WalRecord where
  | metadata (clusterId nodeId : UInt64)
  | entry (e : EntryRecord)
  | state (commitIndex term : UInt64) (votedFor : Option UInt64)
  | snapshot (snapshotIndex snapshotTerm : UInt64)

/-- Rust `WalError`, without the errors of the operating system. -/
inductive WalError where
  | payloadTooLarge (len : UInt32)
  | corrupt (offset : ℕ) (expected got : UInt32)
  | encode
  | decode (offset : ℕ)
  deriving DecidableEq, Repr

/-- `serde_json` for records and `crc32fast::hash`. What was encoded decodes to itself. -/
structure WalCodec where
  toVec : WalRecord → Option Bytes
  fromSlice : Bytes → Option WalRecord
  hash : Bytes → UInt32
  roundTrip : ∀ {r payload}, toVec r = some payload → fromSlice payload = some r

def toLeBytes (x : UInt32) : Bytes :=
  [UInt8.ofNat x.toNat, UInt8.ofNat (x.toNat / 2 ^ 8), UInt8.ofNat (x.toNat / 2 ^ 16),
    UInt8.ofNat (x.toNat / 2 ^ 24)]

/-- Rust `u32::from_le_bytes`, of the first four bytes. -/
def fromLeBytes (b : Bytes) : UInt32 :=
  UInt32.ofNat ((b.getD 0 0).toNat + 2 ^ 8 * (b.getD 1 0).toNat + 2 ^ 16 * (b.getD 2 0).toNat +
    2 ^ 24 * (b.getD 3 0).toNat)

variable (codec : WalCodec)

/-- The bytes of a frame. -/
def frameOf (payload : Bytes) : Bytes :=
  toLeBytes (UInt32.ofNat payload.length) ++ toLeBytes (codec.hash payload) ++ payload

/-- Rust `write_record`: the bytes it writes. -/
def writeRecord (record : WalRecord) : Except WalError Bytes :=
  match codec.toVec record with
  | none => .error .encode
  | some payload =>
    if maxPayloadLen < payload.length then
      .error (.payloadTooLarge (UInt32.ofNat payload.length))
    else .ok (frameOf codec payload)

/-- One round of the read loops: the expected CRC, the payload and the bytes after it. `none` is the end
of the valid part: the header or the payload is cut short, or the length is over the limit. -/
def nextFrame (b : Bytes) : Option (UInt32 × Bytes × Bytes) :=
  if b.length < recordHeaderLen then none
  else
    let len := (fromLeBytes b).toNat
    let crcExpected := fromLeBytes (b.drop 4)
    let body := b.drop recordHeaderLen
    if maxPayloadLen < len then none
    else if body.length < len then none
    else some (crcExpected, body.take len, body.drop len)

/-- The loop of Rust `replay_file`. Every round consumes at least a header, so a file's length is fuel
enough. -/
def replayLoop (codec : WalCodec) : ℕ → Bytes → ℕ → Except WalError (List WalRecord)
  | 0, _, _ => .ok []
  | fuel + 1, b, offset =>
    match nextFrame b with
    | none => .ok []
    | some (crcExpected, payload, rest) =>
      if codec.hash payload ≠ crcExpected then
        .error (.corrupt offset crcExpected (codec.hash payload))
      else
        match codec.fromSlice payload with
        | none => .error (.decode offset)
        | some record => do
          let out ← replayLoop codec fuel rest (offset + (recordHeaderLen + payload.length))
          return record :: out

def replayFile (file : Bytes) : Except WalError (List WalRecord) :=
  replayLoop codec file.length file 0

/-- What `scan_for_valid_end` finds out. -/
structure Scan where
  lastEntryIndex : UInt64 := 0
  recordCount : ℕ := 0
  lastGoodEnd : ℕ := 0

/-- The step of the scan for a payload with the right CRC; a payload that does not decode counts. -/
def Scan.next (s : Scan) (payload : Bytes) : Scan where
  lastEntryIndex :=
    match codec.fromSlice payload with
    | some (.entry e) => if s.lastEntryIndex < e.index then e.index else s.lastEntryIndex
    | _ => s.lastEntryIndex
  recordCount := s.recordCount + 1
  lastGoodEnd := s.lastGoodEnd + (recordHeaderLen + payload.length)

/-- The loop of Rust `scan_for_valid_end`. -/
def scanLoop (codec : WalCodec) : ℕ → Bytes → Scan → Except WalError Scan
  | 0, _, s => .ok s
  | fuel + 1, b, s =>
    match nextFrame b with
    | none => .ok s
    | some (crcExpected, payload, rest) =>
      if codec.hash payload ≠ crcExpected then
        .error (.corrupt s.lastGoodEnd crcExpected (codec.hash payload))
      else scanLoop codec fuel rest (s.next codec payload)

def scanForValidEnd (file : Bytes) : Except WalError Scan :=
  scanLoop codec file.length file {}

/-- Rust `Wal`, with the contents of its file and the position of the file handle. -/
structure Wal where
  file : Bytes
  pos : ℕ
  lastEntryIndex : UInt64
  recordCount : ℕ

namespace Wal

/-- Rust `Wal::open` on a directory whose file has the given bytes (none if there is no file). -/
def openDir (codec : WalCodec) (file : Bytes) : Except WalError Wal := do
  let s ← scanForValidEnd codec file
  let file := if s.lastGoodEnd < file.length then file.take s.lastGoodEnd else file
  return { file := file, pos := file.length, lastEntryIndex := s.lastEntryIndex,
           recordCount := s.recordCount }

/-- `write_all` at the position of the handle. -/
def write (w : Wal) (b : Bytes) : Wal :=
  { w with file := w.file.take w.pos ++ b ++ w.file.drop (w.pos + b.length), pos := w.pos + b.length }

def append (codec : WalCodec) (w : Wal) (record : WalRecord) : Except WalError Wal := do
  let b ← writeRecord codec record
  return { w.write b with recordCount := w.recordCount + 1 }

/-- The record that `Wal::append_entry` writes. -/
def entryRecord (w : Wal) (term : UInt64) (op : WalOp) : WalRecord :=
  .entry { index := w.lastEntryIndex + 1, term := term, op := op }

def appendEntry (codec : WalCodec) (w : Wal) (term : UInt64) (op : WalOp) : Except WalError Wal := do
  let b ← writeRecord codec (w.entryRecord term op)
  return { w.write b with
    lastEntryIndex := w.lastEntryIndex + 1, recordCount := w.recordCount + 1 }

def replay (codec : WalCodec) (w : Wal) : Except WalError (List WalRecord) :=
  replayFile codec w.file

end Wal

/-- The records that `Wal::truncate_through` keeps. -/
def WalRecord.keptAfter (index : UInt64) : WalRecord → Bool
  | .entry e => index < e.index
  | _ => true

/-- `write_record` for one record after the other. -/
def writeRecords (codec : WalCodec) : List WalRecord → Except WalError Bytes
  | [] => .ok []
  | r :: rs => do
    let b ← writeRecord codec r
    let out ← writeRecords codec rs
    return b ++ out

/-- Rust `Wal::truncate_through`. The new file replaces the old one before it is scanned; a scan of
records that were just written does not fail. -/
def Wal.truncateThrough (w : Wal) (index : UInt64) : Except WalError Wal := do
  let records ← replayFile codec w.file
  let file ← writeRecords codec (records.filter (·.keptAfter index))
  let s ← scanForValidEnd codec file
  return { file := file, pos := file.length, lastEntryIndex := s.lastEntryIndex,
           recordCount := s.recordCount }

/-- What a replay takes from outside for its n-th call of the store: the order in which a deletion visits
the keys, and the time. -/
structure Surroundings where
  order : ℕ → Order Bytes
  now : ℕ → ℤ

/-- A store during a replay, with the number of calls so far. -/
structure Replaying where
  store : KvStore
  calls : ℕ := 0

/-- One more call. -/
def Replaying.call (r : Replaying) (op : Op) : Replaying := ⟨op.apply r.store, r.calls + 1⟩

mutual

def applyOp (env : Surroundings) (r : Replaying) : WalOp → Replaying
  | .put key value lease =>
    r.call (.put { key := .lossy key, value := .lossy value, lease := lease, prevKv := false })
  | .delete key rangeEnd =>
    r.call (.deleteRange { key := .lossy key, rangeEnd := rangeEnd.map .lossy, prevKv := false }
      (env.order r.calls))
  | .txn ops => applyOps env r ops
  | .compact revision => r.call (.compact (revision % 2 ^ 64).toNat)
  | .leaseGrant leaseId ttlSeconds =>
    r.call (.leaseGrant { ttl := ttlSeconds, id := some leaseId } (env.now r.calls))
  | .leaseRevoke leaseId => r.call (.leaseRevoke leaseId)

/-- The loop of `apply_op` over the operations of a transaction. -/
def applyOps (env : Surroundings) (r : Replaying) : List WalOp → Replaying
  | [] => r
  | op :: ops => applyOps env (applyOp env r op) ops

end

/-- The operation of an entry. -/
def WalRecord.op : WalRecord → Option WalOp
  | .entry e => some e.op
  | _ => none

def replayIntoStore (env : Surroundings) (w : Wal) (store : KvStore) : KvStore :=
  match w.replay codec with
  | .error _ => store
  | .ok records => (applyOps env ⟨store, 0⟩ (records.filterMap WalRecord.op)).store

/-- A call that appends. -/
inductive WalCall where
  | append (record : WalRecord)
  | appendEntry (term : UInt64) (op : WalOp)

/-- The record a call writes. -/
def WalCall.record (w : Wal) : WalCall → WalRecord
  | .append r => r
  | .appendEntry term op => w.entryRecord term op

/-- One call; a call that fails leaves the log as it was. -/
def WalCall.run (w : Wal) : WalCall → Except WalError Wal
  | .append r => w.append codec r
  | .appendEntry term op => w.appendEntry codec term op

/-- A sequence of calls: the records that were appended and the log after them. -/
def Wal.runCalls (codec : WalCodec) : Wal → List WalCall → List WalRecord × Wal
  | w, [] => ([], w)
  | w, c :: cs =>
    match c.run codec w with
    | .ok w' => (c.record w :: (runCalls codec w' cs).1, (runCalls codec w' cs).2)
    | .error _ => runCalls codec w cs

end Etcd
