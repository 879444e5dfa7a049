import CaveRuntime.Common.MachineInt
import CaveRuntime.Common.Table
import CaveRuntime.Common.Text
import Mathlib.Order.Defs.LinearOrder

/-!
# Values and databases of the cache

Model of `cave-cache/src/types.rs`, `resp.rs`, `error.rs` and of `Db` in `db.rs`. A command gets its
arguments as byte strings and a database; if it fails, what it has changed before stays changed. A `panic`
(an index out of bounds, an overflow where overflows are checked) ends the task of the connection.
-/

namespace Cache
open MachineInt Text Utf8

def bytesToI64 (b : Bytes) : Option ℤ := if fromUtf8Lossy b = b then parseI64 (trim b) else none

/-! ## Answers -/

/-- `Resp`; a double is given by its bits. -/
inductive Resp where
  | simpleString (s : Bytes)
  | error (message : String)
  | integer (n : ℤ)
  | bulkString (s : Option Bytes)
  | array (items : Option (List Resp))
  | null
  | double (bits : UInt64)
  | boolean (b : Bool)
  | bigNumber (s : Bytes)
  | blobError (code message : Bytes)
  | verbatimString (encoding data : Bytes)
  | map (items : List (Resp × Resp))
  | set (items : List Resp)
  | push (items : List Resp)

namespace Resp

def ok : Resp := .simpleString (word "OK")

def nil : Resp := .bulkString none

def nilArray : Resp := .array none

def bulk (b : Bytes) : Resp := .bulkString (some b)

end Resp

/-- The errors of `CacheError` the modelled commands return. -/
inductive CacheError where
  | wrongType
  | notInteger
  | notFloat
  | generic (message : String)
  | wrongArity (command : String)
  | syntaxError
  | bitOffset
  | invalidExpire (command : String)
  | invalidDb
  | noGroup
  | streamIdTooSmall
  | empty
  | unknownSubcommand (arg : Bytes)
  | outOfRange
  | bitValue
deriving DecidableEq, Repr

/-- How a command ends that does not answer `Ok`. -/
inductive Failure where
  | error (e : CacheError)
  | panic
deriving DecidableEq, Repr

/-! ## Streams -/

/-- `StreamId`, ordered by its fields. -/
structure StreamId where
  ms : ℕ
  seq : ℕ
deriving DecidableEq, Repr

namespace StreamId

instance : LinearOrder StreamId where
  le a b := a.ms < b.ms ∨ a.ms = b.ms ∧ a.seq ≤ b.seq
  lt a b := a.ms < b.ms ∨ a.ms = b.ms ∧ a.seq < b.seq
  le_refl a := .inr ⟨rfl, Nat.le_refl a.seq⟩
  le_trans a b c ab bc := by omega
  lt_iff_le_not_ge a b := by omega
  le_antisymm a b ab ba := by
    obtain ⟨ms, seq⟩ : a.ms = b.ms ∧ a.seq = b.seq := by omega
    cases a
    cases b
    exact StreamId.mk.injEq .. ▸ ⟨ms, seq⟩
  le_total a b := by omega
  toDecidableLE a b := inferInstanceAs (Decidable (a.ms < b.ms ∨ a.ms = b.ms ∧ a.seq ≤ b.seq))
  toDecidableLT a b := inferInstanceAs (Decidable (a.ms < b.ms ∨ a.ms = b.ms ∧ a.seq < b.seq))
  toDecidableEq := inferInstance

def zero : StreamId := ⟨0, 0⟩

/-- `StreamId::to_string`, as bytes. -/
def toBytes (id : StreamId) : Bytes := word s!"{id.ms}-{id.seq}"

end StreamId

structure StreamEntry where
  id : StreamId
  fields : List (Bytes × Bytes)
deriving DecidableEq, Repr

structure Consumer where
  name : Bytes
  seenTime : ℕ
  activeTime : ℕ
  pel : List StreamId := []
deriving DecidableEq, Repr

structure PendingEntry where
  id : StreamId
  consumer : Bytes
  deliveryTime : ℕ
  deliveryCount : ℕ
deriving DecidableEq, Repr

structure ConsumerGroup where
  name : Bytes
  lastDeliveredId : StreamId
  consumers : Table Bytes Consumer := ∅
  pel : Table StreamId PendingEntry := ∅

structure Stream where
  entries : List StreamEntry := []
  groups : Table Bytes ConsumerGroup := ∅
  lastId : StreamId := .zero

/-! ## Databases -/

/-- `Value`; the score of a member of a sorted set is given by its bits. -/
inductive Value where
  | string (s : Bytes)
  | list (l : List Bytes)
  | set (members : List Bytes)
  | zset (members : List (Bytes × UInt64))
  | hash (fields : List (Bytes × Bytes))
  | stream (s : Stream)

/-- The types of values. -/
inductive Kind where
  | string | list | set | zset | hash | stream
deriving DecidableEq, Repr

def Value.typeName : Value → Kind
  | .string _ => .string
  | .list _ => .list
  | .set _ => .set
  | .zset _ => .zset
  | .hash _ => .hash
  | .stream _ => .stream

/-- `Entry`; instants are counted in nanoseconds. -/
structure Entry where
  value : Value
  expiresAt : Option ℕ := none
  lruClock : ℕ
  lfuFreq : UInt8 := 0
  version : ℕ := 1

namespace Entry

/-- `Entry::new` at a reading of the system clock. -/
def new (system : ℕ) (value : Value) : Entry where
  value := value
  lruClock := system / 10 ^ 9 % 2 ^ 64

/-- `is_expired` at an instant. -/
def isExpired (now : ℕ) (e : Entry) : Bool := e.expiresAt.any (· ≤ now)

end Entry

/-- What the clocks show during a command: its readings of `Instant::now` and of `SystemTime::now` since
the epoch, one after the other, in nanoseconds. -/
structure Clock where
  instant : ℕ → ℕ
  system : ℕ → ℕ

/-- `now_ms` at the `n`-th reading. -/
def Clock.ms (clock : Clock) (n : ℕ) : ℕ := clock.system n / 10 ^ 6 % 2 ^ 64

/-- `Db`: the keys and their entries. -/
abbrev Db := Table Bytes Entry

/-- How a command ends, and the database it leaves. -/
abbrev Outcome := Except Failure Resp × Db

namespace Db

/-- The database once an expired key has been removed. -/
def live (now : ℕ) (key : Bytes) (db : Db) : Db :=
  if (db.lookup key).any (Entry.isExpired now) then db.erase key else db

def get (now : ℕ) (key : Bytes) (db : Db) : Option Entry × Db :=
  ((db.live now key).lookup key, db.live now key)

/-- `get_typed` and `get_typed_mut`. -/
def getTyped (now : ℕ) (key : Bytes) (expected : Kind) (db : Db) : Except Failure (Option Entry) × Db :=
  match db.get now key with
  | (some e, db) => (if e.value.typeName = expected then .ok (some e) else .error (.error .wrongType), db)
  | (none, db) => (.ok none, db)

/-- `insert`. -/
def put (key : Bytes) (entry : Entry) (db : Db) : Db :=
  db.insert key { entry with version := ((db.lookup key).elim 0 Entry.version) + 1 }

/-- A value changed in place, through the reference `get_typed_mut` returns. -/
def write (key : Bytes) (value : Value) (db : Db) : Db := Table.modify key (fun e => { e with value := value }) db

def remove (key : Bytes) (db : Db) : Bool × Db := ((db.lookup key).isSome, db.erase key)

end Db

end Cache
