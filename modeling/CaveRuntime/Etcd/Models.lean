import CaveRuntime.Common.Table
import CaveRuntime.Common.Utf8

/-!
# The etcd-compatible store: data models

Model of `crates/compute/cave-etcd/src/models.rs` and `error.rs` as far as `store.rs` lines 185-1092,
1182-1378 and 1442-1761 use them. Revisions, versions and lease times are unbounded numbers, and a time is in
nanoseconds. The names of users and roles, tokens and passwords are only compared, and are strings.
-/

namespace Etcd
open Utf8

structure KeyValue where
  key : Bytes
  value : Bytes
  createRevision : ℕ
  modRevision : ℕ
  version : ℕ
  lease : Option ℤ
  deriving DecidableEq

def KeyValue.valueStr (kv : KeyValue) : Bytes := fromUtf8Lossy kv.value

def makeDeleteKv (kv : KeyValue) (rev : ℕ) : KeyValue where
  key := kv.key
  value := []
  createRevision := kv.createRevision
  modRevision := rev
  version := 0
  lease := none

structure ResponseHeader where
  clusterId : ℕ := 1
  memberId : ℕ := 1
  revision : ℕ
  raftTerm : ℕ := 1
  deriving DecidableEq

structure RangeRequest where
  key : Str
  rangeEnd : Option Str := none
  limit : Option ℕ := none
  revision : Option ℕ := none
  keysOnly : Bool := false
  countOnly : Bool := false

structure RangeResponse where
  header : ResponseHeader
  kvs : List KeyValue
  count : ℕ
  more : Bool
  deriving DecidableEq

structure PutRequest where
  key : Str
  value : Str
  lease : Option ℤ := none
  prevKv : Bool := false

structure PutResponse where
  header : ResponseHeader
  prevKv : Option KeyValue

structure DeleteRangeRequest where
  key : Str
  rangeEnd : Option Str := none
  prevKv : Bool := false

structure DeleteRangeResponse where
  header : ResponseHeader
  deleted : ℕ
  prevKvs : List KeyValue

inductive CompareTarget where
  | version | create | mod | value
  deriving DecidableEq

inductive CompareResult where
  | equal | greater | less | notEqual
  deriving DecidableEq

structure Compare where
  key : Str
  target : CompareTarget
  result : CompareResult
  value : Option Str := none
  version : Option ℕ := none
  modRevision : Option ℕ := none

inductive RequestOp where
  | range (req : RangeRequest)
  | put (req : PutRequest)
  | deleteRange (req : DeleteRangeRequest)

structure TxnRequest where
  compare : List Compare := []
  success : List RequestOp := []
  failure : List RequestOp := []

structure TxnResponse where
  header : ResponseHeader
  succeeded : Bool

structure LeaseGrantRequest where
  ttl : ℤ
  id : Option ℤ := none

structure LeaseGrantResponse where
  header : ResponseHeader
  id : ℤ
  ttl : ℤ

structure Lease where
  id : ℤ
  ttl : ℤ
  grantedAt : ℤ
  keys : List Str
  deriving DecidableEq

inductive EventType where
  | put | delete
  deriving DecidableEq

structure WatchEvent where
  eventType : EventType
  kv : KeyValue
  prevKv : Option KeyValue
  deriving DecidableEq

structure WatchConfig where
  watchId : ℤ
  key : Bytes
  rangeEnd : Option Bytes
  startRevision : Option ℕ
  prevKv : Bool

structure WatchCreateRequest where
  key : Str
  rangeEnd : Option Str := none
  startRevision : Option ℕ := none
  prevKv : Bool := false

structure WatchResponse where
  header : ResponseHeader
  watchId : ℤ
  created : Bool
  events : List WatchEvent

structure Member where
  id : ℕ
  name : String
  peerUrls : List String
  clientUrls : List String
  isLearner : Bool
  deriving DecidableEq

structure MemberAddRequest where
  peerUrls : List String := []
  isLearner : Bool := false
  deriving DecidableEq

structure JointConfig where
  outgoing : List ℕ
  incoming : List ℕ
  learners : List ℕ
  deriving DecidableEq

structure EnterJointRequest where
  adds : List MemberAddRequest := []
  removes : List ℕ := []
  deriving DecidableEq

structure DefragmentStatus where
  bytesBefore : ℕ
  bytesAfter : ℕ
  bytesFreed : ℕ
  fragmentedPages : ℕ
  deriving DecidableEq

inductive PermType where
  | read | write | readwrite
  deriving DecidableEq

/-- The `Debug` text of a `PermType`. -/
def PermType.debug : PermType → String
  | .read => "Read"
  | .write => "Write"
  | .readwrite => "Readwrite"

structure Permission where
  permType : PermType
  key : Str
  rangeEnd : Option Str
  deriving DecidableEq

structure AuthUser where
  name : String
  password : String
  roles : List String
  deriving DecidableEq

structure AuthRole where
  name : String
  keyPermission : List Permission
  deriving DecidableEq

/-- Rust `EtcdError`, the errors of the modelled operations. -/
inductive EtcdError where
  | revisionCompacted (requested compacted : ℕ)
  | leaseNotFound (id : ℤ)
  | watchNotFound (id : ℤ)
  | invalidLeaseTtl (ttl : ℤ)
  | leaseAlreadyExists (id : ℤ)
  | compactionFutureRevision (requested current : ℕ)
  | snapshotChecksumMismatch (expected actual : String)
  | snapshotDecode (message : String)
  | internal (message : String)
  | authNotEnabled
  | authAlreadyEnabled
  | userAlreadyExists (name : String)
  | userNotFound (name : String)
  | roleAlreadyExists (name : String)
  | roleNotFound (name : String)
  | invalidPassword
  | permissionDenied
  | invalidToken
  | permissionAlreadyGranted
  | roleNotGranted
  | memberNotFound (id : ℕ)
  | memberNotLearner (id : ℕ)
  | jointConfigInProgress
  | noJointConfig
  | wouldBreakQuorum
  deriving DecidableEq

/-- The `Display` text of an error. -/
def EtcdError.display : EtcdError → String
  | .revisionCompacted requested compacted =>
    "revision compacted: requested " ++ toString requested ++ ", compacted at " ++ toString compacted
  | .leaseNotFound id => "lease not found: " ++ toString id
  | .watchNotFound id => "watch not found: " ++ toString id
  | .invalidLeaseTtl ttl => "invalid lease ttl: " ++ toString ttl
  | .leaseAlreadyExists id => "lease already exists: " ++ toString id
  | .compactionFutureRevision requested current =>
    "compaction revision " ++ toString requested ++ " exceeds current revision " ++ toString current
  | .snapshotChecksumMismatch expected actual =>
    "snapshot checksum mismatch: expected " ++ expected ++ ", got " ++ actual
  | .snapshotDecode message => "snapshot decode error: " ++ message
  | .internal message => "internal error: " ++ message
  | .authNotEnabled => "auth not enabled"
  | .authAlreadyEnabled => "auth already enabled"
  | .userAlreadyExists name => "user already exists: " ++ name
  | .userNotFound name => "user not found: " ++ name
  | .roleAlreadyExists name => "role already exists: " ++ name
  | .roleNotFound name => "role not found: " ++ name
  | .invalidPassword => "invalid password"
  | .permissionDenied => "permission denied"
  | .invalidToken => "invalid token"
  | .permissionAlreadyGranted => "permission already granted"
  | .roleNotGranted => "role not granted to user"
  | .memberNotFound id => "member not found: " ++ toString id
  | .memberNotLearner id => "member is not a learner: " ++ toString id
  | .jointConfigInProgress => "joint consensus already in progress"
  | .noJointConfig => "no joint consensus in progress"
  | .wouldBreakQuorum => "would break voting quorum"

/-- What `restore_snapshot` reads of a snapshot document; `none` is a field that is missing or does not
decode. -/
structure SnapshotDoc where
  revision : Option ℕ
  compactRevision : Option ℕ
  kvs : Option (List KeyValue)
  leases : Option (List Lease)
  members : Option (List Member)

/-- SHA-256 and the JSON decoder of snapshot blobs. -/
structure SnapshotCodec where
  sha256Hex : Bytes → String
  fromSlice : Bytes → Except String SnapshotDoc

/-- A codec that reads no snapshot. -/
def noSnapshots : SnapshotCodec := ⟨fun _ => "", fun _ => .error ""⟩

/-- The string "a". -/
def keyA : Str := ⟨[0x61], by decide⟩

/-- The string "b". -/
def keyB : Str := ⟨[0x62], by decide⟩

/-- The string "z". -/
def keyZ : Str := ⟨[0x7A], by decide⟩

end Etcd
