import Mathlib.Algebra.Ring.Nat
import CaveRuntime.Etcd.Models

/-!
# The etcd-compatible store: operations

Model of `crates/compute/cave-etcd/src/store.rs`: the store itself, its writes, reads, transactions,
watches, leases, compaction and snapshot restore (lines 49-815, 1391-1530, 1629-1686 and 2052-2099).
Calls are taken one after the other. The hash maps are tables, and an operation whose effect depends on
the order in which a hash map is visited has that order as an argument. Not modelled are the Raft
bookkeeping, the broadcast channel of the older watch interface and watchers that hang up.
-/

namespace Etcd
open Utf8

def maxLeaseTtlSecs : ℤ := 9000

structure KvStore where
  current : Table Bytes KeyValue := ∅
  history : Table ℕ (Bytes × EventType × KeyValue) := ∅
  keyIndex : Table Bytes (List ℕ) := ∅
  revision : ℕ := 1
  watchConfigs : Table ℤ WatchConfig := ∅
  /-- What has been sent to the inbox of each subscribed watch. -/
  watchInboxes : Table ℤ (List WatchEvent) := ∅
  leases : Table ℤ Lease := ∅
  leaseCounter : ℕ := 1
  compactedRevision : ℕ := 0
  members : List Member :=
    [{ id := 1, name := "default", peerUrls := ["http://localhost:2380"],
       clientUrls := ["http://localhost:2379"], isLearner := false }]
  watchCounter : ℕ := 0
  defragHistory : List DefragmentStatus := []

/-- Rust `lease.keys.retain(|k| k.as_bytes() != key)`. -/
def Lease.without (lease : Lease) (key : Bytes) : Lease :=
  { lease with keys := lease.keys.filter fun k => k.asBytes ≠ key }

/-- The key at the end of the list, unless it is listed. -/
def Lease.with (lease : Lease) (key : Str) : Lease :=
  if key ∈ lease.keys then lease else { lease with keys := lease.keys ++ [key] }

/-- The keys from `key` on and before `rangeEnd`, or only `key` if there is no end. -/
def inRange (key : Bytes) (rangeEnd : Option Bytes) (k : Bytes) : Bool :=
  match rangeEnd with
  | some rangeEnd => key ≤ k && k < rangeEnd
  | none => k = key

namespace KvStore

def new : KvStore := {}

variable (s : KvStore)

/-- Rust `next_revision`: the revision after this is the one it returns. -/
def nextRevision : KvStore := { s with revision := s.revision + 1 }

def header : ResponseHeader := { revision := s.revision }

def indexPush (key : Bytes) (rev : ℕ) : KvStore :=
  { s with keyIndex := s.keyIndex.insert key ((s.keyIndex.lookup key).getD [] ++ [rev]) }

/-- Rust `history.insert`. -/
def historyInsert (rev : ℕ) (entry : Bytes × EventType × KeyValue) : KvStore :=
  { s with history := s.history.insert rev entry }

def getAtRevision (key : Bytes) (targetRev : ℕ) : Option KeyValue := do
  let revs ← s.keyIndex.lookup key
  let rev ← revs.reverse.find? (· ≤ targetRev)
  let (_, eventType, kv) ← s.history.lookup rev
  match eventType with
  | .delete => none
  | .put => some kv

def keyMatchesWatch (key : Bytes) (config : WatchConfig) : Bool :=
  inRange config.key config.rangeEnd key

def getHistoricalEvents (config : WatchConfig) (fromRev : ℕ) : List WatchEvent :=
  let start := max fromRev (s.compactedRevision + 1)
  ((Table.ascending s.history).filter fun e => start ≤ e.1).filterMap fun ⟨_, key, eventType, kv⟩ =>
    if keyMatchesWatch key config then some { eventType := eventType, kv := kv, prevKv := none }
    else none

/-- The event as a watch gets it: without the previous value unless it asked for it. -/
def localEvent (config : WatchConfig) (event : WatchEvent) : WatchEvent :=
  if config.prevKv then event else { event with prevKv := none }

/-- The inboxes after an event has been sent to the watches that match it. An inbox without a watch is
dropped. -/
def deliver (configs : Table ℤ WatchConfig) (inboxes : Table ℤ (List WatchEvent)) (event : WatchEvent) :
    Table ℤ (List WatchEvent) :=
  let closed := inboxes.keys.filter fun id => (configs.lookup id).isNone
  let send (id : ℤ) (inbox : List WatchEvent) : List WatchEvent :=
    match configs.lookup id with
    | none => inbox
    | some cfg => if keyMatchesWatch event.kv.key cfg then inbox ++ [localEvent cfg event] else inbox
  Table.eraseAll closed (Table.mapWithKey send inboxes)

def dispatchEvent (event : WatchEvent) : KvStore :=
  { s with watchInboxes := deliver s.watchConfigs s.watchInboxes event }

/-- The step of `put` that takes the key from the lease it had before. -/
def detachOld (leases : Table ℤ Lease) (key : Bytes) (prevKv : Option KeyValue) (lease : Option ℤ) :
    Table ℤ Lease :=
  match prevKv with
  | none => leases
  | some old =>
    if old.lease ≠ lease then
      match old.lease with
      | none => leases
      | some oldLeaseId => Table.modify oldLeaseId (·.without key) leases
    else leases

/-- The step of `put` that associates the key with its lease, if that exists. The key is a string, so
`from_utf8_lossy` of its bytes is the string itself. -/
def attach (leases : Table ℤ Lease) (lease : Option ℤ) (key : Str) : Table ℤ Lease :=
  match lease with
  | none => leases
  | some leaseId => Table.modify leaseId (·.with key) leases

/-- The key-value pair that `put` writes. -/
def putKv (req : PutRequest) : KeyValue :=
  let prevKv := s.current.lookup req.key.asBytes
  { key := req.key.asBytes
    value := req.value.asBytes
    createRevision := (prevKv.map (·.createRevision)).getD (s.revision + 1)
    modRevision := s.revision + 1
    version := (prevKv.map (·.version + 1)).getD 1
    lease := req.lease }

def put (s : KvStore) (req : PutRequest) : PutResponse × KvStore :=
  let key := req.key.asBytes
  let prevKv := s.current.lookup key
  let kv := s.putKv req
  let s := s.nextRevision
  let rev := s.revision
  let s := { s with leases := detachOld s.leases key prevKv req.lease }
  let s := { s with current := s.current.insert key kv }
  let s := s.indexPush key rev
  let s := s.historyInsert rev (key, .put, kv)
  let s := { s with leases := attach s.leases req.lease req.key }
  let s := s.dispatchEvent { eventType := .put, kv := kv, prevKv := prevKv }
  ({ header := s.header, prevKv := if req.prevKv then prevKv else none }, s)

/-- The tail of `range` and of `range_at_revision`. -/
def respond (req : RangeRequest) (kvs : List KeyValue) : RangeResponse :=
  let count := kvs.length
  if req.countOnly then { header := s.header, kvs := [], count := count, more := false }
  else
    let (kvs, more) :=
      match req.limit with
      | some limit => if limit < kvs.length then (kvs.take limit, true) else (kvs, false)
      | none => (kvs, false)
    let kvs := if req.keysOnly then kvs.map fun kv => { kv with value := [] } else kvs
    { header := s.header, kvs := kvs, count := count, more := more }

/-- Rust `kvs.sort_by(|a, b| a.key.cmp(&b.key))`. -/
def sortByKey (kvs : List KeyValue) : List KeyValue := kvs.insertionSort fun a b => a.key ≤ b.key

def rangeAtRevision (req : RangeRequest) (targetRev : ℕ) : RangeResponse :=
  s.respond req <|
    match req.rangeEnd with
    | some rangeEnd =>
      sortByKey <|
        (s.keyIndex.keys.filter (inRange req.key.asBytes (some rangeEnd.asBytes))).filterMap fun k =>
          s.getAtRevision k targetRev
    | none => (s.getAtRevision req.key.asBytes targetRev).toList

def range (req : RangeRequest) : Except EtcdError RangeResponse :=
  match req.revision with
  | some targetRev =>
    if targetRev < s.compactedRevision ∧ 0 < s.compactedRevision then
      .error (.revisionCompacted targetRev s.compactedRevision)
    else .ok (s.rangeAtRevision req targetRev)
  | none =>
    .ok <| s.respond req <|
      match req.rangeEnd with
      | some rangeEnd =>
        sortByKey <|
          (s.current.entries.filter fun e =>
            inRange req.key.asBytes (some rangeEnd.asBytes) e.1).map Sigma.snd
      | none => (s.current.lookup req.key.asBytes).toList

def removeKeyFromLease (leases : Table ℤ Lease) (key : Bytes) (leaseId : Option ℤ) : Table ℤ Lease :=
  match leaseId with
  | none => leases
  | some id => Table.modify id (·.without key) leases

/-- What `delete_range` and `lease_revoke` record of a key they have removed. -/
def recordDelete (key : Bytes) (kv : KeyValue) (rev : ℕ) : KvStore :=
  let deleteKv := makeDeleteKv kv rev
  let s := s.indexPush key rev
  let s := s.historyInsert rev (key, .delete, deleteKv)
  s.dispatchEvent { eventType := .delete, kv := deleteKv, prevKv := some kv }

/-- The store after `delete_range` has removed a key that was live. -/
def deleteLive (rev : ℕ) (key : Bytes) (kv : KeyValue) : KvStore :=
  let s := { s with current := s.current.erase key }
  let s := { s with leases := removeKeyFromLease s.leases key kv.lease }
  s.recordDelete key kv rev

/-- The store and the counters of the loop of `delete_range`. -/
structure Deletion where
  store : KvStore
  deleted : ℕ := 0
  prevKvs : List KeyValue := []

/-- One key of `delete_range`. -/
def Deletion.key (wantPrev : Bool) (rev : ℕ) (d : Deletion) (key : Bytes) : Deletion :=
  match d.store.current.lookup key with
  | none => d
  | some kv =>
    { store := d.store.deleteLive rev key kv
      deleted := d.deleted + 1
      prevKvs := if wantPrev then d.prevKvs ++ [kv] else d.prevKvs }

def deleteRange (order : Order Bytes) (req : DeleteRangeRequest) :
    DeleteRangeResponse × KvStore :=
  let s := s.nextRevision
  let rev := s.revision
  let d : Deletion :=
    match req.rangeEnd with
    | some rangeEnd =>
      let keysToDelete :=
        order.visit (s.current.keys.filter (inRange req.key.asBytes (some rangeEnd.asBytes)))
      keysToDelete.foldl (Deletion.key req.prevKv rev) { store := s }
    | none => Deletion.key req.prevKv rev { store := s } req.key.asBytes
  ({ header := d.store.header, deleted := d.deleted, prevKvs := d.prevKvs }, d.store)

end KvStore

/-- The comparison of a `Compare` of numbers. -/
def CompareResult.test (result : CompareResult) (actual wanted : ℕ) : Bool :=
  match result with
  | .equal => actual = wanted
  | .greater => wanted < actual
  | .less => actual < wanted
  | .notEqual => actual ≠ wanted

/-- One comparison of `txn`, for the key's pair, if it has one. -/
def Compare.pass (cmp : Compare) (kv : Option KeyValue) : Bool :=
  let kvVersion := (kv.map (·.version)).getD 0
  let kvCreate := (kv.map (·.createRevision)).getD 0
  let kvMod := (kv.map (·.modRevision)).getD 0
  let cmpVersion := cmp.version.getD 0
  let cmpModOrCreate := cmp.modRevision.getD 0
  match cmp.target, cmp.result with
  | .version, result => result.test kvVersion cmpVersion
  | .create, result => result.test kvCreate cmpModOrCreate
  | .mod, result => result.test kvMod cmpModOrCreate
  | .value, .equal => kv.map (·.valueStr) = cmp.value.map (·.asBytes)
  | .value, .notEqual => kv.map (·.valueStr) ≠ cmp.value.map (·.asBytes)
  | .value, _ => true

namespace KvStore

variable (s : KvStore)

/-- The test of one `Compare` of a transaction. -/
def holds (cmp : Compare) : Bool :=
  cmp.pass ((s.range { key := cmp.key }).toOption.bind (·.kvs.head?))

/-- The branch that `txn` chooses. -/
def branch (req : TxnRequest) : List RequestOp :=
  if req.compare.all s.holds then req.success else req.failure

/-- One operation of `txn`. -/
def runOp (op : RequestOp × Order Bytes) : KvStore :=
  match op with
  | (.put req, _) => (s.put req).2
  | (.deleteRange req, order) => (s.deleteRange order req).2
  | (.range _, _) => s

/-- The operations of a branch, each with the order its deletion visits the keys in. -/
def ordered (ops : List RequestOp) (orders : ℕ → Order Bytes) : List (RequestOp × Order Bytes) :=
  ops.zipIdx.map fun (op, i) => (op, orders i)

def txn (orders : ℕ → Order Bytes) (req : TxnRequest) : TxnResponse × KvStore :=
  let succeeded := req.compare.all s.holds
  let s := (ordered (s.branch req) orders).foldl runOp s
  ({ header := { revision := s.revision }, succeeded := succeeded }, s)

def watchCreate (req : WatchCreateRequest) : WatchResponse × KvStore :=
  let s := { s with watchCounter := s.watchCounter + 1 }
  let watchId : ℤ := s.watchCounter
  let config : WatchConfig :=
    { watchId := watchId, key := req.key.asBytes, rangeEnd := req.rangeEnd.map (·.asBytes),
      startRevision := req.startRevision, prevKv := req.prevKv }
  let events := (req.startRevision.map (s.getHistoricalEvents config)).getD []
  let s := { s with watchConfigs := s.watchConfigs.insert watchId config }
  ({ header := s.header, watchId := watchId, created := true, events := events }, s)

/-- Rust `watch_subscribe`: the inbox starts empty. -/
def watchSubscribe (watchId : ℤ) : Except EtcdError KvStore :=
  match s.watchConfigs.lookup watchId with
  | none => .error (.watchNotFound watchId)
  | some _ => .ok { s with watchInboxes := s.watchInboxes.insert watchId [] }

/-- Insert a new lease without keys. -/
def insertLease (id ttl now : ℤ) : KvStore :=
  { s with leases := s.leases.insert id { id := id, ttl := ttl, grantedAt := now, keys := [] } }

/-- The id that is drawn from the counter. -/
def autoLeaseId : ℤ := s.leaseCounter + 1

def leaseGrant (now : ℤ) (req : LeaseGrantRequest) : LeaseGrantResponse × KvStore :=
  let (id, s) :=
    match req.id with
    | some id => (id, s)
    | none => (s.autoLeaseId, { s with leaseCounter := s.leaseCounter + 1 })
  let s := s.insertLease id req.ttl now
  ({ header := s.header, id := id, ttl := req.ttl }, s)

def leaseGrantV2 (now : ℤ) (req : LeaseGrantRequest) :
    Except EtcdError (LeaseGrantResponse × KvStore) :=
  if req.ttl < 0 then .error (.invalidLeaseTtl req.ttl)
  else
    let ttl := min req.ttl maxLeaseTtlSecs
    let auto : LeaseGrantResponse × KvStore :=
      let id := s.autoLeaseId
      let s := { s with leaseCounter := s.leaseCounter + 1 }.insertLease id ttl now
      ({ header := s.header, id := id, ttl := ttl }, s)
    match req.id with
    | none => .ok auto
    | some id =>
      if id = 0 then .ok auto
      else if (s.leases.lookup id).isSome then .error (.leaseAlreadyExists id)
      else
        let s := s.insertLease id ttl now
        .ok ({ header := s.header, id := id, ttl := ttl }, s)

/-- One key of `lease_revoke`. -/
def revokeKey (keyStr : Str) : KvStore :=
  let key := keyStr.asBytes
  match s.current.lookup key with
  | none => s
  | some kv =>
    let s := { s with current := s.current.erase key }
    let s := s.nextRevision
    s.recordDelete key kv s.revision

def leaseRevoke (leaseId : ℤ) : Except EtcdError KvStore :=
  match s.leases.lookup leaseId with
  | none => .error (.leaseNotFound leaseId)
  | some lease => .ok (lease.keys.foldl revokeKey { s with leases := s.leases.erase leaseId })

/-- `num_seconds` of the time since the lease was granted. -/
def elapsed (lease : Lease) (now : ℤ) : ℤ := (now - lease.grantedAt).tdiv 1000000000

/-- The leases that `expire_leases` revokes. -/
def expiredIds (order : Order ℤ) (now : ℤ) : List ℤ :=
  order.visit ((s.leases.entries.filter fun e => e.2.ttl ≤ elapsed e.2 now).map Sigma.fst)

/-- `let _ = self.lease_revoke(id)`. -/
def tryRevoke (id : ℤ) : KvStore := (s.leaseRevoke id).toOption.getD s

def expireLeases (order : Order ℤ) (now : ℤ) : KvStore :=
  (s.expiredIds order now).foldl tryRevoke s

/-- Drop the history strictly below a revision. -/
def dropHistory (revision : ℕ) : KvStore :=
  { s with history := Table.eraseAll (s.history.keys.filter (· < revision)) s.history }

def compact (revision : ℕ) : KvStore :=
  { s with compactedRevision := revision }.dropHistory revision

/-- What `compact_v2` leaves of the revisions of a key. -/
def pruned (revision : ℕ) (revs : List ℕ) : List ℕ :=
  let split := (revs.takeWhile (· ≤ revision)).length
  if split ≤ 1 then revs else revs.drop (split - 1)

def compactV2 (revision : ℕ) : Except EtcdError KvStore :=
  if revision = 0 then .ok s
  else if s.revision < revision then .error (.compactionFutureRevision revision s.revision)
  else if revision ≤ s.compactedRevision then .ok s
  else
    let s := { s with compactedRevision := revision }.dropHistory revision
    .ok { s with keyIndex := Table.mapWithKey (fun _ => pruned revision) s.keyIndex }

def estimatedDbBytes : ℕ :=
  (s.current.entries.map fun e => e.1.length + e.2.value.length).sum +
    (s.keyIndex.entries.map fun e => e.2.length * 8).sum

def defragmentWithStatus : DefragmentStatus × KvStore :=
  let bytesBefore := s.estimatedDbBytes
  let compacted := s.compactedRevision
  let s := { s with keyIndex := Table.mapWithKey (fun _ => List.filter (compacted ≤ ·)) s.keyIndex }
  let bytesAfter := s.estimatedDbBytes
  let bytesFreed := bytesBefore - bytesAfter
  let status : DefragmentStatus :=
    { bytesBefore := bytesBefore, bytesAfter := bytesAfter, bytesFreed := bytesFreed,
      fragmentedPages := (bytesFreed + 4095) / 4096 }
  (status, { s with defragHistory := s.defragHistory ++ [status] })

/-- One pair of the snapshot that `restore_snapshot` puts back. -/
def restoreKv (kv : KeyValue) : KvStore :=
  let s := s.indexPush kv.key kv.modRevision
  { s with current := s.current.insert kv.key kv }

/-- The part of `restore_snapshot` after the document has been read. -/
def restoreDoc (doc : SnapshotDoc) (revision : ℕ) : KvStore :=
  let s := { s with current := ∅, keyIndex := ∅, history := ∅, leases := ∅ }
  let s := (doc.kvs.getD []).foldl restoreKv s
  { s with
    leases := (doc.leases.getD []).foldl (fun t l => t.insert l.id l) s.leases
    members := doc.members.getD []
    revision := revision
    compactedRevision := doc.compactRevision.getD 0 }

def restoreSnapshot (codec : SnapshotCodec) (s : KvStore) (blob : Bytes) (checksum : String) :
    Except EtcdError KvStore :=
  let actual := codec.sha256Hex blob
  if actual ≠ checksum then .error (.snapshotChecksumMismatch checksum actual)
  else
    match codec.fromSlice blob with
    | .error message => .error (.snapshotDecode message)
    | .ok doc =>
      match doc.revision with
      | none => .error (.snapshotDecode "missing revision")
      | some revision => .ok (s.restoreDoc doc revision)

end KvStore

/-- A call that changes the store. -/
inductive Op where
  | put (req : PutRequest)
  | deleteRange (req : DeleteRangeRequest) (order : Order Bytes)
  | txn (req : TxnRequest) (orders : ℕ → Order Bytes)
  | leaseGrant (req : LeaseGrantRequest) (now : ℤ)
  | leaseGrantV2 (req : LeaseGrantRequest) (now : ℤ)
  | leaseRevoke (leaseId : ℤ)
  | expireLeases (now : ℤ) (order : Order ℤ)
  | compact (revision : ℕ)
  | compactV2 (revision : ℕ)
  | defragmentWithStatus

/-- The store after a call; a call that fails leaves it as it was. -/
def Op.apply (s : KvStore) : Op → KvStore
  | .put req => (s.put req).2
  | .deleteRange req order => (s.deleteRange order req).2
  | .txn req orders => (s.txn orders req).2
  | .leaseGrant req now => (s.leaseGrant now req).2
  | .leaseGrantV2 req now => ((s.leaseGrantV2 now req).toOption.map Prod.snd).getD s
  | .leaseRevoke leaseId => s.tryRevoke leaseId
  | .expireLeases now order => s.expireLeases order now
  | .compact revision => s.compact revision
  | .compactV2 revision => (s.compactV2 revision).toOption.getD s
  | .defragmentWithStatus => s.defragmentWithStatus.2

/-- A call, as a step of a run. -/
def KvStore.step (s : KvStore) (op : Op) : Option KvStore := some (op.apply s)

/-- A call, or the restore of a snapshot. -/
inductive Event where
  | call (op : Op)
  | restoreSnapshot (blob : Bytes) (checksum : String)

/-- A call or a restore, as a step of a run. -/
def KvStore.stepEvent (codec : SnapshotCodec) (s : KvStore) : Event → Option KvStore
  | .call op => s.step op
  | .restoreSnapshot blob checksum => some ((s.restoreSnapshot codec blob checksum).toOption.getD s)

end Etcd
