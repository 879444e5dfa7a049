import CaveRuntime.Etcd.Cluster
import CaveRuntime.Etcd.Lease
import CaveRuntime.Etcd.TimeTravel

/-!
# The etcd-compatible store: snapshots

Model of the making of snapshots in `crates/compute/cave-etcd/src/store.rs`, lines 1541-1627, and of
`lease_keepalive`. The writer of JSON is a parameter, as the reader and SHA-256 are. A restored store has the
pairs, the leases, the members and the revision of the store that the snapshot is of, but neither its history
nor its counter of ids, and from this follows what it answers differently.
-/

namespace Etcd
open Utf8 Run

/-! ## The snapshot and its chunks -/

/-- The document of a snapshot. -/
structure SnapshotPayload where
  revision : ℕ
  compactRevision : ℕ
  kvs : List KeyValue
  leases : List Lease
  members : List Member

/-- What is read of a document that has all its fields. -/
def SnapshotPayload.doc (p : SnapshotPayload) : SnapshotDoc where
  revision := some p.revision
  compactRevision := some p.compactRevision
  kvs := some p.kvs
  leases := some p.leases
  members := some p.members

structure SnapshotChunk where
  header : ResponseHeader
  remainingBytes : ℕ
  blob : Bytes
  checksum : String
  deriving DecidableEq

def snapshotChunkSize : ℕ := 32 * 1024

/-- Rust `chunks` of a slice; every round takes a byte, so the number of bytes is fuel enough. -/
def chunksOf (size : ℕ) : ℕ → Bytes → List Bytes
  | 0, _ => []
  | fuel + 1, blob => if blob = [] then [] else blob.take size :: chunksOf size fuel (blob.drop size)

lemma flatten_chunksOf {size : ℕ} (pos : 0 < size) (fuel : ℕ) (blob : Bytes) (enough : blob.length ≤ fuel) :
    (chunksOf size fuel blob).flatten = blob := by
  induction fuel generalizing blob with
  | zero => exact (List.length_eq_zero_iff.mp (Nat.le_zero.mp enough)).symm
  | succ fuel ih =>
    rw [chunksOf]
    split
    · rename_i empty
      exact empty.symm
    · rename_i ne
      have some : 0 < blob.length := List.length_pos_iff.mpr ne
      have less : (blob.drop size).length ≤ fuel := by
        rw [List.length_drop]
        omega
      rw [List.flatten_cons, ih _ less, List.take_append_drop]

namespace KvStore

section Stream

variable (codec : SnapshotCodec) (toVec : SnapshotPayload → Bytes) (s : KvStore)

/-- The document that `snapshot_blob` writes. -/
def snapshotPayload : SnapshotPayload where
  revision := s.revision
  compactRevision := s.compactedRevision
  kvs := sortByKey (s.current.entries.map Sigma.snd)
  leases := (s.leases.entries.map Sigma.snd).insertionSort fun a b => a.id ≤ b.id
  members := s.members

/-- Rust `snapshot_blob`: the blob and its checksum. -/
def snapshotBlob : Bytes × String :=
  let blob := toVec s.snapshotPayload
  (blob, codec.sha256Hex blob)

def snapshotStream : List SnapshotChunk :=
  let (blob, checksum) := s.snapshotBlob codec toVec
  if blob = [] then [{ header := s.header, remainingBytes := 0, blob := [], checksum := checksum }]
  else
    (chunksOf snapshotChunkSize blob.length blob).zipIdx.map fun (slice, i) =>
      { header := s.header
        remainingBytes := blob.length - (i + 1) * snapshotChunkSize
        blob := slice
        checksum := checksum }

end Stream

/-- The loop of `assemble_chunks`. -/
def concatChunks (expected : String) : List SnapshotChunk → Except EtcdError Bytes
  | [] => .ok []
  | c :: chunks =>
    if c.checksum ≠ expected then .error (.snapshotChecksumMismatch expected c.checksum)
    else (c.blob ++ ·) <$> concatChunks expected chunks

def assembleChunks (codec : SnapshotCodec) : List SnapshotChunk → Except EtcdError (Bytes × String)
  | [] => .error (.snapshotDecode "no chunks")
  | c :: chunks => do
    let expected := c.checksum
    let blob ← concatChunks expected (c :: chunks)
    let actual := codec.sha256Hex blob
    if actual ≠ expected then throw (.snapshotChecksumMismatch expected actual)
    return (blob, expected)

/-- The snapshot of `s` is streamed, put together again and restored into `t`. -/
def transferSnapshot (codec : SnapshotCodec) (toVec : SnapshotPayload → Bytes) (s t : KvStore) :
    Except EtcdError KvStore := do
  let (blob, checksum) ← assembleChunks codec (s.snapshotStream codec toVec)
  t.restoreSnapshot codec blob checksum

lemma concatChunks_eq {expected : String} {chunks : List SnapshotChunk}
    (same : ∀ c ∈ chunks, c.checksum = expected) :
    concatChunks expected chunks = .ok (chunks.map (·.blob)).flatten := by
  induction chunks with
  | nil => rfl
  | cons c chunks ih =>
    have here := same c List.mem_cons_self
    rw [concatChunks, if_neg (not_not.mpr here), ih fun c' mem => same c' (List.mem_cons_of_mem _ mem)]
    rfl

lemma assembleChunks_eq {codec : SnapshotCodec} {chunks : List SnapshotChunk} {blob : Bytes}
    (some : chunks ≠ []) (whole : (chunks.map (·.blob)).flatten = blob)
    (same : ∀ c ∈ chunks, c.checksum = codec.sha256Hex blob) :
    assembleChunks codec chunks = .ok (blob, codec.sha256Hex blob) := by
  cases chunks with
  | nil => exact absurd rfl some
  | cons c chunks =>
    have first := same c List.mem_cons_self
    unfold assembleChunks
    dsimp only
    rw [first, concatChunks_eq same, whole]
    show (if codec.sha256Hex blob ≠ codec.sha256Hex blob then _ else _) = _
    rw [if_neg (not_not.mpr rfl)]
    rfl

lemma assembleChunks_snapshotStream (codec : SnapshotCodec) (toVec : SnapshotPayload → Bytes) (s : KvStore) :
    assembleChunks codec (s.snapshotStream codec toVec) = .ok (s.snapshotBlob codec toVec) := by
  unfold snapshotStream snapshotBlob
  dsimp only
  generalize toVec s.snapshotPayload = blob
  split
  · rename_i empty
    exact assembleChunks_eq (List.cons_ne_nil _ _) (by simp [empty]) (by simp)
  · rename_i ne
    have blobs : ((chunksOf snapshotChunkSize blob.length blob).zipIdx.map fun e => e.1) =
        chunksOf snapshotChunkSize blob.length blob := List.zipIdx_map_fst _ _
    have whole := flatten_chunksOf (show 0 < snapshotChunkSize by decide) _ blob (Nat.le_refl _)
    refine assembleChunks_eq ?_ ?_ ?_
    · intro none
      rw [List.map_eq_nil_iff, List.zipIdx_eq_nil_iff] at none
      rw [none] at whole
      exact ne whole.symm
    · rw [List.map_map]
      exact (congrArg List.flatten blobs).trans whole
    · intro c mem
      obtain ⟨e, -, rfl⟩ := List.mem_map.mp mem
      rfl

end KvStore

/-! ## Reachable stores -/

structure LeaseKeepAliveResponse where
  header : ResponseHeader
  id : ℤ
  ttl : ℤ

def KvStore.leaseKeepalive (s : KvStore) (now id : ℤ) : Except EtcdError (LeaseKeepAliveResponse × KvStore) :=
  match s.leases.lookup id with
  | none => .error (.leaseNotFound id)
  | some lease =>
    .ok (⟨s.header, id, lease.ttl⟩, { s with leases := s.leases.modify id fun l => { l with grantedAt := now } })

/-- A call that changes the pairs, the leases, the members or the watches of a store. -/
inductive StoreCall where
  | event (e : Event)
  | cluster (op : ClusterOp)
  | leaseKeepalive (id now : ℤ)
  | watchCreate (req : WatchCreateRequest)
  | watchSubscribe (watchId : ℤ)

/-- A call, as a step of a run. -/
def ClusterStore.call (codec : SnapshotCodec) (s : ClusterStore) : StoreCall → Option ClusterStore
  | .event e => (s.kv.stepEvent codec e).map fun kv => { s with kv := kv }
  | .cluster op => s.step op
  | .leaseKeepalive id now =>
    some { s with kv := ((s.kv.leaseKeepalive now id).toOption.map Prod.snd).getD s.kv }
  | .watchCreate req => some { s with kv := (s.kv.watchCreate req).2 }
  | .watchSubscribe watchId => some { s with kv := (s.kv.watchSubscribe watchId).toOption.getD s.kv }

namespace KvStore

variable {s s' : KvStore} {codec : SnapshotCodec}

/-- The pairs are under their keys and the leases under their ids. -/
structure Filed (s : KvStore) : Prop where
  pairs : s.current.Filed KeyValue.key
  leases : s.leases.Filed Lease.id

namespace Filed

lemma frame (h : s.Filed) (current : s'.current = s.current) (leases : s'.leases = s.leases) :
    s'.Filed where
  pairs := current ▸ h.pairs
  leases := leases ▸ h.leases

lemma foldl {α : Type*} {f : KvStore → α → KvStore} (round : ∀ {s} a, s.Filed → (f s a).Filed)
    (h : s.Filed) (l : List α) : (l.foldl f s).Filed := by
  induction l generalizing s with
  | nil => exact h
  | cons a l ih => exact ih (round a h)

section

variable (h : s.Filed)

include h

lemma put (req : PutRequest) : (s.put req).2.Filed where
  pairs := put_keyed h.pairs req
  leases := by
    refine h.leases.of_le fun id l' found => ?_
    rw [lookup_put_leases, Option.map_eq_some_iff] at found
    obtain ⟨l, before, rfl⟩ := found
    refine ⟨l, before, ?_⟩
    split
    · unfold Lease.with
      split <;> rfl
    · split <;> rfl

lemma deleteKey (rev : ℕ) (key : Bytes) : (s.deleteKey rev key).Filed := by
  unfold KvStore.deleteKey
  split
  · exact h
  · rename_i kv live
    constructor
    · refine h.pairs.of_le fun k kv' found => ?_
      have found : (s.current.erase key).lookup k = some kv' := found
      rw [Table.lookup_erase_eq] at found
      split at found
      · cases found
      · exact ⟨kv', found, rfl⟩
    · refine h.leases.of_le fun id l' found => ?_
      have found : (removeKeyFromLease s.leases key kv.lease).lookup id = some l' := found
      rw [lookup_removeKeyFromLease] at found
      split at found
      · obtain ⟨l, before, rfl⟩ := Option.map_eq_some_iff.mp found
        exact ⟨l, before, rfl⟩
      · exact ⟨l', found, rfl⟩

lemma deleteRange (order : Order Bytes) (req : DeleteRangeRequest) :
    (s.deleteRange order req).2.Filed := by
  rw [deleteRange_eq]
  have start : s.nextRevision.Filed := h.frame rfl rfl
  exact start.foldl (fun key h => h.deleteKey _ key) _

lemma runOp (op : RequestOp × Order Bytes) : (s.runOp op).Filed := by
  obtain ⟨op, order⟩ := op
  cases op with
  | range _ => exact h
  | put req => exact h.put req
  | deleteRange req => exact h.deleteRange order req

lemma insertLease (id ttl now : ℤ) : (s.insertLease id ttl now).Filed where
  pairs := h.pairs
  leases := h.leases.insert { id := id, ttl := ttl, grantedAt := now, keys := [] }

lemma leaseGrant (req : LeaseGrantRequest) (now : ℤ) : (s.leaseGrant now req).2.Filed := by
  unfold KvStore.leaseGrant
  cases req.id with
  | some id => exact h.insertLease id req.ttl now
  | none =>
    have drawn : { s with leaseCounter := s.leaseCounter + 1 }.Filed := h.frame rfl rfl
    exact drawn.insertLease s.autoLeaseId req.ttl now

lemma leaseGrantV2 (req : LeaseGrantRequest) (now : ℤ) :
    (((s.leaseGrantV2 now req).toOption.map Prod.snd).getD s).Filed := by
  have drawn : { s with leaseCounter := s.leaseCounter + 1 }.Filed := h.frame rfl rfl
  unfold KvStore.leaseGrantV2
  split
  · exact h
  cases req.id with
  | none => exact drawn.insertLease s.autoLeaseId _ now
  | some id =>
    dsimp only
    split
    · exact drawn.insertLease s.autoLeaseId _ now
    split
    · exact h
    · exact h.insertLease id _ now

lemma tryRevoke (id : ℤ) : (s.tryRevoke id).Filed := by
  cases found : s.leases.lookup id with
  | none =>
    rw [tryRevoke_of_none found]
    exact h
  | some lease =>
    constructor
    · refine h.pairs.of_le fun k kv live => ?_
      rw [lookup_tryRevoke found] at live
      split at live
      · cases live
      · exact ⟨kv, live, rfl⟩
    · rw [tryRevoke_of_some found, (foldl_revokeKey _ lease.keys).1]
      refine h.leases.of_le fun id' l found => ?_
      rw [Table.lookup_erase_eq] at found
      split at found
      · cases found
      · exact ⟨l, found, rfl⟩

lemma apply (op : Op) : (op.apply s).Filed := by
  cases op with
  | put req => exact h.put req
  | deleteRange req order => exact h.deleteRange order req
  | txn req orders => exact h.foldl (fun op h => h.runOp op) _
  | leaseGrant req now => exact h.leaseGrant req now
  | leaseGrantV2 req now => exact h.leaseGrantV2 req now
  | leaseRevoke id => exact h.tryRevoke id
  | expireLeases now order => exact h.foldl (fun id h => h.tryRevoke id) _
  | compact c => exact h.frame rfl rfl
  | compactV2 c =>
    show ((s.compactV2 c).toOption.getD s).Filed
    cases compactV2_cases s c with
    | inl same =>
      rw [same]
      exact h
    | inr done =>
      rw [done.2.2]
      exact h.frame rfl rfl
  | defragmentWithStatus => exact h.frame rfl rfl

end

lemma restoreDoc (s : KvStore) (doc : SnapshotDoc) (revision : ℕ) : (s.restoreDoc doc revision).Filed := by
  have empty {α β : Type} [DecidableEq α] (key : β → α) : (∅ : Table α β).Filed key := nofun
  constructor
  · show ((doc.kvs.getD []).foldl restoreKv _).current.Filed KeyValue.key
    rw [foldl_restoreKv_current]
    exact (empty KeyValue.key).foldl_insert _
  · show ((doc.leases.getD []).foldl _ ((doc.kvs.getD []).foldl restoreKv _).leases).Filed Lease.id
    rw [foldl_restoreKv_leases]
    exact (empty Lease.id).foldl_insert _

lemma stepEvent {e : Event} (h : s.Filed) (st : s.stepEvent codec e = some s') : s'.Filed := by
  cases e with
  | call op =>
    cases st
    exact h.apply op
  | restoreSnapshot blob checksum =>
    cases st
    cases restoreSnapshot_cases codec s blob checksum with
    | inl same =>
      rw [same]
      exact h
    | inr done =>
      obtain ⟨doc, revision, -, -, eq⟩ := done
      rw [eq]
      exact .restoreDoc s doc revision

lemma leaseKeepalive (h : s.Filed) (id now : ℤ) :
    (((s.leaseKeepalive now id).toOption.map Prod.snd).getD s).Filed := by
  unfold KvStore.leaseKeepalive
  split
  · exact h
  · refine ⟨h.pairs, h.leases.of_le fun id' l' found => ?_⟩
    have found : (s.leases.modify id fun l => { l with grantedAt := now }).lookup id' = some l' := found
    rw [Table.lookup_modify] at found
    split at found
    · obtain ⟨l, before, rfl⟩ := Option.map_eq_some_iff.mp found
      exact ⟨l, before, rfl⟩
    · exact ⟨l', found, rfl⟩

lemma watchSubscribe (h : s.Filed) (watchId : ℤ) : ((s.watchSubscribe watchId).toOption.getD s).Filed := by
  unfold KvStore.watchSubscribe
  split
  · exact h
  · exact h.frame rfl rfl

end Filed

lemma Filed.setMembers (h : s.Filed) {result : Except EtcdError KvStore}
    (only : ∀ t, result = .ok t → ∃ members, t = { s with members := members }) :
    (result.toOption.getD s).Filed := by
  cases result with
  | error e => exact h
  | ok t =>
    obtain ⟨members, rfl⟩ := only t rfl
    exact h.frame rfl rfl

end KvStore

namespace ClusterStore

variable {s s' : ClusterStore} {codec : SnapshotCodec}

lemma filed_leaveJoint (h : s.kv.Filed) : (s.leaveJoint.toOption.getD s).kv.Filed := by
  unfold leaveJoint
  split
  · exact h
  · exact h.frame rfl rfl

lemma filed_enterJoint (h : s.kv.Filed) (req : EnterJointRequest) : (s.enterJoint req).2.kv.Filed := by
  have added : (req.adds.foldl KvStore.memberAdd s.kv).Filed :=
    h.foldl (f := KvStore.memberAdd) (fun req h => h.frame rfl rfl) req.adds
  unfold enterJoint
  split
  · exact h
  dsimp only
  split
  · exact added
  · exact added

lemma filed_apply (h : s.kv.Filed) (op : ClusterOp) : (op.apply s).kv.Filed := by
  cases op with
  | memberAdd req => exact h.frame rfl rfl
  | memberRemove id =>
    refine h.setMembers fun t eq => ?_
    unfold KvStore.memberRemove at eq
    dsimp only at eq
    split at eq
    · cases eq
    · exact ⟨_, (Except.ok.inj eq).symm⟩
  | memberUpdate id peerUrls =>
    refine h.setMembers fun t eq => ?_
    unfold KvStore.memberUpdate at eq
    split at eq
    · cases eq
    · exact ⟨_, (Except.ok.inj eq).symm⟩
  | memberPromote id =>
    refine h.setMembers fun t eq => ?_
    unfold KvStore.memberPromote at eq
    split at eq
    · cases eq
    · split at eq
      · cases eq
      · exact ⟨_, (Except.ok.inj eq).symm⟩
  | enterJoint req => exact filed_enterJoint h req
  | leaveJoint => exact filed_leaveJoint h
  | armAutoLeaveJoint index => exact h
  | advanceCommitIndex idx =>
    show (s.advanceCommitIndex idx).kv.Filed
    unfold advanceCommitIndex
    dsimp only
    split
    · exact filed_leaveJoint (s := { s with commitIndex := max s.commitIndex idx }) h
    · exact h
  | recordMatchIndex memberId idx => exact h

lemma filed_of_run {calls : List StoreCall} (hr : run (call codec) {} calls = some s) : s.kv.Filed := by
  refine invariant_of_run (P := fun s : ClusterStore => s.kv.Filed) ?_ hr ⟨nofun, nofun⟩
  intro s e s' h st
  cases e with
  | event e =>
    obtain ⟨kv, moved, rfl⟩ := Option.map_eq_some_iff.mp st
    exact h.stepEvent moved
  | cluster op =>
    cases st
    exact filed_apply h op
  | leaseKeepalive id now =>
    cases st
    exact h.leaseKeepalive id now
  | watchCreate req =>
    cases st
    exact h.frame rfl rfl
  | watchSubscribe watchId =>
    cases st
    exact h.watchSubscribe watchId

end ClusterStore

end Etcd
