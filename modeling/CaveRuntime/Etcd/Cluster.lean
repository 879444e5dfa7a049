import CaveRuntime.Etcd.Store

/-!
# The etcd-compatible store: members and joint configurations

Model of the membership in `crates/compute/cave-etcd/src/store.rs`, lines 1182-1388, 1714-1761 and
2038-2041, and of `raft_joint_quorum.rs`, lines 49-97. Ids and indices are unbounded numbers. The responses
hold the header, the members and what is returned here.
-/

namespace Etcd

/-- The store with its joint configuration and its Raft indices. -/
structure ClusterStore where
  kv : KvStore := {}
  joint : Option JointConfig := none
  matchIndex : Table ℕ ℕ := ∅
  commitIndex : ℕ := 0
  autoLeaveJointAtIndex : ℕ := 0

/-- The members that vote. -/
def voters (members : List Member) : List Member := members.filter fun m => !m.isLearner

/-- The ids of the members that vote. -/
def voterIds (members : List Member) : List ℕ := (members.filter fun m => !m.isLearner).map Member.id

/-- The ids of the learners. -/
def learnerIds (members : List Member) : List ℕ := (members.filter fun m => m.isLearner).map Member.id

/-- The first element that passes the test is changed. -/
def modifyFirst {α : Type} (p : α → Bool) (f : α → α) : List α → List α
  | [] => []
  | a :: l => if p a then f a :: l else a :: modifyFirst p f l

namespace KvStore

/-- The member that `member_add` and `enter_joint` make, with an id from the counter of leases. -/
def newMember (s : KvStore) (req : MemberAddRequest) : Member where
  id := s.leaseCounter + 100
  name := "member-" ++ toString (s.leaseCounter + 100)
  peerUrls := req.peerUrls
  clientUrls := []
  isLearner := req.isLearner

def memberAdd (s : KvStore) (req : MemberAddRequest) : KvStore :=
  { s with leaseCounter := s.leaseCounter + 1, members := s.members ++ [s.newMember req] }

def memberRemove (s : KvStore) (id : ℕ) : Except EtcdError KvStore :=
  let kept := s.members.filter fun m => m.id ≠ id
  if kept.length = s.members.length then .error (.memberNotFound id) else .ok { s with members := kept }

def memberUpdate (s : KvStore) (id : ℕ) (peerUrls : List String) : Except EtcdError KvStore :=
  match s.members.find? fun m => m.id = id with
  | none => .error (.memberNotFound id)
  | some _ =>
    let updated := modifyFirst (fun m => m.id = id) (fun m => { m with peerUrls := peerUrls }) s.members
    .ok { s with members := updated }

def memberPromote (s : KvStore) (id : ℕ) : Except EtcdError KvStore :=
  match s.members.find? fun m => m.id = id with
  | none => .error (.memberNotFound id)
  | some m =>
    if !m.isLearner then .error (.memberNotLearner id)
    else
      let promoted := modifyFirst (fun m => m.id = id) (fun m => { m with isLearner := false }) s.members
      .ok { s with members := promoted }

end KvStore

namespace ClusterStore

/-- The ids of the voters that `enter_joint` adds, the first of them with id `next`. -/
def addedVoters (next : ℕ) : List MemberAddRequest → List ℕ
  | [] => []
  | add :: adds => if add.isLearner then addedVoters (next + 1) adds else next :: addedVoters (next + 1) adds

variable (s : ClusterStore)

/-- Rust `enter_joint`. The members that it adds stay also when it fails at the end. -/
def enterJoint (req : EnterJointRequest) :
    Except EtcdError JointConfig × ClusterStore :=
  if s.joint.isSome then (.error .jointConfigInProgress, s)
  else
    let outgoing := voterIds s.kv.members
    let kv := req.adds.foldl KvStore.memberAdd s.kv
    let incoming := (outgoing ++ addedVoters (s.kv.leaseCounter + 100) req.adds).filter
      fun id => id ∉ req.removes
    if incoming = [] then (.error .wouldBreakQuorum, { s with kv := kv })
    else
      let cfg : JointConfig := ⟨outgoing, incoming, learnerIds kv.members⟩
      (.ok cfg, { s with kv := kv, joint := some cfg })

def leaveJoint : Except EtcdError ClusterStore :=
  match s.joint with
  | none => .error .noJointConfig
  | some cfg =>
    let kept := s.kv.members.filter fun m => m.id ∈ cfg.incoming ++ cfg.learners
    .ok { s with joint := none, kv := { s.kv with members := kept } }

def votingMemberCount : ℕ := (voters s.kv.members).length

def quorumSizeFor (n : ℕ) : ℕ := if n = 0 then 1 else n / 2 + 1

def armAutoLeaveJoint (triggerIndex : ℕ) : ClusterStore :=
  { s with autoLeaveJointAtIndex := triggerIndex }

def advanceCommitIndex (idx : ℕ) : ClusterStore :=
  let s := { s with commitIndex := max s.commitIndex idx }
  let trigger := s.autoLeaveJointAtIndex
  if 0 < trigger ∧ trigger ≤ s.commitIndex ∧ s.joint.isSome then
    { s.leaveJoint.toOption.getD s with autoLeaveJointAtIndex := 0 }
  else s

def recordMatchIndex (memberId idx : ℕ) : ClusterStore :=
  { s with matchIndex := s.matchIndex.insert memberId idx }

/-- The index that a member has acknowledged. -/
def acked (matchIndex : Table ℕ ℕ) (id : ℕ) : ℕ := (matchIndex.lookup id).getD 0

/-- Rust `commit_via_match_index`. The place is one of the list, since a quorum is not larger than it. -/
def commitViaMatchIndex : Option ℕ :=
  let voters := voterIds s.kv.members
  if voters = [] then none
  else
    let indexes := (voters.map (acked s.matchIndex)).insertionSort (· ≤ ·)
    some (indexes.getD (indexes.length - quorumSizeFor voters.length) 0)

end ClusterStore

/-- Rust `u64::MAX`. -/
def u64Max : ℕ := 2 ^ 64 - 1

def majorityCommittedIndex (voters : List ℕ) (matchIdx : Table ℕ ℕ) : ℕ :=
  if voters = [] then u64Max
  else
    let indices := (voters.map (ClusterStore.acked matchIdx)).insertionSort (· ≥ ·)
    indices.getD (voters.length / 2 + 1 - 1) 0

def jointCommittedIndex (cOld cNew : List ℕ) (matchIdx : Table ℕ ℕ) : ℕ :=
  min (majorityCommittedIndex cOld matchIdx) (majorityCommittedIndex cNew matchIdx)

/-- A call that changes the members, the joint configuration or the Raft indices. -/
inductive ClusterOp where
  | memberAdd (req : MemberAddRequest)
  | memberRemove (id : ℕ)
  | memberUpdate (id : ℕ) (peerUrls : List String)
  | memberPromote (id : ℕ)
  | enterJoint (req : EnterJointRequest)
  | leaveJoint
  | armAutoLeaveJoint (triggerIndex : ℕ)
  | advanceCommitIndex (idx : ℕ)
  | recordMatchIndex (memberId idx : ℕ)

/-- The store after a call. -/
def ClusterOp.apply (s : ClusterStore) : ClusterOp → ClusterStore
  | .memberAdd req => { s with kv := s.kv.memberAdd req }
  | .memberRemove id => { s with kv := (s.kv.memberRemove id).toOption.getD s.kv }
  | .memberUpdate id peerUrls => { s with kv := (s.kv.memberUpdate id peerUrls).toOption.getD s.kv }
  | .memberPromote id => { s with kv := (s.kv.memberPromote id).toOption.getD s.kv }
  | .enterJoint req => (s.enterJoint req).2
  | .leaveJoint => s.leaveJoint.toOption.getD s
  | .armAutoLeaveJoint triggerIndex => s.armAutoLeaveJoint triggerIndex
  | .advanceCommitIndex idx => s.advanceCommitIndex idx
  | .recordMatchIndex memberId idx => s.recordMatchIndex memberId idx

/-- A call, as a step of a run. -/
def ClusterStore.step (s : ClusterStore) (op : ClusterOp) : Option ClusterStore := some (op.apply s)

end Etcd
