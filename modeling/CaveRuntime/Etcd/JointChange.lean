import CaveRuntime.Etcd.Cluster

/-!
# The etcd-compatible store: entering and leaving joint configurations

`enter_joint` appends the new members before it checks that a voter is left, so a request that removes all
the voters fails and leaves the members it was to add. `leave_joint` keeps the members whose ids are those
of incoming voters or of learners; a removed voter that shares its id with a learner stays. Apart from
these, a request that fails changes nothing, and one that succeeds leads to the old voters and the added
ones without the removed ones.
-/

namespace Etcd

namespace KvStore

/-- The members that a list of requests makes. -/
def joiners (s : KvStore) : List MemberAddRequest → List Member
  | [] => []
  | add :: adds => s.newMember add :: (s.memberAdd add).joiners adds

lemma foldl_memberAdd_members (s : KvStore) (adds : List MemberAddRequest) :
    (adds.foldl memberAdd s).members = s.members ++ s.joiners adds := by
  induction adds generalizing s with
  | nil => exact (List.append_nil _).symm
  | cons add adds ih =>
    rw [List.foldl_cons, ih]
    exact List.append_assoc _ _ _

/-- The ids that `enter_joint` takes for the added voters are those of the members it appends. -/
lemma voterIds_joiners (s : KvStore) (adds : List MemberAddRequest) :
    voterIds (s.joiners adds) = ClusterStore.addedVoters (s.leaseCounter + 100) adds := by
  induction adds generalizing s with
  | nil => rfl
  | cons add adds ih =>
    have next : voterIds ((s.memberAdd add).joiners adds) =
        ClusterStore.addedVoters (s.leaseCounter + 100 + 1) adds := by
      rw [ih, Nat.add_right_comm]
      rfl
    cases learner : add.isLearner with
    | true => simp [joiners, voterIds, ClusterStore.addedVoters, newMember, learner, ← next]
    | false => simp [joiners, voterIds, ClusterStore.addedVoters, newMember, learner, ← next]

lemma joiners_eq_nil {s : KvStore} {adds : List MemberAddRequest} : s.joiners adds = [] ↔ adds = [] := by
  cases adds with
  | nil => exact iff_of_true rfl rfl
  | cons add adds => exact iff_of_false (List.cons_ne_nil _ _) (List.cons_ne_nil _ _)

end KvStore

namespace ClusterStore

variable {s : ClusterStore} {req : EnterJointRequest}

/-- The members with those that a request adds. -/
def enlarged (s : ClusterStore) (req : EnterJointRequest) : List Member :=
  s.kv.members ++ s.kv.joiners req.adds

/-- If the request fails, the members, the joint configuration and the number of voters are as before. -/
def FailsClean (s : ClusterStore) (req : EnterJointRequest) : Prop :=
  ∀ err s', s.enterJoint req = (.error err, s') →
    s'.kv.members = s.kv.members ∧ s'.joint = s.joint ∧ s'.votingMemberCount = s.votingMemberCount

/-- If the request succeeds, then after `leave_joint` the voters are the old ones and the added ones without
those that are removed. -/
def ChangesVoters (s : ClusterStore) (req : EnterJointRequest) : Prop :=
  ∀ cfg s', s.enterJoint req = (.ok cfg, s') → ∃ s'', s'.leaveJoint = .ok s'' ∧
    voters s''.kv.members = (voters s.kv.members ++ voters (s.kv.joiners req.adds)).filter
      fun m => m.id ∉ req.removes

/-- If a voter is left, no voter that is removed has the id of a learner; and if none is left, no member is
added. -/
def JointFits (s : ClusterStore) (req : EnterJointRequest) : Prop :=
  s.joint = none →
    if ∃ m ∈ voters (s.enlarged req), m.id ∉ req.removes then
      ∀ m ∈ voters (s.enlarged req), m.id ∈ req.removes → m.id ∉ learnerIds (s.enlarged req)
    else req.adds = []

lemma incoming_eq :
    (voterIds s.kv.members ++ addedVoters (s.kv.leaseCounter + 100) req.adds).filter
        (fun id => id ∉ req.removes) =
      ((voters (s.enlarged req)).filter fun m => m.id ∉ req.removes).map Member.id := by
  rw [← KvStore.voterIds_joiners, voterIds, voterIds, ← List.map_append, List.filter_map,
    ← List.filter_append]
  rfl

lemma enterJoint_error (free : s.joint = none)
    (gone : ¬ ∃ m ∈ voters (s.enlarged req), m.id ∉ req.removes) :
    s.enterJoint req =
      (.error .wouldBreakQuorum, { s with kv := req.adds.foldl KvStore.memberAdd s.kv }) := by
  have empty : (voters (s.enlarged req)).filter (fun m => m.id ∉ req.removes) = [] := by
    apply List.filter_eq_nil_iff.mpr
    intro m mem keeps
    exact gone ⟨m, mem, of_decide_eq_true keeps⟩
  unfold enterJoint
  rw [free]
  dsimp only
  rw [incoming_eq, empty]
  rfl

lemma enterJoint_ok (free : s.joint = none) (left : ∃ m ∈ voters (s.enlarged req), m.id ∉ req.removes) :
    ∃ cfg, s.enterJoint req = (.ok cfg, { s with
        kv := req.adds.foldl KvStore.memberAdd s.kv, joint := some cfg }) ∧
      cfg.incoming = ((voters (s.enlarged req)).filter fun m => m.id ∉ req.removes).map Member.id ∧
      cfg.learners = learnerIds (s.enlarged req) := by
  obtain ⟨m, mem, keeps⟩ := left
  have nonempty : ((voters (s.enlarged req)).filter fun m => m.id ∉ req.removes).map Member.id ≠ [] := by
    apply List.ne_nil_of_mem (a := m.id)
    exact List.mem_map_of_mem (List.mem_filter.mpr ⟨mem, decide_eq_true keeps⟩)
  unfold enterJoint
  rw [free]
  dsimp only
  rw [incoming_eq, if_neg nonempty, KvStore.foldl_memberAdd_members]
  exact ⟨_, rfl, rfl, rfl⟩

lemma voters_kept {cfg : JointConfig}
    (incoming : cfg.incoming = ((voters (s.enlarged req)).filter fun m => m.id ∉ req.removes).map Member.id)
    (learners : cfg.learners = learnerIds (s.enlarged req)) :
    voters ((s.enlarged req).filter fun m => m.id ∈ cfg.incoming ++ cfg.learners) =
      (voters (s.enlarged req)).filter
        fun m => m.id ∉ req.removes ∨ m.id ∈ learnerIds (s.enlarged req) := by
  unfold voters
  rw [List.filter_comm]
  apply List.filter_congr
  intro m mem
  rw [decide_eq_decide, incoming, learners, List.mem_append]
  refine or_congr_left ?_
  simp only [List.mem_map, List.mem_filter, decide_eq_true_eq]
  constructor
  · rintro ⟨m', ⟨_, keeps⟩, same⟩
    rwa [← same]
  · intro keeps
    exact ⟨m, ⟨mem, keeps⟩, rfl⟩

lemma failsClean_iff (free : s.joint = none) :
    s.FailsClean req ↔ ((∃ m ∈ voters (s.enlarged req), m.id ∉ req.removes) ∨ req.adds = []) := by
  by_cases left : ∃ m ∈ voters (s.enlarged req), m.id ∉ req.removes
  · refine iff_of_true ?_ (.inl left)
    intro err s' failed
    obtain ⟨cfg, eq, _⟩ := enterJoint_ok free left
    cases eq.symm.trans failed
  · rw [or_iff_right left]
    have eq := enterJoint_error free left
    constructor
    · intro clean
      have members := (clean _ _ eq).1
      rw [KvStore.foldl_memberAdd_members] at members
      exact KvStore.joiners_eq_nil.mp (List.append_right_eq_self.mp members)
    · intro nobody err s' failed
      cases eq.symm.trans failed
      rw [nobody]
      exact ⟨rfl, rfl, rfl⟩

lemma changesVoters_iff (free : s.joint = none) :
    s.ChangesVoters req ↔ ((∃ m ∈ voters (s.enlarged req), m.id ∉ req.removes) →
      ∀ m ∈ voters (s.enlarged req), m.id ∈ req.removes → m.id ∉ learnerIds (s.enlarged req)) := by
  by_cases left : ∃ m ∈ voters (s.enlarged req), m.id ∉ req.removes
  · rw [forall_prop_of_true left]
    obtain ⟨cfg, eq, incoming, learners⟩ := enterJoint_ok free left
    have split : voters s.kv.members ++ voters (s.kv.joiners req.adds) = voters (s.enlarged req) :=
      (List.filter_append _ _).symm
    have kept := voters_kept incoming learners
    have result : s.ChangesVoters req ↔
        (voters (s.enlarged req)).filter
            (fun m => m.id ∉ req.removes ∨ m.id ∈ learnerIds (s.enlarged req)) =
          (voters (s.enlarged req)).filter fun m => m.id ∉ req.removes := by
      rw [← kept, ← split]
      constructor
      · intro changes
        obtain ⟨s'', leaves, voters⟩ := changes _ _ eq
        cases leaves
        rw [KvStore.foldl_memberAdd_members] at voters
        exact voters
      · intro same cfg' s' entered
        cases eq.symm.trans entered
        refine ⟨_, rfl, ?_⟩
        rw [KvStore.foldl_memberAdd_members]
        exact same
    rw [result]
    constructor
    · intro same m mem removed learner
      have stays : m ∈ (voters (s.enlarged req)).filter
          (fun m => m.id ∉ req.removes ∨ m.id ∈ learnerIds (s.enlarged req)) :=
        List.mem_filter.mpr ⟨mem, decide_eq_true (.inr learner)⟩
      rw [same] at stays
      exact of_decide_eq_true (List.mem_filter.mp stays).2 removed
    · intro apart
      apply List.filter_congr
      intro m mem
      rw [decide_eq_decide]
      exact or_iff_left_of_imp fun learner removed => apart m mem removed learner
  · refine iff_of_true ?_ fun some => absurd some left
    intro cfg s' entered
    cases (enterJoint_error free left).symm.trans entered

/-- `enter_joint` changes nothing when it fails, and with `leave_joint` makes the change that was asked for
when it succeeds, exactly if the request fits. -/
theorem enterJoint_atomic_iff (s : ClusterStore) (req : EnterJointRequest) :
    s.FailsClean req ∧ s.ChangesVoters req ↔ s.JointFits req := by
  unfold JointFits
  cases joint : s.joint with
  | some cfg =>
    have busy : s.enterJoint req = (.error .jointConfigInProgress, s) := by
      unfold enterJoint
      rw [joint]
      rfl
    refine iff_of_true ⟨?_, ?_⟩ nofun
    · intro err s' failed
      cases busy.symm.trans failed
      exact ⟨rfl, rfl, rfl⟩
    · intro cfg s' entered
      cases busy.symm.trans entered
  | none =>
    rw [failsClean_iff joint, changesVoters_iff joint, forall_prop_of_true rfl]
    split
    · rename_i left
      rw [forall_prop_of_true left, and_iff_right (.inl left)]
    · rename_i gone
      rw [or_iff_right gone, and_iff_left fun left => absurd left gone]

/-- The only voter is removed and a learner is added. -/
def removeLastVoter : EnterJointRequest := { adds := [{ isLearner := true }], removes := [1] }

/-- Voters 1 and 7 and a learner whose id is 7 as well, and a request that removes 7. -/
def sharedId : ClusterStore :=
  { kv := { members := [⟨1, "a", [], [], false⟩, ⟨7, "b", [], [], false⟩, ⟨7, "c", [], [], true⟩] } }

/-- The request fails and leaves the learner; and the removed voter stays. -/
theorem enterJoint_not_atomic :
    (∃ s', enterJoint {} removeLastVoter = (.error .wouldBreakQuorum, s') ∧
        s'.kv.members.map Member.id = [1, 101]) ∧
      ∃ cfg s' s'', sharedId.enterJoint { removes := [7] } = (.ok cfg, s') ∧ s'.leaveJoint = .ok s'' ∧
        voterIds s''.kv.members = [1, 7] := by
  exact ⟨⟨_, rfl, rfl⟩, _, _, _, rfl, rfl, rfl⟩

end ClusterStore

end Etcd
