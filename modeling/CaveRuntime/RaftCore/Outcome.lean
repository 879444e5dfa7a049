import CaveRuntime.RaftCore.Handlers

/-!
# RaftCore: what a handler call can do

One inductive predicate per fallible handler lists every way a call can end: the result it returns and
the host it leaves, the failing saves included. The invariants of `RaftCore/Election.lean`,
`RaftCore/Durability.lean` and `RaftCore/Simulation.lean` are case analyses of these predicates; none
of them unfolds a handler.
-/

namespace RaftCore
open Handler RaftCore.Core

namespace Core

/-- What `become_follower` does to the core before it saves. -/
def stepDown (c : Core) (term : ℕ) (leader : Option ℕ) : Core :=
  { c with
    role := .follower
    leaderId := leader
    votesReceived := ∅
    persistent :=
      if term ≠ c.currentTerm then { c.persistent with currentTerm := term, votedFor := none }
      else c.persistent }

/-- The core with another timer. -/
def withTimer (c : Core) (tm : Timer) : Core := { c with timer := tm }

/-- What `become_candidate` does to the core before it saves. -/
def campaign (c : Core) : Core :=
  { c with
    role := .candidate
    leaderId := none
    persistent := { c.persistent with
      currentTerm := c.currentTerm + 1, votedFor := some c.localId } }

/-- The core with a vote recorded. -/
def voteFor (c : Core) (id : ℕ) : Core :=
  { c with persistent := { c.persistent with votedFor := some id } }

/-- Whether `handle_append_entries` calls `become_follower`. -/
def stepsDown (c : Core) (args : AppendEntriesArgs) : Prop :=
  c.currentTerm < args.term ∨ (c.role = .candidate ∧ args.term = c.currentTerm)
deriving Decidable

/-- The core once `handle_append_entries` has recognised the leader. -/
def follow (c : Core) (args : AppendEntriesArgs) : Core :=
  { (if c.stepsDown args then c.stepDown args.term (some args.leaderId) else c) with
    leaderId := some args.leaderId
    role := .follower }

/-- The log and the `applied_any` flag after the append loop. -/
def merge (c : Core) (entries : List LogEntry) : List LogEntry × Bool :=
  entries.foldl appendOne (c.log, false)

section Fields

variable (c : Core) (term : ℕ) (leader : Option ℕ) (tm : Timer)

@[simp] lemma stepDown_currentTerm : (c.stepDown term leader).currentTerm = term := by
  unfold stepDown currentTerm
  split <;> simp_all

@[simp] lemma stepDown_log : (c.stepDown term leader).log = c.log := by
  unfold stepDown log
  split <;> rfl

lemma stepDown_votedFor :
    (c.stepDown term leader).votedFor = if term ≠ c.currentTerm then none else c.votedFor := by
  unfold stepDown votedFor
  split <;> rfl

@[simp] lemma stepDown_commitIndex : (c.stepDown term leader).commitIndex = c.commitIndex := rfl

@[simp] lemma withTimer_currentTerm : (c.withTimer tm).currentTerm = c.currentTerm := rfl

end Fields

end Core

/-- `become_follower` steps down, and resets the timer once the save succeeded. -/
lemma becomeFollower_cases (term : ℕ) (leader : Option ℕ) (now : ℕ) (h : Host) :
    (∃ tm sv, becomeFollower term leader now h =
        (.ok (), ⟨(h.core.stepDown term leader).withTimer tm,
          some (h.core.stepDown term leader).persistent, sv⟩)) ∨
      ∃ sv, becomeFollower term leader now h =
        (.error .save, ⟨h.core.stepDown term leader, h.disk, sv⟩) := by
  have eq : becomeFollower term leader now h =
      (savePersistent >>= fun _ => modifyCore (resetElectionDeadline now))
        { h with core := h.core.stepDown term leader } := by
    unfold becomeFollower setTermAndPersist
    rw [modifyCore_bind]
    by_cases ht : term = h.core.currentTerm
    · simp [bind_apply, stepDown, ht, Core.currentTerm]
    · have ht' : term ≠ h.core.persistent.currentTerm := ht
      simp [bind_apply, stepDown, ht', Core.currentTerm]
  rw [eq]
  rcases savePersistent_cases { h with core := h.core.stepDown term leader } with hs | hs
  · rw [bind_ok hs]
    exact .inl ⟨_, _, rfl⟩
  · rw [bind_error hs]
    exact .inr ⟨_, rfl⟩

/-- `become_candidate` starts a new term and votes for itself; the votes it has counted are cleared
once the save succeeded. -/
lemma becomeCandidate_cases (now : ℕ) (h : Host) :
    (∃ tm sv, becomeCandidate now h =
        (.ok (), ⟨{ h.core.campaign with votesReceived := {h.core.localId}, timer := tm },
          some h.core.campaign.persistent, sv⟩)) ∨
      ∃ sv, becomeCandidate now h = (.error .save, ⟨h.core.campaign, h.disk, sv⟩) := by
  have eq : becomeCandidate now h =
      (savePersistent >>= fun _ => modifyCore fun c =>
        resetElectionDeadline now { c with votesReceived := {c.localId} })
        { h with core := h.core.campaign } := rfl
  rw [eq]
  rcases savePersistent_cases { h with core := h.core.campaign } with hs | hs
  · rw [bind_ok hs]
    exact .inl ⟨_, _, rfl⟩
  · rw [bind_error hs]
    exact .inr ⟨_, rfl⟩

/-- The node is in the term of a request it does not refuse as stale. -/
inductive Entered (term : ℕ) (h : Host) : Host → Prop where
  | same {sv} :
    h.core.currentTerm = term →
    Entered term h ⟨h.core, h.disk, sv⟩
  | stepped {tm sv} :
    h.core.currentTerm < term →
    Entered term h ⟨(h.core.stepDown term none).withTimer tm,
      some (h.core.stepDown term none).persistent, sv⟩

/-- The vote checks of `handle_request_vote` pass. -/
structure MayVote (args : RequestVoteArgs) (c : Core) : Prop where
  free : c.votedFor = none ∨ c.votedFor = some args.candidateId
  upToDate : candidateLogAtLeastAsUpToDate args.lastLogTerm args.lastLogIndex
    c.lastLogTerm c.lastLogIndex = true

/-- The ways `handle_request_vote` can end. -/
inductive VoteOutcome (args : RequestVoteArgs) (h : Host) :
    Except IoError RequestVoteReply → Host → Prop where
  | stale :
    args.term < h.core.currentTerm →
    VoteOutcome args h (.ok ⟨h.core.currentTerm, false⟩) h
  | lost {sv} :
    h.core.currentTerm < args.term →
    VoteOutcome args h (.error .save) ⟨h.core.stepDown args.term none, h.disk, sv⟩
  | refused {h1} :
    Entered args.term h h1 →
    VoteOutcome args h (.ok ⟨args.term, false⟩) h1
  | unsaved {h1 sv} :
    Entered args.term h h1 →
    MayVote args h1.core →
    VoteOutcome args h (.error .save) ⟨h1.core.voteFor args.candidateId, h1.disk, sv⟩
  | granted {h1 tm sv} :
    Entered args.term h h1 →
    MayVote args h1.core →
    VoteOutcome args h (.ok ⟨args.term, true⟩)
      ⟨(h1.core.voteFor args.candidateId).withTimer tm,
        some (h1.core.voteFor args.candidateId).persistent, sv⟩

lemma Entered.currentTerm {term : ℕ} {h h1 : Host} (en : Entered term h h1) :
    h1.core.currentTerm = term := by
  cases en with
  | same eq => exact eq
  | stepped _ => simp

/-- The checks of `handle_request_vote` after the term has been settled. -/
def decideVote (args : RequestVoteArgs) (now : ℕ) : Handler RequestVoteReply := do
  let c ← getCore
  if c.votedFor.any (· ≠ args.candidateId) then
    return { term := c.currentTerm, voteGranted := false }
  if ¬ candidateLogAtLeastAsUpToDate args.lastLogTerm args.lastLogIndex
      c.lastLogTerm c.lastLogIndex then
    return { term := c.currentTerm, voteGranted := false }
  recordVoteAndPersist args.candidateId
  modifyCore (resetElectionDeadline now)
  let c ← getCore
  return { term := c.currentTerm, voteGranted := true }

/-- How `handle_request_vote` ends once the term is current. -/
lemma decideVote_outcome {args : RequestVoteArgs} {now : ℕ} {h h1 : Host}
    (en : Entered args.term h h1) :
    VoteOutcome args h (decideVote args now h1).1 (decideVote args now h1).2 := by
  have term := en.currentTerm
  unfold decideVote
  rw [getCore_bind]
  by_cases voted : h1.core.votedFor.any (· ≠ args.candidateId) = true
  · rw [if_pos voted, pure_apply, term]
    exact .refused en
  rw [if_neg voted]
  by_cases up : candidateLogAtLeastAsUpToDate args.lastLogTerm args.lastLogIndex
      h1.core.lastLogTerm h1.core.lastLogIndex = true
  · rw [if_neg (not_not.mpr up)]
    have may : MayVote args h1.core := by
      refine ⟨?_, up⟩
      cases hv : h1.core.votedFor with
      | none => exact .inl rfl
      | some other =>
        rw [hv] at voted
        simp at voted
        exact .inr (by rw [voted])
    have eq : recordVoteAndPersist args.candidateId h1 =
        savePersistent { h1 with core := h1.core.voteFor args.candidateId } := rfl
    rcases savePersistent_cases { h1 with core := h1.core.voteFor args.candidateId } with hs | hs
    · rw [bind_ok (eq.trans hs), modifyCore_bind, getCore_bind, pure_apply]
      change VoteOutcome args h (.ok ⟨h1.core.currentTerm, true⟩) _
      rw [term]
      exact .granted en may
    · rw [bind_error (eq.trans hs)]
      exact .unsaved en may
  · rw [if_pos up, pure_apply, term]
    exact .refused en

/-- Every call of `handle_request_vote` ends in one of the listed ways. -/
theorem handleRequestVote_outcome (args : RequestVoteArgs) (now : ℕ) (h : Host) :
    VoteOutcome args h (handleRequestVote args now h).1 (handleRequestVote args now h).2 := by
  unfold handleRequestVote
  rw [getCore_bind]
  by_cases stale : args.term < h.core.currentTerm
  · rw [if_pos stale]
    exact .stale stale
  rw [if_neg stale]
  by_cases higher : h.core.currentTerm < args.term
  · rw [if_pos higher]
    rcases becomeFollower_cases args.term none now h with ⟨tm, sv, hb⟩ | ⟨sv, hb⟩
    · rw [bind_ok hb]
      exact decideVote_outcome (.stepped higher)
    · rw [bind_error hb]
      exact .lost higher
  · rw [if_neg higher]
    have eq : h.core.currentTerm = args.term := by omega
    exact decideVote_outcome (.same eq)

/-- The file once `handle_append_entries` has recognised the leader. -/
def Host.followDisk (h : Host) (args : AppendEntriesArgs) : Option PersistentState :=
  if h.core.stepsDown args then some (h.core.follow args).persistent else h.disk

/-- The ways `handle_append_entries` can end. -/
inductive AppendOutcome (args : AppendEntriesArgs) (h : Host) :
    Except IoError AppendEntriesReply → Host → Prop where
  | stale :
    args.term < h.core.currentTerm →
    AppendOutcome args h (.ok ⟨h.core.currentTerm, false, 0⟩) h
  | lost {sv} :
    ¬ args.term < h.core.currentTerm →
    h.core.stepsDown args →
    AppendOutcome args h (.error .save)
      ⟨h.core.stepDown args.term (some args.leaderId), h.disk, sv⟩
  | rejected {k tm sv} :
    ¬ args.term < h.core.currentTerm →
    prevLogConflict (h.core.follow args) args = some k →
    AppendOutcome args h (.ok ⟨args.term, false, k⟩)
      ⟨(h.core.follow args).withTimer tm, h.followDisk args, sv⟩
  | unsaved {tm sv} :
    ¬ args.term < h.core.currentTerm →
    prevLogConflict (h.core.follow args) args = none →
    (h.core.merge args.entries).2 = true →
    AppendOutcome args h (.error .save)
      ⟨((h.core.follow args).setLog (h.core.merge args.entries).1).withTimer tm,
        h.followDisk args, sv⟩
  | accepted {tm sv} :
    ¬ args.term < h.core.currentTerm →
    prevLogConflict (h.core.follow args) args = none →
    AppendOutcome args h (.ok ⟨args.term, true, 0⟩)
      ⟨(((h.core.follow args).setLog (h.core.merge args.entries).1).followCommit
          args.leaderCommit).withTimer tm,
        if (h.core.merge args.entries).2 then
          some ((h.core.follow args).setLog (h.core.merge args.entries).1).persistent
        else h.followDisk args, sv⟩

namespace Core

@[simp] lemma follow_log (c : Core) (args : AppendEntriesArgs) : (c.follow args).log = c.log := by
  unfold follow
  split
  · exact stepDown_log c args.term (some args.leaderId)
  · rfl

@[simp] lemma follow_role (c : Core) (args : AppendEntriesArgs) :
    (c.follow args).role = .follower := rfl

lemma follow_currentTerm {c : Core} {args : AppendEntriesArgs}
    (fresh : ¬ args.term < c.currentTerm) : (c.follow args).currentTerm = args.term := by
  unfold follow
  split
  · exact stepDown_currentTerm c args.term (some args.leaderId)
  · rename_i no
    have : ¬ c.currentTerm < args.term := fun lt => no (.inl lt)
    change c.currentTerm = args.term
    omega

@[simp] lemma follow_localId (c : Core) (args : AppendEntriesArgs) :
    (c.follow args).localId = c.localId := by
  unfold follow
  split <;> rfl

@[simp] lemma follow_members (c : Core) (args : AppendEntriesArgs) :
    (c.follow args).members = c.members := by
  unfold follow
  split <;> rfl

@[simp] lemma follow_commitIndex (c : Core) (args : AppendEntriesArgs) :
    (c.follow args).commitIndex = c.commitIndex := by
  unfold follow
  split <;> rfl

@[simp] lemma follow_lastApplied (c : Core) (args : AppendEntriesArgs) :
    (c.follow args).lastApplied = c.lastApplied := by
  unfold follow
  split <;> rfl

end Core

/-- The part of `handle_append_entries` after the leader has been recognised. -/
def receiveEntries (args : AppendEntriesArgs) : Handler AppendEntriesReply := do
  let c ← getCore
  match prevLogConflict c args with
  | some conflict =>
    return { term := c.currentTerm, success := false, conflictIndex := conflict }
  | none =>
    let (log, appliedAny) := args.entries.foldl appendOne (c.log, false)
    modifyCore fun c => c.setLog log
    if appliedAny then
      savePersistent
    modifyCore fun c => c.followCommit args.leaderCommit
    let c ← getCore
    return { term := c.currentTerm, success := true, conflictIndex := 0 }

/-- How `handle_append_entries` ends once the leader is recognised. -/
lemma receiveEntries_outcome {args : AppendEntriesArgs} (h : Host) (tm : Timer) (sv : List Bool)
    (fresh : ¬ args.term < h.core.currentTerm) :
    let h1 : Host := ⟨(h.core.follow args).withTimer tm, h.followDisk args, sv⟩
    AppendOutcome args h (receiveEntries args h1).1 (receiveEntries args h1).2 := by
  intro h1
  have term : h1.core.currentTerm = args.term := follow_currentTerm fresh
  have log : h1.core.log = h.core.log := follow_log h.core args
  unfold receiveEntries
  rw [getCore_bind]
  have conf : prevLogConflict h1.core args = prevLogConflict (h.core.follow args) args := rfl
  cases hc : prevLogConflict (h.core.follow args) args with
  | some k =>
    simp only [conf, hc, pure_apply, term]
    exact .rejected fresh hc
  | none =>
    simp only [conf, hc, log]
    have mrg : args.entries.foldl appendOne (h.core.log, false) = h.core.merge args.entries := rfl
    rw [mrg, modifyCore_bind]
    by_cases app : (h.core.merge args.entries).2 = true
    · rw [if_pos app]
      rcases savePersistent_cases
        { h1 with core := h1.core.setLog (h.core.merge args.entries).1 } with hs | hs
      · rw [bind_ok hs, modifyCore_bind, getCore_bind, pure_apply]
        have key := @AppendOutcome.accepted args h tm h1.saves.tail fresh hc
        rw [if_pos app, ← term] at key
        exact key
      · rw [bind_error hs]
        exact .unsaved fresh hc app
    · rw [if_neg app, modifyCore_bind, getCore_bind, pure_apply]
      have key := @AppendOutcome.accepted args h tm sv fresh hc
      rw [if_neg app, ← term] at key
      exact key

/-- Every call of `handle_append_entries` ends in one of the listed ways. -/
theorem handleAppendEntries_outcome (args : AppendEntriesArgs) (now : ℕ) (h : Host) :
    AppendOutcome args h (handleAppendEntries args now h).1 (handleAppendEntries args now h).2 := by
  unfold handleAppendEntries
  rw [getCore_bind]
  by_cases stale : args.term < h.core.currentTerm
  · rw [if_pos stale]
    exact .stale stale
  rw [if_neg stale]
  change AppendOutcome args h ((if h.core.stepsDown args then _ else _ : Handler _) h).1
    ((if h.core.stepsDown args then _ else _ : Handler _) h).2
  by_cases steps : h.core.stepsDown args
  · rw [if_pos steps]
    rcases becomeFollower_cases args.term (some args.leaderId) now h with ⟨tm, sv, hb⟩ | ⟨sv, hb⟩
    · rw [bind_ok hb]
      have disk : h.followDisk args =
          some (h.core.stepDown args.term (some args.leaderId)).persistent := by
        unfold Host.followDisk follow
        rw [if_pos steps, if_pos steps]
      have core : h.core.follow args =
          { h.core.stepDown args.term (some args.leaderId) with
            leaderId := some args.leaderId, role := .follower } := by
        unfold follow
        rw [if_pos steps]
      rw [← disk]
      have key := receiveEntries_outcome h
        (resetElectionDeadline now
          { (h.core.stepDown args.term (some args.leaderId)).withTimer tm with
            leaderId := some args.leaderId, role := .follower }).timer sv stale
      rw [core] at key
      exact key
    · rw [bind_error hb]
      exact .lost stale steps
  · rw [if_neg steps]
    have disk : h.followDisk args = h.disk := by
      unfold Host.followDisk
      rw [if_neg steps]
    have core : h.core.follow args =
        { h.core with leaderId := some args.leaderId, role := .follower } := by
      unfold follow
      rw [if_neg steps]
    have key := receiveEntries_outcome h
      (resetElectionDeadline now
        { h.core with leaderId := some args.leaderId, role := .follower }).timer h.saves stale
    rw [disk, core] at key
    exact key

/-- The ways `handle_request_vote_reply` can end. -/
inductive VoteReplyOutcome (src : ℕ) (reply : RequestVoteReply) (h : Host) :
    Except IoError Unit → Host → Prop where
  | lost {sv} :
    h.core.currentTerm < reply.term →
    VoteReplyOutcome src reply h (.error .save) ⟨h.core.stepDown reply.term none, h.disk, sv⟩
  | stepped {tm sv} :
    h.core.currentTerm < reply.term →
    VoteReplyOutcome src reply h (.ok ())
      ⟨(h.core.stepDown reply.term none).withTimer tm,
        some (h.core.stepDown reply.term none).persistent, sv⟩
  | ignored :
    VoteReplyOutcome src reply h (.ok ()) h
  | counted :
    h.core.role = .candidate →
    reply.term = h.core.currentTerm →
    reply.voteGranted = true →
    (insert src h.core.votesReceived).card < h.core.majority →
    VoteReplyOutcome src reply h (.ok ())
      ⟨{ h.core with votesReceived := insert src h.core.votesReceived }, h.disk, h.saves⟩
  | elected {now} :
    h.core.role = .candidate →
    reply.term = h.core.currentTerm →
    reply.voteGranted = true →
    h.core.majority ≤ (insert src h.core.votesReceived).card →
    VoteReplyOutcome src reply h (.ok ())
      ⟨Core.becomeLeader now { h.core with votesReceived := insert src h.core.votesReceived },
        h.disk, h.saves⟩

/-- Every call of `handle_request_vote_reply` ends in one of the listed ways. -/
theorem handleRequestVoteReply_outcome (src : ℕ) (reply : RequestVoteReply) (now : ℕ) (h : Host) :
    VoteReplyOutcome src reply h (handleRequestVoteReply src reply now h).1
      (handleRequestVoteReply src reply now h).2 := by
  unfold handleRequestVoteReply
  rw [getCore_bind]
  by_cases higher : h.core.currentTerm < reply.term
  · rw [if_pos higher]
    rcases becomeFollower_cases reply.term none now h with ⟨tm, sv, hb⟩ | ⟨sv, hb⟩
    · rw [bind_ok hb]
      exact .stepped higher
    · rw [bind_error hb]
      exact .lost higher
  rw [if_neg higher]
  by_cases skip : h.core.role ≠ .candidate ∨ reply.term < h.core.currentTerm
  · rw [if_pos skip]
    exact .ignored
  rw [if_neg skip]
  obtain ⟨cand, ge⟩ := not_or.mp skip
  have cand : h.core.role = .candidate := not_not.mp cand
  have term : reply.term = h.core.currentTerm := by omega
  by_cases granted : reply.voteGranted = true
  · rw [if_pos granted, modifyCore_bind, modifyCore_apply]
    let c : Core := { h.core with votesReceived := insert src h.core.votesReceived }
    change VoteReplyOutcome src reply h (.ok ())
      ⟨if c.majority ≤ c.votesReceived.card then c.becomeLeader now else c, h.disk, h.saves⟩
    by_cases maj : c.majority ≤ c.votesReceived.card
    · rw [if_pos maj]
      exact .elected cand term granted maj
    · rw [if_neg maj]
      exact .counted cand term granted (not_le.mp maj)
  · rw [if_neg granted]
    exact .ignored

namespace Core

/-- `advance_commit_index` leaves the commit index, or moves it to an index of the current term that a
majority is known to hold. -/
lemma advanceCommitIndex_cases (c : Core) :
    c.advanceCommitIndex = c ∨ ∃ k, c.commitIndex < k ∧ k ≤ c.lastLogIndex ∧
      c.majority ≤ c.replicas k ∧ (logAt c.log k).map (·.term) = some c.currentTerm ∧
      c.advanceCommitIndex = { c with commitIndex := k } := by
  have walk : ∀ n, c.advanceFrom n = c ∨ ∃ k, c.commitIndex < k ∧ k ≤ n ∧
      c.majority ≤ c.replicas k ∧ (logAt c.log k).map (·.term) = some c.currentTerm ∧
      c.advanceFrom n = { c with commitIndex := k } := by
    intro n
    induction n with
    | zero => exact .inl rfl
    | succ n ih =>
      unfold advanceFrom
      split
      · rename_i lt
        split
        · rename_i maj
          exact .inr ⟨n + 1, lt, le_refl _, maj.1, maj.2, rfl⟩
        · rcases ih with eq | ⟨k, lt', le, rest⟩
          · exact .inl eq
          · exact .inr ⟨k, lt', le.trans (Nat.le_succ n), rest⟩
      · exact .inl rfl
  unfold advanceCommitIndex
  split
  · exact .inl rfl
  · exact walk c.lastLogIndex

/-- A successful reply changes the progress maps and moves the commit index up, inside the log. -/
lemma progress_frame (c : Core) (src newMatch : ℕ) :
    ∃ mi ni k, c.commitIndex ≤ k ∧ k ≤ max c.commitIndex c.lastLogIndex ∧
      (c.recordMatch src newMatch).advanceCommitIndex =
        { c with matchIndex := mi, nextIndex := ni, commitIndex := k } := by
  obtain ⟨mi, ni, recd⟩ : ∃ mi ni, c.recordMatch src newMatch =
      { c with matchIndex := mi, nextIndex := ni } := by
    unfold recordMatch
    split
    · exact ⟨_, _, rfl⟩
    · exact ⟨c.matchIndex, c.nextIndex, rfl⟩
  rcases advanceCommitIndex_cases (c.recordMatch src newMatch) with eq | ⟨k, lt, le, _, _, eq⟩
  · exact ⟨mi, ni, c.commitIndex, le_refl _, le_max_left _ _, eq.trans recd⟩
  · rw [recd] at lt le
    exact ⟨mi, ni, k, lt.le, le.trans (le_max_right _ _), by rw [eq, recd]⟩

end Core

/-- The ways `handle_append_entries_reply` can end. -/
inductive AppendReplyOutcome (src : ℕ) (reply : AppendEntriesReply) (prev len : ℕ) (h : Host) :
    Except IoError Unit → Host → Prop where
  | lost {sv} :
    h.core.currentTerm < reply.term →
    AppendReplyOutcome src reply prev len h (.error .save)
      ⟨h.core.stepDown reply.term none, h.disk, sv⟩
  | stepped {tm sv} :
    h.core.currentTerm < reply.term →
    AppendReplyOutcome src reply prev len h (.ok ())
      ⟨(h.core.stepDown reply.term none).withTimer tm,
        some (h.core.stepDown reply.term none).persistent, sv⟩
  | ignored :
    AppendReplyOutcome src reply prev len h (.ok ()) h
  | matched :
    h.core.role = .leader →
    ¬ h.core.currentTerm < reply.term →
    reply.success = true →
    AppendReplyOutcome src reply prev len h (.ok ())
      ⟨(h.core.recordMatch src (prev + len)).advanceCommitIndex, h.disk, h.saves⟩
  | conflict :
    h.core.role = .leader →
    AppendReplyOutcome src reply prev len h (.ok ())
      ⟨h.core.backtrack src reply.conflictIndex, h.disk, h.saves⟩

/-- Every call of `handle_append_entries_reply` ends in one of the listed ways. -/
theorem handleAppendEntriesReply_outcome (src : ℕ) (reply : AppendEntriesReply) (prev len now : ℕ)
    (h : Host) :
    AppendReplyOutcome src reply prev len h (handleAppendEntriesReply src reply prev len now h).1
      (handleAppendEntriesReply src reply prev len now h).2 := by
  unfold handleAppendEntriesReply
  rw [getCore_bind]
  by_cases higher : h.core.currentTerm < reply.term
  · rw [if_pos higher]
    rcases becomeFollower_cases reply.term none now h with ⟨tm, sv, hb⟩ | ⟨sv, hb⟩
    · rw [bind_ok hb]
      exact .stepped higher
    · rw [bind_error hb]
      exact .lost higher
  rw [if_neg higher]
  by_cases skip : h.core.role ≠ .leader
  · rw [if_pos skip]
    exact .ignored
  rw [if_neg skip]
  have lead : h.core.role = .leader := not_not.mp skip
  by_cases success : reply.success = true
  · rw [if_pos success]
    exact .matched lead higher success
  · rw [if_neg success]
    exact .conflict lead

/-- The ways `tick` can end. -/
inductive TickOutcome (h : Host) : Except IoError (List Outbound) → Host → Prop where
  | idle :
    TickOutcome h (.ok []) h
  | heartbeat {tm} :
    h.core.role = .leader →
    TickOutcome h (.ok h.core.appendRequests) ⟨h.core.withTimer tm, h.disk, h.saves⟩
  | unsaved {sv} :
    h.core.role ≠ .leader →
    TickOutcome h (.error .save) ⟨h.core.campaign, h.disk, sv⟩
  | campaigned {tm sv} :
    h.core.role ≠ .leader →
    TickOutcome h (.ok h.core.campaign.voteRequests)
      ⟨{ h.core.campaign with votesReceived := {h.core.localId}, timer := tm },
        some h.core.campaign.persistent, sv⟩

/-- Every call of `tick` ends in one of the listed ways. -/
theorem tick_outcome (now : ℕ) (h : Host) : TickOutcome h (tick now h).1 (tick now h).2 := by
  have elect : h.core.role ≠ .leader →
      let x : Handler (List Outbound) :=
        if h.core.timer.electionDeadline ≤ now then do
          becomeCandidate now
          let c ← getCore
          return c.voteRequests
        else return []
      TickOutcome h (x h).1 (x h).2 := by
    intro ne x
    by_cases due : h.core.timer.electionDeadline ≤ now
    · simp only [x, if_pos due]
      rcases becomeCandidate_cases now h with ⟨tm, sv, hb⟩ | ⟨sv, hb⟩
      · rw [bind_ok hb]
        exact .campaigned ne
      · rw [bind_error hb]
        exact .unsaved ne
    · simp only [x, if_neg due]
      exact .idle
  unfold tick
  rw [getCore_bind]
  cases role : h.core.role with
  | leader =>
    by_cases due : h.core.timer.nextHeartbeatDeadline ≤ now
    · simp only [if_pos due]
      exact .heartbeat role
    · simp only [if_neg due]
      exact .idle
  | follower => exact elect (by simp [role])
  | candidate => exact elect (by simp [role])

/-- `propose` appends an entry of the current term and saves it, or leaves the core as it was. -/
lemma propose_cases (command : Command) (h : Host) :
    (∃ e sv, propose command h = (.error e, ⟨h.core, h.disk, sv⟩)) ∨
      (h.core.role = .leader ∧ ∃ sv,
        let c := h.core.setLog
          (h.core.log ++ [⟨h.core.currentTerm, h.core.lastLogIndex + 1, command⟩])
        propose command h = (.ok (h.core.lastLogIndex + 1), ⟨c, some c.persistent, sv⟩)) := by
  unfold propose
  by_cases lead : h.core.role ≠ .leader
  · rw [if_pos lead]
    exact .inl ⟨_, _, rfl⟩
  rw [if_neg lead]
  have undo : ∀ e, (h.core.setLog (h.core.log ++ [e])).setLog
      (h.core.setLog (h.core.log ++ [e])).log.dropLast = h.core := by
    intro e
    simp [setLog, Core.log]
  let l := h.core.log ++ [⟨h.core.currentTerm, h.core.lastLogIndex + 1, command⟩]
  rcases savePersistent_cases { h with core := h.core.setLog l } with hs | hs
  · refine .inr ⟨not_not.mp lead, h.saves.tail, ?_⟩
    dsimp only
    rw [hs]
  · refine .inl ⟨⟨h.core.role, h.core.leaderId⟩, h.saves.tail, ?_⟩
    dsimp only
    rw [hs]
    simp only [l, undo]

end RaftCore
