import CaveRuntime.RaftCore.Cluster
import CaveRuntime.RaftCore.Log
import CaveRuntime.Replication.Safety

/-!
# RaftCore refines the replicated log protocol

`Sim C s` relates a cluster to a state of the protocol of `Replication/Protocol.lean`. Every call of a
handler is matched by steps of the protocol taken by the node that is called, so the protocol's
invariant and its safety theorem carry over. Packets are read as facts about the protocol's history
(`PacketOk`); the history only grows, so a packet can be delivered at any later time.

The one call that has no counterpart is `handle_append_entries_reply` with a reply of an older term: it
counts an acknowledgement that belongs to another leadership. `FreshReply` excludes it.
-/

namespace RaftCore
open RaftCore.Core Replication

/-- States of the protocol over this cluster's node ids and entries. -/
abbrev Ghost := Replication.State ℕ LogEntry

/-- A protocol step of node `n` with the majorities of `ms` as quorums. -/
abbrev Move (ms : List ℕ) (n : ℕ) (s s' : Ghost) : Prop :=
  Step LogEntry.term (QuorumSystem.majority ms) n s s'

abbrev Moves (ms : List ℕ) (n : ℕ) (s s' : Ghost) : Prop :=
  Acts LogEntry.term (QuorumSystem.majority ms) n s s'

abbrev StableLog (ms : List ℕ) (s : Ghost) (U : ℕ) (p : List LogEntry) : Prop :=
  Replication.Stable LogEntry.term (QuorumSystem.majority ms) s U p

abbrev GhostInv (ms : List ℕ) (s : Ghost) : Prop :=
  Inv LogEntry.term (QuorumSystem.majority ms) s

/-- What a leader knows about its peers is true. -/
structure LeaderOk (ms : List ℕ) (s : Ghost) (n : ℕ) (c : Core) : Prop where
  mem : n ∈ ms
  leader : s.leader c.currentTerm = some n
  matched : ∀ {p k}, c.matchIndex.lookup p = some k →
    p ≠ n ∧ p ∈ ms ∧ k ≤ s.acked p c.currentTerm
  next : ∀ {p k}, c.nextIndex.lookup p = some k → k ≤ c.log.length + 1

/-- A candidate that has asked for votes asked with its present log and counts votes cast for it. -/
structure CandidateOk (ms : List ℕ) (s : Ghost) (n : ℕ) (c : Core) : Prop where
  mem : n ∈ ms
  pos : 0 < c.currentTerm
  unled : s.leader c.currentTerm ≠ some n
  asked : s.vote n c.currentTerm = some n → s.voteLog n c.currentTerm = c.log ∧
    ∀ v ∈ c.votesReceived, v ∈ ms ∧ s.vote v c.currentTerm = some n

/-- The core of node `n` agrees with the protocol state. A node whose own candidacy could not be saved
has a vote in memory that the protocol does not know of. -/
structure NodeOk (ms : List ℕ) (s : Ghost) (n : ℕ) (c : Core) : Prop where
  localId : c.localId = n
  members : c.members = ms
  term : s.term n = c.currentTerm
  log : s.log n = c.log
  vote : s.vote n c.currentTerm = c.votedFor ∨
    (c.votedFor = some n ∧ s.vote n c.currentTerm = none)
  indexed : Indexed c.log
  commit : c.commitIndex ≤ c.log.length
  stable : StableLog ms s c.currentTerm (c.log.take c.commitIndex)
  applied : c.lastApplied ≤ c.commitIndex
  leader : c.role = .leader → LeaderOk ms s n c
  candidate : c.role = .candidate → CandidateOk ms s n c

/-- What an `AppendEntries` request says about its leader: `p` is the leader's log up to the last entry
of the request. -/
structure RequestOk (ms : List ℕ) (s : Ghost) (src : ℕ) (args : AppendEntriesArgs)
    (p : List LogEntry) : Prop where
  leader : s.leader args.term = some src
  pre : p <+: s.leadLog args.term
  indexed : Indexed p
  entries : p.drop args.prevLogIndex = args.entries
  prev : args.prevLogIndex ≤ p.length
  prevTerm : 0 < args.prevLogIndex →
    lastTerm LogEntry.term (p.take args.prevLogIndex) = args.prevLogTerm
  commit : args.leaderCommit ≤ p.length
  stable : StableLog ms s args.term (p.take args.leaderCommit)

/-- What a packet says is a fact of the protocol's history. -/
def PacketOk (ms : List ℕ) (s : Ghost) : Packet → Prop
  | .request src dst (.requestVote args) _ =>
    args.candidateId = src ∧ dst ∈ ms ∧ s.vote src args.term = some src ∧
      args.lastLogIndex = (s.voteLog src args.term).length ∧
      args.lastLogTerm = lastTerm LogEntry.term (s.voteLog src args.term)
  | .request src dst (.appendEntries args) ctx =>
    dst ∈ ms ∧ dst ≠ src ∧ ctx = .append args.prevLogIndex args.entries.length ∧
      ∃ p, RequestOk ms s src args p
  | .voteReply src dst reply _ =>
    reply.voteGranted = true → src ∈ ms ∧ s.vote src reply.term = some dst
  | .appendReply src dst reply (.append prev len) =>
    reply.success = true → src ∈ ms ∧ src ≠ dst ∧ prev + len ≤ s.acked src reply.term
  | .appendReply _ _ _ .vote => True

/-- The entry has been committed at the position its index says. -/
def TakenOk (ms : List ℕ) (s : Ghost) (e : LogEntry) : Prop :=
  ∃ U p, StableLog ms s U (p ++ [e]) ∧ e.index = p.length + 1

/-- The cluster refines the protocol state. -/
structure Sim (C : Cluster) (s : Ghost) : Prop where
  inv : GhostInv C.members s
  node : ∀ n, NodeOk C.members s n (C.nodes n).core
  packet : ∀ p ∈ C.sent, PacketOk C.members s p
  taken : ∀ t ∈ C.taken, TakenOk C.members s t.2

section Mono

variable {ms : List ℕ} {s s' : Ghost} {m n : ℕ} {c : Core}

lemma RequestOk.mono (ext : Ext s s') {src : ℕ} {args : AppendEntriesArgs} {p : List LogEntry}
    (ok : RequestOk ms s src args p) : RequestOk ms s' src args p :=
  { ok with
    leader := ext.leader ok.leader
    pre := ok.pre.trans (ext.leadLog (by rw [ok.leader]; rfl))
    stable := ok.stable.mono ext (le_refl _) }

lemma PacketOk.mono (ext : Ext s s') {p : Packet} (ok : PacketOk ms s p) : PacketOk ms s' p := by
  rcases p with ⟨src, dst, args | args, ctx⟩ | ⟨src, dst, reply, ctx⟩ | ⟨src, dst, reply, _ | _⟩
  · obtain ⟨cand, mem, vote, len, last⟩ := ok
    refine ⟨cand, mem, ext.vote vote, ?_⟩
    rw [ext.voteLog vote]
    exact ⟨len, last⟩
  · obtain ⟨mem, ne, ctx, p, req⟩ := ok
    exact ⟨mem, ne, ctx, p, req.mono ext⟩
  · exact fun granted => ⟨(ok granted).1, ext.vote (ok granted).2⟩
  · trivial
  · intro success
    obtain ⟨mem, ne, le⟩ := ok success
    exact ⟨mem, ne, le.trans (ext.acked _ _)⟩

lemma TakenOk.mono (ext : Ext s s') {e : LogEntry} (ok : TakenOk ms s e) : TakenOk ms s' e := by
  obtain ⟨U, p, st, idx⟩ := ok
  exact ⟨U, p, st.mono ext (le_refl _), idx⟩

lemma LeaderOk.mono (ext : Ext s s') (ok : LeaderOk ms s n c) : LeaderOk ms s' n c where
  mem := ok.mem
  leader := ext.leader ok.leader
  matched h := ⟨(ok.matched h).1, (ok.matched h).2.1, (ok.matched h).2.2.trans (ext.acked _ _)⟩
  next := ok.next

lemma NodeOk.frame (ok : NodeOk ms s m c) (acts : Moves ms n s s') (ne : m ≠ n) :
    NodeOk ms s' m c := by
  obtain ⟨term, log, vote⟩ := acts.frame ne
  refine { ok with
    term := term.trans ok.term
    log := log.trans ok.log
    vote := ?_
    stable := ok.stable.mono acts.ext (le_refl _)
    leader := fun lead => (ok.leader lead).mono acts.ext
    candidate := fun cand => ?_ }
  · rw [vote]
    exact ok.vote
  · have old := ok.candidate cand
    refine ⟨old.mem, old.pos, fun led => old.unled (acts.frame_leader led ne), fun voted => ?_⟩
    rw [vote] at voted
    obtain ⟨eq, votes⟩ := old.asked voted
    refine ⟨(acts.ext.voteLog voted).trans eq, fun v hv => ?_⟩
    exact ⟨(votes v hv).1, acts.ext.vote (votes v hv).2⟩

end Mono

lemma Sim.init (members : List ℕ) : Sim (Cluster.init members) Replication.State.init where
  inv := Inv.init
  node _ :=
    { localId := rfl
      members := rfl
      term := rfl
      log := rfl
      vote := .inl rfl
      indexed := Positions.Indexed.nil
      commit := le_refl _
      stable := .inl rfl
      applied := le_refl _
      leader := nofun
      candidate := nofun }
  packet := nofun
  taken := nofun

lemma Sim.update {C : Cluster} {s s' : Ghost} {n : ℕ} {h : Host} {ps : List Packet}
    {ts : List (ℕ × LogEntry)} (sim : Sim C s) (acts : Moves C.members n s s')
    (node : NodeOk C.members s' n h.core) (packets : ∀ p ∈ ps, PacketOk C.members s' p)
    (taken : ∀ t ∈ ts, TakenOk C.members s' t.2) : Sim (C.update n h ps ts) s' where
  inv := sim.inv.acts acts
  node m := by
    by_cases eq : m = n
    · subst eq
      simpa only [Cluster.update, if_true] using node
    · simpa only [Cluster.update, if_neg eq] using (sim.node m).frame acts eq
  packet p hp := by
    rcases List.mem_append.mp hp with old | new
    · exact (sim.packet p old).mono acts.ext
    · exact packets p new
  taken t ht := by
    rcases List.mem_append.mp ht with old | new
    · exact (sim.taken t old).mono acts.ext
    · exact taken t new

lemma lastLogTerm_eq (c : Core) : c.lastLogTerm = lastTerm LogEntry.term c.log := rfl

section Calls

variable {ms : List ℕ} {s : Ghost} {n : ℕ} {c : Core}

lemma NodeOk.demote (ok : NodeOk ms s n c) (leader : Option ℕ) (votes : Finset ℕ) :
    NodeOk ms s n { c with role := .follower, leaderId := leader, votesReceived := votes } :=
  { ok with
    leader := nofun
    candidate := nofun }

lemma NodeOk.withTimer (ok : NodeOk ms s n c) (tm : Timer) : NodeOk ms s n (c.withTimer tm) :=
  { ok with
    leader := fun lead => { ok.leader lead with }
    candidate := fun cand => { ok.candidate cand with } }

lemma NodeOk.unvoted (inv : GhostInv ms s) (ok : NodeOk ms s n c) {T : ℕ} (lt : c.currentTerm < T) :
    s.vote n T = none := by
  cases hv : s.vote n T with
  | none => rfl
  | some d =>
    have le := inv.voteTerm hv
    rw [ok.term] at le
    omega

lemma NodeOk.stepDown (inv : GhostInv ms s) (ok : NodeOk ms s n c) {term : ℕ} (leader : Option ℕ)
    (le : c.currentTerm ≤ term) :
    ∃ s', Moves ms n s s' ∧ NodeOk ms s' n (c.stepDown term leader) := by
  rcases le.lt_or_eq with lt | rfl
  · have acts : Moves ms n s (s.raise n term) := .single (.raise (ok.term ▸ lt))
    refine ⟨_, acts, ?_⟩
    refine
      { localId := ok.localId
        members := ok.members
        term := ?_
        log := ?_
        vote := .inl ?_
        indexed := ?_
        commit := ?_
        stable := ?_
        applied := ok.applied
        leader := nofun
        candidate := nofun }
    · simp [State.raise]
    · simpa [State.raise] using ok.log
    · rw [stepDown_currentTerm, stepDown_votedFor, if_pos lt.ne']
      exact ok.unvoted inv lt
    · simpa using ok.indexed
    · simpa using ok.commit
    · simpa using ok.stable.mono acts.ext lt.le
  · refine ⟨s, .refl, ?_⟩
    have same : c.stepDown c.currentTerm leader =
        { c with role := .follower, leaderId := leader, votesReceived := ∅ } := by
      simp [Core.stepDown]
    rw [same]
    exact ok.demote leader ∅

variable {args : AppendEntriesArgs} {src : ℕ} {p : List LogEntry}

lemma NodeOk.follow (inv : GhostInv ms s) (ok : NodeOk ms s n c)
    (fresh : ¬ args.term < c.currentTerm) :
    ∃ s', Moves ms n s s' ∧ NodeOk ms s' n (c.follow args) := by
  unfold Core.follow
  split
  · obtain ⟨s', acts, ok'⟩ := ok.stepDown inv (some args.leaderId) (not_lt.mp fresh)
    exact ⟨s', acts, ok'.demote _ _⟩
  · exact ⟨s, .refl, ok.demote _ _⟩

/-- A candidacy that could not be saved reaches the protocol as a `raise` only. -/
lemma NodeOk.campaign_unsaved (inv : GhostInv ms s) (ok : NodeOk ms s n c) (mem : n ∈ ms) :
    ∃ s', Moves ms n s s' ∧ NodeOk ms s' n c.campaign ∧ s'.vote n (c.currentTerm + 1) = none := by
  have lt : c.currentTerm < c.currentTerm + 1 := Nat.lt_succ_self _
  have acts : Moves ms n s (s.raise n (c.currentTerm + 1)) := .single (.raise (ok.term ▸ lt))
  have free : (s.raise n (c.currentTerm + 1)).vote n (c.currentTerm + 1) = none := ok.unvoted inv lt
  refine ⟨_, acts, ?_, free⟩
  refine
    { localId := ok.localId
      members := ok.members
      term := ?_
      log := ok.log
      vote := .inr ⟨congrArg some ok.localId, free⟩
      indexed := ok.indexed
      commit := ok.commit
      stable := ok.stable.mono acts.ext lt.le
      applied := ok.applied
      leader := nofun
      candidate := fun _ => ⟨mem, Nat.succ_pos _, ?_, ?_⟩ }
  · simp [State.raise, Core.campaign, Core.currentTerm]
  · intro led
    have le : c.currentTerm + 1 ≤ s.term n := inv.leadTerm led
    rw [ok.term] at le
    omega
  · intro voted
    cases free.symm.trans voted

lemma NodeOk.campaign (inv : GhostInv ms s) (ok : NodeOk ms s n c) (mem : n ∈ ms) (tm : Timer) :
    ∃ s', Moves ms n s s' ∧
      NodeOk ms s' n { c.campaign with votesReceived := {c.localId}, timer := tm } ∧
      s'.vote n (c.currentTerm + 1) = some n ∧ s'.voteLog n (c.currentTerm + 1) = c.log := by
  obtain ⟨s1, acts, ok1, free⟩ := ok.campaign_unsaved inv mem
  have term1 : s1.term n = c.currentTerm + 1 := ok1.term
  have st : Move ms n s1 (s1.castVote n n) := .castVote (term1 ▸ free) (.inl rfl)
  have vote : (s1.castVote n n).vote n (c.currentTerm + 1) = some n := by
    simp [State.castVote, term1]
  have voteLog : (s1.castVote n n).voteLog n (c.currentTerm + 1) = c.log := by
    simp only [State.castVote, term1, and_self, if_true]
    exact ok1.log
  have unled := (ok1.candidate rfl).unled
  refine ⟨_, acts.tail st, ?_, vote, voteLog⟩
  refine
    { ok1 with
      vote := .inl (vote.trans (congrArg some ok.localId.symm))
      stable := ok1.stable.mono st.ext (le_refl _)
      leader := fun lead => by cases lead
      candidate := fun _ => ⟨mem, Nat.succ_pos _, unled, fun _ => ⟨voteLog, ?_⟩⟩ }
  intro v hv
  rw [(Finset.mem_singleton.mp hv).trans ok.localId]
  exact ⟨mem, vote⟩

/-- Granting a vote is a vote of the protocol, unless the node repeats a vote it has cast. -/
lemma NodeOk.voteFor (ok : NodeOk ms s n c) {args : RequestVoteArgs} (may : MayVote args c)
    (term : c.currentTerm = args.term)
    (asked : s.vote args.candidateId args.term = some args.candidateId)
    (len : args.lastLogIndex = (s.voteLog args.candidateId args.term).length)
    (last : args.lastLogTerm = lastTerm LogEntry.term (s.voteLog args.candidateId args.term)) :
    ∃ s', Moves ms n s s' ∧ NodeOk ms s' n (c.voteFor args.candidateId) ∧
      s'.vote n args.term = some args.candidateId := by
  have fresh_or : s.vote n args.term = none ∨ s.vote n args.term = some args.candidateId := by
    rw [← term]
    rcases ok.vote with eq | ⟨own, none⟩
    · rw [eq]
      exact may.free
    · exact .inl none
  rcases fresh_or with fresh | same
  · have ne : args.candidateId ≠ n := by
      intro eq
      rw [eq, fresh] at asked
      cases asked
    have up : UpToDate LogEntry.term (s.voteLog args.candidateId args.term) (s.log n) := by
      have check := may.upToDate
      unfold candidateLogAtLeastAsUpToDate at check
      rw [Core.lastLogIndex_eq ok.indexed, lastLogTerm_eq, len, last] at check
      rw [ok.log]
      simpa [UpToDate] using check
    have term' : s.term n = args.term := ok.term.trans term
    have st : Move ms n s (s.castVote n args.candidateId) :=
      .castVote (term' ▸ fresh) (.inr (term' ▸ ⟨asked, up⟩))
    have vote : (s.castVote n args.candidateId).vote n args.term = some args.candidateId := by
      simp [State.castVote, term']
    refine ⟨_, .single st, ?_, vote⟩
    refine
      { ok with
        vote := .inl (term ▸ vote)
        stable := ok.stable.mono st.ext (le_refl _)
        leader := fun lead => { (ok.leader lead).mono st.ext with }
        candidate := fun cand => ?_ }
    have old := ok.candidate cand
    refine ⟨old.mem, old.pos, old.unled, fun voted => ?_⟩
    have eq : some args.candidateId = some n := vote.symm.trans (term ▸ voted)
    exact absurd (Option.some.inj eq) ne
  · refine ⟨s, .refl, ?_, same⟩
    exact
      { ok with
        vote := .inl (term ▸ same)
        leader := fun lead => { ok.leader lead with }
        candidate := fun cand => { ok.candidate cand with } }

lemma lookup_foldl_insert {ids : List ℕ} {k : ℕ} {m : IndexMap} {p v : ℕ}
    (look : (ids.foldl (fun m id => m.insert id k) m).lookup p = some v) :
    (p ∈ ids ∧ v = k) ∨ m.lookup p = some v := by
  induction ids generalizing m with
  | nil => exact .inr look
  | cons id ids ih =>
    rcases ih look with ⟨mem, eq⟩ | old
    · exact .inl ⟨List.mem_cons_of_mem _ mem, eq⟩
    · by_cases hp : p = id
      · subst hp
        rw [AList.lookup_insert] at old
        exact .inl ⟨List.mem_cons_self, (Option.some.inj old).symm⟩
      · rw [AList.lookup_insert_ne hp] at old
        exact .inr old

/-- A majority of votes makes the candidate the protocol's leader of the term. -/
lemma NodeOk.elected (inv : GhostInv ms s) (ok : NodeOk ms s n c) (cand : c.role = .candidate) (mem : src ∈ ms)
    (vote : s.vote src c.currentTerm = some n)
    (maj : c.majority ≤ (insert src c.votesReceived).card) (now : ℕ) :
    ∃ s', Moves ms n s s' ∧
      NodeOk ms s' n
        (Core.becomeLeader now { c with votesReceived := insert src c.votesReceived }) := by
  have old := ok.candidate cand
  obtain ⟨voteLog, votes⟩ := old.asked (inv.voteCand vote).1
  have all : ∀ v ∈ insert src c.votesReceived, v ∈ ms ∧ s.vote v c.currentTerm = some n := by
    intro v hv
    rcases Finset.mem_insert.mp hv with rfl | hv
    · exact ⟨mem, vote⟩
    · exact votes v hv
  have hQ : (QuorumSystem.majority ms).mem (insert src c.votesReceived) := by
    refine ⟨fun v hv => List.mem_toFinset.mpr (all v hv).1, ?_⟩
    rw [← ok.members]
    exact maj
  have unled : s.leader c.currentTerm = none :=
    unled_of_votes inv hQ (fun v hv => (all v hv).2) old.unled
  have st : Move ms n s (s.elect n) := by
    refine .elect ?_ ?_ ?_ hQ ?_ <;> rw [ok.term]
    · exact old.pos
    · exact unled
    · rw [voteLog, ok.log]
    · exact fun v hv => (all v hv).2
  refine ⟨_, .single st, ?_⟩
  refine
    { ok with
      vote := ok.vote
      stable := ok.stable.mono st.ext (le_refl _)
      leader := fun _ => ⟨old.mem, ?_, ?_, ?_⟩
      candidate := nofun }
  · simp [State.elect, ok.term, Core.becomeLeader, Core.currentTerm]
  · intro p k look
    rcases lookup_foldl_insert look with ⟨hp, rfl⟩ | none
    · obtain ⟨hp, ne⟩ := List.mem_filter.mp hp
      refine ⟨?_, ok.members ▸ hp, Nat.zero_le _⟩
      exact fun eq => (of_decide_eq_true ne) (eq.trans ok.localId.symm)
    · simp at none
  · intro p k look
    rcases lookup_foldl_insert look with ⟨_, rfl⟩ | none
    · exact (congrArg (· + 1) (Core.lastLogIndex_eq ok.indexed)).le
    · simp at none

lemma NodeOk.counted (ok : NodeOk ms s n c) (cand : c.role = .candidate) (mem : src ∈ ms)
    (vote : s.vote src c.currentTerm = some n) :
    NodeOk ms s n { c with votesReceived := insert src c.votesReceived } := by
  have old := ok.candidate cand
  refine
    { ok with
      leader := fun lead => absurd (cand.symm.trans lead) (by simp)
      candidate := fun _ => ⟨old.mem, old.pos, old.unled, fun voted => ⟨(old.asked voted).1, ?_⟩⟩ }
  intro v hv
  rcases Finset.mem_insert.mp hv with rfl | hv
  · exact ⟨mem, vote⟩
  · exact (old.asked voted).2 v hv

lemma NodeOk.propose (ok : NodeOk ms s n c) (lead : c.role = .leader) (command : Command) :
    ∃ s', Moves ms n s s' ∧
      NodeOk ms s' n (c.setLog (c.log ++ [⟨c.currentTerm, c.lastLogIndex + 1, command⟩])) := by
  have old := ok.leader lead
  let e : LogEntry := ⟨c.currentTerm, c.lastLogIndex + 1, command⟩
  have idx : e.index = c.log.length + 1 := congrArg (· + 1) (Core.lastLogIndex_eq ok.indexed)
  have st : Move ms n s (s.append n e) := .append (ok.term ▸ old.leader) ok.term.symm
  refine ⟨_, .single st, ?_⟩
  refine
    { localId := ok.localId
      members := ok.members
      term := ok.term
      log := ?_
      vote := ok.vote
      indexed := ok.indexed.concat idx
      commit := ?_
      stable := ?_
      applied := ok.applied
      leader := fun _ => ?_
      candidate := fun cand => absurd (lead.symm.trans cand) (by simp) }
  · simp [State.append, ok.log, Core.setLog, Core.log, e]
  · exact ok.commit.trans (by simp [Core.setLog, Core.log])
  · have keep : (c.log ++ [e]).take c.commitIndex = c.log.take c.commitIndex :=
      List.take_append_of_le_length ok.commit
    exact keep ▸ ok.stable.mono st.ext (le_refl _)
  · refine { old.mono st.ext with next := fun look => (old.next look).trans ?_ }
    simp [Core.setLog, Core.log]

lemma NodeOk.appendRequest (inv : GhostInv ms s) (ok : NodeOk ms s n c) (lead : c.role = .leader)
    (peer : ℕ) : RequestOk ms s n (c.appendRequest peer) c.log := by
  have old := ok.leader lead
  have next : (c.nextIndex.lookup peer).getD 1 ≤ c.log.length + 1 := by
    cases look : c.nextIndex.lookup peer with
    | none => simp
    | some k => exact old.next look
  refine
    { leader := old.leader
      pre := ?_
      indexed := ok.indexed
      entries := (ok.indexed.filter_le _).symm
      prev := ?_
      prevTerm := ?_
      commit := ok.commit
      stable := ok.stable }
  · have eq := inv.leadLog (ok.term ▸ old.leader)
    rw [ok.log, ok.term] at eq
    rw [eq]
    exact List.prefix_refl _
  · simp only [Core.appendRequest]
    omega
  · simp only [Core.appendRequest]
    intro pos
    obtain ⟨i, hi⟩ : ∃ i, (c.nextIndex.lookup peer).getD 1 - 1 = i + 1 :=
      ⟨_, (Nat.succ_pred_eq_of_pos pos).symm⟩
    have lt : i < c.log.length := by omega
    have he := List.getElem?_eq_getElem lt
    rw [hi, lastTerm_take he, if_neg (Nat.succ_ne_zero i), logAt_succ, he]
    rfl

/-- A follower that passes the prev-log check has the leader's log up to the check. -/
lemma NodeOk.prev_pre (inv : GhostInv ms s) (ok : NodeOk ms s n c) (req : RequestOk ms s src args p)
    (pass : prevLogConflict c args = none) : p.take args.prevLogIndex <+: c.log := by
  rcases Nat.eq_zero_or_pos args.prevLogIndex with zero | pos
  · simp [zero]
  obtain ⟨i, hi⟩ : ∃ i, args.prevLogIndex = i + 1 := ⟨_, (Nat.succ_pred_eq_of_pos pos).symm⟩
  have le := req.prev
  have last := req.prevTerm pos
  unfold prevLogConflict at pass
  rw [if_pos pos] at pass
  rw [hi] at pass last le ⊢
  rw [logAt_succ] at pass
  cases he : c.log[i]? with
  | none => simp [he] at pass
  | some e =>
    have te : e.term = args.prevLogTerm := by
      by_contra ne
      simp [he, ne] at pass
    have he' := List.getElem?_eq_getElem (l := p) (i := i) (by omega)
    rw [lastTerm_take he'] at last
    have cov : Covered LogEntry.term s c.log := ok.log ▸ inv.covLog n
    have cov' : Covered LogEntry.term s p :=
      (inv.covLead (by rw [req.leader]; rfl)).cut req.pre
    rw [← cov.agree cov' he he' (te.trans last.symm)]
    exact List.take_prefix _ _

/-- The append loop leaves the follower's log or the leader's, as `foldl_appendOne` says. -/
lemma NodeOk.merge_eq (inv : GhostInv ms s) (ok : NodeOk ms s n c) (req : RequestOk ms s src args p)
    (pass : prevLogConflict c args = none) :
    c.merge args.entries = if p <+: c.log then (c.log, false) else (p, true) := by
  have split : p.take args.prevLogIndex ++ args.entries = p := by
    rw [← req.entries, List.take_append_drop]
  have cov : Covered LogEntry.term s c.log := ok.log ▸ inv.covLog n
  have cov' : Covered LogEntry.term s p := (inv.covLead (by rw [req.leader]; rfl)).cut req.pre
  have ix : Indexed (p.take args.prevLogIndex ++ args.entries) := by
    rw [split]
    exact req.indexed
  have key := foldl_appendOne ix (ok.prev_pre inv req pass)
  rw [split] at key
  exact key fun i a b ha hb same => cov.agree cov' ha hb same

/-- Accepting a request is an `accept` of the protocol where the log changes, and an `ack`. -/
lemma NodeOk.accept (inv : GhostInv ms s) (ok : NodeOk ms s n c) (role : c.role = .follower)
    (req : RequestOk ms s src args p)
    (term : c.currentTerm = args.term) (pass : prevLogConflict c args = none) :
    ∃ s', Moves ms n s s' ∧ NodeOk ms s' n (c.setLog (c.merge args.entries).1) ∧
      p <+: (c.merge args.entries).1 ∧ p.length ≤ s'.acked n args.term := by
  have led : (s.leader (s.term n)).isSome := by
    rw [ok.term, term, req.leader]
    rfl
  have pre : p <+: s.leadLog (s.term n) := by
    rw [ok.term, term]
    exact req.pre
  -- the acknowledgement, from a state whose log has the leader's log as a prefix
  have ackd : ∀ {s1 : Ghost} {l : List LogEntry}, Moves ms n s s1 → s1.term n = s.term n →
      s1.log n = l → p <+: l → NodeOk ms s1 n (c.setLog l) →
      ∃ s', Moves ms n s s' ∧ NodeOk ms s' n (c.setLog l) ∧ p <+: l ∧
        p.length ≤ s'.acked n args.term := by
    intro s1 l acts sameTerm log hp ok1
    have st : Move ms n s1 (s1.ack n p.length) := by
      refine .ack ?_ ?_ (log ▸ hp)
      · rw [sameTerm]
        exact acts.ext.isSome led
      · rw [sameTerm]
        exact pre.trans (acts.ext.leadLog led)
    refine ⟨_, acts.tail st, ?_, hp, ?_⟩
    · refine { ok1 with
        stable := ok1.stable.mono st.ext (le_refl _)
        leader := fun lead => absurd (role.symm.trans lead) (by simp)
        candidate := fun cand => absurd (role.symm.trans cand) (by simp) }
    · simp [State.ack, sameTerm, ok.term, term]
  rw [ok.merge_eq inv req pass]
  by_cases have_p : p <+: c.log
  · rw [if_pos have_p]
    exact ackd .refl rfl ok.log have_p ok
  · rw [if_neg have_p]
    have st : Move ms n s (s.accept n p) := .accept led pre (ok.log ▸ have_p)
    -- what is committed is in the leader's log, so `p` reaches past it
    have comm : c.log.take c.commitIndex <+: p :=
      ok.stable.pre_of_missing inv (ok.term ▸ led) (List.take_prefix _ _) (ok.term ▸ pre) have_p
    have len : c.commitIndex ≤ p.length := by
      have := comm.length_le
      rw [List.length_take, Nat.min_eq_left ok.commit] at this
      exact this
    refine ackd (.single st) rfl (by simp [State.accept]) (List.prefix_refl p) ?_
    refine
      { localId := ok.localId
        members := ok.members
        term := ok.term
        log := by simp [State.accept, Core.setLog, Core.log]
        vote := ok.vote
        indexed := req.indexed
        commit := len
        stable := ?_
        applied := ok.applied
        leader := fun lead => absurd (role.symm.trans lead) (by simp)
        candidate := fun cand => absurd (role.symm.trans cand) (by simp) }
    have eq : p.take c.commitIndex = c.log.take c.commitIndex := by
      have take := List.prefix_iff_eq_take.mp comm
      rw [List.length_take, Nat.min_eq_left ok.commit] at take
      exact take.symm
    exact eq ▸ ok.stable.mono st.ext (le_refl _)

/-- A node may raise its commit index to the end of a stable prefix of its log. -/
lemma NodeOk.commitTo (ok : NodeOk ms s n c) {k : ℕ} (le : k ≤ c.log.length)
    (stable : StableLog ms s c.currentTerm (c.log.take k)) (applied : c.lastApplied ≤ k) :
    NodeOk ms s n { c with commitIndex := k } :=
  { ok with
    commit := le
    stable := stable
    applied := applied
    leader := fun lead => { ok.leader lead with }
    candidate := fun cand => { ok.candidate cand with } }

/-- The commit index a follower takes over is covered by what the leader has committed. -/
lemma NodeOk.followCommit (ok : NodeOk ms s n c) (req : RequestOk ms s src args p) (term : c.currentTerm = args.term)
    (pre : p <+: c.log) : NodeOk ms s n (c.followCommit args.leaderCommit) := by
  have le : args.leaderCommit ≤ c.log.length := req.commit.trans pre.length_le
  have applied := ok.applied
  unfold Core.followCommit
  rw [Core.lastLogIndex_eq ok.indexed, Nat.min_eq_left le]
  split
  · refine ok.commitTo le ?_ (by omega)
    have eq : c.log.take args.leaderCommit = p.take args.leaderCommit := by
      obtain ⟨t, ht⟩ := pre
      rw [← ht, List.take_append_of_le_length req.commit]
    rw [eq, term]
    exact req.stable
  · exact ok.commitTo ok.commit ok.stable applied

/-- The nodes that are known to hold index `k` form a set of the size `advance_commit_index` counts. -/
lemma LeaderOk.replicas (old : LeaderOk ms s n c) (k : ℕ) :
    ∃ Q : Finset ℕ, c.replicas k = Q.card ∧ Q ⊆ ms.toFinset ∧
      ∀ v ∈ Q, v = n ∨ k ≤ s.acked v c.currentTerm := by
  let held := c.matchIndex.entries.filter fun e => k ≤ e.2
  have peer : ∀ v ∈ held.map Sigma.fst, v ≠ n ∧ v ∈ ms ∧ k ≤ s.acked v c.currentTerm := by
    intro v hv
    obtain ⟨⟨v, i⟩, he, rfl⟩ := List.mem_map.mp hv
    obtain ⟨he, le⟩ := List.mem_filter.mp he
    obtain ⟨ne, mem, acked⟩ := old.matched (AList.mem_lookup_iff.mpr he)
    exact ⟨ne, mem, (of_decide_eq_true le).trans acked⟩
  have nodup : (held.map Sigma.fst).Nodup :=
    List.NodupKeys.sublist List.filter_sublist c.matchIndex.nodupKeys
  refine ⟨insert n (held.map Sigma.fst).toFinset, ?_, ?_, ?_⟩
  · rw [Finset.card_insert_of_notMem, List.toFinset_card_of_nodup nodup, List.length_map,
      Nat.add_comm]
    · rfl
    · intro mem
      exact (peer n (List.mem_toFinset.mp mem)).1 rfl
  · intro v hv
    rcases Finset.mem_insert.mp hv with rfl | hv
    · exact List.mem_toFinset.mpr old.mem
    · exact List.mem_toFinset.mpr (peer v (List.mem_toFinset.mp hv)).2.1
  · intro v hv
    rcases Finset.mem_insert.mp hv with rfl | hv
    · exact .inl rfl
    · exact .inr (peer v (List.mem_toFinset.mp hv)).2.2

/-- A majority of acknowledgements commits in the protocol. -/
lemma NodeOk.advance (inv : GhostInv ms s) (ok : NodeOk ms s n c) (lead : c.role = .leader) :
    ∃ s', Moves ms n s s' ∧ NodeOk ms s' n c.advanceCommitIndex := by
  rcases c.advanceCommitIndex_cases with eq | ⟨k, lt, le, maj, last, eq⟩
  · rw [eq]
    exact ⟨s, .refl, ok⟩
  rw [eq]
  rw [Core.lastLogIndex_eq ok.indexed] at le
  have old := ok.leader lead
  obtain ⟨Q, card, sub, acks⟩ := old.replicas k
  have hQ : (QuorumSystem.majority ms).mem Q := by
    refine ⟨sub, ?_⟩
    rw [← ok.members, ← card]
    exact maj
  have last : lastTerm LogEntry.term ((s.log n).take k) = s.term n := by
    obtain ⟨i, rfl⟩ : ∃ i, k = i + 1 := ⟨_, (Nat.succ_pred_eq_of_pos (Nat.zero_lt_of_lt lt)).symm⟩
    obtain ⟨e, he, te⟩ := Option.map_eq_some_iff.mp last
    rw [logAt_succ] at he
    rw [ok.log, lastTerm_take he, te, ok.term]
  obtain ⟨st, stable⟩ := Replication.Stable.of_acks inv (ok.term ▸ old.leader) (ok.log ▸ le) last hQ
    (by rw [ok.term]; exact acks)
  rw [ok.log, ok.term] at stable
  have ok' : NodeOk ms (s.ack n k) n c :=
    { ok with
      stable := ok.stable.mono st.ext (le_refl _)
      leader := fun _ => old.mono st.ext
      candidate := fun cand => absurd (lead.symm.trans cand) (by simp) }
  exact ⟨_, .single st, ok'.commitTo le stable (ok.applied.trans lt.le)⟩

/-- A reply of the leader's own term records an acknowledgement of that term. -/
lemma NodeOk.recordMatch (inv : GhostInv ms s) (ok : NodeOk ms s n c) (lead : c.role = .leader)
    {newMatch : ℕ} (mem : src ∈ ms) (ne : src ≠ n)
    (acked : newMatch ≤ s.acked src c.currentTerm) : NodeOk ms s n (c.recordMatch src newMatch) := by
  unfold Core.recordMatch
  split
  swap
  · exact ok
  rename_i lt
  have old := ok.leader lead
  have bound : newMatch ≤ c.log.length := by
    have pos : 0 < s.acked src c.currentTerm := by omega
    have le := (inv.ackLe pos).2.1
    rw [← ok.term, ← inv.leadLog (ok.term ▸ old.leader), ok.log, ok.term] at le
    exact acked.trans le
  refine
    { ok with
      leader := fun _ => { old with matched := ?_, next := ?_ }
      candidate := fun cand => absurd (lead.symm.trans cand) (by simp) }
  · intro p k look
    by_cases hp : p = src
    · subst hp
      rw [AList.lookup_insert] at look
      rw [← Option.some.inj look]
      exact ⟨ne, mem, acked⟩
    · rw [AList.lookup_insert_ne hp] at look
      exact old.matched look
  · intro p k look
    by_cases hp : p = src
    · subst hp
      rw [AList.lookup_insert] at look
      rw [← Option.some.inj look]
      exact Nat.succ_le_succ bound
    · rw [AList.lookup_insert_ne hp] at look
      exact old.next look

lemma NodeOk.backtrack (ok : NodeOk ms s n c) (lead : c.role = .leader) (src conflict : ℕ) :
    NodeOk ms s n (c.backtrack src conflict) := by
  have old := ok.leader lead
  refine
    { ok with
      leader := fun _ => { old with next := ?_ }
      candidate := fun cand => absurd (lead.symm.trans cand) (by simp) }
  intro p k look
  unfold Core.backtrack at look
  by_cases hp : p = src
  · subst hp
    rw [AList.lookup_insert] at look
    have bound : (c.nextIndex.lookup p).getD 1 ≤ c.log.length + 1 := by
      cases at_p : c.nextIndex.lookup p with
      | none => simp
      | some k => exact old.next at_p
    have le : k ≤ max ((c.nextIndex.lookup p).getD 1 - 1) 1 := by
      rw [← Option.some.inj look]
      split <;> omega
    change k ≤ c.log.length + 1
    omega
  · rw [AList.lookup_insert_ne hp] at look
    exact old.next look

lemma NodeOk.take (ok : NodeOk ms s n c) :
    NodeOk ms s n (takeCommittedEntries c).2 ∧
      ∀ e ∈ (takeCommittedEntries c).1, TakenOk ms s e := by
  have applied := ok.applied
  constructor
  · have eq : (takeCommittedEntries c).2 = { c with lastApplied := c.commitIndex } := by
      simp [takeCommittedEntries, Nat.max_eq_right applied]
    rw [eq]
    exact { ok with
      applied := le_refl _
      leader := fun lead => { ok.leader lead with }
      candidate := fun cand => { ok.candidate cand with } }
  · intro e he
    have commit := ok.commit
    obtain ⟨i, hi⟩ := List.mem_iff_getElem?.mp he
    simp only [takeCommittedEntries] at hi
    rw [takeLoop_eq (by omega)] at hi
    have lt : i < c.commitIndex - c.lastApplied := by
      have := (List.getElem?_eq_some_iff.mp hi).1
      simp only [List.length_take, List.length_drop] at this
      omega
    rw [List.getElem?_take_of_lt lt, List.getElem?_drop] at hi
    refine ⟨c.currentTerm, c.log.take (c.lastApplied + i), ?_, ?_⟩
    · have eq : c.log.take (c.lastApplied + i) ++ [e] = c.log.take (c.lastApplied + i + 1) := by
        rw [List.take_add_one, hi, Option.toList_some]
      rw [eq]
      exact ok.stable.cut (List.take_prefix_take_left (by omega))
    · rw [ok.indexed _ e hi, List.length_take_of_le (by omega)]

end Calls

end RaftCore
