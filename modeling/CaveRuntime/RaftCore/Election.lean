import CaveRuntime.Common.Quorum
import CaveRuntime.RaftCore.Cluster

/-!
# RaftCore: election safety with crashes

At most one node ever leads a term, in every run of the cluster with lost, duplicated, delayed and
reordered packets, failing saves, and nodes that crash and come back through `load_or_init`.

The argument follows the votes that packets testify to (`Granted`). A node sends such a packet only
after the vote is in its file, the term and vote of the file never go back (`PersistentState.Keeps`),
and the core is never behind its file. So a node testifies to one vote per term for good.
-/

namespace RaftCore
open RaftCore.Core

/-- `p'` is at a later term than `p`, or at the same term and still has the vote of `p`. -/
def PersistentState.Keeps (p p' : PersistentState) : Prop :=
  p.currentTerm < p'.currentTerm ∨
    (p.currentTerm = p'.currentTerm ∧ ∀ c, p.votedFor = some c → p'.votedFor = some c)

namespace PersistentState.Keeps

lemma refl (p : PersistentState) : p.Keeps p := .inr ⟨rfl, fun _ h => h⟩

lemma trans {p p' p'' : PersistentState} (k : p.Keeps p') (k' : p'.Keeps p'') : p.Keeps p'' := by
  rcases k with lt | ⟨eq, vote⟩ <;> rcases k' with lt' | ⟨eq', vote'⟩
  · exact .inl (lt.trans lt')
  · exact .inl (eq' ▸ lt)
  · exact .inl (eq ▸ lt')
  · exact .inr ⟨eq.trans eq', fun c hc => vote' c (vote c hc)⟩

lemma term_le {p p' : PersistentState} (k : p.Keeps p') : p.currentTerm ≤ p'.currentTerm := by
  rcases k with lt | ⟨eq, _⟩
  · exact lt.le
  · exact eq.le

lemma vote_eq {p p' : PersistentState} {c c' : ℕ} (k : p.Keeps p')
    (term : p.currentTerm = p'.currentTerm) (vote : p.votedFor = some c)
    (vote' : p'.votedFor = some c') : c = c' := by
  rcases k with lt | ⟨_, keep⟩
  · omega
  · exact Option.some.inj ((keep c vote).symm.trans vote')

lemma stepDown {c : Core} {term : ℕ} (leader : Option ℕ) (le : c.currentTerm ≤ term) :
    c.persistent.Keeps (c.stepDown term leader).persistent := by
  rcases le.lt_or_eq with lt | rfl
  · exact .inl (lt.trans_eq (stepDown_currentTerm c term leader).symm)
  · refine .inr ⟨(stepDown_currentTerm c _ leader).symm, fun id hid => ?_⟩
    exact ((stepDown_votedFor c _ leader).trans (if_neg (not_not.mpr rfl))).trans hid

lemma follow {c : Core} {args : AppendEntriesArgs} (fresh : ¬ args.term < c.currentTerm) :
    c.persistent.Keeps (c.follow args).persistent := by
  unfold Core.follow
  split
  · exact stepDown _ (not_lt.mp fresh)
  · exact refl _

lemma voteFor {c : Core} {args : RequestVoteArgs} (may : MayVote args c) :
    c.persistent.Keeps (c.voteFor args.candidateId).persistent := by
  refine .inr ⟨rfl, fun id hid => ?_⟩
  rcases may.free with free | same
  · exact absurd (free.symm.trans hid) (by simp)
  · exact same.symm.trans hid

lemma campaign (c : Core) : c.persistent.Keeps c.campaign.persistent :=
  .inl (Nat.lt_succ_self _)

end PersistentState.Keeps

/-- The packet testifies that `v` voted for `c` in term `T`. -/
def Packet.Votes : Packet → ℕ → ℕ → ℕ → Prop
  | .request src _ (.requestVote args) _, v, T, c => v = src ∧ T = args.term ∧ c = src
  | .voteReply src dst reply _, v, T, c =>
    v = src ∧ T = reply.term ∧ c = dst ∧ reply.voteGranted = true
  | _, _, _, _ => False

/-- Some packet testifies that `v` voted for `c` in term `T`. -/
def Granted (sent : List Packet) (v T c : ℕ) : Prop := ∃ p ∈ sent, p.Votes v T c

lemma Granted.mono {sent ps : List Packet} {v T c : ℕ} (g : Granted sent v T c) :
    Granted (sent ++ ps) v T c := by
  obtain ⟨p, hp, votes⟩ := g
  exact ⟨p, List.mem_append_left ps hp, votes⟩

lemma Granted.append_cases {sent ps : List Packet} {v T c : ℕ} (g : Granted (sent ++ ps) v T c) :
    Granted sent v T c ∨ ∃ p ∈ ps, p.Votes v T c := by
  obtain ⟨p, hp, votes⟩ := g
  rcases List.mem_append.mp hp with old | new
  · exact .inl ⟨p, old, votes⟩
  · exact .inr ⟨p, new, votes⟩

/-- What a node's core and file have to do with the votes the network knows of. -/
structure BallotOk (ms : List ℕ) (G : ℕ → ℕ → ℕ → Prop) (n : ℕ) (h : Host) : Prop where
  localId : h.core.localId = n
  members : h.core.members = ms
  memory : h.saved.Keeps h.core.persistent
  durable : ∀ {T c}, G n T c → PersistentState.Keeps ⟨T, some c, []⟩ h.saved
  candidate : h.core.role = .candidate → G n h.core.currentTerm n →
    ∀ v ∈ h.core.votesReceived, G v h.core.currentTerm n
  leader : h.core.role = .leader →
    ∃ Q, (QuorumSystem.majority ms).mem Q ∧ ∀ v ∈ Q, G v h.core.currentTerm n

/-- The invariant of the cluster behind election safety. -/
structure VoteInv (C : Cluster) : Prop where
  node : ∀ n, BallotOk C.members (Granted C.sent) n (C.nodes n)
  self : ∀ {v T c}, Granted C.sent v T c → Granted C.sent c T c
  mem : ∀ {v T c}, Granted C.sent v T c → v ∈ C.members
  unique : ∀ {v T c c'}, Granted C.sent v T c → Granted C.sent v T c' → c = c'
  request : ∀ {src dst args ctx}, .request src dst (.requestVote args) ctx ∈ C.sent →
    args.candidateId = src ∧ dst ∈ C.members

namespace BallotOk

variable {ms : List ℕ} {G : ℕ → ℕ → ℕ → Prop} {n : ℕ} {h h' : Host}

lemma granted (ok : BallotOk ms G n h) {T c : ℕ} (g : G n T c) :
    PersistentState.Keeps ⟨T, some c, []⟩ h.core.persistent :=
  (ok.durable g).trans ok.memory

/-- The core moved forward, and the file is as it was or has been replaced by the core's state. -/
lemma advance (ok : BallotOk ms G n h) (id : h'.core.localId = h.core.localId)
    (mem : h'.core.members = h.core.members)
    (keeps : h.core.persistent.Keeps h'.core.persistent)
    (disk : h'.disk = h.disk ∨ h'.disk = some h'.core.persistent)
    (cand : h'.core.role = .candidate → G n h'.core.currentTerm n →
      ∀ v ∈ h'.core.votesReceived, G v h'.core.currentTerm n)
    (lead : h'.core.role = .leader →
      ∃ Q, (QuorumSystem.majority ms).mem Q ∧ ∀ v ∈ Q, G v h'.core.currentTerm n) :
    BallotOk ms G n h' := by
  have saved : h'.saved = h.saved ∨ h'.saved = h'.core.persistent := by
    rcases disk with eq | eq
    · exact .inl (by rw [Host.saved, eq, Host.saved])
    · exact .inr (by rw [Host.saved, eq, Option.getD_some])
  refine ⟨id.trans ok.localId, mem.trans ok.members, ?_, ?_, cand, lead⟩
  · rcases saved with eq | eq
    · rw [eq]
      exact ok.memory.trans keeps
    · rw [eq]
      exact .refl _
  · intro T c g
    rcases saved with eq | eq
    · rw [eq]
      exact ok.durable g
    · rw [eq]
      exact (ok.granted g).trans keeps

lemma follower (ok : BallotOk ms G n h) (id : h'.core.localId = h.core.localId)
    (mem : h'.core.members = h.core.members)
    (keeps : h.core.persistent.Keeps h'.core.persistent)
    (disk : h'.disk = h.disk ∨ h'.disk = some h'.core.persistent)
    (role : h'.core.role = .follower) : BallotOk ms G n h' := by
  refine ok.advance id mem keeps disk ?_ ?_
  · intro cand
    rw [role] at cand
    cases cand
  · intro lead
    rw [role] at lead
    cases lead

/-- The network learns more. A new vote of the node for itself comes with no other vote counted. -/
lemma learned {sent ps : List Packet} (ok : BallotOk ms (Granted sent) n h)
    (durable : ∀ {T c}, Granted (sent ++ ps) n T c → PersistentState.Keeps ⟨T, some c, []⟩ h.saved)
    (candidate : Granted (sent ++ ps) n h.core.currentTerm n →
      Granted sent n h.core.currentTerm n ∨ h.core.votesReceived ⊆ {n}) :
    BallotOk ms (Granted (sent ++ ps)) n h := by
  refine { ok with durable := durable, candidate := ?_, leader := ?_ }
  · intro cand g v hv
    rcases candidate g with known | alone
    · exact (ok.candidate cand known v hv).mono
    · rw [Finset.mem_singleton.mp (alone hv)]
      exact g
  · intro lead
    obtain ⟨Q, hQ, all⟩ := ok.leader lead
    exact ⟨Q, hQ, fun v hv => (all v hv).mono⟩

end BallotOk

namespace VoteInv

variable {C : Cluster} {n : ℕ} {h : Host} {ps : List Packet} {ts : List (ℕ × LogEntry)}

lemma init (members : List ℕ) : VoteInv (Cluster.init members) := by
  have none : ∀ {v T c}, ¬ Granted (Cluster.init members).sent v T c := by
    rintro v T c ⟨p, hp, _⟩
    cases hp
  refine ⟨fun n => ⟨rfl, rfl, .refl _, fun g => absurd g none, nofun, nofun⟩, ?_, ?_, ?_, ?_⟩
  · exact fun g => absurd g none
  · exact fun g => absurd g none
  · exact fun g => absurd g none
  · nofun

lemma host (inv : VoteInv C) (n : ℕ) (sv : List Bool) :
    BallotOk C.members (Granted C.sent) n (C.host n sv) := { inv.node n with }

/-- Node `n` moves to `h` and sends packets that testify to one vote of its own at most. -/
lemma update (inv : VoteInv C) {T c : ℕ} (node : BallotOk C.members (Granted C.sent) n h)
    (only : ∀ p ∈ ps, ∀ {v T' c'}, p.Votes v T' c' → v = n ∧ T' = T ∧ c' = c)
    (vote : ∀ p ∈ ps, ∀ {v T' c'}, p.Votes v T' c' → n ∈ C.members ∧
      h.saved.currentTerm = T ∧ h.saved.votedFor = some c ∧
      ((c = n ∧ h.core.votesReceived ⊆ {n}) ∨ Granted C.sent c T c))
    (req : ∀ {src dst args ctx}, .request src dst (.requestVote args) ctx ∈ ps →
      args.candidateId = src ∧ dst ∈ C.members) :
    VoteInv (C.update n h ps ts) := by
  have clash : ∀ {p v T' c' c''}, p ∈ ps → p.Votes v T' c' → Granted C.sent v T' c'' → c'' = c' := by
    intro p v T' c' c'' hp votes g
    obtain ⟨rfl, rfl, rfl⟩ := only p hp votes
    obtain ⟨_, term, voted, _⟩ := vote p hp votes
    exact (node.durable g).vote_eq term.symm rfl voted
  refine ⟨fun m => ?_, ?_, ?_, ?_, ?_⟩
  · by_cases eq : m = n
    · subst eq
      simp only [Cluster.update, if_true]
      refine node.learned ?_ ?_
      · intro T' c' g
        rcases g.append_cases with old | ⟨p, hp, votes⟩
        · exact node.durable old
        · obtain ⟨_, rfl, rfl⟩ := only p hp votes
          obtain ⟨_, term, voted, _⟩ := vote p hp votes
          exact .inr ⟨term.symm, fun id hid => voted.trans hid⟩
      · intro g
        rcases g.append_cases with known | ⟨p, hp, votes⟩
        · exact .inl known
        · obtain ⟨_, rfl, rfl⟩ := only p hp votes
          obtain ⟨_, _, _, ⟨_, alone⟩ | known⟩ := vote p hp votes
          · exact .inr alone
          · exact .inl known
    · simp only [Cluster.update, if_neg eq]
      have old : ∀ {T' c'}, Granted (C.sent ++ ps) m T' c' → Granted C.sent m T' c' := by
        intro T' c' g
        rcases g.append_cases with known | ⟨p, hp, votes⟩
        · exact known
        · exact absurd (only p hp votes).1 eq
      exact (inv.node m).learned (fun g => (inv.node m).durable (old g)) fun g => .inl (old g)
  · intro v T' c' g
    rcases g.append_cases with old | ⟨p, hp, votes⟩
    · exact (inv.self old).mono
    · obtain ⟨rfl, rfl, rfl⟩ := only p hp votes
      obtain ⟨_, _, _, ⟨rfl, _⟩ | known⟩ := vote p hp votes
      · exact g
      · exact known.mono
  · intro v T' c' g
    rcases g.append_cases with old | ⟨p, hp, votes⟩
    · exact inv.mem old
    · rw [(only p hp votes).1]
      exact (vote p hp votes).1
  · intro v T' c' c'' g g'
    rcases g.append_cases with old | ⟨p, hp, votes⟩ <;>
      rcases g'.append_cases with old' | ⟨p', hp', votes'⟩
    · exact inv.unique old old'
    · exact clash hp' votes' old
    · exact (clash hp votes old').symm
    · exact (only p hp votes).2.2.trans (only p' hp' votes').2.2.symm
  · intro src dst args ctx mem
    rcases List.mem_append.mp mem with old | new
    · exact inv.request old
    · exact req new

lemma quiet (inv : VoteInv C) (node : BallotOk C.members (Granted C.sent) n h)
    (silent : ∀ p ∈ ps, ∀ {v T c}, ¬ p.Votes v T c) : VoteInv (C.update n h ps ts) := by
  refine inv.update (T := 0) (c := 0) node ?_ ?_ ?_
  · exact fun p hp v T c votes => absurd votes (silent p hp)
  · exact fun p hp v T c votes => absurd votes (silent p hp)
  · intro src dst args ctx mem
    have votes : Packet.Votes (.request src dst (.requestVote args) ctx) src args.term src :=
      ⟨rfl, rfl, rfl⟩
    exact absurd votes (silent _ mem)

end VoteInv

section Outcomes

variable {C : Cluster} {n : ℕ} {h h1 h' : Host} {ts : List (ℕ × LogEntry)}

lemma BallotOk.entered {ms : List ℕ} {G : ℕ → ℕ → ℕ → Prop} {term : ℕ}
    (ok : BallotOk ms G n h) (en : Entered term h h1) : BallotOk ms G n h1 := by
  cases en with
  | same _ => exact { ok with }
  | stepped lt =>
    exact ok.follower rfl rfl (.stepDown none lt.le) (.inr rfl) rfl

lemma BallotOk.voteFor {ms : List ℕ} {G : ℕ → ℕ → ℕ → Prop} {args : RequestVoteArgs}
    (ok : BallotOk ms G n h) (may : MayVote args h.core)
    (core : ∃ tm, h'.core = (h.core.voteFor args.candidateId).withTimer tm)
    (disk : h'.disk = h.disk ∨ h'.disk = some (h.core.voteFor args.candidateId).persistent) :
    BallotOk ms G n h' := by
  obtain ⟨tm, core⟩ := core
  refine ok.advance ?_ ?_ ?_ ?_ ?_ ?_
  · rw [core]
    rfl
  · rw [core]
    rfl
  · rw [core]
    exact .voteFor may
  · rw [core]
    exact disk
  · rw [core]
    exact ok.candidate
  · rw [core]
    exact ok.leader

variable {sv : List Bool} {src dst : ℕ} {ctx : OutboundCtx}

/-- A tick may start an election, in which the node votes for itself. -/
lemma VoteInv.handleTick (inv : VoteInv C) {r : Except IoError (List Outbound)}
    (mem : n ∈ C.members) (out : TickOutcome (C.host n sv) r h') :
    VoteInv (C.update n h' (onOk r fun out => out.map (·.packet n)) ts) := by
  have ok := inv.host n sv
  cases out with
  | idle => exact inv.quiet ok (by simp [onOk])
  | heartbeat lead =>
    refine inv.quiet (ok.advance rfl rfl (.refl _) (.inl rfl) ok.candidate ok.leader) ?_
    intro p hp
    obtain ⟨o, ho, rfl⟩ := List.mem_map.mp hp
    obtain ⟨id, _, rfl⟩ := List.mem_map.mp ho
    exact fun votes => votes
  | unsaved ne =>
    refine inv.quiet (ok.advance rfl rfl (.campaign _) (.inl rfl) ?_ nofun) (by simp [onOk])
    -- nobody has heard of the term that was not saved
    intro _ g
    have le : (C.host n sv).core.currentTerm + 1 ≤ (C.host n sv).core.currentTerm :=
      (ok.granted g).term_le
    omega
  | @campaigned tm sv' ne =>
    have node : BallotOk C.members (Granted C.sent) n
        ⟨{ (C.host n sv).core.campaign with votesReceived := {(C.host n sv).core.localId}, timer := tm },
          some (C.host n sv).core.campaign.persistent, sv'⟩ := by
      refine ok.advance rfl rfl (.campaign _) (.inr rfl) ?_ nofun
      intro _ g v hv
      rw [(Finset.mem_singleton.mp hv).trans ok.localId]
      exact g
    refine inv.update (T := (C.host n sv).core.currentTerm + 1) (c := n) node ?_ ?_ ?_
    · intro p hp v T c votes
      obtain ⟨o, ho, rfl⟩ := List.mem_map.mp hp
      obtain ⟨id, _, rfl⟩ := List.mem_map.mp ho
      exact ⟨votes.1, votes.2.1, votes.2.2⟩
    · intro p hp v T c votes
      refine ⟨mem, rfl, congrArg some ok.localId, .inl ⟨rfl, ?_⟩⟩
      exact Finset.singleton_subset_iff.mpr (Finset.mem_singleton.mpr ok.localId)
    · intro src dst args ctx hp
      obtain ⟨o, ho, eq⟩ := List.mem_map.mp hp
      obtain ⟨id, hid, rfl⟩ := List.mem_map.mp ho
      obtain ⟨rfl, rfl, args_eq, _⟩ := Packet.request.inj eq
      obtain rfl := OutboundMessage.requestVote.inj args_eq
      refine ⟨ok.localId, ?_⟩
      rw [← ok.members]
      exact List.mem_of_mem_filter hid

/-- A vote is saved before it is sent. -/
lemma VoteInv.handleVoteRequest (inv : VoteInv C) {args : RequestVoteArgs} {r : Except IoError RequestVoteReply}
    (sent : .request src dst (.requestVote args) ctx ∈ C.sent)
    (out : VoteOutcome args (C.host dst sv) r h') :
    VoteInv (C.update dst h' (onOk r fun reply => [.voteReply dst src reply ctx]) ts) := by
  have ok := inv.host dst sv
  obtain ⟨cand, mem⟩ := inv.request sent
  have silent : ∀ {term}, ∀ p ∈ [Packet.voteReply dst src ⟨term, false⟩ ctx],
      ∀ {v T c}, ¬ p.Votes v T c := by
    rintro term p hp v T c votes
    obtain rfl := List.mem_singleton.mp hp
    cases votes.2.2.2
  cases out with
  | stale _ => exact inv.quiet ok silent
  | lost lt =>
    exact inv.quiet (ok.follower rfl rfl (.stepDown none lt.le) (.inl rfl) rfl) (by simp [onOk])
  | refused en => exact inv.quiet (ok.entered en) silent
  | unsaved en may =>
    exact inv.quiet ((ok.entered en).voteFor may ⟨_, rfl⟩ (.inl rfl)) (by simp [onOk])
  | granted en may =>
    refine inv.update (T := args.term) (c := src)
      ((ok.entered en).voteFor may ⟨_, rfl⟩ (.inr rfl)) ?_ ?_ ?_
    · intro p hp v T c votes
      obtain rfl := List.mem_singleton.mp hp
      exact ⟨votes.1, votes.2.1, votes.2.2.1⟩
    · intro p hp v T c votes
      exact ⟨mem, en.currentTerm, congrArg some cand, .inr ⟨_, sent, rfl, rfl, rfl⟩⟩
    · intro src dst args ctx hp
      cases List.mem_singleton.mp hp

/-- A request of a leader changes no vote of its term. -/
lemma VoteInv.handleAppendRequest (inv : VoteInv C) {args : AppendEntriesArgs} {r : Except IoError AppendEntriesReply}
    (out : AppendOutcome args (C.host dst sv) r h') :
    VoteInv (C.update dst h' (onOk r fun reply => [.appendReply dst src reply ctx]) ts) := by
  have ok := inv.host dst sv
  have silent : ∀ {reply}, ∀ p ∈ [Packet.appendReply dst src reply ctx],
      ∀ {v T c}, ¬ p.Votes v T c := by
    rintro reply p hp v T c votes
    obtain rfl := List.mem_singleton.mp hp
    exact votes
  have disk : (C.host dst sv).followDisk args = (C.host dst sv).disk ∨
      (C.host dst sv).followDisk args = some ((C.host dst sv).core.follow args).persistent := by
    unfold Host.followDisk
    split
    · exact .inr rfl
    · exact .inl rfl
  have follow : ∀ {tm sv'}, ¬ args.term < (C.host dst sv).core.currentTerm →
      BallotOk C.members (Granted C.sent) dst
        ⟨((C.host dst sv).core.follow args).withTimer tm, (C.host dst sv).followDisk args, sv'⟩ := by
    intro tm sv' fresh
    exact ok.follower (follow_localId _ args) (follow_members _ args) (.follow fresh) disk rfl
  cases out with
  | stale _ => exact inv.quiet ok silent
  | lost fresh _ =>
    refine inv.quiet (ok.follower rfl rfl ?_ (.inl rfl) rfl) (by simp [onOk])
    exact .stepDown _ (not_lt.mp fresh)
  | rejected fresh _ => exact inv.quiet (follow fresh) silent
  | @unsaved tm sv' fresh _ _ =>
    refine inv.quiet ?_ (by simp [onOk])
    exact (@follow tm sv' fresh).follower rfl rfl (.refl _) (.inl rfl) rfl
  | @accepted tm sv' fresh _ =>
    refine inv.quiet ?_ silent
    refine (@follow tm sv' fresh).follower rfl rfl (.refl _) ?_ rfl
    split
    · exact .inr rfl
    · exact .inl rfl

/-- A vote is counted once, for the candidate that asked for it. -/
lemma VoteInv.handleVoteReply (inv : VoteInv C) {reply : RequestVoteReply} {r : Except IoError Unit}
    (sent : .voteReply src dst reply ctx ∈ C.sent)
    (out : VoteReplyOutcome src reply (C.host dst sv) r h') : VoteInv (C.update dst h' [] ts) := by
  have ok := inv.host dst sv
  -- with the vote that arrives, every counted vote is one the network knows of
  have counted : (C.host dst sv).core.role = .candidate →
      reply.term = (C.host dst sv).core.currentTerm → reply.voteGranted = true →
      ∀ v ∈ insert src (C.host dst sv).core.votesReceived,
        Granted C.sent v (C.host dst sv).core.currentTerm dst := by
    intro cand term granted v hv
    have g : Granted C.sent src (C.host dst sv).core.currentTerm dst :=
      ⟨_, sent, rfl, term.symm, rfl, granted⟩
    rcases Finset.mem_insert.mp hv with rfl | old
    · exact g
    · exact ok.candidate cand (inv.self g) v old
  cases out with
  | lost lt =>
    exact inv.quiet (ok.follower rfl rfl (.stepDown none lt.le) (.inl rfl) rfl) (by simp)
  | stepped lt =>
    exact inv.quiet (ok.follower rfl rfl (.stepDown none lt.le) (.inr rfl) rfl) (by simp)
  | ignored => exact inv.quiet ok (by simp)
  | counted cand term granted _ =>
    refine inv.quiet (ok.advance rfl rfl (.refl _) (.inl rfl) ?_ ?_) (by simp)
    · exact fun _ _ => counted cand term granted
    · intro lead
      cases cand.symm.trans lead
  | elected cand term granted maj =>
    refine inv.quiet (ok.advance rfl rfl (.refl _) (.inl rfl) nofun ?_) (by simp)
    intro _
    refine ⟨insert src (C.host dst sv).core.votesReceived, ⟨?_, ?_⟩, counted cand term granted⟩
    · intro v hv
      exact List.mem_toFinset.mpr (inv.mem (counted cand term granted v hv))
    · rw [← ok.members]
      exact maj

lemma VoteInv.handleAppendReply (inv : VoteInv C) {prev len : ℕ} {reply : AppendEntriesReply}
    {r : Except IoError Unit}
    (out : AppendReplyOutcome src reply prev len (C.host dst sv) r h') :
    VoteInv (C.update dst h' [] ts) := by
  have ok := inv.host dst sv
  cases out with
  | lost lt =>
    exact inv.quiet (ok.follower rfl rfl (.stepDown none lt.le) (.inl rfl) rfl) (by simp)
  | stepped lt =>
    exact inv.quiet (ok.follower rfl rfl (.stepDown none lt.le) (.inr rfl) rfl) (by simp)
  | ignored => exact inv.quiet ok (by simp)
  | matched lead _ _ =>
    obtain ⟨mi, ni, k, _, _, eq⟩ := progress_frame (C.host dst sv).core src (prev + len)
    rw [eq]
    exact inv.quiet (ok.advance rfl rfl (.refl _) (.inl rfl) ok.candidate ok.leader) (by simp)
  | conflict lead =>
    exact inv.quiet (ok.advance rfl rfl (.refl _) (.inl rfl) ok.candidate ok.leader) (by simp)

lemma VoteInv.handlePropose (inv : VoteInv C) {command : Command} :
    VoteInv (C.update n (propose command (C.host n sv)).2 [] ts) := by
  have ok := inv.host n sv
  rcases propose_cases command (C.host n sv) with ⟨e, sv', eq⟩ | ⟨_, sv', eq⟩
  · rw [eq]
    exact inv.quiet { ok with } (by simp)
  · rw [eq]
    exact inv.quiet (ok.advance rfl rfl (.refl _) (.inr rfl) ok.candidate ok.leader) (by simp)

/-- A crashed node comes back as a follower with the term and vote of its file. -/
lemma VoteInv.restart (inv : VoteInv C) {now : ℕ} :
    VoteInv (C.update n (C.restart n now) [] ts) := by
  have ok := inv.node n
  have node : BallotOk C.members (Granted C.sent) n (C.restart n now) :=
    ⟨rfl, rfl, .refl _, ok.durable, nofun, nofun⟩
  exact inv.quiet node (by simp)

lemma VoteInv.step {C' : Cluster} {e : Event} (inv : VoteInv C) (st : RaftCore.step C e = some C') :
    VoteInv C' := by
  obtain ⟨n, h, ps, ts, tr, rfl⟩ := step_transition st
  cases tr with
  | tick mem out => exact inv.handleTick mem out
  | propose _ => exact inv.handlePropose
  | voteRequest hp out => exact inv.handleVoteRequest (List.mem_of_getElem? hp) out
  | appendRequest _ out => exact inv.handleAppendRequest out
  | voteReply hp out => exact inv.handleVoteReply (List.mem_of_getElem? hp) out
  | appendReply _ out => exact inv.handleAppendReply out
  | ignored => exact inv.quiet (inv.host n _) (by simp)
  | take _ => exact inv.quiet { inv.node n with } (by simp)

lemma VoteInv.stepFaulty {C' : Cluster} {e : FaultyEvent} (inv : VoteInv C)
    (st : RaftCore.stepFaulty C e = some C') : VoteInv C' := by
  cases e with
  | event e => exact inv.step st
  | crash n now =>
    simp only [RaftCore.stepFaulty, Option.ite_none_right_eq_some, Option.some.injEq] at st
    rw [← st.2]
    exact inv.restart

end Outcomes

lemma stepFaulty_sent {C C' : Cluster} {e : FaultyEvent} (st : stepFaulty C e = some C') :
    C'.members = C.members ∧ C.sent <+: C'.sent := by
  cases e with
  | event e =>
    obtain ⟨n, h, ps, ts, _, rfl⟩ := step_transition st
    exact ⟨rfl, List.prefix_append _ _⟩
  | crash n now =>
    simp only [stepFaulty, Option.ite_none_right_eq_some, Option.some.injEq] at st
    rw [← st.2]
    exact ⟨rfl, List.prefix_append _ _⟩

/-- Two leaders of one term, the first in a state of the run and the second in the same or a later
one, are the same node. -/
theorem election_safety {members : List ℕ} {es es' : List FaultyEvent} {C C' : Cluster} {n n' : ℕ}
    (hr : Run.run stepFaulty (Cluster.init members) es = some C)
    (hr' : Run.run stepFaulty C es' = some C')
    (lead : (C.nodes n).core.role = .leader) (lead' : (C'.nodes n').core.role = .leader)
    (term : (C.nodes n).core.currentTerm = (C'.nodes n').core.currentTerm) : n = n' := by
  have inv := Run.invariant_of_run VoteInv.stepFaulty hr (VoteInv.init members)
  have inv' := Run.invariant_of_run VoteInv.stepFaulty hr' inv
  have later : C'.members = C.members ∧ C.sent <+: C'.sent := by
    refine Run.invariant_of_run (P := fun D => D.members = C.members ∧ C.sent <+: D.sent)
      ?_ hr' ⟨rfl, List.prefix_refl _⟩
    intro D e D' old st
    obtain ⟨mem, pre⟩ := stepFaulty_sent st
    exact ⟨mem.trans old.1, old.2.trans pre⟩
  obtain ⟨Q, hQ, votes⟩ := (inv.node n).leader lead
  obtain ⟨Q', hQ', votes'⟩ := (inv'.node n').leader lead'
  rw [later.1] at hQ'
  -- a member of both quorums has voted for both leaders
  obtain ⟨v, hv, hv'⟩ := (QuorumSystem.majority C.members).inter hQ hQ'
  have g : Granted C'.sent v (C.nodes n).core.currentTerm n := by
    obtain ⟨p, hp, vt⟩ := votes v hv
    exact ⟨p, later.2.subset hp, vt⟩
  have g' := votes' v hv'
  rw [← term] at g'
  exact inv'.unique g g'

/-- A leader is elected, a voter crashes and comes back, and the leader is still the only one. -/
theorem election_safety_voter_restarts :
    let es : List FaultyEvent :=
      [.event (.tick 1 1000 []), .event (.deliver 0 1001 []), .event (.deliver 2 1002 [])]
    let es' : List FaultyEvent := [.crash 2 1003, .event (.tick 1 1100 [])]
    ∃ C C', Run.run stepFaulty (Cluster.init [1, 2, 3]) es = some C ∧
      Run.run stepFaulty C es' = some C' ∧
      (C.nodes 1).core.role = .leader ∧ (C'.nodes 1).core.role = .leader ∧
      ∀ n', (C'.nodes n').core.role = .leader →
        (C.nodes 1).core.currentTerm = (C'.nodes n').core.currentTerm → 1 = n' := by
  intro es es'
  obtain ⟨C, hr, lead⟩ := Run.exists_of_test stepFaulty (Cluster.init [1, 2, 3]) es
    (fun C => decide ((C.nodes 1).core.role = .leader)) (by decide)
  obtain ⟨C', hr', lead'⟩ := Run.exists_of_test stepFaulty (Cluster.init [1, 2, 3]) (es ++ es')
    (fun C => decide ((C.nodes 1).core.role = .leader)) (by decide)
  obtain ⟨D, hrD, hr'⟩ := Run.run_append.mp hr'
  obtain rfl := Option.some.inj (hr.symm.trans hrD)
  have lead := of_decide_eq_true lead
  exact ⟨C, C', hr, hr', lead, of_decide_eq_true lead', fun n' => election_safety hr hr' lead⟩

/-- A vote that a packet testifies to is in the voter's file until a later term is, through crashes, and no
packet testifies to another vote of that node in that term. -/
theorem votes_kept {members : List ℕ} {es : List FaultyEvent} {C : Cluster} {p : Packet} {v T c : ℕ}
    (hr : Run.run stepFaulty (Cluster.init members) es = some C) (hp : p ∈ C.sent) (votes : p.Votes v T c) :
    PersistentState.Keeps ⟨T, some c, []⟩ (C.nodes v).saved ∧
      ∀ p' ∈ C.sent, ∀ c', p'.Votes v T c' → c = c' := by
  have inv := Run.invariant_of_run VoteInv.stepFaulty hr (VoteInv.init members)
  refine ⟨(inv.node v).durable ⟨p, hp, votes⟩, fun p' hp' c' votes' => ?_⟩
  exact inv.unique ⟨p, hp, votes⟩ ⟨p', hp', votes'⟩

theorem votes_kept_voter_restarts :
    ∃ C p, Run.run stepFaulty (Cluster.init [1, 2, 3])
        [.event (.tick 1 1000 []), .event (.deliver 0 1001 []), .crash 2 1002] = some C ∧
      p ∈ C.sent ∧ p.Votes 2 1 1 ∧ PersistentState.Keeps ⟨1, some 1, []⟩ (C.nodes 2).saved := by
  obtain ⟨C, hr, test⟩ := Run.exists_of_test stepFaulty (Cluster.init [1, 2, 3])
    [.event (.tick 1 1000 []), .event (.deliver 0 1001 []), .crash 2 1002]
    (fun C => decide (.voteReply 2 1 ⟨1, true⟩ .vote ∈ C.sent)) (by decide)
  have hp := of_decide_eq_true test
  exact ⟨C, _, hr, hp, ⟨rfl, rfl, rfl, rfl⟩, (votes_kept hr hp ⟨rfl, rfl, rfl, rfl⟩).1⟩

end RaftCore
