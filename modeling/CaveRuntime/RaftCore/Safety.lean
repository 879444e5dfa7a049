import CaveRuntime.RaftCore.Simulation

/-!
# RaftCore: state machine safety

`take_committed_entries` never hands out two different entries for one index, in every run in which no
successful `AppendEntries` reply of an older term is delivered to a leader (`FreshReply`). Without that
condition it does: `handle_append_entries_reply` does not compare the term of the reply with the term
the node leads, so an acknowledgement from an earlier leadership is counted in a later one, for entries
that have been overwritten in between (`stale_reply_diverges`).
-/

namespace RaftCore
open RaftCore.Core Replication

/-- The event delivers a successful `AppendEntries` reply of an older term to a leader. -/
def staleReply (C : Cluster) : Event → Bool
  | .deliver i _ _ =>
    match C.sent[i]? with
    | some (.appendReply _ dst reply _) =>
      reply.success && decide ((C.nodes dst).core.role = .leader) &&
        decide (reply.term < (C.nodes dst).core.currentTerm)
    | _ => false
  | _ => false

/-- A successful reply is delivered to a leader only in the term it acknowledges. -/
def FreshReply (C : Cluster) (e : Event) : Prop := staleReply C e = false
deriving Decidable

section Steps

variable {C : Cluster} {s : Ghost} {n : ℕ} {h h1 : Host} {ts : List (ℕ × LogEntry)}

lemma Sim.silent {s' : Ghost} (sim : Sim C s) (acts : Moves C.members n s s')
    (node : NodeOk C.members s' n h.core) : Sim (C.update n h [] []) s' :=
  sim.update acts node nofun nofun

variable {sv : List Bool} {src dst : ℕ} {ctx : OutboundCtx}

/-- A tick is a campaign of the protocol, or changes nothing there. -/
lemma Sim.handleTick (sim : Sim C s) {r : Except IoError (List Outbound)}
    (mem : n ∈ C.members) (out : TickOutcome (C.host n sv) r h) :
    ∃ s', Sim (C.update n h (onOk r fun out => out.map (·.packet n)) []) s' := by
  have ok := sim.node n
  have peer : ∀ {id}, id ∈ (C.nodes n).core.peers → id ∈ C.members ∧ id ≠ n := by
    intro id hid
    obtain ⟨hid, ne⟩ := List.mem_filter.mp hid
    exact ⟨ok.members ▸ hid, fun eq => of_decide_eq_true ne (eq.trans ok.localId.symm)⟩
  cases out with
  | idle => exact ⟨s, sim.silent .refl ok⟩
  | heartbeat lead =>
    refine ⟨s, sim.update .refl (ok.withTimer _) ?_ nofun⟩
    intro p hp
    obtain ⟨o, ho, rfl⟩ := List.mem_map.mp hp
    obtain ⟨id, hid, rfl⟩ := List.mem_map.mp ho
    exact ⟨(peer hid).1, (peer hid).2, rfl, _, ok.appendRequest sim.inv lead id⟩
  | unsaved _ =>
    obtain ⟨s', acts, ok', _⟩ := ok.campaign_unsaved sim.inv mem
    exact ⟨s', sim.silent acts ok'⟩
  | @campaigned tm _ _ =>
    obtain ⟨s', acts, ok', vote, voteLog⟩ := ok.campaign sim.inv mem tm
    refine ⟨s', sim.update acts ok' ?_ nofun⟩
    intro p hp
    obtain ⟨o, ho, rfl⟩ := List.mem_map.mp hp
    obtain ⟨id, hid, rfl⟩ := List.mem_map.mp ho
    refine ⟨ok.localId, (peer hid).1, vote, ?_⟩
    change Core.lastLogIndex _ = (s'.voteLog n ((C.nodes n).core.currentTerm + 1)).length ∧
      Core.lastLogTerm _ = lastTerm _ (s'.voteLog n ((C.nodes n).core.currentTerm + 1))
    rw [voteLog]
    exact ⟨Core.lastLogIndex_eq ok.indexed, rfl⟩

lemma Sim.handlePropose (sim : Sim C s) (command : Command) (sv : List Bool) :
    ∃ s', Sim (C.update n (propose command (C.host n sv)).2 [] []) s' := by
  have ok := sim.node n
  rcases propose_cases command (C.host n sv) with ⟨e, sv', eq⟩ | ⟨lead, sv', eq⟩
  · rw [eq]
    exact ⟨s, sim.silent .refl ok⟩
  · rw [eq]
    obtain ⟨s', acts, ok'⟩ := ok.propose lead command
    exact ⟨s', sim.silent acts ok'⟩

/-- A node that hears of a higher term steps down, whether or not that is saved. -/
lemma Sim.stepsDown (sim : Sim C s) {term : ℕ} (lt : (C.nodes n).core.currentTerm < term)
    (core : h.core = (C.nodes n).core.stepDown term none ∨
      ∃ tm, h.core = ((C.nodes n).core.stepDown term none).withTimer tm) :
    ∃ s', Sim (C.update n h [] []) s' := by
  obtain ⟨s', acts, ok'⟩ := (sim.node n).stepDown sim.inv none lt.le
  rcases core with eq | ⟨tm, eq⟩
  · exact ⟨s', sim.silent acts (eq ▸ ok')⟩
  · exact ⟨s', sim.silent acts (eq ▸ ok'.withTimer tm)⟩

lemma NodeOk.entered {ms : List ℕ} (inv : GhostInv ms s) (ok : NodeOk ms s n h.core) {term : ℕ}
    (en : Entered term h h1) : ∃ s', Moves ms n s s' ∧ NodeOk ms s' n h1.core := by
  cases en with
  | same _ => exact ⟨s, .refl, ok⟩
  | stepped lt =>
    obtain ⟨s', acts, ok'⟩ := ok.stepDown inv none lt.le
    exact ⟨s', acts, ok'.withTimer _⟩

/-- A vote that is granted is one of the protocol. -/
lemma Sim.handleVoteRequest (sim : Sim C s) {args : RequestVoteArgs} {r : Except IoError RequestVoteReply}
    (sent : .request src dst (.requestVote args) ctx ∈ C.sent)
    (out : VoteOutcome args (C.host dst sv) r h) :
    ∃ s', Sim (C.update dst h (onOk r fun reply => [.voteReply dst src reply ctx]) []) s' := by
  have ok := sim.node dst
  obtain ⟨cand, mem, vote, len, last⟩ := sim.packet _ sent
  rw [← cand] at vote len last
  -- the vote itself, cast in the term of the request
  have cast : ∀ {s1 h1}, Moves C.members dst s s1 → NodeOk C.members s1 dst h1.core →
      Entered args.term (C.host dst sv) h1 → MayVote args h1.core →
      ∃ s', Moves C.members dst s s' ∧
        NodeOk C.members s' dst (h1.core.voteFor args.candidateId) ∧
        s'.vote dst args.term = some args.candidateId := by
    intro s1 h1 acts ok1 en may
    have log := acts.ext.voteLog vote
    obtain ⟨s', acts', rest⟩ := ok1.voteFor may en.currentTerm (acts.ext.vote vote)
      (log ▸ len) (log ▸ last)
    exact ⟨s', acts.trans acts', rest⟩
  have refuse : ∀ {s'} {term}, ∀ p ∈ [Packet.voteReply dst src ⟨term, false⟩ ctx],
      PacketOk C.members s' p := by
    intro s' term p hp
    obtain rfl := List.mem_singleton.mp hp
    exact nofun
  cases out with
  | stale _ => exact ⟨s, sim.update .refl ok refuse nofun⟩
  | lost lt => exact sim.stepsDown lt (.inl rfl)
  | refused en =>
    obtain ⟨s', acts, ok'⟩ := NodeOk.entered (h := C.host dst sv) sim.inv ok en
    exact ⟨s', sim.update acts ok' refuse nofun⟩
  | unsaved en may =>
    obtain ⟨s1, acts, ok1⟩ := NodeOk.entered (h := C.host dst sv) sim.inv ok en
    obtain ⟨s', acts', ok', _⟩ := cast acts ok1 en may
    exact ⟨s', sim.silent acts' ok'⟩
  | granted en may =>
    obtain ⟨s1, acts, ok1⟩ := NodeOk.entered (h := C.host dst sv) sim.inv ok en
    obtain ⟨s', acts', ok', voted⟩ := cast acts ok1 en may
    refine ⟨s', sim.update acts' (ok'.withTimer _) ?_ nofun⟩
    intro p hp
    obtain rfl := List.mem_singleton.mp hp
    exact fun _ => ⟨mem, cand ▸ voted⟩

/-- The follower accepts or acknowledges in the protocol, or stays. -/
lemma Sim.handleAppendRequest (sim : Sim C s) {args : AppendEntriesArgs} {r : Except IoError AppendEntriesReply}
    (sent : .request src dst (.appendEntries args) ctx ∈ C.sent)
    (out : AppendOutcome args (C.host dst sv) r h) :
    ∃ s', Sim (C.update dst h (onOk r fun reply => [.appendReply dst src reply ctx]) []) s' := by
  have ok := sim.node dst
  obtain ⟨mem, ne, rfl, p, req⟩ := sim.packet _ sent
  have accept : ¬ args.term < (C.nodes dst).core.currentTerm →
      prevLogConflict ((C.nodes dst).core.follow args) args = none →
      ∃ s', Moves C.members dst s s' ∧
        NodeOk C.members s' dst (((C.nodes dst).core.follow args).setLog
          ((C.nodes dst).core.merge args.entries).1) ∧
        p <+: ((C.nodes dst).core.merge args.entries).1 ∧ p.length ≤ s'.acked dst args.term := by
    intro fresh pass
    obtain ⟨s1, acts, ok1⟩ := ok.follow sim.inv fresh
    have req1 := req.mono acts.ext
    obtain ⟨s', acts', ok', rest⟩ := ok1.accept (sim.inv.acts acts) (follow_role _ _) req1
      (follow_currentTerm fresh) pass
    have same : ((C.nodes dst).core.follow args).merge args.entries =
        (C.nodes dst).core.merge args.entries := by
      unfold Core.merge
      rw [follow_log]
    rw [same] at ok' rest
    exact ⟨s', acts.trans acts', ok', rest⟩
  have refuse : ∀ {s'} {term k}, ∀ p ∈ [Packet.appendReply dst src ⟨term, false, k⟩
      (.append args.prevLogIndex args.entries.length)], PacketOk C.members s' p := by
    intro s' term k p hp
    obtain rfl := List.mem_singleton.mp hp
    exact nofun
  cases out with
  | stale _ => exact ⟨s, sim.update .refl ok refuse nofun⟩
  | lost fresh _ =>
    obtain ⟨s', acts, ok'⟩ := ok.stepDown sim.inv (some args.leaderId) (not_lt.mp fresh)
    exact ⟨s', sim.silent acts ok'⟩
  | rejected fresh _ =>
    obtain ⟨s', acts, ok'⟩ := ok.follow sim.inv fresh
    exact ⟨s', sim.update acts (ok'.withTimer _) refuse nofun⟩
  | unsaved fresh pass _ =>
    obtain ⟨s', acts, ok', _⟩ := accept fresh pass
    exact ⟨s', sim.silent acts (ok'.withTimer _)⟩
  | accepted fresh pass =>
    obtain ⟨s', acts, ok', pre, acked⟩ := accept fresh pass
    have ok'' := ok'.followCommit (req.mono acts.ext) (follow_currentTerm fresh) pre
    refine ⟨s', sim.update acts (ok''.withTimer _) ?_ nofun⟩
    intro q hq
    obtain rfl := List.mem_singleton.mp hq
    refine fun _ => ⟨mem, ne, ?_⟩
    have len : args.prevLogIndex + args.entries.length = p.length := by
      have prev := req.prev
      rw [← req.entries, List.length_drop]
      omega
    rw [len]
    exact acked

lemma Sim.handleVoteReply (sim : Sim C s) {reply : RequestVoteReply} {r : Except IoError Unit}
    (sent : .voteReply src dst reply ctx ∈ C.sent)
    (out : VoteReplyOutcome src reply (C.host dst sv) r h) :
    ∃ s', Sim (C.update dst h [] []) s' := by
  have ok := sim.node dst
  have packet := sim.packet _ sent
  cases out with
  | lost lt => exact sim.stepsDown lt (.inl rfl)
  | stepped lt => exact sim.stepsDown lt (.inr ⟨_, rfl⟩)
  | ignored => exact ⟨s, sim.silent .refl ok⟩
  | counted cand term granted _ =>
    obtain ⟨mem, vote⟩ := packet granted
    exact ⟨s, sim.silent .refl (ok.counted cand mem (term ▸ vote))⟩
  | elected cand term granted maj =>
    obtain ⟨mem, vote⟩ := packet granted
    obtain ⟨s', acts, ok'⟩ := ok.elected sim.inv cand mem (term ▸ vote) maj _
    exact ⟨s', sim.silent acts ok'⟩

/-- An acknowledgement of the term may commit entries. -/
lemma Sim.handleAppendReply (sim : Sim C s) {prev len : ℕ} {reply : AppendEntriesReply}
    {r : Except IoError Unit}
    (sent : .appendReply src dst reply (.append prev len) ∈ C.sent)
    (fresh : reply.success = true → (C.nodes dst).core.role = .leader →
      (C.nodes dst).core.currentTerm ≤ reply.term)
    (out : AppendReplyOutcome src reply prev len (C.host dst sv) r h) :
    ∃ s', Sim (C.update dst h [] []) s' := by
  have ok := sim.node dst
  have packet := sim.packet _ sent
  cases out with
  | lost lt => exact sim.stepsDown lt (.inl rfl)
  | stepped lt => exact sim.stepsDown lt (.inr ⟨_, rfl⟩)
  | ignored => exact ⟨s, sim.silent .refl ok⟩
  | matched lead notHigher success =>
    obtain ⟨mem, ne, acked⟩ := packet success
    have term : reply.term = (C.nodes dst).core.currentTerm :=
      le_antisymm (not_lt.mp notHigher) (fresh success lead)
    have ok1 := ok.recordMatch sim.inv lead mem ne (term ▸ acked)
    have lead1 : ((C.nodes dst).core.recordMatch src (prev + len)).role = .leader := by
      unfold Core.recordMatch
      split <;> exact lead
    obtain ⟨s', acts, ok'⟩ := ok1.advance sim.inv lead1
    exact ⟨s', sim.silent acts ok'⟩
  | conflict lead => exact ⟨s, sim.silent .refl (ok.backtrack lead src reply.conflictIndex)⟩

/-- Every step whose replies are fresh is matched by the protocol. -/
theorem Sim.step {C' : Cluster} {e : Event} (sim : Sim C s) (fresh : FreshReply C e)
    (st : RaftCore.step C e = some C') : ∃ s', Sim C' s' := by
  obtain ⟨n, h, ps, ts, tr, rfl⟩ := step_transition st
  cases tr with
  | tick mem out => exact sim.handleTick mem out
  | propose _ => exact sim.handlePropose _ _
  | voteRequest hp out => exact sim.handleVoteRequest (List.mem_of_getElem? hp) out
  | appendRequest hp out => exact sim.handleAppendRequest (List.mem_of_getElem? hp) out
  | voteReply hp out => exact sim.handleVoteReply (List.mem_of_getElem? hp) out
  | appendReply hp out =>
    refine sim.handleAppendReply (List.mem_of_getElem? hp) ?_ out
    intro success lead
    simpa [FreshReply, staleReply, hp, success, lead] using fresh
  | ignored => exact ⟨s, sim.silent .refl (sim.node n)⟩
  | take _ =>
    obtain ⟨ok, taken⟩ := (sim.node n).take
    refine ⟨s, sim.update .refl ok nofun ?_⟩
    intro t ht
    obtain ⟨e, he, rfl⟩ := List.mem_map.mp ht
    exact taken e he

end Steps

/-- The protocol follows every run whose replies are fresh. -/
lemma sim_of_run {members : List ℕ} {es : List Event} {C : Cluster}
    (gd : Run.Guarded step FreshReply (Cluster.init members) es)
    (hr : Run.run step (Cluster.init members) es = some C) : ∃ s, Sim C s :=
  Run.invariant_of_guarded (P := fun C => ∃ s, Sim C s) (fun ⟨_, sim⟩ fresh st => sim.step fresh st) gd hr
    ⟨_, Sim.init members⟩

/-- In every run whose replies are fresh, entries taken for one index are equal, whichever nodes took
them and whenever. -/
theorem state_machine_safety {members : List ℕ} {es : List Event} {C : Cluster} {n n' : ℕ}
    {e e' : LogEntry} (gd : Run.Guarded step FreshReply (Cluster.init members) es)
    (hr : Run.run step (Cluster.init members) es = some C) (he : (n, e) ∈ C.taken)
    (he' : (n', e') ∈ C.taken) (idx : e.index = e'.index) : e = e' := by
  obtain ⟨s, sim⟩ := sim_of_run gd hr
  obtain ⟨U, p, stable, len⟩ := sim.taken _ he
  obtain ⟨U', p', stable', len'⟩ := sim.taken _ he'
  have same : p.length + 1 = p'.length + 1 := len.symm.trans (idx.trans len')
  exact stable.entry_eq sim.inv stable' (Nat.succ.inj same)

/-- An entry is committed on two of three nodes and both take it. -/
theorem state_machine_safety_two_take :
    let es : List Event :=
      [.tick 1 1000 [], .deliver 0 1001 [], .deliver 2 1002 [], .propose 1 [7] [], .tick 1 1100 [],
        .deliver 3 1101 [], .deliver 5 1102 [], .take 1, .tick 1 1200 [], .deliver 6 1201 [], .take 2]
    ∃ C e e', Run.Guarded step FreshReply (Cluster.init [1, 2, 3]) es ∧
      Run.run step (Cluster.init [1, 2, 3]) es = some C ∧ (1, e) ∈ C.taken ∧ (2, e') ∈ C.taken ∧
      e.index = 1 ∧ e'.index = 1 ∧ e = e' := by
  intro es
  have gd : Run.Guarded step FreshReply (Cluster.init [1, 2, 3]) es := by decide
  obtain ⟨C, hr, test⟩ := Run.exists_of_test step (Cluster.init [1, 2, 3]) es
    (fun C => decide ((1, ⟨1, 1, [7]⟩) ∈ C.taken ∧ (2, ⟨1, 1, [7]⟩) ∈ C.taken)) (by decide)
  obtain ⟨he, he'⟩ := of_decide_eq_true test
  exact ⟨C, _, _, gd, hr, he, he', rfl, rfl, state_machine_safety gd hr he he' rfl⟩

/-- Log matching: two logs with entries of one term at an index are equal up to it. -/
theorem log_matching {members : List ℕ} {es : List Event} {C : Cluster} {n n' i : ℕ} {e e' : LogEntry}
    (gd : Run.Guarded step FreshReply (Cluster.init members) es)
    (hr : Run.run step (Cluster.init members) es = some C)
    (he : (C.nodes n).core.log[i]? = some e) (he' : (C.nodes n').core.log[i]? = some e')
    (term : e.term = e'.term) :
    (C.nodes n).core.log.take (i + 1) = (C.nodes n').core.log.take (i + 1) := by
  obtain ⟨s, sim⟩ := sim_of_run gd hr
  have cov := sim.inv.covLog n
  have cov' := sim.inv.covLog n'
  rw [(sim.node _).log] at cov cov'
  exact cov.agree cov' he he' term

/-- Leader completeness: what a node has committed is in the log of every leader of its term or a later
one. -/
theorem leader_completeness {members : List ℕ} {es : List Event} {C : Cluster} {n m : ℕ}
    (gd : Run.Guarded step FreshReply (Cluster.init members) es)
    (hr : Run.run step (Cluster.init members) es = some C)
    (lead : (C.nodes m).core.role = .leader)
    (later : (C.nodes n).core.currentTerm ≤ (C.nodes m).core.currentTerm) :
    (C.nodes n).core.log.take (C.nodes n).core.commitIndex <+: (C.nodes m).core.log := by
  obtain ⟨s, sim⟩ := sim_of_run gd hr
  have led := ((sim.node m).leader lead).leader
  have pre := (sim.node n).stable.lead sim.inv later (by rw [led]; rfl)
  rw [← (sim.node m).term] at led pre
  rwa [← sim.inv.leadLog led, (sim.node m).log] at pre

/-- Node 1 leads term 1, replicates an entry to both followers, and node 2 learns that it is committed. Node 3
then leads term 2. -/
def twoLeadersRun : List Event :=
  [.tick 1 1000 [], .deliver 0 1001 [], .deliver 2 1002 [], .propose 1 [7] [], .tick 1 1100 [],
    .deliver 3 1101 [], .deliver 4 1101 [], .deliver 5 1102 [], .tick 1 1200 [], .deliver 7 1201 [],
    .tick 3 3000 [], .deliver 10 3001 [], .deliver 12 3002 []]

lemma twoLeadersRun_ends : ∃ C, Run.Guarded step FreshReply (Cluster.init [1, 2, 3]) twoLeadersRun ∧
    Run.run step (Cluster.init [1, 2, 3]) twoLeadersRun = some C ∧
    (C.nodes 2).core.log[0]? = some ⟨1, 1, [7]⟩ ∧ (C.nodes 3).core.log[0]? = some ⟨1, 1, [7]⟩ ∧
    (C.nodes 2).core.commitIndex = 1 ∧ (C.nodes 3).core.role = .leader ∧
    (C.nodes 2).core.currentTerm ≤ (C.nodes 3).core.currentTerm := by
  obtain ⟨C, hr, test⟩ := Run.exists_of_test step (Cluster.init [1, 2, 3]) twoLeadersRun
    (fun C => decide ((C.nodes 2).core.log[0]? = some (⟨1, 1, [7]⟩ : LogEntry) ∧
      (C.nodes 3).core.log[0]? = some (⟨1, 1, [7]⟩ : LogEntry) ∧ (C.nodes 2).core.commitIndex = 1 ∧
      (C.nodes 3).core.role = .leader ∧ (C.nodes 2).core.currentTerm ≤ (C.nodes 3).core.currentTerm)) (by decide)
  exact ⟨C, by decide, hr, of_decide_eq_true test⟩

theorem log_matching_two_leaders : ∃ C, Run.run step (Cluster.init [1, 2, 3]) twoLeadersRun = some C ∧
    (C.nodes 2).core.log.take 1 = (C.nodes 3).core.log.take 1 := by
  obtain ⟨C, gd, hr, he, he', -⟩ := twoLeadersRun_ends
  exact ⟨C, hr, log_matching gd hr he he' rfl⟩

theorem leader_completeness_two_leaders :
    ∃ C, Run.run step (Cluster.init [1, 2, 3]) twoLeadersRun = some C ∧
      (C.nodes 2).core.log.take 1 <+: (C.nodes 3).core.log := by
  obtain ⟨C, gd, hr, -, -, commit, lead, later⟩ := twoLeadersRun_ends
  exact ⟨C, hr, commit ▸ leader_completeness gd hr lead later⟩

/-- Node 1 leads term 1 with two entries and, in term 3, gets them to node 2, whose reply is delayed.
Node 3, which has an entry of term 2, leads term 4 and overwrites both logs. Node 1 leads term 5,
proposes a new entry for index 2, and now counts the delayed reply: it takes an entry that no other
node has. Node 3 leads term 6 and commits another one. -/
def staleReplyRun : List Event :=
  [.tick 1 1000 [], .deliver 0 1000 [], .deliver 2 1000 [], .propose 1 [1] [], .propose 1 [2] [],
    .tick 3 2000 [], .tick 3 3000 [], .deliver 6 3000 [], .deliver 7 3000 [], .propose 3 [3] [],
    .deliver 5 4000 [], .tick 1 5000 [], .deliver 9 5000 [], .deliver 11 5000 [],
    .tick 1 6000 [], .deliver 12 6000 [], .deliver 14 6000 [],
    .tick 1 7000 [], .deliver 15 7000 [], .deliver 17 7000 [], .tick 1 8000 [], .deliver 18 8000 [],
    .deliver 10 8000 [], .tick 3 9000 [], .deliver 23 9000 [], .deliver 24 9000 [],
    .tick 3 10000 [], .deliver 25 10000 [], .deliver 26 10000 [], .deliver 27 10000 [],
    .deliver 28 10000 [], .tick 3 11000 [], .deliver 29 11000 [], .deliver 30 11000 [],
    .tick 1 12000 [], .deliver 33 12000 [], .deliver 35 12000 [], .propose 1 [4] [],
    .deliver 20 12000 [], .take 1,
    .deliver 34 12000 [], .tick 3 13000 [], .deliver 38 13000 [], .deliver 39 13000 [],
    .propose 3 [5] [], .tick 3 14000 [], .deliver 41 14000 [], .deliver 42 14000 [], .take 3]

/-- With a reply of an older term, two nodes take different entries for one index. -/
theorem stale_reply_diverges :
    ∃ C n n' e e', Run.run step (Cluster.init [1, 2, 3]) staleReplyRun = some C ∧
      (n, e) ∈ C.taken ∧ (n', e') ∈ C.taken ∧ e.index = e'.index ∧ e ≠ e' := by
  obtain ⟨C, hr, test⟩ := Run.exists_of_test step (Cluster.init [1, 2, 3]) staleReplyRun
    (fun C => decide ((1, ⟨5, 2, [4]⟩) ∈ C.taken ∧ (3, ⟨6, 2, [5]⟩) ∈ C.taken)) (by decide)
  obtain ⟨he, he'⟩ := of_decide_eq_true test
  exact ⟨C, 1, 3, _, _, hr, he, he', rfl, by decide⟩

end RaftCore
