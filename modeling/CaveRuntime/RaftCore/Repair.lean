import CaveRuntime.RaftCore.Log

/-!
# RaftCore: log repair

A leader and one of its followers go through rounds: the leader ticks and sends what it has from
`next_index` on, the follower answers, and the leader takes the answer in. A rejection moves `next_index`
back, to the follower's last index over a hole and by two at another term, so that a request is accepted
after at most `next_index` rounds, and the follower then has the leader's log.

`next_index` is not always right then. It is moved only if `match_index` grows, and a rejection that arrives
late moves it back without touching `match_index` (`late_rejection_stalls`): from there on every request
repeats the log from the old `next_index`, and every one of them is accepted. `Repairable` is what is needed
of the two logs and the two indices, and what suffices.
-/

namespace RaftCore
open Handler RaftCore.Core Positions

/-! ## Rounds -/

/-- When the leader ticks, the follower handles the request, and the leader handles the reply. -/
structure RoundTimes where
  tick : ℕ
  request : ℕ
  reply : ℕ

/-- The leader ticks, and its request to `p` and the reply to it are handled. -/
def round (p : ℕ) (times : RoundTimes) (leader follower : Host) :
    Option (AppendEntriesReply × Host × Host) :=
  match tick times.tick leader with
  | (.ok sent, leader) =>
    match sent.find? (·.dst = p) with
    | some ⟨_, .appendEntries args, .append prev len⟩ =>
      match handleAppendEntries args times.request follower with
      | (.ok reply, follower) =>
        some (reply, (handleAppendEntriesReply p reply prev len times.reply leader).2, follower)
      | (.error _, _) => none
    | _ => none
  | (.error _, _) => none

/-- Rounds until a request is accepted, at most so many. -/
def repair (p : ℕ) : ℕ → (ℕ → RoundTimes) → Host → Host → Option (Host × Host)
  | 0, _, _, _ => none
  | rounds + 1, clock, leader, follower =>
    match round p (clock 0) leader follower with
    | some (reply, leader, follower) =>
      if reply.success then some (leader, follower)
      else repair p rounds (fun k => clock (k + 1)) leader follower
    | none => none

namespace Core

/-- `next_index` as the leader reads it. -/
def nextIdx (c : Core) (p : ℕ) : ℕ := (c.nextIndex.lookup p).getD 1

/-- `match_index` as the leader reads it. -/
def matched (c : Core) (p : ℕ) : ℕ := (c.matchIndex.lookup p).getD 0

end Core

/-- A request is accepted within `next_index` rounds, and then the follower has the leader's log and
`next_index` is behind its end. -/
def Repaired (p : ℕ) (clock : ℕ → RoundTimes) (leader follower : Host) : Prop :=
  ∃ s ∈ repair p (leader.core.nextIdx p) clock leader follower,
    s.2.core.log.take leader.core.lastLogIndex = leader.core.log ∧
      s.1.core.nextIdx p = leader.core.lastLogIndex + 1

/-- Nothing disturbs the rounds: the leader leads, `p` is its peer and in no later term, no save of `p`
fails, and every tick is due. -/
structure Stable (p : ℕ) (clock : ℕ → RoundTimes) (leader follower : Host) : Prop where
  lead : leader.core.role = .leader
  peer : p ∈ leader.core.peers
  term : follower.core.currentTerm ≤ leader.core.currentTerm
  saves : ∀ b ∈ follower.saves, b = true
  due : leader.core.timer.nextHeartbeatDeadline ≤ (clock 0).tick
  pace : ∀ k, (clock k).tick + leader.core.timer.heartbeatInterval ≤ (clock (k + 1)).tick

/-- Where the follower has an entry of the leader's term, it has the leader's log up to there. -/
def LogMatching (log held : List LogEntry) : Prop :=
  ∀ i < log.length, held[i]?.map (·.term) = log[i]?.map (·.term) → held.take (i + 1) = log.take (i + 1)

instance (log held : List LogEntry) : Decidable (LogMatching log held) :=
  inferInstanceAs (Decidable (∀ i < log.length, _ → _))

/-! ## The walk of `next_index` -/

section Walk

/-- The hint of the follower for a request from `n` on, if it rejects it. -/
def probe (log held : List LogEntry) (n : ℕ) : Option ℕ :=
  if n ≤ 1 then none
  else
    match held[n - 2]? with
    | some e => if e.term = (log[n - 2]?.map (·.term)).getD 0 then none else some (n - 2)
    | none => some held.length

/-- Where a rejection moves `next_index`. -/
def retreat (cur conflictIndex : ℕ) : ℕ :=
  if 0 < conflictIndex then min (max conflictIndex 1) (cur - 1) else max (cur - 1) 1

/-- From `n` on the walk ends at `stop`, where the request is accepted. -/
inductive Stops (log held : List LogEntry) : ℕ → ℕ → Prop where
  | here {n} :
    probe log held n = none →
    Stops log held n n
  | back {n k stop} :
    probe log held n = some k →
    Stops log held (retreat n k) stop →
    Stops log held n stop

/-- The first position of the walk that is not past the follower's log. -/
def start (held : List LogEntry) (n : ℕ) : ℕ := if held.length < n - 1 then held.length else n

/-- The walk from `n` on takes no entry of term 0 past the leader's log for a match. -/
def NoZeroMatch (log held : List LogEntry) (n : ℕ) : Prop :=
  ∀ i < start held n, log.length < i → (start held n - i) % 2 = 1 → ∀ e ∈ logAt held i, e.term ≠ 0

/-- The walk from `n` on ends behind the leader's log. -/
def ReachesEnd (log held : List LogEntry) (n : ℕ) : Prop :=
  log.length = 0 ∨
    (log <+: held ∧ log.length < start held n ∧ (start held n - log.length) % 2 = 1)

/-- The condition on the two logs and the two indices. -/
structure Repairable (log held : List LogEntry) (next matched : ℕ) : Prop where
  positive : 0 < next
  noZero : NoZeroMatch log held next
  atEnd : matched < log.length ∨ ReachesEnd log held next

variable {log held : List LogEntry} {n k stop : ℕ}

lemma probe_eq_some (rejected : probe log held n = some k) :
    1 < n ∧ ((held.length < n - 1 ∧ k = held.length) ∨
      (∃ e, held[n - 2]? = some e ∧ e.term ≠ (log[n - 2]?.map (·.term)).getD 0 ∧ k = n - 2)) := by
  unfold probe at rejected
  split at rejected
  · cases rejected
  · rename_i more
    refine ⟨by omega, ?_⟩
    split at rejected
    · rename_i e found
      split at rejected
      · cases rejected
      · rename_i differ
        exact .inr ⟨e, found, differ, (Option.some.inj rejected).symm⟩
    · rename_i hole
      have short := List.getElem?_eq_none_iff.mp hole
      exact .inl ⟨by omega, (Option.some.inj rejected).symm⟩

lemma probe_eq_none (accepted : probe log held n = none) (more : 1 < n) :
    ∃ e, held[n - 2]? = some e ∧ e.term = (log[n - 2]?.map (·.term)).getD 0 := by
  unfold probe at accepted
  rw [if_neg (by omega)] at accepted
  split at accepted
  · rename_i e found
    split at accepted
    · rename_i same
      exact ⟨e, found, same⟩
    · cases accepted
  · cases accepted

lemma retreat_lt (more : 1 < n) : retreat n k < n := by
  unfold retreat
  split <;> omega

lemma retreat_pos (more : 1 < n) : 0 < retreat n k := by
  unfold retreat
  split <;> omega

lemma exists_stops (log held : List LogEntry) : ∃ stop, Stops log held n stop := by
  induction n using Nat.strong_induction_on with
  | _ n ih =>
    cases hint : probe log held n with
    | none => exact ⟨n, .here hint⟩
    | some k =>
      obtain ⟨stop, walk⟩ := ih _ (retreat_lt (probe_eq_some hint).1)
      exact ⟨stop, .back hint walk⟩

lemma start_of_le (le : n - 1 ≤ held.length) : start held n = n := if_neg (by omega)

lemma noZeroMatch_retreat (rejected : probe log held n = some k) :
    NoZeroMatch log held (retreat n k) ↔ NoZeroMatch log held n := by
  obtain ⟨more, ⟨hole, rfl⟩ | ⟨e, found, differ, rfl⟩⟩ := probe_eq_some rejected
  · cases held with
    | nil => simp [NoZeroMatch, logAt]
    | cons a held =>
      have same : start (a :: held) (retreat n (a :: held).length) = start (a :: held) n := by
        simp only [start, retreat, List.length_cons] at hole ⊢
        split_ifs <;> omega
      simp only [NoZeroMatch, same]
  · have bound := (List.getElem?_eq_some_iff.mp found).1
    have back : retreat n (n - 2) = max (n - 2) 1 := by
      unfold retreat
      split <;> omega
    simp only [NoZeroMatch, back, start_of_le (show n - 1 ≤ held.length by omega),
      start_of_le (show max (n - 2) 1 - 1 ≤ held.length by omega)]
    constructor
    · intro before i lt past odd a ha
      by_cases here : i = n - 1
      · -- the entry of the rejection itself
        have eq : logAt held i = some e := by
          rw [logAt, if_neg (by omega), ← found]
          congr 1
          omega
        have none : log[n - 2]? = none := List.getElem?_eq_none (by omega)
        rw [eq] at ha
        cases ha
        simpa [none] using differ
      · exact before i (by omega) past (by omega) a ha
    · intro after i lt past odd a ha
      exact after i (by omega) past (by omega) a ha

lemma reachesEnd_retreat (rejected : probe log held n = some k) :
    ReachesEnd log held (retreat n k) ↔ ReachesEnd log held n := by
  obtain ⟨more, ⟨hole, rfl⟩ | ⟨e, found, differ, rfl⟩⟩ := probe_eq_some rejected
  · cases held with
    | nil =>
      simp only [ReachesEnd, List.prefix_nil, List.length_eq_zero_iff]
      tauto
    | cons a held =>
      have same : start (a :: held) (retreat n (a :: held).length) = start (a :: held) n := by
        simp only [start, retreat, List.length_cons] at hole ⊢
        split_ifs <;> omega
      simp only [ReachesEnd, same]
  · have bound := (List.getElem?_eq_some_iff.mp found).1
    have back : retreat n (n - 2) = max (n - 2) 1 := by
      unfold retreat
      split <;> omega
    -- behind the leader's log the rejection says that the follower does not have it
    have unlike : n = log.length + 1 → ¬ log <+: held := by
      rintro rfl ⟨rest, rfl⟩
      rw [List.getElem?_append_left (by omega)] at found
      exact differ (by rw [found]; rfl)
    simp only [ReachesEnd, back, start_of_le (show n - 1 ≤ held.length by omega),
      start_of_le (show max (n - 2) 1 - 1 ≤ held.length by omega)]
    refine or_congr_right' fun nonempty => and_congr_right fun pre => ?_
    have ne : n ≠ log.length + 1 := fun eq => unlike eq pre
    omega

/-- A request that is accepted inside the leader's log finds the leader's entries before it. -/
lemma prefix_of_accepted (mat : LogMatching log held) (accepted : probe log held n = none)
    (inside : n ≤ log.length + 1) : log.take (n - 1) <+: held := by
  by_cases more : 1 < n
  · obtain ⟨e, found, same⟩ := probe_eq_none accepted more
    have lt : n - 2 < log.length := by omega
    have term : held[n - 2]?.map (·.term) = log[n - 2]?.map (·.term) := by
      rw [found, List.getElem?_eq_getElem lt, Option.map_some, Option.map_some, same,
        List.getElem?_eq_getElem lt]
      rfl
    have upTo := mat (n - 2) lt term
    rw [show n - 2 + 1 = n - 1 by omega] at upTo
    rw [← upTo]
    exact List.take_prefix _ _
  · rw [show n - 1 = 0 by omega]
    exact List.nil_prefix

/-- Where the walk of `next_index` stops, and when the end of the log is reached. -/
lemma Stops.spec (mat : LogMatching log held) (walk : Stops log held n stop) (pos : 0 < n) :
    0 < stop ∧ probe log held stop = none ∧ (NoZeroMatch log held n ↔ stop ≤ log.length + 1) ∧
      (stop ≤ log.length + 1 → (stop = log.length + 1 ↔ ReachesEnd log held n)) := by
  induction walk with
  | @here n accepted =>
    have reach : n - 1 ≤ held.length := by
      by_cases more : 1 < n
      · obtain ⟨e, found, _⟩ := probe_eq_none accepted more
        have := (List.getElem?_eq_some_iff.mp found).1
        omega
      · omega
    refine ⟨pos, accepted, ?_, ?_⟩
    · unfold NoZeroMatch
      rw [start_of_le reach]
      constructor
      · intro noZero
        by_contra past
        obtain ⟨e, found, same⟩ := probe_eq_none accepted (by omega)
        have none : log[n - 2]? = none := List.getElem?_eq_none (by omega)
        have eq : logAt held (n - 1) = some e := by
          rw [logAt, if_neg (by omega), ← found]
          congr 1
        refine noZero (n - 1) (by omega) (by omega) (by omega) e (by rw [eq]; rfl) ?_
        simpa [none] using same
      · intro inside i lt past
        omega
    · intro inside
      unfold ReachesEnd
      rw [start_of_le reach]
      constructor
      · rintro rfl
        have pre := prefix_of_accepted mat accepted inside
        rw [Nat.add_sub_cancel, List.take_length] at pre
        exact .inr ⟨pre, by omega, by omega⟩
      · rintro (empty | ⟨_, lt, _⟩)
        · omega
        · omega
  | back rejected _ ih =>
    have more := (probe_eq_some rejected).1
    obtain ⟨stopPos, accepted, noZero, atEnd⟩ := ih (retreat_pos more)
    rw [noZeroMatch_retreat rejected] at noZero
    rw [reachesEnd_retreat rejected] at atEnd
    exact ⟨stopPos, accepted, noZero, atEnd⟩

/-- The condition holds of a leader that has heard nothing from the follower since its election. -/
lemma repairable_after_election (log held : List LogEntry) : Repairable log held (log.length + 1) 0 := by
  refine ⟨Nat.succ_pos _, ?_, ?_⟩
  · intro i lt past
    have le : start held (log.length + 1) ≤ log.length + 1 := by
      unfold start
      split <;> omega
    omega
  · by_cases empty : log.length = 0
    · exact .inr (.inl empty)
    · exact .inl (Nat.pos_of_ne_zero empty)

end Walk

/-! ## A round -/

/-- A handler that returns as long as no save fails. -/
def Handler.Reliable {α : Type} (x : Handler α) : Prop :=
  ∀ h : Host, (∀ b ∈ h.saves, b = true) → ∃ a h', x h = (.ok a, h') ∧ ∀ b ∈ h'.saves, b = true

namespace Handler.Reliable

variable {α β : Type}

lemma pure (a : α) : Reliable (Pure.pure a) := fun h saves => ⟨a, h, rfl, saves⟩

lemma getCore : Reliable Handler.getCore := fun h saves => ⟨h.core, h, rfl, saves⟩

lemma modifyCore (f : Core → Core) : Reliable (Handler.modifyCore f) := fun _ saves => ⟨(), _, rfl, saves⟩

lemma bind {x : Handler α} {f : α → Handler β} (hx : Reliable x) (hf : ∀ a, Reliable (f a)) :
    Reliable (x >>= f) := by
  intro h saves
  obtain ⟨a, h', eq, saves'⟩ := hx h saves
  rw [bind_ok eq]
  exact hf a h' saves'

lemma ite {c : Prop} [Decidable c] {x y : Handler α} (hx : Reliable x) (hy : Reliable y) :
    Reliable (if c then x else y) := by
  split
  · exact hx
  · exact hy

lemma savePersistent : Reliable RaftCore.savePersistent := by
  intro h saves
  have tail : ∀ b ∈ h.saves.tail, b = true := fun b mem => saves b (List.mem_of_mem_tail mem)
  have next : h.saves.head?.getD true = true := by
    cases sv : h.saves with
    | nil => rfl
    | cons b rest => exact saves b (by rw [sv]; exact List.mem_cons_self)
  refine ⟨(), { h with disk := some h.core.persistent, saves := h.saves.tail }, ?_, tail⟩
  simp only [RaftCore.savePersistent, next, if_true]

lemma becomeFollower (term : ℕ) (leader : Option ℕ) (now : ℕ) :
    Reliable (RaftCore.becomeFollower term leader now) :=
  .bind (.modifyCore _) fun _ =>
    .bind (.bind (.modifyCore _) fun _ => .savePersistent) fun _ => .modifyCore _

lemma handleAppendEntries (args : AppendEntriesArgs) (now : ℕ) :
    Reliable (RaftCore.handleAppendEntries args now) := by
  have receive : Reliable (receiveEntries args) := by
    refine .bind .getCore fun c => ?_
    cases prevLogConflict c args with
    | some k => exact .pure _
    | none =>
      refine .bind (.modifyCore _) fun _ => ?_
      have done := Reliable.bind (.modifyCore fun c => c.followCommit args.leaderCommit) fun _ =>
        .bind .getCore fun c => .pure (⟨c.currentTerm, true, 0⟩ : AppendEntriesReply)
      exact .ite (.bind .savePersistent fun _ => done) done
  refine .bind .getCore fun c => .ite (.pure _) ?_
  have go := Reliable.bind (.modifyCore fun c =>
    resetElectionDeadline now { c with leaderId := some args.leaderId, role := .follower }) fun _ => receive
  exact .ite (.bind (.becomeFollower _ _ _) fun _ => go) go

end Handler.Reliable

section Round

variable {p : ℕ} {clock : ℕ → RoundTimes} {leader follower : Host}

lemma tick_leader {h : Host} {now : ℕ} (lead : h.core.role = .leader)
    (due : h.core.timer.nextHeartbeatDeadline ≤ now) :
    tick now h = (.ok h.core.appendRequests, { h with core := h.core.withTimer { h.core.timer with
      nextHeartbeatDeadline := now + h.core.timer.heartbeatInterval } }) := by
  unfold tick
  rw [getCore_bind]
  cases role : h.core.role with
  | leader =>
    simp only [if_pos due]
    rfl
  | follower => cases role.symm.trans lead
  | candidate => cases role.symm.trans lead

lemma find_appendRequests {c : Core} (peer : p ∈ c.peers) :
    c.appendRequests.find? (·.dst = p) = some ⟨p, .appendEntries (c.appendRequest p),
      .append (c.appendRequest p).prevLogIndex (c.appendRequest p).entries.length⟩ := by
  have first : c.peers.find? (fun id => decide (id = p)) = some p := by
    cases found : c.peers.find? (fun id => decide (id = p)) with
    | none => simpa using List.find?_eq_none.mp found p peer
    | some q =>
      have eq : q = p := by simpa using List.find?_some found
      rw [eq]
  unfold appendRequests
  rw [List.find?_map]
  show (c.peers.find? fun id => decide (id = p)).map _ = _
  rw [first]
  rfl

/-- The follower's check of the leader's request depends on the two logs and `next_index`. -/
lemma prevLogConflict_appendRequest {c d : Core} (ix : Indexed c.log) :
    prevLogConflict c (d.appendRequest p) = probe d.log c.log (d.nextIdx p) := by
  have prev : (d.appendRequest p).prevLogIndex = d.nextIdx p - 1 := rfl
  unfold prevLogConflict probe
  rw [prev]
  by_cases more : d.nextIdx p ≤ 1
  · rw [if_neg (by omega), if_pos more]
  · have pos : d.nextIdx p - 1 ≠ 0 := by omega
    have term : (d.appendRequest p).prevLogTerm = (d.log[d.nextIdx p - 2]?.map (·.term)).getD 0 := by
      show (if d.nextIdx p - 1 = 0 then 0 else ((logAt d.log (d.nextIdx p - 1)).map (·.term)).getD 0) = _
      rw [if_neg pos, logAt, if_neg pos]
      rfl
    rw [if_pos (by omega), if_neg more, term, logAt, if_neg pos, Core.lastLogIndex_eq ix]
    rfl

lemma nextIdx_backtrack (c : Core) (p k : ℕ) : (c.backtrack p k).nextIdx p = retreat (c.nextIdx p) k := by
  unfold nextIdx backtrack
  dsimp only
  rw [AList.lookup_insert]
  rfl

lemma nextIdx_recordMatch (c : Core) (p m : ℕ) :
    (c.recordMatch p m).nextIdx p = if c.matched p < m then m + 1 else c.nextIdx p := by
  unfold recordMatch matched
  split
  · unfold nextIdx
    dsimp only
    rw [AList.lookup_insert]
    rfl
  · rfl

lemma nextIdx_advanceCommitIndex (c : Core) (p : ℕ) : c.advanceCommitIndex.nextIdx p = c.nextIdx p := by
  rcases advanceCommitIndex_cases c with eq | ⟨k, _, _, _, _, eq⟩
  · rw [eq]
  · rw [eq]
    rfl

lemma handleAppendEntriesReply_eq {h : Host} {reply : AppendEntriesReply} (prev len now : ℕ)
    (lead : h.core.role = .leader) (term : ¬ h.core.currentTerm < reply.term) :
    (handleAppendEntriesReply p reply prev len now h).2 =
      { h with core :=
          if reply.success then (h.core.recordMatch p (prev + len)).advanceCommitIndex
          else h.core.backtrack p reply.conflictIndex } := by
  unfold handleAppendEntriesReply
  rw [getCore_bind, if_neg term, if_neg (not_not.mpr lead)]
  split <;> rfl

/-- A stable round is a rejection with the hint of `probe` or an acceptance. -/
lemma Stable.round (st : Stable p clock leader follower) (ix : Indexed follower.core.log) :
    ∃ reply leader' follower', RaftCore.round p (clock 0) leader follower = some (reply, leader', follower') ∧
      (match probe leader.core.log follower.core.log (leader.core.nextIdx p) with
      | some k =>
        reply.success = false ∧ Stable p (fun i => clock (i + 1)) leader' follower' ∧
          leader'.core.log = leader.core.log ∧ follower'.core.log = follower.core.log ∧
          leader'.core.nextIdx p = retreat (leader.core.nextIdx p) k ∧
          leader'.core.matched p = leader.core.matched p
      | none =>
        reply.success = true ∧
          follower'.core.log = (follower.core.merge (leader.core.appendRequest p).entries).1 ∧
          let newMatch := leader.core.nextIdx p - 1 + (leader.core.appendRequest p).entries.length
          leader'.core.nextIdx p =
            if leader.core.matched p < newMatch then newMatch + 1 else leader.core.nextIdx p) := by
  let args := leader.core.appendRequest p
  obtain ⟨reply, follower', handled, saves⟩ :=
    Reliable.handleAppendEntries args (clock 0).request follower st.saves
  have out := handleAppendEntries_outcome args (clock 0).request follower
  rw [handled] at out
  dsimp only at out
  let ticked : Host := { leader with core := leader.core.withTimer { leader.core.timer with
    nextHeartbeatDeadline := (clock 0).tick + leader.core.timer.heartbeatInterval } }
  have eq : reply.term = leader.core.currentTerm → RaftCore.round p (clock 0) leader follower =
      some (reply, { ticked with core :=
        if reply.success then
          (ticked.core.recordMatch p (args.prevLogIndex + args.entries.length)).advanceCommitIndex
        else ticked.core.backtrack p reply.conflictIndex }, follower') := by
    intro term
    have answer := @handleAppendEntriesReply_eq p ticked reply args.prevLogIndex args.entries.length
      (clock 0).reply st.lead (not_lt.mpr term.le)
    unfold RaftCore.round
    rw [tick_leader st.lead st.due]
    dsimp only
    rw [find_appendRequests st.peer]
    dsimp only
    rw [handled]
    dsimp only
    rw [← answer]
  have check : prevLogConflict (follower.core.follow args) args =
      probe leader.core.log follower.core.log (leader.core.nextIdx p) := by
    have ix' : Indexed (follower.core.follow args).log := by rwa [follow_log]
    rw [prevLogConflict_appendRequest ix', follow_log]
  cases out with
  | stale stale =>
    have le : follower.core.currentTerm ≤ args.term := st.term
    omega
  | rejected fresh conflict =>
    rw [check] at conflict
    refine ⟨_, _, _, eq rfl, ?_⟩
    rw [conflict]
    refine ⟨rfl, ⟨st.lead, st.peer, ?_, saves, st.pace 0, fun k => st.pace (k + 1)⟩, rfl, follow_log _ _,
      nextIdx_backtrack _ _ _, rfl⟩
    exact (follow_currentTerm fresh).le
  | accepted fresh pass =>
    rw [check] at pass
    refine ⟨_, _, _, eq rfl, ?_⟩
    rw [pass]
    refine ⟨rfl, rfl, ?_⟩
    exact (nextIdx_advanceCommitIndex _ _).trans (nextIdx_recordMatch _ _ _)

/-- The rounds go back until the follower accepts. -/
lemma Stable.repair {n stop rounds : ℕ} (st : Stable p clock leader follower) (ix : Indexed follower.core.log)
    (walk : Stops leader.core.log follower.core.log n stop) (next : leader.core.nextIdx p = n)
    (enough : n ≤ rounds) (pos : 0 < n) :
    ∃ s ∈ RaftCore.repair p rounds clock leader follower,
      s.2.core.log =
        (follower.core.merge (leader.core.log.filter fun e => decide (stop ≤ e.index))).1 ∧
      let newMatch := stop - 1 + (leader.core.log.filter fun e => decide (stop ≤ e.index)).length
      s.1.core.nextIdx p = if leader.core.matched p < newMatch then newMatch + 1 else stop := by
  generalize hlog : leader.core.log = log at walk
  generalize hheld : follower.core.log = held at walk
  induction walk generalizing clock leader follower rounds with
  | @here n accepted =>
    obtain ⟨reply, leader', follower', eq, out⟩ := st.round ix
    rw [hlog, hheld, next, accepted] at out
    obtain ⟨success, merged, next'⟩ := out
    obtain ⟨rounds, rfl⟩ : ∃ r, rounds = r + 1 := ⟨rounds - 1, by omega⟩
    have entries : (leader.core.appendRequest p).entries = log.filter fun e => decide (n ≤ e.index) := by
      rw [← hlog, ← next]
      rfl
    rw [entries] at merged next'
    refine ⟨(leader', follower'), ?_, merged, next'⟩
    simp only [RaftCore.repair, eq, success, if_true]
    rfl
  | @back n k stop rejected _ ih =>
    have more := (probe_eq_some rejected).1
    obtain ⟨reply, leader', follower', eq, out⟩ := st.round ix
    rw [hlog, hheld, next, rejected] at out
    obtain ⟨failed, st', log', held', next', matched'⟩ := out
    obtain ⟨rounds, rfl⟩ : ∃ r, rounds = r + 1 := ⟨rounds - 1, by omega⟩
    have lt := @retreat_lt n k more
    obtain ⟨s, mem, merged, after⟩ := @ih (fun i => clock (i + 1)) leader' follower' rounds st'
      (by rw [held']; exact hheld ▸ ix) next' (by omega) (retreat_pos more) log' held'
    refine ⟨s, ?_, ?_, ?_⟩
    · simp only [RaftCore.repair, eq, failed, Bool.false_eq_true, if_false]
      exact mem
    · rw [merged]
      unfold merge
      rw [held', hheld]
    · rw [after, matched']

end Round

/-- An accepted request inside the leader's log leaves the follower with that log, and with more only if it
had the whole log before. -/
lemma merge_rest {c : Core} {log : List LogEntry} {n : ℕ} (ix : Indexed log) (mat : LogMatching log c.log)
    (accepted : probe log c.log n = none) (inside : n ≤ log.length + 1) :
    (c.merge (log.drop (n - 1))).1 = if log <+: c.log then c.log else log := by
  have whole : log.take (n - 1) ++ log.drop (n - 1) = log := List.take_append_drop _ _
  have agree : ∀ i a b, c.log[i]? = some a → log[i]? = some b → a.term = b.term →
      c.log.take (i + 1) = log.take (i + 1) := by
    intro i a b ha hb same
    refine mat i (List.getElem?_eq_some_iff.mp hb).1 ?_
    rw [ha, hb, Option.map_some, Option.map_some, same]
  have merged := @foldl_appendOne c.log (log.drop (n - 1)) (log.take (n - 1)) (by rwa [whole])
    (prefix_of_accepted mat accepted inside) (by rwa [whole])
  unfold merge
  rw [merged, whole]
  split <;> rfl

/-- In stable rounds the logs are repaired exactly if the logs and the indices of the peer are
`Repairable`. -/
theorem repaired_iff {p : ℕ} {clock : ℕ → RoundTimes} {leader follower : Host}
    (st : Stable p clock leader follower) (ix : Indexed leader.core.log) (ix' : Indexed follower.core.log)
    (mat : LogMatching leader.core.log follower.core.log) :
    Repaired p clock leader follower ↔
      Repairable leader.core.log follower.core.log (leader.core.nextIdx p) (leader.core.matched p) := by
  rcases Nat.eq_zero_or_pos (leader.core.nextIdx p) with zero | pos
  · constructor
    · rintro ⟨s, mem, _⟩
      rw [zero] at mem
      cases mem
    · intro able
      exact absurd able.positive (by omega)
  obtain ⟨stop, walk⟩ := exists_stops leader.core.log follower.core.log (n := leader.core.nextIdx p)
  obtain ⟨stopPos, accepted, noZero, atEnd⟩ := walk.spec mat pos
  obtain ⟨s, mem, merged, after⟩ := st.repair ix' walk rfl le_rfl pos
  have unique : Repaired p clock leader follower ↔
      s.2.core.log.take leader.core.lastLogIndex = leader.core.log ∧
        s.1.core.nextIdx p = leader.core.lastLogIndex + 1 := by
    constructor
    · rintro ⟨s', mem', rest⟩
      cases Option.mem_unique mem mem'
      exact rest
    · exact fun rest => ⟨s, mem, rest⟩
  rw [unique, Core.lastLogIndex_eq ix]
  rw [Indexed.filter_le ix] at merged after
  dsimp only at after
  rw [List.length_drop] at after
  by_cases inside : stop ≤ leader.core.log.length + 1
  · have sum : stop - 1 + (leader.core.log.length - (stop - 1)) = leader.core.log.length := by omega
    rw [sum] at after
    have has : s.2.core.log.take leader.core.log.length = leader.core.log := by
      rw [merged, merge_rest ix mat accepted inside]
      split
      · rename_i pre
        exact (List.prefix_iff_eq_take.mp pre).symm
      · exact List.take_length
    rw [and_iff_right has, after]
    constructor
    · intro next
      refine ⟨pos, noZero.mpr inside, ?_⟩
      split at next
      · rename_i grows
        exact .inl grows
      · exact .inr ((atEnd inside).mp next)
    · intro able
      split
      · rfl
      · rename_i same
        exact (atEnd inside).mpr (able.atEnd.resolve_left same)
  · -- the follower took an entry past the leader's log for a match
    refine iff_of_false ?_ fun able => inside (noZero.mp able.noZero)
    rintro ⟨_, next⟩
    rw [after] at next
    split at next <;> omega

/-- A round every 50 ms. -/
def heartbeats (k : ℕ) : RoundTimes := ⟨400 + 50 * k, 410 + 50 * k, 420 + 50 * k⟩

/-- A leader of term 4. -/
def newLeader : Host :=
  [.tick 300, .requestVoteReply 2 ⟨4, true⟩ 300].foldl Host.call
    ⟨loadOrInit 1 [1, 2] (some ⟨3, none, [⟨1, 1, [5]⟩, ⟨3, 2, [6]⟩, ⟨3, 3, [7]⟩]⟩) 0, none, []⟩

/-- A follower with entries of a leader that never got a majority. -/
def divergedFollower : Host :=
  ⟨loadOrInit 2 [1, 2] (some ⟨2, none, [⟨1, 1, [5]⟩, ⟨2, 2, [8]⟩, ⟨2, 3, [8]⟩, ⟨2, 4, [8]⟩]⟩) 0, none, []⟩

/-- The new leader repairs the diverged log. -/
theorem repaired_diverged : Repaired 2 heartbeats newLeader divergedFollower := by
  have st : Stable 2 heartbeats newLeader divergedFollower := by
    refine ⟨by decide, by decide, by decide, by decide, by decide, fun k => ?_⟩
    have interval : newLeader.core.timer.heartbeatInterval = 50 := by decide
    simp only [heartbeats]
    omega
  have ix : Indexed newLeader.core.log := Indexed.of_map_eq (by decide)
  have ix' : Indexed divergedFollower.core.log := Indexed.of_map_eq (by decide)
  have next : newLeader.core.nextIdx 2 = newLeader.core.log.length + 1 := by decide
  have matched : newLeader.core.matched 2 = 0 := by decide
  refine (repaired_iff st ix ix' (by decide)).mpr ?_
  rw [next, matched]
  exact repairable_after_election _ _

/-- A leader that was elected with an entry the follower lacks, after two heartbeats in flight: the second
rejection arrives when the entry has been accepted. -/
def lateLeader : Host :=
  [.tick 300, .requestVoteReply 2 ⟨2, true⟩ 300, .appendEntriesReply 2 ⟨2, false, 0⟩ 1 0 310,
    .appendEntriesReply 2 ⟨2, true, 0⟩ 0 1 320, .appendEntriesReply 2 ⟨2, false, 0⟩ 1 0 330].foldl Host.call
    ⟨loadOrInit 1 [1, 2] (some ⟨1, none, [⟨1, 1, [7]⟩]⟩) 0, some ⟨1, none, [⟨1, 1, [7]⟩]⟩, []⟩

/-- The follower, which got the heartbeats and then the entry. -/
def lateFollower : Host :=
  [.appendEntries ⟨2, 1, 1, 1, [], 0⟩ 301, .appendEntries ⟨2, 1, 1, 1, [], 0⟩ 302,
    .appendEntries ⟨2, 1, 0, 0, [⟨1, 1, [7]⟩], 0⟩ 311].foldl Host.call ⟨loadOrInit 2 [1, 2] none 0, none, []⟩

/-- From then on the leader sends the entry in every round, and `next_index` stays where it is. -/
theorem late_rejection_stalls :
    Stable 2 heartbeats lateLeader lateFollower ∧
      lateLeader.core.log = [⟨1, 1, [7]⟩] ∧ lateFollower.core.log = [⟨1, 1, [7]⟩] ∧
      ¬ Repaired 2 heartbeats lateLeader lateFollower := by
  refine ⟨⟨by decide, by decide, by decide, by decide, by decide, fun k => ?_⟩, by decide, by decide, ?_⟩
  · have interval : lateLeader.core.timer.heartbeatInterval = 50 := by decide
    simp only [heartbeats]
    omega
  · rintro ⟨s, mem, _, next⟩
    have stays : (repair 2 (lateLeader.core.nextIdx 2) heartbeats lateLeader lateFollower).map
        (fun s => s.1.core.nextIdx 2) = some 1 := by decide
    rw [Option.mem_def.mp mem, Option.map_some, next] at stays
    exact absurd stays (by decide)

end RaftCore
