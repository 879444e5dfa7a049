import CaveRuntime.Common.Positions
import CaveRuntime.RaftCore.State

/-!
# RaftCore: transitions and RPC handlers

Model of `crates/ops/cave-runtime/src/raft_core.rs`, lines 289-841: the role transitions, the four
message handlers, `propose`, `take_committed_entries` and `tick`, in the order of the source.
-/

namespace RaftCore
open Handler RaftCore.Core Positions

def setTermAndPersist (term : ℕ) : Handler Unit := do
  modifyCore fun c =>
    if term ≠ c.currentTerm then
      { c with persistent := { c.persistent with currentTerm := term, votedFor := none } }
    else c
  savePersistent

def recordVoteAndPersist (forNode : ℕ) : Handler Unit := do
  modifyCore fun c => { c with persistent := { c.persistent with votedFor := some forNode } }
  savePersistent

def truncateLogTo (log : List LogEntry) (upTo : ℕ) : List LogEntry :=
  if upTo < log.length then log.take upTo else log

def appendEntriesToLog (log : List LogEntry) (entries : List LogEntry) : List LogEntry :=
  entries.foldl
    (fun log e =>
      let pos := wrappingSub e.index 1
      if pos < log.length then log.set pos e else log ++ [e])
    log

def becomeFollower (term : ℕ) (leader : Option ℕ) (now : ℕ) : Handler Unit := do
  modifyCore fun c => { c with role := .follower, leaderId := leader, votesReceived := ∅ }
  setTermAndPersist term
  modifyCore (resetElectionDeadline now)

/-- Rust `become_candidate`: the votes of an earlier candidacy go only once the save succeeded. -/
def becomeCandidate (now : ℕ) : Handler Unit := do
  modifyCore fun c =>
    { c with
      role := .candidate
      leaderId := none
      persistent := { c.persistent with
        currentTerm := c.currentTerm + 1, votedFor := some c.localId } }
  savePersistent
  modifyCore fun c => resetElectionDeadline now { c with votesReceived := {c.localId} }

namespace Core

/-- The members a node sends to. -/
def peers (c : Core) : List ℕ := c.members.filter (· ≠ c.localId)

def becomeLeader (now : ℕ) (c : Core) : Core :=
  { c with
    role := .leader
    leaderId := some c.localId
    nextIndex := c.peers.foldl (fun m id => m.insert id (c.lastLogIndex + 1)) ∅
    matchIndex := c.peers.foldl (fun m id => m.insert id 0) ∅
    timer := { c.timer with nextHeartbeatDeadline := now } }

/-- How many members, the leader included, are known to hold index `n`. -/
def replicas (c : Core) (n : ℕ) : ℕ :=
  1 + (c.matchIndex.entries.filter fun e => n ≤ e.2).length

/-- The loop of Rust `advance_commit_index`, walking down from `n`. -/
def advanceFrom (c : Core) : ℕ → Core
  | 0 => c
  | n + 1 =>
    if c.commitIndex < n + 1 then
      if c.majority ≤ c.replicas (n + 1) ∧
          (logAt c.log (n + 1)).map (·.term) = some c.currentTerm then
        { c with commitIndex := n + 1 }
      else advanceFrom c n
    else c

def advanceCommitIndex (c : Core) : Core :=
  if c.role ≠ .leader then c else c.advanceFrom c.lastLogIndex

end Core

def candidateLogAtLeastAsUpToDate (candLastTerm : ℕ) (candLastIndex : ℕ)
    (myLastTerm : ℕ) (myLastIndex : ℕ) : Bool :=
  decide (myLastTerm < candLastTerm) ||
    (decide (candLastTerm = myLastTerm) && decide (myLastIndex ≤ candLastIndex))

def handleRequestVote (args : RequestVoteArgs) (now : ℕ) : Handler RequestVoteReply := do
  let c ← getCore
  if args.term < c.currentTerm then
    return { term := c.currentTerm, voteGranted := false }
  if c.currentTerm < args.term then
    becomeFollower args.term none now
  let c ← getCore
  if c.votedFor.any (· ≠ args.candidateId) then
    return { term := c.currentTerm, voteGranted := false }
  if ¬ candidateLogAtLeastAsUpToDate args.lastLogTerm args.lastLogIndex
      c.lastLogTerm c.lastLogIndex then
    return { term := c.currentTerm, voteGranted := false }
  recordVoteAndPersist args.candidateId
  modifyCore (resetElectionDeadline now)
  let c ← getCore
  return { term := c.currentTerm, voteGranted := true }

/-- The prev-log check of `handle_append_entries`: `none` when it passes, otherwise the
`conflict_index` of the rejection. -/
def prevLogConflict (c : Core) (args : AppendEntriesArgs) : Option ℕ :=
  if 0 < args.prevLogIndex then
    match logAt c.log args.prevLogIndex with
    | some e => if e.term = args.prevLogTerm then none else some (args.prevLogIndex - 1)
    | none => some c.lastLogIndex
  else none

/-- One round of the append loop of `handle_append_entries`; the flag is `applied_any`. -/
def appendOne (acc : List LogEntry × Bool) (e : LogEntry) : List LogEntry × Bool :=
  match logAt acc.1 e.index with
  | some existing =>
    if existing.term ≠ e.term then
      (appendEntriesToLog (truncateLogTo acc.1 (e.index - 1)) [e], true)
    else acc
  | none => (appendEntriesToLog acc.1 [e], true)

/-- The commit rule at the end of `handle_append_entries`. -/
def Core.followCommit (c : Core) (leaderCommit : ℕ) : Core :=
  { c with
    commitIndex :=
      if c.commitIndex < leaderCommit then min leaderCommit c.lastLogIndex else c.commitIndex }

def handleAppendEntries (args : AppendEntriesArgs) (now : ℕ) :
    Handler AppendEntriesReply := do
  let c ← getCore
  if args.term < c.currentTerm then
    return { term := c.currentTerm, success := false, conflictIndex := 0 }
  if c.currentTerm < args.term ∨ (c.role = .candidate ∧ args.term = c.currentTerm) then
    becomeFollower args.term (some args.leaderId) now
  modifyCore fun c =>
    resetElectionDeadline now { c with leaderId := some args.leaderId, role := .follower }
  let c ← getCore
  match prevLogConflict c args with
  | some conflict =>
    return { term := c.currentTerm, success := false, conflictIndex := conflict }
  | none =>
    let (log, appliedAny) := args.entries.foldl appendOne (c.log, false)
    modifyCore fun c => c.setLog log
    if appliedAny then
      savePersistent
    modifyCore fun c => c.followCommit args.leaderCommit
    let c ← getCore
    return { term := c.currentTerm, success := true, conflictIndex := 0 }

def handleRequestVoteReply (src : ℕ) (reply : RequestVoteReply) (now : ℕ) :
    Handler Unit := do
  let c ← getCore
  if c.currentTerm < reply.term then
    becomeFollower reply.term none now
    return
  if c.role ≠ .candidate ∨ reply.term < c.currentTerm then
    return
  if reply.voteGranted then
    modifyCore fun c => { c with votesReceived := insert src c.votesReceived }
    modifyCore fun c => if c.majority ≤ c.votesReceived.card then c.becomeLeader now else c

/-- The progress update of `handle_append_entries_reply` on a successful reply. -/
def Core.recordMatch (c : Core) (src : ℕ) (newMatch : ℕ) : Core :=
  if (c.matchIndex.lookup src).getD 0 < newMatch then
    { c with
      matchIndex := c.matchIndex.insert src newMatch
      nextIndex := c.nextIndex.insert src (newMatch + 1) }
  else c

/-- The backtracking of `handle_append_entries_reply` on a rejection. -/
def Core.backtrack (c : Core) (src : ℕ) (conflictIndex : ℕ) : Core :=
  let cur := (c.nextIndex.lookup src).getD 1
  let target := if 0 < conflictIndex then min (max conflictIndex 1) (cur - 1) else max (cur - 1) 1
  { c with nextIndex := c.nextIndex.insert src target }

/-- Rust `handle_append_entries_reply`. The reply's term is compared with the current one only
upwards. -/
def handleAppendEntriesReply (src : ℕ) (reply : AppendEntriesReply)
    (sentPrevIndex : ℕ) (sentEntriesLen : ℕ) (now : ℕ) : Handler Unit := do
  let c ← getCore
  if c.currentTerm < reply.term then
    becomeFollower reply.term none now
    return
  if c.role ≠ .leader then
    return
  if reply.success then
    modifyCore fun c => (c.recordMatch src (sentPrevIndex + sentEntriesLen)).advanceCommitIndex
  else
    modifyCore fun c => c.backtrack src reply.conflictIndex

/-- Rust `propose`: a failed save rolls the appended entry back. -/
def propose (command : Command) (h : Host) : Except NotLeader ℕ × Host :=
  if h.core.role ≠ .leader then
    (.error ⟨h.core.role, h.core.leaderId⟩, h)
  else
    let newIndex := h.core.lastLogIndex + 1
    let entry : LogEntry := { term := h.core.currentTerm, index := newIndex, command := command }
    match savePersistent { h with core := h.core.setLog (h.core.log ++ [entry]) } with
    | (.ok _, h') => (.ok newIndex, h')
    | (.error _, h') =>
      (.error ⟨h.core.role, h.core.leaderId⟩,
        { h' with core := h'.core.setLog h'.core.log.dropLast })

/-- The loop of Rust `take_committed_entries`. -/
def takeLoop (log : List LogEntry) (lastApplied : ℕ) : ℕ → List LogEntry
  | 0 => []
  | k + 1 => (logAt log (lastApplied + 1)).toList ++ takeLoop log (lastApplied + 1) k

def takeCommittedEntries (c : Core) : List LogEntry × Core :=
  (takeLoop c.log c.lastApplied (c.commitIndex - c.lastApplied),
    { c with lastApplied := max c.lastApplied c.commitIndex })

/-- The `RequestVote` a candidate sends to its peers. -/
def Core.voteRequests (c : Core) : List Outbound :=
  c.peers.map fun id =>
    { dst := id
      msg := .requestVote
        { term := c.currentTerm
          candidateId := c.localId
          lastLogIndex := c.lastLogIndex
          lastLogTerm := c.lastLogTerm }
      ctx := .vote }

/-- The `AppendEntries` a leader sends to one peer. -/
def Core.appendRequest (c : Core) (peer : ℕ) : AppendEntriesArgs :=
  let nextIdx := (c.nextIndex.lookup peer).getD 1
  let prevLogIndex := nextIdx - 1
  { term := c.currentTerm
    leaderId := c.localId
    prevLogIndex := prevLogIndex
    prevLogTerm :=
      if prevLogIndex = 0 then 0 else ((logAt c.log prevLogIndex).map (·.term)).getD 0
    entries := c.log.filter fun e => nextIdx ≤ e.index
    leaderCommit := c.commitIndex }

/-- The heartbeats a leader fans out. -/
def Core.appendRequests (c : Core) : List Outbound :=
  c.peers.map fun id =>
    let args := c.appendRequest id
    { dst := id
      msg := .appendEntries args
      ctx := .append args.prevLogIndex args.entries.length }

def tick (now : ℕ) : Handler (List Outbound) := do
  let c ← getCore
  match c.role with
  | .leader =>
    if c.timer.nextHeartbeatDeadline ≤ now then
      modifyCore fun c =>
        { c with timer := { c.timer with
            nextHeartbeatDeadline := now + c.timer.heartbeatInterval } }
      let c ← getCore
      return c.appendRequests
    else return []
  | _ =>
    if c.timer.electionDeadline ≤ now then
      becomeCandidate now
      let c ← getCore
      return c.voteRequests
    else return []

/-- A call of the core by its host. -/
inductive Call where
  | tick (now : ℕ)
  | propose (command : Command)
  | requestVote (args : RequestVoteArgs) (now : ℕ)
  | appendEntries (args : AppendEntriesArgs) (now : ℕ)
  | requestVoteReply (src : ℕ) (reply : RequestVoteReply) (now : ℕ)
  | appendEntriesReply (src : ℕ) (reply : AppendEntriesReply) (prev len : ℕ) (now : ℕ)
  | takeCommittedEntries
  deriving DecidableEq, Repr

/-- The host a call leaves. -/
def Host.call (h : Host) : Call → Host
  | .tick now => (RaftCore.tick now h).2
  | .propose command => (RaftCore.propose command h).2
  | .requestVote args now => (handleRequestVote args now h).2
  | .appendEntries args now => (handleAppendEntries args now h).2
  | .requestVoteReply src reply now => (handleRequestVoteReply src reply now h).2
  | .appendEntriesReply src reply prev len now =>
    (handleAppendEntriesReply src reply prev len now h).2
  | .takeCommittedEntries => { h with core := (RaftCore.takeCommittedEntries h.core).2 }

end RaftCore
