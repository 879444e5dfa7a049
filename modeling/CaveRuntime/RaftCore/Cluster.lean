import CaveRuntime.Common.Run
import CaveRuntime.RaftCore.Outcome

/-!
# RaftCore: a cluster and its network

A cluster is one host per node id and the list of every packet sent so far. Packets are never removed
and an event may deliver any of them in any order and any number of times, so loss, duplication, delay
and reordering are all covered. A reply carries the `OutboundCtx` of the request it answers, as in
`run_driver` of `crates/ops/cave-runtime/src/raft_driver.rs`, lines 276-310.

`step` is the cluster without crashes. `stepFaulty` adds crashes: the node comes back through
`load_or_init` from the file. A crash in the middle of a handler call is a call whose remaining saves
fail, followed by a crash.
-/

namespace RaftCore
open RaftCore.Core

/-- What travels between two nodes. -/
inductive Packet where
  | request (src dst : ℕ) (msg : OutboundMessage) (ctx : OutboundCtx)
  | voteReply (src dst : ℕ) (reply : RequestVoteReply) (ctx : OutboundCtx)
  | appendReply (src dst : ℕ) (reply : AppendEntriesReply) (ctx : OutboundCtx)
  deriving DecidableEq, Repr

/-- The nodes, all packets sent so far, and the entries `take_committed_entries` has returned. -/
structure Cluster where
  members : List ℕ
  nodes : ℕ → Host
  sent : List Packet
  taken : List (ℕ × LogEntry)

/-- One step of the cluster; `saves` are the outcomes of the saves of the call. -/
inductive Event where
  | tick (n now : ℕ) (saves : List Bool)
  | propose (n : ℕ) (command : Command) (saves : List Bool)
  | deliver (i now : ℕ) (saves : List Bool)
  | take (n : ℕ)
  deriving DecidableEq, Repr

namespace Cluster

/-- Fresh nodes and an empty network. -/
def init (members : List ℕ) : Cluster where
  members := members
  nodes n := ⟨loadOrInit n members none 0, none, []⟩
  sent := []
  taken := []

/-- The host of `n` before a call whose saves end as `saves` says. -/
def host (C : Cluster) (n : ℕ) (saves : List Bool) : Host := { C.nodes n with saves := saves }

/-- Replace the host of `n`, send packets and record the entries `n` took. -/
def update (C : Cluster) (n : ℕ) (h : Host) (packets : List Packet)
    (entries : List (ℕ × LogEntry)) : Cluster :=
  { C with
    nodes := fun m => if m = n then h else C.nodes m
    sent := C.sent ++ packets
    taken := C.taken ++ entries }

end Cluster

/-- The packet of an outbound message. -/
def Outbound.packet (src : ℕ) (o : Outbound) : Packet := .request src o.dst o.msg o.ctx

/-- The packets of a call that succeeded; a failed call sends nothing. -/
def onOk {α : Type} (r : Except IoError α) (send : α → List Packet) : List Packet :=
  match r with
  | .ok a => send a
  | .error _ => []

/-- Rust `handle_raft_rpc` and the reply half of `run_driver`: the host that a packet leaves at its
receiver, and the reply it sends back if the call succeeds. -/
def receive (p : Packet) (now : ℕ) (h : Host) : Host × List Packet :=
  match p with
  | .request src dst (.requestVote args) ctx =>
    let (r, h') := handleRequestVote args now h
    (h', onOk r fun reply => [.voteReply dst src reply ctx])
  | .request src dst (.appendEntries args) ctx =>
    let (r, h') := handleAppendEntries args now h
    (h', onOk r fun reply => [.appendReply dst src reply ctx])
  | .voteReply src _ reply .vote => ((handleRequestVoteReply src reply now h).2, [])
  | .appendReply src _ reply (.append prev len) =>
    ((handleAppendEntriesReply src reply prev len now h).2, [])
  -- a reply of the other kind than its request is logged and dropped
  | .voteReply _ _ _ (.append _ _) | .appendReply _ _ _ .vote => (h, [])

/-- The receiver of a packet. -/
def Packet.dst : Packet → ℕ
  | .request _ dst _ _ => dst
  | .voteReply _ dst _ _ => dst
  | .appendReply _ dst _ _ => dst

/-- The cluster step. -/
def step (C : Cluster) : Event → Option Cluster
  | .tick n now saves =>
    if n ∈ C.members then
      let (r, h) := tick now (C.host n saves)
      some (C.update n h (onOk r fun out => out.map (·.packet n)) [])
    else none
  | .propose n command saves =>
    if n ∈ C.members then
      some (C.update n (propose command (C.host n saves)).2 [] [])
    else none
  | .deliver i now saves =>
    match C.sent[i]? with
    | some p =>
      let (h, packets) := receive p now (C.host p.dst saves)
      some (C.update p.dst h packets [])
    | none => none
  | .take n =>
    if n ∈ C.members then
      let (entries, core) := takeCommittedEntries (C.nodes n).core
      some (C.update n { C.nodes n with core := core } [] (entries.map (n, ·)))
    else none

/-- A cluster event or the crash and restart of a node. -/
inductive FaultyEvent where
  | event (e : Event)
  | crash (n now : ℕ)
  deriving DecidableEq, Repr

/-- The node after a crash. -/
def Cluster.restart (C : Cluster) (n now : ℕ) : Host :=
  ⟨loadOrInit n C.members (C.nodes n).disk now, (C.nodes n).disk, []⟩

/-- The cluster step with crashes. -/
def stepFaulty (C : Cluster) : FaultyEvent → Option Cluster
  | .event e => step C e
  | .crash n now =>
    if n ∈ C.members then some (C.update n (C.restart n now) [] []) else none

/-- What one event does: the node that acts, the host it leaves, the packets it sends and the entries
it hands out. -/
inductive Transition (C : Cluster) :
    Event → ℕ → Host → List Packet → List (ℕ × LogEntry) → Prop where
  | tick {n now sv r h} :
    n ∈ C.members →
    TickOutcome (C.host n sv) r h →
    Transition C (.tick n now sv) n h (onOk r fun out => out.map (·.packet n)) []
  | propose {n command sv} :
    n ∈ C.members →
    Transition C (.propose n command sv) n (RaftCore.propose command (C.host n sv)).2 [] []
  | voteRequest {i now sv src dst args ctx r h} :
    C.sent[i]? = some (.request src dst (.requestVote args) ctx) →
    VoteOutcome args (C.host dst sv) r h →
    Transition C (.deliver i now sv) dst h (onOk r fun reply => [.voteReply dst src reply ctx]) []
  | appendRequest {i now sv src dst args ctx r h} :
    C.sent[i]? = some (.request src dst (.appendEntries args) ctx) →
    AppendOutcome args (C.host dst sv) r h →
    Transition C (.deliver i now sv) dst h (onOk r fun reply => [.appendReply dst src reply ctx]) []
  | voteReply {i now sv src dst reply r h} :
    C.sent[i]? = some (.voteReply src dst reply .vote) →
    VoteReplyOutcome src reply (C.host dst sv) r h →
    Transition C (.deliver i now sv) dst h [] []
  | appendReply {i now sv src dst reply prev len r h} :
    C.sent[i]? = some (.appendReply src dst reply (.append prev len)) →
    AppendReplyOutcome src reply prev len (C.host dst sv) r h →
    Transition C (.deliver i now sv) dst h [] []
  | ignored {i now sv n} :
    Transition C (.deliver i now sv) n (C.host n sv) [] []
  | take {n} :
    n ∈ C.members →
    Transition C (.take n) n
      { C.nodes n with core := (takeCommittedEntries (C.nodes n).core).2 } []
      ((takeCommittedEntries (C.nodes n).core).1.map (n, ·))

/-- Every step of the cluster is one of the listed transitions. -/
theorem step_transition {C C' : Cluster} {e : Event} (st : step C e = some C') :
    ∃ n h ps ts, Transition C e n h ps ts ∧ C' = C.update n h ps ts := by
  cases e with
  | tick n now sv =>
    simp only [step, Option.ite_none_right_eq_some, Option.some.injEq] at st
    exact ⟨_, _, _, _, .tick st.1 (tick_outcome now _), st.2.symm⟩
  | propose n command sv =>
    simp only [step, Option.ite_none_right_eq_some, Option.some.injEq] at st
    exact ⟨_, _, _, _, .propose st.1, st.2.symm⟩
  | take n =>
    simp only [step, Option.ite_none_right_eq_some, Option.some.injEq] at st
    exact ⟨_, _, _, _, .take st.1, st.2.symm⟩
  | deliver i now sv =>
    cases hp : C.sent[i]? with
    | none => simp [step, hp] at st
    | some p =>
      simp only [step, hp] at st
      obtain rfl := Option.some.inj st
      rcases p with ⟨src, dst, args | args, ctx⟩ | ⟨src, dst, reply, _ | _⟩ | ⟨src, dst, reply, _ | _⟩
      · exact ⟨_, _, _, _, .voteRequest hp (handleRequestVote_outcome args now _), rfl⟩
      · exact ⟨_, _, _, _, .appendRequest hp (handleAppendEntries_outcome args now _), rfl⟩
      · exact ⟨_, _, _, _, .voteReply hp (handleRequestVoteReply_outcome src reply now _), rfl⟩
      · exact ⟨_, _, _, _, .ignored, rfl⟩
      · exact ⟨_, _, _, _, .ignored, rfl⟩
      · exact ⟨_, _, _, _,
          .appendReply hp (handleAppendEntriesReply_outcome src reply _ _ now _), rfl⟩

end RaftCore
