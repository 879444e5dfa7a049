import Mathlib.Data.Finset.Card
import Mathlib.Data.List.AList

/-!
# RaftCore: state, disk and handlers that may fail

Model of `crates/ops/cave-runtime/src/raft_core.rs`, lines 59-300: the persistent and volatile state of
one core, the RPC payloads, and `save_persistent`. Terms, indices, node ids and instants are natural
numbers. The timer fields of `RaftCore` form the record `Timer`; `HashSet` is a `Finset` and `BTreeMap`
an `AList`. `state.bin` is the field `disk` of a `Host`: a save replaces it by the persistent state or
fails and leaves it as it was (the write goes to a temporary file that is renamed at the end). Which
saves of a call fail is given by `saves`; saves past the end of that list succeed.

A handler `Result`s either in a value or in an `IoError`, and in both cases in a new host: what a
handler did to the core before the failing save stays done.
-/

namespace RaftCore

abbrev Command := List UInt8

/-- A `BTreeMap` from node ids to log indices. -/
abbrev IndexMap := AList fun _ : ℕ => ℕ

inductive Role where
  | follower
  | candidate
  | leader
  deriving DecidableEq, Repr

structure LogEntry where
  term : ℕ
  index : ℕ
  command : Command
  deriving DecidableEq, Repr

/-- Rust `PersistentState`; the default is the state of a fresh node. -/
structure PersistentState where
  currentTerm : ℕ := 0
  votedFor : Option ℕ := none
  log : List LogEntry := []
  deriving DecidableEq, Repr

structure RequestVoteArgs where
  term : ℕ
  candidateId : ℕ
  lastLogIndex : ℕ
  lastLogTerm : ℕ
  deriving DecidableEq, Repr

structure RequestVoteReply where
  term : ℕ
  voteGranted : Bool
  deriving DecidableEq, Repr

structure AppendEntriesArgs where
  term : ℕ
  leaderId : ℕ
  prevLogIndex : ℕ
  prevLogTerm : ℕ
  entries : List LogEntry
  leaderCommit : ℕ
  deriving DecidableEq, Repr

structure AppendEntriesReply where
  term : ℕ
  success : Bool
  conflictIndex : ℕ
  deriving DecidableEq, Repr

inductive OutboundMessage where
  | requestVote (args : RequestVoteArgs)
  | appendEntries (args : AppendEntriesArgs)
  deriving DecidableEq, Repr

/-- Rust `OutboundCtx`: what the host threads back with the reply. -/
inductive OutboundCtx where
  | vote
  | append (prevLogIndex : ℕ) (entriesLen : ℕ)
  deriving DecidableEq, Repr

/-- Rust `Outbound` with its `OutboundCtx`. -/
structure Outbound where
  dst : ℕ
  msg : OutboundMessage
  ctx : OutboundCtx
  deriving DecidableEq, Repr

structure NotLeader where
  role : Role
  leaderId : Option ℕ
  deriving DecidableEq, Repr

/-- The timer fields of `RaftCore`. -/
structure Timer where
  electionDeadline : ℕ
  electionTimeout : ℕ
  timeoutRangeMs : ℕ × ℕ
  heartbeatInterval : ℕ
  nextHeartbeatDeadline : ℕ
  rngState : UInt64
  deriving DecidableEq, Repr

/-- Rust `RaftCore`. -/
structure Core where
  persistent : PersistentState
  role : Role
  commitIndex : ℕ
  lastApplied : ℕ
  leaderId : Option ℕ
  localId : ℕ
  members : List ℕ
  votesReceived : Finset ℕ
  nextIndex : IndexMap
  matchIndex : IndexMap
  timer : Timer

/-- A core with the file it persists to and the outcomes of its next saves. -/
structure Host where
  core : Core
  disk : Option PersistentState
  saves : List Bool

/-- What `load_or_init` would read from the file. -/
def Host.saved (h : Host) : PersistentState := h.disk.getD {}

/-- The failure of `save_persistent`. -/
inductive IoError where
  | save
  deriving DecidableEq, Repr

/-- A fallible handler: the core changes made before a failure are kept. -/
def Handler (α : Type) : Type := Host → Except IoError α × Host

namespace Handler

instance : Monad Handler where
  pure a h := (.ok a, h)
  bind x f h :=
    match x h with
    | (.ok a, h') => f a h'
    | (.error e, h') => (.error e, h')

variable {α β : Type}

@[simp] lemma pure_apply (a : α) (h : Host) : (pure a : Handler α) h = (.ok a, h) := rfl

lemma bind_apply (x : Handler α) (f : α → Handler β) (h : Host) :
    (x >>= f) h =
      match x h with
      | (.ok a, h') => f a h'
      | (.error e, h') => (.error e, h') := rfl

lemma bind_ok {x : Handler α} {f : α → Handler β} {h h' : Host} {a : α} (hx : x h = (.ok a, h')) :
    (x >>= f) h = f a h' := by
  rw [bind_apply, hx]

lemma bind_error {x : Handler α} {f : α → Handler β} {h h' : Host} {e : IoError}
    (hx : x h = (.error e, h')) : (x >>= f) h = (.error e, h') := by
  rw [bind_apply, hx]

/-- Read the core. -/
def getCore : Handler Core := fun h => (.ok h.core, h)

/-- Change the core. -/
def modifyCore (f : Core → Core) : Handler Unit := fun h => (.ok (), { h with core := f h.core })

@[simp] lemma getCore_bind (f : Core → Handler β) (h : Host) : (getCore >>= f) h = f h.core h := rfl

@[simp] lemma modifyCore_bind (g : Core → Core) (f : Unit → Handler β) (h : Host) :
    (modifyCore g >>= f) h = f () { h with core := g h.core } := rfl

@[simp] lemma modifyCore_apply (g : Core → Core) (h : Host) :
    modifyCore g h = (.ok (), { h with core := g h.core }) := rfl

end Handler

open Handler

def savePersistent : Handler Unit := fun h =>
  if h.saves.head?.getD true then
    (.ok (), { h with disk := some h.core.persistent, saves := h.saves.tail })
  else
    (.error .save, { h with saves := h.saves.tail })

/-- A save either writes the persistent state or fails and leaves the file as it was. -/
lemma savePersistent_cases (h : Host) :
    savePersistent h = (.ok (), ⟨h.core, some h.core.persistent, h.saves.tail⟩) ∨
      savePersistent h = (.error .save, ⟨h.core, h.disk, h.saves.tail⟩) := by
  unfold savePersistent
  split
  · exact .inl rfl
  · exact .inr rfl

namespace Core

def currentTerm (c : Core) : ℕ := c.persistent.currentTerm

def votedFor (c : Core) : Option ℕ := c.persistent.votedFor

def log (c : Core) : List LogEntry := c.persistent.log

def lastLogIndex (c : Core) : ℕ := (c.log.getLast?.map (·.index)).getD 0

def lastLogTerm (c : Core) : ℕ := (c.log.getLast?.map (·.term)).getD 0

def logAt (log : List LogEntry) (idx : ℕ) : Option LogEntry :=
  if idx = 0 then none else log[idx - 1]?

def majority (c : Core) : ℕ := c.members.length / 2 + 1

/-- The core with another log. -/
def setLog (c : Core) (log : List LogEntry) : Core :=
  { c with persistent := { c.persistent with log := log } }

/-- Rust `reset_election_deadline`: one xorshift step picks the next timeout. -/
def resetElectionDeadline (now : ℕ) (c : Core) : Core :=
  let (lo, hi) := c.timer.timeoutRangeMs
  let span := max (hi - lo) 1
  let r1 := c.timer.rngState ^^^ (c.timer.rngState <<< 13)
  let r2 := r1 ^^^ (r1 >>> 7)
  let r3 := r2 ^^^ (r2 <<< 17)
  let pick := lo + r3.toNat % span
  { c with
    timer := { c.timer with
      rngState := r3, electionTimeout := pick, electionDeadline := now + pick } }

end Core

def deriveRngSeed (nodeId : ℕ) : UInt64 :=
  (UInt64.ofNat nodeId * 0x9E3779B97F4A7C15) ||| 0x1

/-- Rust `load_or_init`: the saved state if there is one, a fresh state otherwise. -/
def loadOrInit (localId : ℕ) (members : List ℕ) (disk : Option PersistentState)
    (now : ℕ) : Core :=
  Core.resetElectionDeadline now
    { persistent := disk.getD {}
      role := .follower
      commitIndex := 0
      lastApplied := 0
      leaderId := none
      localId := localId
      members := members
      votesReceived := ∅
      nextIndex := ∅
      matchIndex := ∅
      timer :=
        { electionDeadline := now
          electionTimeout := 0
          timeoutRangeMs := (150, 300)
          heartbeatInterval := 50
          nextHeartbeatDeadline := now
          rngState := deriveRngSeed localId } }

end RaftCore
