import CaveRuntime.Common.Run
import CaveRuntime.RaftCore.Log

/-!
# RaftCore: acknowledged writes

Model of `crates/ops/cave-runtime/src/raft_apply.rs`, lines 57-103, 172-269 and 448-533, with
`RaftCommand` of `raft_command.rs`: one node with its apply loop and any number of `propose_and_wait`
calls. The loop drains the committed entries and applies them one by one; every successful one is
published to the watch channel, and a waiting call returns as soon as it sees a published index that is
not below its own. JSON is a parameter (`Codec`); of the effect of an entry on the stores the model
keeps that it took place (`applied`).

A call can return for an entry of another leader, which took its index after a change of leadership
(`overwritten_write_acknowledged`), or for an entry that failed to apply and was passed over. Under
`Undisturbed`, which excludes both, what a call returns for is what it proposed.
-/

namespace RaftCore
open RaftCore.Core

/-- Rust `RaftCommand`; `J` is the type of JSON values. -/
inductive RaftCommand (J : Type) where
  | etcdPut (key value : String) (lease : Option ℤ)
  | etcdDelete (key : String) (rangeEnd : Option String)
  | apiserverUpsert (resource : J)
  | apiserverDelete (kind namespace_ name : String)
  | noOp
  deriving DecidableEq

/-- `serde_json` for commands, and whether a JSON value is a `Resource`. What was encoded is not empty
and decodes to itself. -/
structure Codec (J : Type) where
  toVec : RaftCommand J → Option Command
  fromSlice : Command → Option (RaftCommand J)
  isResource : J → Bool
  roundTrip : ∀ {cmd bytes}, toVec cmd = some bytes → bytes ≠ [] ∧ fromSlice bytes = some cmd

inductive ApplyError where
  | decode
  | apiserverUpsert
  deriving DecidableEq, Repr

/-- Rust `RaftCommand::decode`: the empty payload is a no-op. -/
def Codec.decode {J : Type} (codec : Codec J) (bytes : Command) : Except ApplyError (RaftCommand J) :=
  if bytes.isEmpty then .ok .noOp
  else
    match codec.fromSlice bytes with
    | some cmd => .ok cmd
    | none => .error .decode

/-- Rust `apply_one`: the command that is applied, or why it is not. -/
def Codec.applyOne {J : Type} (codec : Codec J) (entry : LogEntry) :
    Except ApplyError (RaftCommand J) := do
  let cmd ← codec.decode entry.command
  match cmd with
  | .apiserverUpsert resource =>
    if codec.isResource resource then return cmd else throw .apiserverUpsert
  | _ => return cmd

/-- An upsert carries a `Resource`. -/
def RaftCommand.typed {J : Type} (codec : Codec J) : RaftCommand J → Bool
  | .apiserverUpsert resource => codec.isResource resource
  | _ => true

lemma Codec.applyOne_isOk {J : Type} (codec : Codec J) {cmd : RaftCommand J} {bytes : Command}
    {e : LogEntry} (enc : codec.toVec cmd = some bytes) (typed : cmd.typed codec = true)
    (carries : e.command = bytes) : (codec.applyOne e).isOk = true := by
  obtain ⟨ne, dec⟩ := codec.roundTrip enc
  have decoded : codec.decode e.command = .ok cmd := by
    simp [decode, carries, ne, dec]
  unfold applyOne
  rw [decoded]
  cases cmd with
  | apiserverUpsert resource =>
    have typed : codec.isResource resource = true := typed
    simp [bind, Except.bind, typed, pure, Except.pure, Except.isOk, Except.toBool]
  | _ => rfl

/-- A `propose_and_wait` call that has proposed: the index it was assigned and the bytes it
proposed. -/
structure Waiter where
  index : ℕ
  command : Command
  deriving DecidableEq, Repr

/-- A node with its apply loop and its `propose_and_wait` calls. -/
structure ApplyNode where
  host : Host
  /-- drained by the loop and not applied yet -/
  batch : List LogEntry
  /-- the value of the `ApplyNotifier` -/
  published : ℕ
  /-- successfully applied -/
  applied : List LogEntry
  waiting : List Waiter
  /-- calls that returned `Ok` -/
  returned : List Waiter

/-- One step of the node. -/
inductive ApplyEvent (J : Type) where
  | call (c : Call) (saves : List Bool)
  | proposeAndWait (cmd : RaftCommand J) (saves : List Bool)
  | drain
  | applyNext
  | wake (i : ℕ)
  | timeout (i : ℕ)
  deriving DecidableEq

namespace ApplyNode

/-- A fresh node. -/
def init (localId : ℕ) (members : List ℕ) : ApplyNode where
  host := ⟨loadOrInit localId members none 0, none, []⟩
  batch := []
  published := 0
  applied := []
  waiting := []
  returned := []

variable {J : Type}

/-- Rust `apply_one_notify` for the next entry of the batch. -/
def applyNext (codec : Codec J) (a : ApplyNode) (entry : LogEntry) (rest : List LogEntry) :
    ApplyNode :=
  match codec.applyOne entry with
  | .ok _ => { a with batch := rest, applied := a.applied ++ [entry], published := entry.index }
  | .error _ => { a with batch := rest }

/-- The first half of Rust `propose_and_wait`, up to the assigned index. -/
def proposeAndWait (codec : Codec J) (a : ApplyNode) (cmd : RaftCommand J) (saves : List Bool) :
    ApplyNode :=
  match codec.toVec cmd with
  | none => a
  | some bytes =>
    match propose bytes { a.host with saves := saves } with
    | (.ok index, h) => { a with host := h, waiting := a.waiting ++ [⟨index, bytes⟩] }
    | (.error _, h) => { a with host := h }

/-- A waiting call looks at the published index and returns `Ok` if it is not below its own. -/
def wake (a : ApplyNode) (i : ℕ) : Option ApplyNode :=
  match a.waiting[i]? with
  | some w =>
    if w.index ≤ a.published then
      some { a with waiting := a.waiting.eraseIdx i, returned := a.returned ++ [w] }
    else some a
  | none => none

/-- The step of the node. The loop drains again only when its batch is done, and nobody else calls
`take_committed_entries`. -/
def step (codec : Codec J) (a : ApplyNode) : ApplyEvent J → Option ApplyNode
  | .call .takeCommittedEntries _ => none
  | .call c saves => some { a with host := Host.call { a.host with saves := saves } c }
  | .proposeAndWait cmd saves => some (a.proposeAndWait codec cmd saves)
  | .drain =>
    match a.batch with
    | [] =>
      let (entries, core) := takeCommittedEntries a.host.core
      some { a with host := { a.host with core := core }, batch := entries }
    | _ :: _ => none
  | .applyNext =>
    match a.batch with
    | [] => none
    | entry :: rest => some (a.applyNext codec entry rest)
  | .wake i => a.wake i
  | .timeout i => some { a with waiting := a.waiting.eraseIdx i }

/-- The indices whose entries are still needed: the committed ones and those of the waiting calls. -/
def needed (a : ApplyNode) : List ℕ :=
  List.range' 1 a.host.core.commitIndex ++ a.waiting.map (·.index)

/-- Where an entry of the request has another term than the log, all needed indices are below it. -/
def Spares (needed : List ℕ) (log entries : List LogEntry) : Prop :=
  ∀ e ∈ entries, ∀ x ∈ logAt log e.index, x.term ≠ e.term → ∀ i ∈ needed, i < e.index
deriving Decidable

/-- The condition on the events of a run: an `AppendEntries` request is contiguous and, unless it is
stale or fails the prev-log check, conflicts with no entry that is still needed; and a call that
waits proposes a typed command. -/
def Undisturbed (codec : Codec J) (a : ApplyNode) : ApplyEvent J → Prop
  | .call (.appendEntries args _) _ =>
    args.Contiguous ∧ (¬ args.term < a.host.core.currentTerm →
      prevLogConflict a.host.core args = none → Spares a.needed a.host.core.log args.entries)
  | .proposeAndWait cmd _ => cmd.typed codec = true
  | _ => True

instance (codec : Codec J) (a : ApplyNode) : (ev : ApplyEvent J) → Decidable (Undisturbed codec a ev)
  | .call (.appendEntries _ _) _ => inferInstanceAs (Decidable (_ ∧ (_ → _ → Spares _ _ _)))
  | .proposeAndWait _ _ => inferInstanceAs (Decidable (_ = true))
  | .applyNext => isTrue trivial
  | .call (.tick _) _ => isTrue trivial
  | .call (.propose _) _ => isTrue trivial
  | .call (.requestVote _ _) _ => isTrue trivial
  | .call (.requestVoteReply _ _ _) _ => isTrue trivial
  | .call (.appendEntriesReply _ _ _ _ _) _ => isTrue trivial
  | .call .takeCommittedEntries _ => isTrue trivial
  | .drain => isTrue trivial
  | .wake _ => isTrue trivial
  | .timeout _ => isTrue trivial

end ApplyNode

/-- The bounds of a core's log. -/
structure CoreOk (c : Core) : Prop where
  indexed : Indexed c.log
  commit : c.commitIndex ≤ c.log.length
  applied : c.lastApplied ≤ c.commitIndex

/-- A call keeps the bounds, hands nothing out and leaves the needed entries in place. -/
structure Served (needed : List ℕ) (c c' : Core) : Prop where
  ok : CoreOk c'
  applied : c'.lastApplied = c.lastApplied
  keep : ∀ i ∈ needed, logAt c'.log i = logAt c.log i

section Served

variable {needed : List ℕ} {h h' : Host} {c c' : Core}

lemma Served.same (ok : CoreOk c) (log : c'.log = c.log) (applied : c'.lastApplied = c.lastApplied)
    (commit : c.commitIndex ≤ c'.commitIndex) (bound : c'.commitIndex ≤ c.log.length) :
    Served needed c c' where
  ok := ⟨log ▸ ok.indexed, log ▸ bound, applied ▸ ok.applied.trans commit⟩
  applied := applied
  keep _ _ := by rw [log]

lemma Served.stepDown (ok : CoreOk c) (term : ℕ) (leader : Option ℕ) :
    Served needed c (c.stepDown term leader) :=
  .same ok (stepDown_log _ _ _) rfl (le_refl _) ok.commit

lemma Served.tick {r : Except IoError (List Outbound)} (ok : CoreOk h.core)
    (out : TickOutcome h r h') : Served needed h.core h'.core := by
  cases out with
  | idle => exact .same ok rfl rfl (le_refl _) ok.commit
  | heartbeat _ => exact .same ok rfl rfl (le_refl _) ok.commit
  | unsaved _ => exact .same ok rfl rfl (le_refl _) ok.commit
  | campaigned _ => exact .same ok rfl rfl (le_refl _) ok.commit

lemma Served.vote {args : RequestVoteArgs} {r : Except IoError RequestVoteReply} (ok : CoreOk h.core)
    (out : VoteOutcome args h r h') : Served needed h.core h'.core := by
  have entered : ∀ {h1}, Entered args.term h h1 → h1.core.log = h.core.log ∧
      h1.core.lastApplied = h.core.lastApplied ∧ h1.core.commitIndex = h.core.commitIndex := by
    intro h1 en
    cases en with
    | same _ => exact ⟨rfl, rfl, rfl⟩
    | stepped _ => exact ⟨stepDown_log _ _ none, rfl, rfl⟩
  cases out with
  | stale _ => exact .same ok rfl rfl (le_refl _) ok.commit
  | lost _ => exact .stepDown ok _ _
  | refused en =>
    obtain ⟨log, applied, commit⟩ := entered en
    exact .same ok log applied commit.ge (commit.trans_le ok.commit)
  | unsaved en _ =>
    obtain ⟨log, applied, commit⟩ := entered en
    exact .same ok log applied commit.ge (commit.trans_le ok.commit)
  | granted en _ =>
    obtain ⟨log, applied, commit⟩ := entered en
    exact .same ok log applied commit.ge (commit.trans_le ok.commit)

lemma Served.voteReply {src : ℕ} {reply : RequestVoteReply} {r : Except IoError Unit}
    (ok : CoreOk h.core) (out : VoteReplyOutcome src reply h r h') :
    Served needed h.core h'.core := by
  cases out with
  | lost _ => exact .stepDown ok _ _
  | stepped _ => exact .same ok (stepDown_log _ _ none) rfl (le_refl _) ok.commit
  | ignored => exact .same ok rfl rfl (le_refl _) ok.commit
  | counted _ _ _ _ => exact .same ok rfl rfl (le_refl _) ok.commit
  | elected _ _ _ _ => exact .same ok rfl rfl (le_refl _) ok.commit

lemma Served.appendReply {src prev len : ℕ} {reply : AppendEntriesReply} {r : Except IoError Unit}
    (ok : CoreOk h.core) (out : AppendReplyOutcome src reply prev len h r h') :
    Served needed h.core h'.core := by
  cases out with
  | lost _ => exact .stepDown ok _ _
  | stepped _ => exact .same ok (stepDown_log _ _ none) rfl (le_refl _) ok.commit
  | ignored => exact .same ok rfl rfl (le_refl _) ok.commit
  | matched _ _ _ =>
    obtain ⟨mi, ni, k, le, bound, eq⟩ := progress_frame h.core src (prev + len)
    rw [Core.lastLogIndex_eq ok.indexed, Nat.max_eq_right ok.commit] at bound
    rw [eq]
    exact .same ok rfl rfl le bound
  | conflict _ => exact .same ok rfl rfl (le_refl _) ok.commit

lemma le_length_of_logAt {l l' : List LogEntry} {k : ℕ} (le : k ≤ l.length)
    (keep : 0 < k → logAt l' k = logAt l k) : k ≤ l'.length := by
  cases k with
  | zero => omega
  | succ i =>
    have eq := keep (Nat.succ_pos i)
    have at_l : l[i]? = some l[i] := List.getElem?_eq_getElem le
    rw [logAt_succ, logAt_succ, at_l] at eq
    exact (List.getElem?_eq_some_iff.mp eq).1

/-- A request cuts the log behind what is needed. -/
lemma Served.append {args : AppendEntriesArgs} {r : Except IoError AppendEntriesReply}
    (ok : CoreOk h.core) (cont : args.Contiguous) (out : AppendOutcome args h r h')
    (inLog : ∀ i ∈ needed, 0 < i ∧ i ≤ h.core.log.length)
    (committed : ∀ i, 0 < i → i ≤ h.core.commitIndex → i ∈ needed)
    (spares : ¬ args.term < h.core.currentTerm → prevLogConflict h.core args = none →
      ApplyNode.Spares needed h.core.log args.entries) :
    Served needed h.core h'.core := by
  have merged : ¬ args.term < h.core.currentTerm →
      prevLogConflict (h.core.follow args) args = none →
      Indexed (h.core.merge args.entries).1 ∧
        ∀ i ∈ needed, logAt (h.core.merge args.entries).1 i = logAt h.core.log i := by
    intro fresh pass
    have pass : prevLogConflict h.core args = none := by
      unfold prevLogConflict Core.lastLogIndex at pass ⊢
      rwa [follow_log] at pass
    have le := prev_le_of_pass pass
    refine ⟨ok.indexed.foldl_appendOne le fun _ _ => cont.index, fun i hi => ?_⟩
    obtain ⟨k, rfl⟩ := Nat.exists_eq_succ_of_ne_zero (inLog i hi).1.ne'
    have keep := foldl_appendOne_keep (b := false) le (fun _ _ => cont.index) (inLog _ hi).2
      fun e he x hx ne => spares fresh pass e he x hx ne _ hi
    have eq := congrArg (·[k]?) keep
    simp only [List.getElem?_take_of_lt (Nat.lt_succ_self k)] at eq
    exact eq
  cases out with
  | stale _ => exact .same ok rfl rfl (le_refl _) ok.commit
  | lost _ _ => exact .stepDown ok _ _
  | rejected _ _ =>
    exact .same ok (follow_log _ _) (follow_lastApplied _ _) (follow_commitIndex _ _).ge
      ((follow_commitIndex _ _).trans_le ok.commit)
  | unsaved fresh pass _ =>
    obtain ⟨ix, keep⟩ := merged fresh pass
    have commit := follow_commitIndex h.core args
    have applied := follow_lastApplied h.core args
    have bound : h.core.commitIndex ≤ (h.core.merge args.entries).1.length :=
      le_length_of_logAt ok.commit fun pos => keep _ (committed _ pos (le_refl _))
    exact ⟨⟨ix, commit.trans_le bound, applied.trans_le (ok.applied.trans_eq commit.symm)⟩,
      applied, keep⟩
  | accepted fresh pass =>
    obtain ⟨ix, keep⟩ := merged fresh pass
    have commit := follow_commitIndex h.core args
    have applied := follow_lastApplied h.core args
    have le := ok.applied
    have bound : h.core.commitIndex ≤ (h.core.merge args.entries).1.length :=
      le_length_of_logAt ok.commit fun pos => keep _ (committed _ pos (le_refl _))
    have last : Core.lastLogIndex ((h.core.follow args).setLog (h.core.merge args.entries).1) =
        (h.core.merge args.entries).1.length := Core.lastLogIndex_eq ix
    have new : (((h.core.follow args).setLog (h.core.merge args.entries).1).followCommit
        args.leaderCommit).commitIndex =
        if h.core.commitIndex < args.leaderCommit then
          min args.leaderCommit (h.core.merge args.entries).1.length
        else h.core.commitIndex := by
      rw [← commit, ← last]
      rfl
    refine ⟨⟨ix, new.trans_le ?_, applied.trans_le (new.ge.trans' ?_)⟩, applied, keep⟩
    · split
      · exact Nat.min_le_right _ _
      · exact bound
    · split <;> omega

end Served

/-- `propose` appends at the end, so every index the log had keeps its entry. -/
lemma Served.propose {needed : List ℕ} {c : Core} (ok : CoreOk c) (command : Command)
    (inLog : ∀ i ∈ needed, 0 < i ∧ i ≤ c.log.length) :
    Served needed c (c.setLog (c.log ++ [⟨c.currentTerm, c.lastLogIndex + 1, command⟩])) := by
  have idx := congrArg (· + 1) (Core.lastLogIndex_eq ok.indexed)
  refine ⟨⟨ok.indexed.concat idx, ?_, ok.applied⟩, rfl, ?_⟩
  · exact ok.commit.trans (by simp [Core.setLog, Core.log])
  · intro i hi
    obtain ⟨k, rfl⟩ := Nat.exists_eq_succ_of_ne_zero (inLog i hi).1.ne'
    exact List.getElem?_append_left (inLog _ hi).2

namespace ApplyNode

variable {J : Type} {codec : Codec J} {a a' : ApplyNode}

/-- The index up to which the loop has processed the log. -/
def processed (a : ApplyNode) : ℕ := a.host.core.lastApplied - a.batch.length

/-- The invariant behind acknowledged writes. -/
structure WriteInv (codec : Codec J) (a : ApplyNode) : Prop where
  core : CoreOk a.host.core
  len : a.batch.length ≤ a.host.core.lastApplied
  batch : ∀ i e, a.batch[i]? = some e → logAt a.host.core.log (a.processed + i + 1) = some e
  published : a.published ≤ a.processed
  applied : ∀ e ∈ a.applied, e.index ≤ a.processed ∧ logAt a.host.core.log e.index = some e
  waiting : ∀ w ∈ a.waiting, ∃ e, logAt a.host.core.log w.index = some e ∧ e.command = w.command ∧
    (codec.applyOne e).isOk = true ∧ (w.index ≤ a.processed → e ∈ a.applied)
  returned : ∀ w ∈ a.returned, ∃ e ∈ a.applied, e.index = w.index ∧ e.command = w.command

lemma pos_of_logAt {l : List LogEntry} {i : ℕ} {e : LogEntry} (he : logAt l i = some e) :
    0 < i ∧ i ≤ l.length := by
  cases i with
  | zero => cases he
  | succ k => exact ⟨Nat.succ_pos k, (List.getElem?_eq_some_iff.mp he).1⟩

lemma WriteInv.needed (inv : WriteInv codec a) :
    ∀ i ∈ a.needed, 0 < i ∧ i ≤ a.host.core.log.length := by
  intro i hi
  rcases List.mem_append.mp hi with com | wait
  · obtain ⟨ge, lt⟩ := List.mem_range'_1.mp com
    have := inv.core.commit
    omega
  · obtain ⟨w, hw, rfl⟩ := List.mem_map.mp wait
    obtain ⟨e, he, _⟩ := inv.waiting w hw
    exact pos_of_logAt he

lemma mem_needed {i : ℕ} (pos : 0 < i) (le : i ≤ a.host.core.commitIndex) : i ∈ a.needed :=
  List.mem_append_left _ (List.mem_range'_1.mpr ⟨pos, by omega⟩)

/-- A call of the core that leaves the needed entries in place keeps the invariant. -/
lemma WriteInv.served {h : Host} (inv : WriteInv codec a) (sv : Served a.needed a.host.core h.core) :
    WriteInv codec { a with host := h } := by
  have applied := inv.core.applied
  have len := inv.len
  have proc : processed { a with host := h } = a.processed := by
    simp only [processed, sv.applied]
  have keep : ∀ {i}, 0 < i → i ≤ a.host.core.lastApplied →
      logAt h.core.log i = logAt a.host.core.log i :=
    fun pos le => sv.keep _ (mem_needed pos (le.trans applied))
  refine ⟨sv.ok, sv.applied ▸ inv.len, ?_, proc ▸ inv.published, ?_, ?_, inv.returned⟩
  · intro i e he
    have lt := (List.getElem?_eq_some_iff.mp he).1
    rw [proc, keep (Nat.succ_pos _)]
    · exact inv.batch i e he
    · unfold processed
      change i < a.batch.length at lt
      omega
  · intro e he
    obtain ⟨le, at_e⟩ := inv.applied e he
    refine ⟨proc ▸ le, ?_⟩
    rw [keep (pos_of_logAt at_e).1 (le.trans (Nat.sub_le _ _)), at_e]
  · intro w hw
    obtain ⟨e, at_e, cmd, applies, done⟩ := inv.waiting w hw
    refine ⟨e, ?_, cmd, applies, proc ▸ done⟩
    rw [sv.keep w.index (List.mem_append_right _ (List.mem_map_of_mem hw)), at_e]

lemma WriteInv.init (localId : ℕ) (members : List ℕ) : WriteInv codec (init localId members) where
  core := ⟨Positions.Indexed.nil, le_refl _, le_refl _⟩
  len := le_refl _
  batch := by simp [ApplyNode.init]
  published := le_refl _
  applied := nofun
  waiting := nofun
  returned := nofun

/-- The core handles a call, with saves that may fail. -/
lemma WriteInv.call (inv : WriteInv codec a) {c : Call} {saves : List Bool}
    (ok : Undisturbed codec a (.call c saves))
    (st : step codec a (.call c saves) = some a') : WriteInv codec a' := by
  let h : Host := ⟨a.host.core, a.host.disk, saves⟩
  have core : CoreOk h.core := inv.core
  cases c with
  | takeCommittedEntries => cases st
  | tick now =>
    obtain rfl := Option.some.inj st
    have sv : Served a.needed h.core (tick now h).2.core := .tick core (tick_outcome now h)
    exact inv.served sv
  | propose command =>
    obtain rfl := Option.some.inj st
    have sv : Served a.needed h.core (propose command h).2.core := by
      rcases propose_cases command h with ⟨e, sv, eq⟩ | ⟨_, sv, eq⟩
      · rw [eq]
        exact .same core rfl rfl (le_refl _) core.commit
      · rw [eq]
        exact .propose core command inv.needed
    exact inv.served sv
  | requestVote args now =>
    obtain rfl := Option.some.inj st
    have sv : Served a.needed h.core (handleRequestVote args now h).2.core :=
      .vote core (handleRequestVote_outcome args now h)
    exact inv.served sv
  | appendEntries args now =>
    obtain rfl := Option.some.inj st
    obtain ⟨cont, spares⟩ := ok
    have sv : Served a.needed h.core (handleAppendEntries args now h).2.core :=
      .append core cont (handleAppendEntries_outcome args now h)
        inv.needed (fun i pos le => mem_needed pos le) spares
    exact inv.served sv
  | requestVoteReply src reply now =>
    obtain rfl := Option.some.inj st
    have sv : Served a.needed h.core (handleRequestVoteReply src reply now h).2.core :=
      .voteReply core (handleRequestVoteReply_outcome src reply now h)
    exact inv.served sv
  | appendEntriesReply src reply prev len now =>
    obtain rfl := Option.some.inj st
    have sv : Served a.needed h.core (handleAppendEntriesReply src reply prev len now h).2.core :=
      .appendReply core (handleAppendEntriesReply_outcome src reply prev len now h)
    exact inv.served sv

/-- A command is proposed, and its caller waits for the index. -/
lemma WriteInv.proposeAndWait (inv : WriteInv codec a) {cmd : RaftCommand J}
    (typed : cmd.typed codec = true) (saves : List Bool) :
    WriteInv codec (a.proposeAndWait codec cmd saves) := by
  unfold ApplyNode.proposeAndWait
  cases enc : codec.toVec cmd with
  | none => exact inv
  | some bytes =>
    rcases propose_cases bytes { a.host with saves := saves } with ⟨e, sv, eq⟩ | ⟨_, sv, eq⟩
    · simp only [eq]
      exact inv.served (.same inv.core rfl rfl (le_refl _) inv.core.commit)
    · simp only [eq]
      let c := a.host.core.setLog
        (a.host.core.log ++ [⟨a.host.core.currentTerm, a.host.core.lastLogIndex + 1, bytes⟩])
      have inv' : WriteInv codec { a with host := ⟨c, some c.persistent, sv⟩ } :=
        inv.served (.propose inv.core bytes inv.needed)
      have idx : a.host.core.lastLogIndex = a.host.core.log.length :=
        Core.lastLogIndex_eq inv.core.indexed
      refine { inv' with waiting := ?_ }
      intro w hw
      rcases List.mem_append.mp hw with old | new
      · exact inv'.waiting w old
      · obtain rfl := List.mem_singleton.mp new
        refine ⟨⟨a.host.core.currentTerm, a.host.core.lastLogIndex + 1, bytes⟩, ?_, rfl,
          codec.applyOne_isOk enc typed rfl, ?_⟩
        · simp [idx, Core.setLog, Core.log]
        · -- the index is past everything the loop has seen
          intro le
          have := inv.core.applied
          have := inv.core.commit
          simp only [processed, Core.setLog, idx] at le
          omega

/-- The committed entries become the batch. -/
lemma WriteInv.drain (inv : WriteInv codec a) (empty : a.batch = []) :
    WriteInv codec { a with
      host := { a.host with core := (takeCommittedEntries a.host.core).2 }
      batch := (takeCommittedEntries a.host.core).1 } := by
  have applied := inv.core.applied
  have commit := inv.core.commit
  have entries : (takeCommittedEntries a.host.core).1 =
      (a.host.core.log.drop a.host.core.lastApplied).take
        (a.host.core.commitIndex - a.host.core.lastApplied) := takeLoop_eq (by omega)
  have last : (takeCommittedEntries a.host.core).2.lastApplied = a.host.core.commitIndex :=
    Nat.max_eq_right applied
  have len : (takeCommittedEntries a.host.core).1.length =
      a.host.core.commitIndex - a.host.core.lastApplied := by
    rw [entries, List.length_take, List.length_drop]
    omega
  have before : a.processed = a.host.core.lastApplied := by
    simp [processed, empty]
  have proc : processed { a with
      host := { a.host with core := (takeCommittedEntries a.host.core).2 }
      batch := (takeCommittedEntries a.host.core).1 } = a.processed := by
    rw [before]
    simp only [processed, last, len]
    omega
  refine ⟨⟨inv.core.indexed, inv.core.commit, last.le⟩, ?_, ?_, proc ▸ inv.published,
    proc ▸ inv.applied, proc ▸ inv.waiting, inv.returned⟩
  · simp only [last, len]
    omega
  · intro i e he
    have lt : i < a.host.core.commitIndex - a.host.core.lastApplied :=
      len ▸ (List.getElem?_eq_some_iff.mp he).1
    simp only [entries, List.getElem?_take_of_lt lt, List.getElem?_drop] at he
    rw [proc, before]
    exact he

/-- The entry of a waiting write has been applied, or is the next one, or comes later. -/
lemma WriteInv.waiting_next (inv : WriteInv codec a) {entry : LogEntry}
    (at_e : logAt a.host.core.log (a.processed + 1) = some entry) {w : Waiter} (hw : w ∈ a.waiting) :
    ∃ e, logAt a.host.core.log w.index = some e ∧ e.command = w.command ∧
      (codec.applyOne e).isOk = true ∧ (w.index ≤ a.processed + 1 → e ∈ a.applied ∨ e = entry) := by
  obtain ⟨e, he, cmd, applies, done⟩ := inv.waiting w hw
  refine ⟨e, he, cmd, applies, fun le => ?_⟩
  by_cases old : w.index ≤ a.processed
  · exact .inl (done old)
  · have eq : w.index = a.processed + 1 := by omega
    rw [eq, at_e] at he
    exact .inr (Option.some.inj he).symm

/-- The next entry of the batch is applied. -/
lemma WriteInv.applyNext (inv : WriteInv codec a) {entry : LogEntry} {rest : List LogEntry}
    (batch : a.batch = entry :: rest) :
    WriteInv codec (a.applyNext codec entry rest) := by
  have len := inv.len
  have proc : a.host.core.lastApplied - rest.length = a.processed + 1 := by
    simp only [processed, batch, List.length_cons] at len ⊢
    omega
  have at_e : logAt a.host.core.log (a.processed + 1) = some entry :=
    inv.batch 0 entry (by rw [batch]; rfl)
  have idx : entry.index = a.processed + 1 := inv.core.indexed _ _ at_e
  have batch' : ∀ i e, rest[i]? = some e →
      logAt a.host.core.log (a.processed + 1 + i + 1) = some e := by
    intro i e he
    have := inv.batch (i + 1) e (by rw [batch]; exact he)
    rwa [Nat.add_right_comm _ 1 i]
  have len' : rest.length ≤ a.host.core.lastApplied := by
    simp only [batch, List.length_cons] at len
    omega
  unfold ApplyNode.applyNext
  cases run : codec.applyOne entry with
  | ok cmd =>
    refine ⟨inv.core, len', ?_, ?_, ?_, ?_, ?_⟩
    · simp only [processed, proc]
      exact batch'
    · simp only [processed, proc]
      exact idx.le
    · simp only [processed, proc]
      intro e he
      rcases List.mem_append.mp he with old | new
      · obtain ⟨le, at_e⟩ := inv.applied e old
        exact ⟨le.trans (Nat.le_succ _), at_e⟩
      · obtain rfl := List.mem_singleton.mp new
        exact ⟨idx.le, idx ▸ at_e⟩
    · simp only [processed, proc]
      intro w hw
      obtain ⟨e, he, cmd, applies, done⟩ := inv.waiting_next at_e hw
      refine ⟨e, he, cmd, applies, fun le => ?_⟩
      rcases done le with old | new
      · exact List.mem_append_left _ old
      · exact List.mem_append_right _ (List.mem_singleton.mpr new)
    · intro w hw
      obtain ⟨e, he, rest⟩ := inv.returned w hw
      exact ⟨e, List.mem_append_left _ he, rest⟩
  | error err =>
    refine ⟨inv.core, len', ?_, ?_, ?_, ?_, inv.returned⟩
    · simp only [processed, proc]
      exact batch'
    · simp only [processed, proc]
      exact inv.published.trans (Nat.le_succ _)
    · simp only [processed, proc]
      intro e he
      obtain ⟨le, at_e⟩ := inv.applied e he
      exact ⟨le.trans (Nat.le_succ _), at_e⟩
    · simp only [processed, proc]
      intro w hw
      obtain ⟨e, he, cmd, applies, done⟩ := inv.waiting_next at_e hw
      refine ⟨e, he, cmd, applies, fun le => ?_⟩
      rcases done le with old | rfl
      · exact old
      · -- a failing entry is nobody's
        rw [run] at applies
        cases applies

lemma WriteInv.wake (inv : WriteInv codec a) {i : ℕ} (st : a.wake i = some a') : WriteInv codec a' := by
  unfold ApplyNode.wake at st
  cases hw : a.waiting[i]? with
  | none => simp [hw] at st
  | some w =>
    simp only [hw] at st
    split at st
    · obtain rfl := Option.some.inj st
      rename_i le
      refine { inv with
        waiting := fun w hw => inv.waiting w (List.mem_of_mem_eraseIdx hw)
        returned := ?_ }
      intro v hv
      rcases List.mem_append.mp hv with old | new
      · exact inv.returned v old
      · obtain rfl := List.mem_singleton.mp new
        obtain ⟨e, he, cmd, _, done⟩ := inv.waiting v (List.mem_of_getElem? hw)
        obtain ⟨k, hk⟩ := Nat.exists_eq_succ_of_ne_zero (pos_of_logAt he).1.ne'
        refine ⟨e, done (le.trans inv.published), ?_, cmd⟩
        rw [hk] at he ⊢
        exact inv.core.indexed k e he
    · obtain rfl := Option.some.inj st
      exact inv

lemma WriteInv.step {ev : ApplyEvent J} (inv : WriteInv codec a) (ok : Undisturbed codec a ev)
    (st : ApplyNode.step codec a ev = some a') : WriteInv codec a' := by
  cases ev with
  | call c saves => exact inv.call ok st
  | proposeAndWait cmd saves =>
    obtain rfl := Option.some.inj st
    exact inv.proposeAndWait ok saves
  | drain =>
    cases batch : a.batch with
    | nil =>
      simp only [ApplyNode.step, batch] at st
      obtain rfl := Option.some.inj st
      exact inv.drain batch
    | cons e rest => simp [ApplyNode.step, batch] at st
  | applyNext =>
    cases batch : a.batch with
    | nil => simp [ApplyNode.step, batch] at st
    | cons entry rest =>
      simp only [ApplyNode.step, batch] at st
      obtain rfl := Option.some.inj st
      exact inv.applyNext batch
  | wake i => exact inv.wake st
  | timeout i =>
    obtain rfl := Option.some.inj st
    exact { inv with waiting := fun w hw => inv.waiting w (List.mem_of_mem_eraseIdx hw) }

/-- Acknowledged writes are applied writes: in every undisturbed run, a call that returned `Ok(i)` has
its command applied at index `i`, and nothing else is applied there. -/
theorem acknowledged_is_applied {localId : ℕ} {members : List ℕ} {evs : List (ApplyEvent J)}
    {w : Waiter}
    (gd : Run.Guarded (ApplyNode.step codec) (Undisturbed codec) (ApplyNode.init localId members) evs)
    (hr : Run.run (ApplyNode.step codec) (ApplyNode.init localId members) evs = some a)
    (hw : w ∈ a.returned) :
    (∃ e ∈ a.applied, e.index = w.index ∧ e.command = w.command) ∧
      ∀ e ∈ a.applied, e.index = w.index → e.command = w.command := by
  have inv := Run.invariant_of_guarded WriteInv.step gd hr (WriteInv.init localId members)
  obtain ⟨e, he, idx, cmd⟩ := inv.returned w hw
  refine ⟨⟨e, he, idx, cmd⟩, fun e' he' idx' => ?_⟩
  have at_e := (inv.applied e he).2
  have at_e' := (inv.applied e' he').2
  rw [idx', ← idx, at_e] at at_e'
  rw [← Option.some.inj at_e', cmd]

/-- A codec for no-ops and for upserts of one resource. -/
def twoCommands (isResource : Bool) : Codec Unit where
  toVec
    | .noOp => some [0]
    | .apiserverUpsert () => some [1]
    | _ => none
  fromSlice
    | [0] => some .noOp
    | [1] => some (.apiserverUpsert ())
    | _ => none
  isResource _ := isResource
  roundTrip := by
    intro cmd bytes enc
    cases cmd with
    | noOp => simp_all [← Option.some.inj enc]
    | apiserverUpsert resource => simp_all [← Option.some.inj enc]
    | _ => cases enc

/-- Node 1 becomes the leader of term 1. -/
def leadTerm1 : List (ApplyEvent Unit) :=
  [.call (.tick 1000) [], .call (.requestVoteReply 2 ⟨1, true⟩ 1001) []]

/-- A write that is replicated, applied and acknowledged. -/
theorem acknowledged_is_applied_one_write :
    let evs := leadTerm1 ++ [.proposeAndWait (.apiserverUpsert ()) [],
      .call (.appendEntriesReply 2 ⟨1, true, 0⟩ 0 1 1100) [], .drain, .wake 0, .applyNext, .wake 0]
    ∃ a, Run.Guarded (step (twoCommands true)) (Undisturbed (twoCommands true)) (init 1 [1, 2, 3])
        evs ∧
      Run.run (step (twoCommands true)) (init 1 [1, 2, 3]) evs = some a ∧ ⟨1, [1]⟩ ∈ a.returned ∧
      ∃ e ∈ a.applied, e.index = 1 ∧ e.command = [1] := by
  intro evs
  have gd : Run.Guarded (step (twoCommands true)) (Undisturbed (twoCommands true))
      (init 1 [1, 2, 3]) evs := by decide
  obtain ⟨a, hr, test⟩ := Run.exists_of_test (step (twoCommands true)) (init 1 [1, 2, 3]) evs
    (fun a => decide (⟨1, [1]⟩ ∈ a.returned)) (by decide)
  have hw := of_decide_eq_true test
  exact ⟨a, gd, hr, hw, (acknowledged_is_applied gd hr hw).1⟩

/-- The entry of a waiting call is overwritten by the leader of term 2; the call returns `Ok` for what
that leader put at its index. -/
theorem overwritten_write_acknowledged :
    let evs := leadTerm1 ++ [.proposeAndWait (.apiserverUpsert ()) [],
      .call (.appendEntries ⟨2, 2, 0, 0, [⟨2, 1, [0]⟩], 1⟩ 1100) [], .drain, .applyNext, .wake 0]
    ∃ a, Run.run (step (twoCommands true)) (init 1 [1, 2, 3]) evs = some a ∧
      ∃ w ∈ a.returned, ∃ e ∈ a.applied, e.index = w.index ∧ e.command ≠ w.command := by
  intro evs
  obtain ⟨a, hr, test⟩ := Run.exists_of_test (step (twoCommands true)) (init 1 [1, 2, 3]) evs
    (fun a => decide (∃ w ∈ a.returned, ∃ e ∈ a.applied,
      e.index = w.index ∧ e.command ≠ w.command)) (by decide)
  exact ⟨a, hr, of_decide_eq_true test⟩

end ApplyNode

end RaftCore
