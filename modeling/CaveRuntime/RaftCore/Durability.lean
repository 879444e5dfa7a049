import CaveRuntime.Common.Run
import CaveRuntime.RaftCore.Log

/-!
# RaftCore: durability before acknowledgement

One node that is called in any order, with any save of any call failing. A granted vote is always in
the file (`Durable` of a vote request needs no condition). A successful `AppendEntries` reply is not:
when the save after the append loop fails, the entries stay in memory, and the retry of the request
finds nothing to append, saves nothing and answers `success` (`retry_acknowledges_unsaved`).

`InStep` is what is needed: requests are what a leader sends, and a request whose entries are all in
memory already arrives when the log in memory is the log in the file.
-/

namespace RaftCore
open RaftCore.Core

/-- A call with the outcomes of its saves. -/
def serve (h : Host) (c : Call × List Bool) : Option Host :=
  some (Host.call { h with saves := c.2 } c.1)

/-- What an acknowledgement by the call promises about the file. -/
def Durable (h : Host) (c : Call × List Bool) : Prop :=
  match c.1 with
  | .requestVote args now =>
    ∀ reply h', handleRequestVote args now { h with saves := c.2 } = (.ok reply, h') →
      reply.voteGranted = true →
      h'.saved.currentTerm = args.term ∧ h'.saved.votedFor = some args.candidateId
  | .appendEntries args now =>
    ∀ reply h', handleAppendEntries args now { h with saves := c.2 } = (.ok reply, h') →
      reply.success = true → ∀ e ∈ args.entries, logAt h'.saved.log e.index = some e
  | _ => True

/-- An entry of the request with the index and term of an entry of the log is that entry. -/
def Matching (log : List LogEntry) (entries : List LogEntry) : Prop :=
  ∀ e ∈ entries, ∀ a ∈ logAt log e.index, a.term = e.term → a = e
deriving Decidable

/-- Every entry of the request has a counterpart of its term in the log: nothing is to be appended. -/
def Present (log : List LogEntry) (entries : List LogEntry) : Prop :=
  ∀ e ∈ entries, (logAt log e.index).any (·.term = e.term) = true
deriving Decidable

/-- The condition on `AppendEntries` calls: a request of a leader, and if its entries are all in memory
and the node does not step down, then the log in memory is the log in the file. -/
structure Orderly (h : Host) (args : AppendEntriesArgs) : Prop where
  contiguous : args.Contiguous
  matching : Matching h.core.log args.entries
  inStep : ¬ h.core.stepsDown args → Present h.core.log args.entries → h.core.log = h.saved.log

/-- The condition on the calls of a run. -/
def InStep (h : Host) (c : Call × List Bool) : Prop :=
  match c.1 with
  | .appendEntries args _ => Orderly h args
  | _ => True

section Decidable

variable (h : Host) (args : AppendEntriesArgs)

instance : Decidable (Orderly h args) :=
  decidable_of_iff
    (args.Contiguous ∧ Matching h.core.log args.entries ∧
      (¬ h.core.stepsDown args → Present h.core.log args.entries → h.core.log = h.saved.log))
    ⟨fun ⟨cont, mat, step⟩ => ⟨cont, mat, step⟩, fun ⟨cont, mat, step⟩ => ⟨cont, mat, step⟩⟩

instance : (c : Call × List Bool) → Decidable (InStep h c)
  | (.appendEntries args _, _) => inferInstanceAs (Decidable (Orderly h args))
  | (.tick _, _) => isTrue trivial
  | (.propose _, _) => isTrue trivial
  | (.requestVote _ _, _) => isTrue trivial
  | (.requestVoteReply _ _ _, _) => isTrue trivial
  | (.appendEntriesReply _ _ _ _ _, _) => isTrue trivial
  | (.takeCommittedEntries, _) => isTrue trivial

end Decidable

/-- One round of the append loop, for the entry that belongs at position `pos`. -/
lemma appendOne_at {l es : List LogEntry} {b : Bool} {pos : ℕ} {e : LogEntry}
    (le : pos ≤ l.length) (idx : e.index = pos + 1)
    (later : ∀ a ∈ es, pos + 1 < a.index) (mat : Matching l (e :: es)) :
    ∃ l1 b1, appendOne (l, b) e = (l1, b1) ∧ l1[pos]? = some e ∧ l1.take pos = l.take pos ∧
      Matching l1 es := by
  have short : ∀ {l1 : List LogEntry}, l1.length = pos → Matching (l1 ++ [e]) es := by
    intro l1 len a ha x hx
    obtain ⟨i, hi⟩ := Nat.exists_eq_add_of_lt (later a ha)
    rw [hi, logAt_succ, List.getElem?_eq_none (by simp [len])] at hx
    cases hx
  have len : (l.take pos).length = pos := List.length_take_of_le le
  rcases appendOne_cases b le idx with ⟨a, at_l, same, one⟩ | ⟨_, one⟩
  · have eq : a = e := mat e List.mem_cons_self a (by rw [idx, logAt_succ, at_l]; rfl) same
    exact ⟨l, b, one, eq ▸ at_l, rfl, fun x hx => mat x (List.mem_cons_of_mem _ hx)⟩
  · refine ⟨_, _, one, ?_, ?_, short len⟩
    · rw [List.getElem?_append_right len.le, len, Nat.sub_self]
      rfl
    · rw [List.take_append_of_le_length len.ge, List.take_take, Nat.min_self]

/-- The append loop leaves every entry of the request at its index, and what is before them alone. -/
lemma foldl_appendOne_mem {entries l : List LogEntry} {b : Bool} {pos : ℕ}
    (le : pos ≤ l.length) (cont : ∀ k e, entries[k]? = some e → e.index = pos + k + 1)
    (mat : Matching l entries) :
    (entries.foldl appendOne (l, b)).1.take pos = l.take pos ∧
      ∀ e ∈ entries, logAt (entries.foldl appendOne (l, b)).1 e.index = some e := by
  induction entries generalizing l b pos with
  | nil => exact ⟨rfl, nofun⟩
  | cons e es ih =>
    obtain ⟨idx, cont'⟩ := contiguous_cons cont
    have later : ∀ a ∈ es, pos + 1 < a.index := by
      intro a ha
      obtain ⟨k, hk⟩ := List.mem_iff_getElem?.mp ha
      have := cont' k a hk
      omega
    obtain ⟨l1, b1, one, at_pos, keep, mat1⟩ := appendOne_at (b := b) le idx later mat
    have lt := (List.getElem?_eq_some_iff.mp at_pos).1
    obtain ⟨keep', all⟩ := ih (b := b1) lt cont' mat1
    rw [List.foldl_cons, one]
    refine ⟨?_, ?_⟩
    · have := congrArg (List.take pos) keep'
      rw [List.take_take, List.take_take, Nat.min_eq_left (Nat.le_succ pos)] at this
      exact this.trans keep
    · intro a ha
      rcases List.mem_cons.mp ha with rfl | ha
      · have := congrArg (·[pos]?) keep'
        simp only [List.getElem?_take_of_lt (Nat.lt_succ_self pos)] at this
        rw [idx, logAt_succ, this, at_pos]
      · exact all a ha

/-- A loop that appends nothing leaves the log, and found a counterpart of every entry in it. -/
lemma foldl_appendOne_false {entries l : List LogEntry}
    (no : (entries.foldl appendOne (l, false)).2 = false) :
    (entries.foldl appendOne (l, false)).1 = l ∧ Present l entries := by
  have stays : ∀ {es : List LogEntry} {l : List LogEntry}, (es.foldl appendOne (l, true)).2 = true := by
    intro es
    induction es with
    | nil => exact rfl
    | cons e es ih =>
      intro l
      have one : ∃ l1, appendOne (l, true) e = (l1, true) := by
        unfold appendOne
        split
        · split <;> exact ⟨_, rfl⟩
        · exact ⟨_, rfl⟩
      obtain ⟨l1, one⟩ := one
      rw [List.foldl_cons, one]
      exact ih
  induction entries with
  | nil => exact ⟨rfl, nofun⟩
  | cons e es ih =>
    rw [List.foldl_cons] at no ⊢
    have one : (appendOne (l, false) e = (l, false) ∧
        (logAt l e.index).any (·.term = e.term) = true) ∨
        ∃ l1, appendOne (l, false) e = (l1, true) := by
      unfold appendOne
      cases at_e : logAt l e.index with
      | none => exact .inr ⟨_, rfl⟩
      | some a =>
        by_cases same : a.term = e.term
        · exact .inl ⟨if_neg (not_not.mpr same), by simp [same]⟩
        · exact .inr ⟨_, if_pos same⟩
    rcases one with ⟨eq, found⟩ | ⟨l1, eq⟩
    · rw [eq] at no ⊢
      obtain ⟨same, present⟩ := ih no
      refine ⟨same, fun x hx => ?_⟩
      rcases List.mem_cons.mp hx with rfl | hx
      · exact found
      · exact present x hx
    · rw [eq, stays] at no
      cases no

lemma Orderly.saved_log {h : Host} {args : AppendEntriesArgs} (ok : Orderly h args) :
    ((if (h.core.merge args.entries).2 then
        some ((h.core.follow args).setLog (h.core.merge args.entries).1).persistent
      else h.followDisk args).getD {}).log = (h.core.merge args.entries).1 := by
  by_cases app : (h.core.merge args.entries).2 = true
  · rw [if_pos app]
    rfl
  obtain ⟨same, present⟩ := foldl_appendOne_false (Bool.not_eq_true _ ▸ app)
  have same : (h.core.merge args.entries).1 = h.core.log := same
  rw [if_neg app, same, Host.followDisk]
  by_cases steps : h.core.stepsDown args
  · rw [if_pos steps]
    exact follow_log h.core args
  · rw [if_neg steps]
    exact (ok.inStep steps present).symm

lemma durable_of_inStep {h : Host} {c : Call × List Bool} (ok : InStep h c) : Durable h c := by
  obtain ⟨call, sv⟩ := c
  cases call with
  | requestVote args now =>
    intro reply h' eq granted
    have out := handleRequestVote_outcome args now { h with saves := sv }
    rw [eq] at out
    cases out with
    | stale _ => cases granted
    | refused _ => cases granted
    | granted en _ => exact ⟨en.currentTerm, rfl⟩
  | appendEntries args now =>
    intro reply h' eq success
    have out := handleAppendEntries_outcome args now { h with saves := sv }
    rw [eq] at out
    cases out with
    | stale _ => cases success
    | rejected _ _ => cases success
    | accepted fresh pass =>
      have ok : Orderly h args := ok
      have le := prev_le_of_pass pass
      rw [follow_log] at le
      have mem := (foldl_appendOne_mem (b := false) le (fun _ _ => ok.contiguous.index) ok.matching).2
      exact fun e he => (congrArg (logAt · e.index) ok.saved_log).trans (mem e he)
  | _ => trivial

/-- Durability before acknowledgement: in every run of calls in step with the file, every call keeps
the promise of its acknowledgement. -/
theorem durable_before_ack {h : Host} {calls : List (Call × List Bool)}
    (gd : Run.Guarded serve InStep h calls) : Run.Guarded serve Durable h calls :=
  gd.imp durable_of_inStep

/-- A fresh node of a three-node cluster. -/
def freshHost : Host := ⟨loadOrInit 1 [1, 2, 3] none 0, none, []⟩

/-- One entry of term 1 from leader 2. -/
def firstEntry : AppendEntriesArgs :=
  { term := 1, leaderId := 2, prevLogIndex := 0, prevLogTerm := 0,
    entries := [⟨1, 1, [7]⟩], leaderCommit := 0 }

/-- The request is served although the save of the earlier step-down failed. -/
theorem durable_before_ack_first_entry :
    let calls : List (Call × List Bool) :=
      [(.requestVote ⟨1, 2, 0, 0⟩ 10, [false]), (.appendEntries firstEntry 20, [])]
    Run.Guarded serve InStep freshHost calls ∧ Run.Guarded serve Durable freshHost calls := by
  intro calls
  have gd : Run.Guarded serve InStep freshHost calls := by decide
  exact ⟨gd, durable_before_ack gd⟩

/-- The save after the append loop fails; the same request again is acknowledged, and its entry is not
in the file. -/
theorem retry_acknowledges_unsaved :
    ∃ h reply h', Run.run serve freshHost [(.appendEntries firstEntry 10, [true, false])] = some h ∧
      handleAppendEntries firstEntry 20 { h with saves := [] } = (.ok reply, h') ∧
      reply.success = true ∧ ∃ e ∈ firstEntry.entries, e ∉ h'.saved.log := by
  refine ⟨_, _, _, rfl, rfl, rfl, ⟨1, 1, [7]⟩, by decide, ?_⟩
  decide

end RaftCore
