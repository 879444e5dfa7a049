import CaveRuntime.Common.Quorum
import Mathlib.Data.List.Infix
import Mathlib.Logic.Relation

/-!
# A term-based replicated log protocol

The abstract protocol that leader-based replicated logs refine. Every node has a term and a log; a
term has at most one leader, elected by a quorum of votes for a log that is at least as up to date as
the voters'. The state keeps the history a safety argument speaks about: who voted for whom with which
log (`vote`, `voteLog`), with which log a leader started (`initLog`), how far its log has grown
(`leadLog`), and how long a prefix of it each node has acknowledged (`acked`).

Messages do not occur here. A refinement shows that what a message carries is a fact about the
history, and since the history only grows (`Ext`), such a fact stays true however late the message is
delivered.
-/

namespace Replication

variable {N E : Type*} {τ : E → ℕ}

/-- The term of the last entry of a log, `0` for the empty log. -/
def lastTerm (τ : E → ℕ) (l : List E) : ℕ :=
  (l.getLast?.map τ).getD 0

/-- `l` is at least as up to date as `l'`. -/
def UpToDate (τ : E → ℕ) (l l' : List E) : Prop :=
  lastTerm τ l' < lastTerm τ l ∨ (lastTerm τ l = lastTerm τ l' ∧ l'.length ≤ l.length)

lemma UpToDate.refl (l : List E) : UpToDate τ l l := .inr ⟨rfl, le_refl _⟩

@[simp] lemma lastTerm_nil : lastTerm τ [] = 0 := rfl

@[simp] lemma lastTerm_concat (p : List E) (e : E) : lastTerm τ (p ++ [e]) = τ e := by
  simp [lastTerm]

lemma lastTerm_take {l : List E} {i : ℕ} {e : E} (he : l[i]? = some e) :
    lastTerm τ (l.take (i + 1)) = τ e := by
  rw [List.take_add_one, he, Option.toList_some, lastTerm_concat]

/-- Terms never decrease along the log. -/
def Sorted (τ : E → ℕ) (l : List E) : Prop :=
  l.Pairwise fun e e' => τ e ≤ τ e'

lemma Sorted.le_lastTerm {l : List E} (srt : Sorted τ l) {e : E} (he : e ∈ l) :
    τ e ≤ lastTerm τ l := by
  induction l using List.reverseRecOn with
  | nil => cases he
  | append_singleton p a _ =>
    rw [lastTerm_concat]
    rcases List.mem_append.mp he with hp | ha
    · exact (List.pairwise_append.mp srt).2.2 e hp a (by simp)
    · rw [List.mem_singleton.mp ha]

lemma Sorted.cut {l l' : List E} (srt : Sorted τ l') (pre : l <+: l') : Sorted τ l :=
  srt.sublist pre.sublist

lemma prefix_of_length_le {l p q : List E} (hp : p <+: l) (hq : q <+: l)
    (le : p.length ≤ q.length) : p <+: q :=
  List.prefix_of_prefix_length_le hp hq le

/-- The protocol state: the nodes, and the history of votes, leaders and acknowledgements. -/
@[ext]
structure State (N E : Type*) where
  term : N → ℕ
  log : N → List E
  vote : N → ℕ → Option N
  voteLog : N → ℕ → List E
  leader : ℕ → Option N
  initLog : ℕ → List E
  leadLog : ℕ → List E
  acked : N → ℕ → ℕ

namespace State

/-- Every node at term `0` with an empty log. -/
def init : State N E where
  term _ := 0
  log _ := []
  vote _ _ := none
  voteLog _ _ := []
  leader _ := none
  initLog _ := []
  leadLog _ := []
  acked _ _ := 0

variable [DecidableEq N]

variable (s : State N E)

/-- Node `v` moves to term `U`. -/
def raise (v : N) (U : ℕ) : State N E :=
  { s with term := fun w => if w = v then U else s.term w }

/-- Node `v` votes for `c` in its term. -/
def castVote (v c : N) : State N E :=
  { s with
    vote := fun w U => if w = v ∧ U = s.term v then some c else s.vote w U
    voteLog := fun w U => if w = v ∧ U = s.term v then s.log v else s.voteLog w U }

/-- Node `c` becomes the leader of its term. -/
def elect (c : N) : State N E :=
  { s with
    leader := fun T => if T = s.term c then some c else s.leader T
    initLog := fun T => if T = s.term c then s.log c else s.initLog T
    leadLog := fun T => if T = s.term c then s.log c else s.leadLog T }

/-- The leader `c` appends `e` to its log. -/
def append (c : N) (e : E) : State N E :=
  { s with
    log := fun w => if w = c then s.log c ++ [e] else s.log w
    leadLog := fun T => if T = s.term c then s.leadLog T ++ [e] else s.leadLog T }

/-- Node `v` replaces its log by `p`. -/
def accept (v : N) (p : List E) : State N E :=
  { s with log := fun w => if w = v then p else s.log w }

/-- Node `v` acknowledges the first `k` entries of its term's leader log. -/
def ack (v : N) (k : ℕ) : State N E :=
  { s with
    acked := fun w T => if w = v ∧ T = s.term v then max (s.acked w T) k else s.acked w T }

end State

/-- One step of the protocol, taken by a node. -/
inductive Step [DecidableEq N] (τ : E → ℕ) (quorum : QuorumSystem N) :
    N → State N E → State N E → Prop where
  | raise {s v U} :
    s.term v < U →
    Step τ quorum v s (s.raise v U)
  | castVote {s v c} :
    s.vote v (s.term v) = none →
    (c = v ∨ s.vote c (s.term v) = some c ∧ UpToDate τ (s.voteLog c (s.term v)) (s.log v)) →
    Step τ quorum v s (s.castVote v c)
  | elect {s c Q} :
    0 < s.term c →
    s.leader (s.term c) = none →
    s.voteLog c (s.term c) = s.log c →
    quorum.mem Q →
    (∀ v ∈ Q, s.vote v (s.term c) = some c) →
    Step τ quorum c s (s.elect c)
  | append {s c e} :
    s.leader (s.term c) = some c →
    τ e = s.term c →
    Step τ quorum c s (s.append c e)
  | accept {s v p} :
    (s.leader (s.term v)).isSome →
    p <+: s.leadLog (s.term v) →
    ¬ p <+: s.log v →
    Step τ quorum v s (s.accept v p)
  | ack {s v p} :
    (s.leader (s.term v)).isSome →
    p <+: s.leadLog (s.term v) →
    p <+: s.log v →
    Step τ quorum v s (s.ack v p.length)

/-- The history of `s'` extends that of `s`. -/
structure Ext (s s' : State N E) : Prop where
  term : ∀ v, s.term v ≤ s'.term v
  vote : ∀ {v U c}, s.vote v U = some c → s'.vote v U = some c
  voteLog : ∀ {v U c}, s.vote v U = some c → s'.voteLog v U = s.voteLog v U
  leader : ∀ {T c}, s.leader T = some c → s'.leader T = some c
  initLog : ∀ {T}, (s.leader T).isSome → s'.initLog T = s.initLog T
  leadLog : ∀ {T}, (s.leader T).isSome → s.leadLog T <+: s'.leadLog T
  acked : ∀ v T, s.acked v T ≤ s'.acked v T

namespace Ext

lemma refl (s : State N E) : Ext s s where
  term _ := le_refl _
  vote h := h
  voteLog _ := rfl
  leader h := h
  initLog _ := rfl
  leadLog _ := List.prefix_refl _
  acked _ _ := le_refl _

lemma isSome {s s' : State N E} (ext : Ext s s') {T : ℕ} (led : (s.leader T).isSome) :
    (s'.leader T).isSome := by
  obtain ⟨c, hc⟩ := Option.isSome_iff_exists.mp led
  rw [ext.leader hc]
  rfl

lemma trans {s s' s'' : State N E} (ext : Ext s s') (ext' : Ext s' s'') : Ext s s'' where
  term v := (ext.term v).trans (ext'.term v)
  vote h := ext'.vote (ext.vote h)
  voteLog h := (ext'.voteLog (ext.vote h)).trans (ext.voteLog h)
  leader h := ext'.leader (ext.leader h)
  initLog h := (ext'.initLog (ext.isSome h)).trans (ext.initLog h)
  leadLog h := (ext.leadLog h).trans (ext'.leadLog (ext.isSome h))
  acked v T := (ext.acked v T).trans (ext'.acked v T)

end Ext

lemma Step.ext [DecidableEq N] {quorum : QuorumSystem N} {n : N} {s s' : State N E}
    (st : Step τ quorum n s s') : Ext s s' := by
  cases st with
  | raise lt =>
    refine { Ext.refl s with term := ?_ }
    intro w
    by_cases hw : w = n
    · subst hw
      simpa [State.raise] using lt.le
    · simp [State.raise, hw]
  | castVote fresh _ =>
    have keep : ∀ {w U d}, s.vote w U = some d → ¬ (w = n ∧ U = s.term n) := by
      rintro w U d hd ⟨rfl, rfl⟩
      rw [fresh] at hd
      cases hd
    refine { Ext.refl s with vote := ?_, voteLog := ?_ }
    · intro w U d hd
      simpa [State.castVote, keep hd] using hd
    · intro w U d hd
      simp [State.castVote, keep hd]
  | elect _ unled _ _ _ =>
    have keep : ∀ {T}, (s.leader T).isSome → T ≠ s.term n := by
      rintro T led rfl
      rw [unled] at led
      cases led
    refine { Ext.refl s with leader := ?_, initLog := ?_, leadLog := ?_ }
    · intro T d hd
      have ne := keep (Option.isSome_iff_exists.mpr ⟨d, hd⟩)
      simpa [State.elect, ne] using hd
    · intro T led
      simp [State.elect, keep led]
    · intro T led
      simp [State.elect, keep led]
  | append _ _ =>
    refine { Ext.refl s with leadLog := ?_ }
    intro T _
    by_cases hT : T = s.term n
    · simp [State.append, hT]
    · simp [State.append, hT]
  | accept _ _ _ => exact { Ext.refl s with }
  | ack _ _ _ =>
    refine { Ext.refl s with acked := ?_ }
    intro w T
    by_cases hw : w = n ∧ T = s.term n
    · simp [State.ack, hw]
    · simp [State.ack, hw]

lemma Step.frame [DecidableEq N] {quorum : QuorumSystem N} {n w : N} {s s' : State N E}
    (st : Step τ quorum n s s') (ne : w ≠ n) :
    s'.term w = s.term w ∧ s'.log w = s.log w ∧ s'.vote w = s.vote w := by
  cases st with
  | raise _ => simp [State.raise, ne]
  | castVote _ _ => simp [State.castVote, ne]
  | elect _ _ _ _ _ => simp [State.elect]
  | append _ _ => simp [State.append, ne]
  | accept _ _ _ => simp [State.accept, ne]
  | ack _ _ _ => simp [State.ack]

lemma Step.frame_leader [DecidableEq N] {quorum : QuorumSystem N} {n c : N} {T : ℕ} {s s' : State N E}
    (st : Step τ quorum n s s') (led : s'.leader T = some c) (ne : c ≠ n) : s.leader T = some c := by
  cases st with
  | elect _ _ _ _ _ =>
    by_cases hT : T = s.term n
    · simp only [State.elect, if_pos hT] at led
      exact absurd (Option.some.inj led).symm ne
    · simpa only [State.elect, if_neg hT] using led
  | raise _ => exact led
  | castVote _ _ => exact led
  | append _ _ => exact led
  | accept _ _ _ => exact led
  | ack _ _ _ => exact led

/-- Any number of steps taken by one node. -/
def Acts [DecidableEq N] (τ : E → ℕ) (quorum : QuorumSystem N) (n : N) :
    State N E → State N E → Prop :=
  Relation.ReflTransGen (Step τ quorum n)

namespace Acts

variable [DecidableEq N] {quorum : QuorumSystem N} {n : N} {s s' s'' : State N E}

lemma refl : Acts τ quorum n s s := Relation.ReflTransGen.refl

lemma single (st : Step τ quorum n s s') : Acts τ quorum n s s' := Relation.ReflTransGen.single st

variable (h : Acts τ quorum n s s')

include h

lemma trans (h' : Acts τ quorum n s' s'') : Acts τ quorum n s s'' :=
  Relation.ReflTransGen.trans h h'

lemma tail (st : Step τ quorum n s' s'') : Acts τ quorum n s s'' :=
  Relation.ReflTransGen.tail h st

lemma ext : Ext s s' := by
  induction h with
  | refl => exact Ext.refl s
  | tail _ st ih => exact ih.trans st.ext

lemma frame {w : N} (ne : w ≠ n) :
    s'.term w = s.term w ∧ s'.log w = s.log w ∧ s'.vote w = s.vote w := by
  induction h with
  | refl => exact ⟨rfl, rfl, rfl⟩
  | tail _ st ih =>
    obtain ⟨ht, hl, hv⟩ := st.frame ne
    exact ⟨ht.trans ih.1, hl.trans ih.2.1, hv.trans ih.2.2⟩

lemma frame_leader {c : N} {T : ℕ} (led : s'.leader T = some c)
    (ne : c ≠ n) : s.leader T = some c := by
  induction h with
  | refl => exact led
  | tail _ st ih => exact ih (st.frame_leader led ne)

end Acts

end Replication
