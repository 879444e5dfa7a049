import CaveRuntime.Replication.Invariant

/-!
# Safety of the replicated log protocol

A prefix `q` of the log of the leader of `T` is committed when it ends in an entry of term `T` and a
quorum has acknowledged it. `completeness` is leader completeness: every later leader starts with `q`.
`Stable` closes committed prefixes under taking prefixes and bounds the term they were committed in;
any two stable prefixes are comparable (`Stable.comparable`), which is state machine safety.
-/

namespace Replication

variable {N E : Type*} {τ : E → ℕ} {quorum : QuorumSystem N} {s s' : State N E}

/-- The leader of `T` may count `q` as committed. -/
structure Committed (τ : E → ℕ) (quorum : QuorumSystem N) (s : State N E) (T : ℕ) (q : List E) :
    Prop where
  led : (s.leader T).isSome
  pre : q <+: s.leadLog T
  last : lastTerm τ q = T
  acked : ∃ Q, quorum.mem Q ∧ ∀ v ∈ Q, q.length ≤ s.acked v T

lemma Committed.mono (ext : Ext s s') {T : ℕ} {q : List E} (com : Committed τ quorum s T q) :
    Committed τ quorum s' T q := by
  obtain ⟨Q, hQ, le⟩ := com.acked
  exact
    { led := ext.isSome com.led
      pre := com.pre.trans (ext.leadLog com.led)
      last := com.last
      acked := ⟨Q, hQ, fun v hv => (le v hv).trans (ext.acked v T)⟩ }

/-- Leader completeness: a later leader starts with every committed prefix. -/
theorem completeness (inv : Inv τ quorum s) {T U : ℕ} {q : List E}
    (com : Committed τ quorum s T q) (lt : T < U) (led : (s.leader U).isSome) :
    q <+: s.initLog U := by
  induction U using Nat.strong_induction_on with
  | _ U ih =>
    obtain ⟨c, hc⟩ := Option.isSome_iff_exists.mp led
    obtain ⟨Q, hQ, voters⟩ := inv.complete hc
    obtain ⟨Q', hQ', acks⟩ := com.acked
    -- a voter of the later leader that acknowledged `q`
    obtain ⟨v, hv, hv'⟩ := quorum.inter hQ hQ'
    rcases (voters v hv).2 lt com.led com.pre com.last (acks v hv') with h | bad
    · exact h
    · obtain ⟨T', gt, lt', led', no⟩ := bad
      exact absurd (ih T' lt' gt led') no

/-- A prefix that some leader of a term up to `U` committed. -/
def Stable (τ : E → ℕ) (quorum : QuorumSystem N) (s : State N E) (U : ℕ) (p : List E) : Prop :=
  p = [] ∨ ∃ T q, T ≤ U ∧ Committed τ quorum s T q ∧ p <+: q

namespace Stable

variable {U U' : ℕ} {p : List E}

lemma nil : Stable τ quorum s U [] := .inl rfl

lemma mono (ext : Ext s s') (le : U ≤ U') (st : Stable τ quorum s U p) :
    Stable τ quorum s' U' p := by
  rcases st with rfl | ⟨T, q, leT, com, pre⟩
  · exact nil
  · exact .inr ⟨T, q, leT.trans le, com.mono ext, pre⟩

lemma cut {p' : List E} (st : Stable τ quorum s U p') (pre : p <+: p') :
    Stable τ quorum s U p := by
  rcases st with rfl | ⟨T, q, leT, com, pre'⟩
  · exact .inl (List.prefix_nil.mp pre)
  · exact .inr ⟨T, q, leT, com, pre.trans pre'⟩

lemma lead (inv : Inv τ quorum s) (st : Stable τ quorum s U p)
    (le : U ≤ U') (led : (s.leader U').isSome) : p <+: s.leadLog U' := by
  rcases st with rfl | ⟨T, q, leT, com, pre⟩
  · exact List.nil_prefix
  · rcases (leT.trans le).eq_or_lt with rfl | lt
    · exact pre.trans com.pre
    · exact pre.trans ((completeness inv com lt led).trans (inv.init_pre led))

/-- Two stable prefixes are comparable. -/
theorem comparable (inv : Inv τ quorum s) {U U' : ℕ} {p p' : List E}
    (st : Stable τ quorum s U p) (st' : Stable τ quorum s U' p') : p <+: p' ∨ p' <+: p := by
  rcases st with rfl | ⟨T, q, leT, com, pre⟩
  · exact .inl List.nil_prefix
  rcases st' with rfl | ⟨T', q', leT', com', pre'⟩
  · exact .inr List.nil_prefix
  -- compare both in the log of the later of the two leaders
  have up : Stable τ quorum s T p := .inr ⟨T, q, le_refl _, com, pre⟩
  have up' : Stable τ quorum s T' p' := .inr ⟨T', q', le_refl _, com', pre'⟩
  rcases le_total T T' with le | le
  · exact List.prefix_or_prefix_of_prefix (up.lead inv le com'.led) (up'.lead inv (le_refl _) com'.led)
  · exact List.prefix_or_prefix_of_prefix (up.lead inv (le_refl _) com.led) (up'.lead inv le com.led)

lemma entry_eq (inv : Inv τ quorum s) {p' : List E} {e e' : E}
    (st : Stable τ quorum s U (p ++ [e])) (st' : Stable τ quorum s U' (p' ++ [e']))
    (len : p.length = p'.length) : e = e' := by
  have eq : p ++ [e] = p' ++ [e'] := by
    rcases st.comparable inv st' with h | h
    · exact h.eq_of_length (by simp [len])
    · exact (h.eq_of_length (by simp [len])).symm
  have := List.append_inj' eq rfl
  exact (List.cons.inj this.2).1

/-- A node that lacks the prefix `p` of its leader's log loses nothing stable by taking `p` for its log. -/
lemma pre_of_missing (inv : Inv τ quorum s) {l r : List E} (st : Stable τ quorum s U r)
    (led : (s.leader U).isSome) (hr : r <+: l) (hp : p <+: s.leadLog U) (no : ¬ p <+: l) : r <+: p := by
  rcases List.prefix_or_prefix_of_prefix (st.lead inv (le_refl _) led) hp with h | h
  · exact h
  · exact absurd (h.trans hr) no

lemma of_acks [DecidableEq N] (inv : Inv τ quorum s) {n : N} {k : ℕ} {Q : Finset N}
    (led : s.leader (s.term n) = some n) (le : k ≤ (s.log n).length)
    (last : lastTerm τ ((s.log n).take k) = s.term n) (hQ : quorum.mem Q)
    (acks : ∀ v ∈ Q, v = n ∨ k ≤ s.acked v (s.term n)) :
    Step τ quorum n s (s.ack n k) ∧
      Stable τ quorum (s.ack n k) (s.term n) ((s.log n).take k) := by
  have some : (s.leader (s.term n)).isSome := by rw [led]; rfl
  have pre : (s.log n).take k <+: s.leadLog (s.term n) := by
    rw [← inv.leadLog led]
    exact List.take_prefix _ _
  have len : ((s.log n).take k).length = k := List.length_take_of_le le
  have st : Step τ quorum n s (s.ack n k) := by
    have whole : Step τ quorum n s (s.ack n ((s.log n).take k).length) :=
      .ack some pre (List.take_prefix _ _)
    rwa [len] at whole
  refine ⟨st, .inr ⟨s.term n, _, le_refl _, ⟨some, pre, last, Q, hQ, ?_⟩, List.prefix_refl _⟩⟩
  intro v hv
  rw [len]
  rcases acks v hv with rfl | acked
  · simp [State.ack]
  · exact acked.trans (st.ext.acked v _)

end Stable

lemma leader_of_votes (inv : Inv τ quorum s) {U : ℕ} {c d : N} {Q : Finset N}
    (led : s.leader U = some d) (hQ : quorum.mem Q) (votes : ∀ v ∈ Q, s.vote v U = some c) :
    d = c := by
  obtain ⟨Q', hQ', voters⟩ := inv.complete led
  obtain ⟨v, hv, hv'⟩ := quorum.inter hQ hQ'
  have eq := (voters v hv').1
  rw [votes v hv] at eq
  exact (Option.some.inj eq).symm

/-- A candidate that does not lead its term, but has a quorum of votes, finds the term without a
leader. -/
lemma unled_of_votes (inv : Inv τ quorum s) {U : ℕ} {c : N} {Q : Finset N} (hQ : quorum.mem Q)
    (votes : ∀ v ∈ Q, s.vote v U = some c) (unled : s.leader U ≠ some c) : s.leader U = none := by
  cases led : s.leader U with
  | none => rfl
  | some d => exact absurd (leader_of_votes inv led hQ votes ▸ led) unled

end Replication
