import CaveRuntime.Replication.Protocol

/-!
# The inductive invariant of the replicated log protocol

`Covered` is log matching in its strongest form: whatever log ends in an entry of term `T` is a prefix
of the log of the leader of `T`. The three clauses `ackLog`, `ackVote` and `complete` carry leader
completeness: what a node acknowledged in term `T` is in its log, in the log it votes with, and in the
initial log of the leader its vote elects, unless some leader between the two terms was `Bad`, that is,
started without it. Keeping the `Bad` case as a disjunct makes every clause inductive on its own; it is
discharged once, by induction on terms, in `Replication/Safety.lean`.
-/

namespace Replication

variable {N E : Type*} {τ : E → ℕ} {quorum : QuorumSystem N} {s s' : State N E}

/-- Every prefix of `l` that ends in an entry of term `T` is a prefix of the log of `T`'s leader. -/
def Covered (τ : E → ℕ) (s : State N E) (l : List E) : Prop :=
  ∀ p e, p ++ [e] <+: l → (s.leader (τ e)).isSome ∧ p ++ [e] <+: s.leadLog (τ e)

/-- Some leader of a term strictly between `T` and `U` started without the prefix `q`. -/
def Bad (s : State N E) (T : ℕ) (q : List E) (U : ℕ) : Prop :=
  ∃ T', T < T' ∧ T' < U ∧ (s.leader T').isSome ∧ ¬ q <+: s.initLog T'

/-- The invariant. -/
structure Inv (τ : E → ℕ) (quorum : QuorumSystem N) (s : State N E) : Prop where
  pos : ∀ {T}, (s.leader T).isSome → 0 < T
  covLog : ∀ v, Covered τ s (s.log v)
  covLead : ∀ {T}, (s.leader T).isSome → Covered τ s (s.leadLog T)
  covVote : ∀ {v U c}, s.vote v U = some c → Covered τ s (s.voteLog v U)
  logTerm : ∀ v, ∀ e ∈ s.log v, τ e ≤ s.term v
  tail : ∀ {T}, (s.leader T).isSome → ∃ l, s.leadLog T = s.initLog T ++ l ∧ ∀ e ∈ l, τ e = T
  initTerm : ∀ {T}, (s.leader T).isSome → ∀ e ∈ s.initLog T, τ e < T
  sorted : ∀ {T}, (s.leader T).isSome → Sorted τ (s.leadLog T)
  leadLog : ∀ {v}, s.leader (s.term v) = some v → s.log v = s.leadLog (s.term v)
  leadTerm : ∀ {T c}, s.leader T = some c → T ≤ s.term c
  voteTerm : ∀ {v U c}, s.vote v U = some c → U ≤ s.term v
  voteCand : ∀ {v U c}, s.vote v U = some c →
    s.vote c U = some c ∧ UpToDate τ (s.voteLog c U) (s.voteLog v U)
  ackLe : ∀ {v T}, 0 < s.acked v T →
    (s.leader T).isSome ∧ s.acked v T ≤ (s.leadLog T).length ∧ T ≤ s.term v
  ackLog : ∀ {v T q}, (s.leader T).isSome → q <+: s.leadLog T → q.length ≤ s.acked v T →
    q <+: s.log v ∨ Bad s T q (s.term v + 1)
  ackVote : ∀ {v U c T q}, s.vote v U = some c → T < U → (s.leader T).isSome →
    q <+: s.leadLog T → q.length ≤ s.acked v T → q <+: s.voteLog v U ∨ Bad s T q (U + 1)
  complete : ∀ {U c}, s.leader U = some c → ∃ Q, quorum.mem Q ∧ ∀ v ∈ Q, s.vote v U = some c ∧
    ∀ {T q}, T < U → (s.leader T).isSome → q <+: s.leadLog T → lastTerm τ q = T →
      q.length ≤ s.acked v T → q <+: s.initLog U ∨ Bad s T q U

lemma Covered.mono (ext : Ext s s') {l : List E} (cov : Covered τ s l) : Covered τ s' l := by
  intro p e pre
  obtain ⟨led, pre⟩ := cov p e pre
  exact ⟨ext.isSome led, pre.trans (ext.leadLog led)⟩

lemma Covered.cut {l l' : List E} (cov : Covered τ s l') (pre : l <+: l') : Covered τ s l :=
  fun p e pe => cov p e (pe.trans pre)

/-- A covered nonempty log is a prefix of the log of its last term's leader. -/
lemma Covered.last {l : List E} (cov : Covered τ s l) (ne : l ≠ []) :
    (s.leader (lastTerm τ l)).isSome ∧ l <+: s.leadLog (lastTerm τ l) := by
  obtain ⟨p, e, rfl⟩ := List.eq_nil_or_concat'  l |>.resolve_left ne
  rw [lastTerm_concat]
  exact cov p e (List.prefix_refl _)

/-- Log matching: two covered logs with entries of one term at a position agree up to there. -/
lemma Covered.agree {l l' : List E} (cov : Covered τ s l) (cov' : Covered τ s l') {i : ℕ} {e e' : E}
    (he : l[i]? = some e) (he' : l'[i]? = some e') (eq : τ e = τ e') :
    l.take (i + 1) = l'.take (i + 1) := by
  have snoc : ∀ {l : List E} {e}, l[i]? = some e → l.take (i + 1) = l.take i ++ [e] := by
    intro l e he
    rw [List.take_add_one, he, Option.toList_some]
  have len : ∀ {l : List E} {e}, l[i]? = some e → (l.take i).length = i := by
    intro l e he
    have := (List.getElem?_eq_some_iff.mp he).1
    rw [List.length_take]
    omega
  have pre := (cov (l.take i) e (snoc he ▸ List.take_prefix _ _)).2
  have pre' := (cov' (l'.take i) e' (snoc he' ▸ List.take_prefix _ _)).2
  rw [← eq] at pre'
  rw [snoc he, snoc he']
  exact (prefix_of_length_le pre pre' (by simp [len he, len he'])).eq_of_length
    (by simp [len he, len he'])

lemma Bad.mono (ext : Ext s s') {T U U' : ℕ} {q : List E} (le : U ≤ U') (bad : Bad s T q U) :
    Bad s' T q U' := by
  obtain ⟨T', lt, lt', led, no⟩ := bad
  refine ⟨T', lt, lt'.trans_le le, ext.isSome led, ?_⟩
  rwa [ext.initLog led]

namespace Inv

variable {l : List E} {T : ℕ} {e : E} {v : N} {q : List E} {c : N}

lemma sorted_of_covered (inv : Inv τ quorum s) (cov : Covered τ s l) :
    Sorted τ l := by
  by_cases ne : l = []
  · subst ne
    exact List.Pairwise.nil
  · obtain ⟨led, pre⟩ := cov.last ne
    exact (inv.sorted led).cut pre

lemma init_pre (inv : Inv τ quorum s) (led : (s.leader T).isSome) :
    s.initLog T <+: s.leadLog T := by
  obtain ⟨l, e, _⟩ := inv.tail led
  rw [e]
  exact List.prefix_append _ _

lemma lead_le (inv : Inv τ quorum s) (led : (s.leader T).isSome)
    (he : e ∈ s.leadLog T) : τ e ≤ T := by
  obtain ⟨l, eq, own⟩ := inv.tail led
  rw [eq] at he
  rcases List.mem_append.mp he with he | he
  · exact (inv.initTerm led e he).le
  · exact (own e he).le

/-- An acknowledged prefix of an extended leader log is one of the old leader log. -/
lemma acked_pre (inv : Inv τ quorum s) (ext : Ext s s')
    (led : (s.leader T).isSome) (pre : q <+: s'.leadLog T) (le : q.length ≤ s.acked v T) :
    q <+: s.leadLog T := by
  by_cases z : s.acked v T = 0
  · rw [List.length_eq_zero_iff.mp (by omega : q.length = 0)]
    exact List.nil_prefix
  · have := (inv.ackLe (Nat.pos_of_ne_zero z)).2.1
    exact prefix_of_length_le pre (ext.leadLog led) (by omega)

lemma acked_unled (inv : Inv τ quorum s) (unled : s.leader T = none) :
    s.acked v T = 0 := by
  by_contra z
  have led := (inv.ackLe (Nat.pos_of_ne_zero z)).1
  rw [unled] at led
  cases led

lemma term_ne_unled (cov : Covered τ s l) (unled : s.leader T = none) (he : e ∈ l) : τ e ≠ T := by
  rintro rfl
  obtain ⟨p, r, rfl⟩ := List.append_of_mem he
  have led := (cov p e ⟨r, by simp⟩).1
  rw [unled] at led
  cases led

lemma init : Inv τ quorum (State.init : State N E) where
  pos h := nomatch h
  covLog v p e h := absurd h (by simp [State.init])
  covLead h := nomatch h
  covVote h := nomatch h
  logTerm v e h := nomatch h
  tail h := nomatch h
  initTerm h := nomatch h
  sorted h := nomatch h
  leadLog h := nomatch h
  leadTerm h := nomatch h
  voteTerm h := nomatch h
  voteCand h := nomatch h
  ackLe h := absurd h (lt_irrefl _)
  ackLog h := nomatch h
  ackVote h := nomatch h
  complete h := nomatch h

/-! ## Preservation -/

variable [DecidableEq N]

lemma raise (inv : Inv τ quorum s) {U : ℕ} (lt : s.term v < U) :
    Inv τ quorum (s.raise v U) := by
  have st : Step τ quorum v s (s.raise v U) := .raise lt
  have ext := st.ext
  have self : (s.raise v U).term v = U := by simp [State.raise]
  have other : ∀ {w}, w ≠ v → (s.raise v U).term w = s.term w := by
    intro w hw
    simp [State.raise, hw]
  refine
    { inv with
      logTerm := ?_, leadLog := ?_, leadTerm := ?_, voteTerm := ?_, ackLe := ?_, ackLog := ?_ }
  · intro w e he
    exact (inv.logTerm w e he).trans (ext.term w)
  · intro w hw
    by_cases hv : w = v
    · -- the leader of `U` would already have reached `U`
      subst hv
      rw [self] at hw
      have := inv.leadTerm hw
      omega
    · rw [other hv] at hw ⊢
      exact inv.leadLog hw
  · intro T c hc
    exact (inv.leadTerm hc).trans (ext.term c)
  · intro w T c hc
    exact (inv.voteTerm hc).trans (ext.term w)
  · intro w T pos
    obtain ⟨led, le, lt⟩ := inv.ackLe pos
    exact ⟨led, le, lt.trans (ext.term w)⟩
  · intro w T q led pre le
    rcases inv.ackLog led pre le with h | bad
    · exact .inl h
    · have := ext.term w
      exact .inr (bad.mono ext (by omega))

/-- A vote goes to a log that is at least as up to date. -/
lemma castVote (inv : Inv τ quorum s) (fresh : s.vote v (s.term v) = none)
    (cand : c = v ∨
      s.vote c (s.term v) = some c ∧ UpToDate τ (s.voteLog c (s.term v)) (s.log v)) :
    Inv τ quorum (s.castVote v c) := by
  have st : Step τ quorum v s (s.castVote v c) := .castVote fresh cand
  have ext := st.ext
  have new : (s.castVote v c).vote v (s.term v) = some c := by simp [State.castVote]
  have newLog : (s.castVote v c).voteLog v (s.term v) = s.log v := by simp [State.castVote]
  -- a vote of the new state is the new one or an old one
  have split : ∀ {w U d}, (s.castVote v c).vote w U = some d →
      (w = v ∧ U = s.term v ∧ d = c) ∨ s.vote w U = some d := by
    intro w U d hd
    by_cases hw : w = v ∧ U = s.term v
    · obtain ⟨rfl, rfl⟩ := hw
      rw [new] at hd
      cases hd
      exact .inl ⟨rfl, rfl, rfl⟩
    · exact .inr (by simpa [State.castVote, hw] using hd)
  refine { inv with covVote := ?_, voteTerm := ?_, voteCand := ?_, ackVote := ?_, complete := ?_ }
  · intro w U d hd
    rcases split hd with ⟨rfl, rfl, rfl⟩ | hd
    · rw [newLog]
      exact inv.covLog w
    · rw [ext.voteLog hd]
      exact inv.covVote hd
  · intro w U d hd
    rcases split hd with ⟨rfl, rfl, rfl⟩ | hd
    · exact le_refl _
    · exact inv.voteTerm hd
  · intro w U d hd
    rcases split hd with ⟨rfl, rfl, rfl⟩ | hd
    · rcases cand with rfl | ⟨self, up⟩
      · exact ⟨new, .refl _⟩
      · rw [ext.voteLog self, newLog]
        exact ⟨ext.vote self, up⟩
    · obtain ⟨self, up⟩ := inv.voteCand hd
      rw [ext.voteLog self, ext.voteLog hd]
      exact ⟨ext.vote self, up⟩
  · intro w U d T q hd lt led pre le
    rcases split hd with ⟨rfl, rfl, rfl⟩ | hd
    · rw [newLog]
      exact inv.ackLog led pre le
    · rw [ext.voteLog hd]
      exact inv.ackVote hd lt led pre le
  · intro U d hd
    obtain ⟨Q, hQ, voters⟩ := inv.complete hd
    exact ⟨Q, hQ, fun w hw => ⟨ext.vote (voters w hw).1, (voters w hw).2⟩⟩

/-- A follower takes over a first part of the log of its leader. -/
lemma accept (inv : Inv τ quorum s) {p : List E} (led : (s.leader (s.term v)).isSome)
    (pre : p <+: s.leadLog (s.term v)) (conf : ¬ p <+: s.log v) :
    Inv τ quorum (s.accept v p) := by
  have self : (s.accept v p).log v = p := by simp [State.accept]
  have other : ∀ {w}, w ≠ v → (s.accept v p).log w = s.log w := by
    intro w hw
    simp [State.accept, hw]
  -- what `v` shared with the leader's log it still has
  have keep : ∀ {q}, q <+: s.log v → q <+: s.leadLog (s.term v) → q <+: p := by
    intro q hq hq'
    rcases List.prefix_or_prefix_of_prefix hq' pre with h | h
    · exact h
    · exact absurd (h.trans hq) conf
  refine { inv with covLog := ?_, logTerm := ?_, leadLog := ?_, ackLog := ?_ }
  · intro w
    by_cases hw : w = v
    · subst hw
      rw [self]
      exact (inv.covLead led).cut pre
    · rw [other hw]
      exact inv.covLog w
  · intro w e he
    by_cases hw : w = v
    · subst hw
      rw [self] at he
      exact inv.lead_le led (pre.subset he)
    · rw [other hw] at he
      exact inv.logTerm w e he
  · intro w hw
    by_cases hv : w = v
    · subst hv
      have eq := inv.leadLog hw
      exact absurd (eq ▸ pre) conf
    · rw [other hv]
      exact inv.leadLog hw
  · intro w T q ledT preT le
    by_cases hw : w = v
    · subst hw
      rw [self]
      rcases inv.ackLog ledT preT le with h | bad
      · by_cases has : q <+: s.leadLog (s.term w)
        · exact .inl (keep h has)
        · -- the leader of the current term started without `q`
          by_cases z : s.acked w T = 0
          · change q.length ≤ s.acked w T at le
            rw [List.length_eq_zero_iff.mp (by omega : q.length = 0)] at has
            exact absurd List.nil_prefix has
          · have leT := (inv.ackLe (Nat.pos_of_ne_zero z)).2.2
            have ne : T ≠ s.term w := by
              rintro rfl
              exact has preT
            exact .inr ⟨s.term w, by omega, by simp [State.accept], led,
              fun h => has (h.trans (inv.init_pre led))⟩
      · exact .inr bad
    · rw [other hw]
      exact inv.ackLog ledT preT le

/-- A follower acknowledges what it has of the log of its leader. -/
lemma ack (inv : Inv τ quorum s) {p : List E} (led : (s.leader (s.term v)).isSome)
    (pre : p <+: s.leadLog (s.term v)) (has : p <+: s.log v) :
    Inv τ quorum (s.ack v p.length) := by
  -- an acknowledgement in another term than `v`'s current one is an old one
  have old : ∀ {w T}, ¬ (w = v ∧ T = s.term v) →
      (s.ack v p.length).acked w T = s.acked w T := by
    intro w T h
    simp [State.ack, h]
  have new : (s.ack v p.length).acked v (s.term v) = max (s.acked v (s.term v)) p.length := by
    simp [State.ack]
  refine { inv with ackLe := ?_, ackLog := ?_, ackVote := ?_, complete := ?_ }
  · intro w T pos
    by_cases hw : w = v ∧ T = s.term v
    · obtain ⟨rfl, rfl⟩ := hw
      rw [new] at pos ⊢
      refine ⟨led, max_le ?_ pre.length_le, le_refl _⟩
      by_cases z : s.acked w (s.term w) = 0
      · omega
      · exact (inv.ackLe (Nat.pos_of_ne_zero z)).2.1
    · rw [old hw] at pos ⊢
      exact inv.ackLe pos
  · intro w T q ledT preT le
    by_cases hw : w = v ∧ T = s.term v
    · obtain ⟨rfl, rfl⟩ := hw
      rw [new] at le
      rcases le_max_iff.mp le with le | le
      · exact inv.ackLog ledT preT le
      · exact .inl ((prefix_of_length_le preT pre le).trans has)
    · rw [old hw] at le
      exact inv.ackLog ledT preT le
  · intro w U c T q hc lt ledT preT le
    have := inv.voteTerm hc
    rw [old (by rintro ⟨rfl, rfl⟩; omega)] at le
    exact inv.ackVote hc lt ledT preT le
  · intro U c hc
    obtain ⟨Q, hQ, voters⟩ := inv.complete hc
    refine ⟨Q, hQ, fun w hw => ⟨(voters w hw).1, ?_⟩⟩
    intro T q lt ledT preT last le
    have := inv.voteTerm (voters w hw).1
    rw [old (by rintro ⟨rfl, rfl⟩; omega)] at le
    exact (voters w hw).2 lt ledT preT last le

lemma append_log (s : State N E) (c : N) (e : E) (w : N) :
    (w = c ∧ (s.append c e).log w = s.log c ++ [e]) ∨ (w ≠ c ∧ (s.append c e).log w = s.log w) := by
  by_cases hw : w = c
  · exact .inl ⟨hw, by simp [State.append, hw]⟩
  · exact .inr ⟨hw, by simp [State.append, hw]⟩

lemma append_leadLog (inv : Inv τ quorum s) (led : s.leader (s.term c) = some c) (e : E) (T : ℕ) :
    (T = s.term c ∧ (s.append c e).leadLog T = s.log c ++ [e]) ∨
      (T ≠ s.term c ∧ (s.append c e).leadLog T = s.leadLog T) := by
  by_cases hT : T = s.term c
  · exact .inl ⟨hT, by simp [State.append, hT, inv.leadLog led]⟩
  · exact .inr ⟨hT, by simp [State.append, hT]⟩

lemma covered_append (inv : Inv τ quorum s) (led : s.leader (s.term c) = some c)
    (te : τ e = s.term c) : Covered τ (s.append c e) (s.log c ++ [e]) := by
  have st : Step τ quorum c s (s.append c e) := .append led te
  have ext := st.ext
  intro p a pre
  rcases List.prefix_concat_iff.mp pre with eq | pre
  · obtain ⟨rfl, rfl⟩ := List.append_inj' eq rfl |>.imp id (fun h => (List.cons.inj h).1)
    rcases inv.append_leadLog led a (s.term c) with ⟨-, lead⟩ | ⟨ne, -⟩
    · rw [te, lead]
      exact ⟨Option.isSome_iff_exists.mpr ⟨c, led⟩, List.prefix_refl _⟩
    · exact absurd rfl ne
  · exact (inv.covLog c).mono ext p a pre

/-- A leader adds an entry of its own term. -/
lemma append (inv : Inv τ quorum s) (led : s.leader (s.term c) = some c)
    (te : τ e = s.term c) : Inv τ quorum (s.append c e) := by
  have st : Step τ quorum c s (s.append c e) := .append led te
  have ext := st.ext
  have logEq := inv.leadLog led
  have lead := inv.append_leadLog led e
  have cov := inv.covered_append led te
  refine
    { inv with
      covLog := ?_, covLead := ?_, covVote := ?_, logTerm := ?_, tail := ?_, sorted := ?_,
      leadLog := ?_, ackLe := ?_, ackLog := ?_, ackVote := ?_, complete := ?_ }
  · intro w
    rcases append_log s c e w with ⟨-, log⟩ | ⟨-, log⟩
    · rwa [log]
    · rw [log]
      exact (inv.covLog w).mono ext
  · intro T ledT
    rcases lead T with ⟨-, log⟩ | ⟨-, log⟩
    · rwa [log]
    · rw [log]
      exact (inv.covLead ledT).mono ext
  · intro v U d hd
    exact (inv.covVote hd).mono ext
  · intro w a ha
    rcases append_log s c e w with ⟨rfl, log⟩ | ⟨-, log⟩
    · rw [log] at ha
      rcases List.mem_append.mp ha with ha | ha
      · exact inv.logTerm w a ha
      · rw [List.mem_singleton.mp ha, te]
        exact le_refl _
    · rw [log] at ha
      exact inv.logTerm w a ha
  · intro T ledT
    obtain ⟨l, eq, own⟩ := inv.tail ledT
    rcases lead T with ⟨rfl, log⟩ | ⟨-, log⟩
    · refine ⟨l ++ [e], ?_, ?_⟩
      · rw [log, logEq, eq]
        simp [State.append]
      · intro a ha
        rcases List.mem_append.mp ha with ha | ha
        · exact own a ha
        · rw [List.mem_singleton.mp ha, te]
    · exact ⟨l, log.trans eq, own⟩
  · intro T ledT
    rcases lead T with ⟨rfl, log⟩ | ⟨-, log⟩
    · rw [log]
      refine List.pairwise_append.mpr ⟨logEq ▸ inv.sorted ledT, List.pairwise_singleton _ _, ?_⟩
      intro a ha b hb
      rw [List.mem_singleton.mp hb, te]
      exact inv.logTerm c a ha
    · rw [log]
      exact inv.sorted ledT
  · intro w hw
    rcases append_log s c e w with ⟨rfl, log⟩ | ⟨hc, log⟩
    · rcases lead (s.term w) with ⟨-, lead⟩ | ⟨ne, -⟩
      · exact log.trans lead.symm
      · exact absurd rfl ne
    · rcases lead (s.term w) with ⟨same, -⟩ | ⟨-, lead⟩
      · -- a term has one leader
        change s.leader (s.term w) = some w at hw
        rw [same, led] at hw
        exact absurd (Option.some.inj hw).symm hc
      · exact log.trans ((inv.leadLog hw).trans lead.symm)
  · intro v T pos
    obtain ⟨ledT, le, lt⟩ := inv.ackLe pos
    exact ⟨ledT, le.trans (ext.leadLog ledT).length_le, lt⟩
  · intro v T q ledT pre le
    rcases inv.ackLog ledT (inv.acked_pre ext ledT pre le) le with h | bad
    · rcases append_log s c e v with ⟨rfl, log⟩ | ⟨-, log⟩
      · exact .inl (log ▸ h.trans (List.prefix_append _ _))
      · exact .inl (log ▸ h)
    · exact .inr (bad.mono ext (le_refl _))
  · intro v U d T q hd lt ledT pre le
    rcases inv.ackVote hd lt ledT (inv.acked_pre ext ledT pre le) le with h | bad
    · exact .inl h
    · exact .inr (bad.mono ext (le_refl _))
  · intro U d hd
    obtain ⟨Q, hQ, voters⟩ := inv.complete hd
    refine ⟨Q, hQ, fun v hv => ⟨(voters v hv).1, ?_⟩⟩
    intro T q lt ledT pre last le
    rcases (voters v hv).2 lt ledT (inv.acked_pre ext ledT pre le) last le with h | bad
    · exact .inl h
    · exact .inr (bad.mono ext (le_refl _))

omit [DecidableEq N] in
/-- A log at least as up to date as one that holds the prefix `q` holds it too, or some leader in
between started without it. -/
lemma dominates (inv : Inv τ quorum s) {l' : List E} {U : ℕ} (cov : Covered τ s l)
    (cov' : Covered τ s l') (up : UpToDate τ l l') (bound : ∀ e ∈ l, τ e < U)
    (led : (s.leader T).isSome) (preT : q <+: s.leadLog T) (last : lastTerm τ q = T)
    (pre : q <+: l') : q <+: l ∨ Bad s T q U := by
  have pos := inv.pos led
  obtain ⟨p, a, rfl⟩ : ∃ p a, q = p ++ [a] := by
    rcases List.eq_nil_or_concat' q with rfl | h
    · simp at last
      omega
    · exact h
  rw [lastTerm_concat] at last
  have le : T ≤ lastTerm τ l' := by
    have := (inv.sorted_of_covered cov').le_lastTerm (pre.subset (by simp : a ∈ p ++ [a]))
    omega
  have ne : l ≠ [] := by
    rintro rfl
    rcases up with lt | ⟨eq, _⟩
    · simp at lt
    · simp at eq
      omega
  obtain ⟨b, hb, hbW⟩ : ∃ b ∈ l, τ b = lastTerm τ l := by
    obtain ⟨p', b, rfl⟩ := List.eq_nil_or_concat' l |>.resolve_left ne
    exact ⟨b, by simp, by rw [lastTerm_concat]⟩
  obtain ⟨ledW, preW⟩ := cov.last ne
  rcases up with lt | ⟨eq, len⟩
  · -- a later last term: its leader has `q` (or is bad), and `l` reaches past `q`
    by_cases has : p ++ [a] <+: s.initLog (lastTerm τ l)
    · rcases List.prefix_or_prefix_of_prefix (has.trans (inv.init_pre ledW)) preW with h | h
      · exact .inl h
      · have := inv.lead_le led (preT.subset (h.subset hb))
        omega
    · have := bound b hb
      exact .inr ⟨lastTerm τ l, by omega, by omega, ledW, has⟩
  · -- equal last terms: both are prefixes of one leader's log
    have ne' : l' ≠ [] := by
      rintro rfl
      simp at pre
    have preW' := (cov'.last ne').2
    rw [← eq] at preW'
    exact .inl (pre.trans (prefix_of_length_le preW' preW len))

omit [DecidableEq N] in
/-- After an election the leader of a term is the new one, who starts with its log, or the old one. -/
lemma elect_leader {d : N} (led : (s.elect c).leader T = some d) :
    (T = s.term c ∧ d = c ∧ (s.elect c).leadLog T = s.log c ∧ (s.elect c).initLog T = s.log c) ∨
      (s.leader T = some d ∧ (s.elect c).leadLog T = s.leadLog T ∧
        (s.elect c).initLog T = s.initLog T) := by
  by_cases hT : T = s.term c
  · simp only [State.elect, hT, if_true, Option.some.injEq] at led ⊢
    exact .inl ⟨trivial, led.symm, trivial, trivial⟩
  · simp only [State.elect, hT, if_false] at led ⊢
    exact .inr ⟨led, trivial, trivial⟩

omit [DecidableEq N] in
lemma elect_isSome (led : ((s.elect c).leader T).isSome) :
    (T = s.term c ∧ (s.elect c).leadLog T = s.log c ∧ (s.elect c).initLog T = s.log c) ∨
      ((s.leader T).isSome ∧ (s.elect c).leadLog T = s.leadLog T ∧
        (s.elect c).initLog T = s.initLog T) := by
  obtain ⟨d, hd⟩ := Option.isSome_iff_exists.mp led
  rcases elect_leader hd with ⟨here, -, lead, init⟩ | ⟨old, lead, init⟩
  · exact .inl ⟨here, lead, init⟩
  · exact .inr ⟨Option.isSome_iff_exists.mpr ⟨d, old⟩, lead, init⟩

omit [DecidableEq N] in
/-- What a voter has acknowledged, the candidate has, or some leader in between started without it. -/
lemma acked_of_vote (inv : Inv τ quorum s) (unled : s.leader (s.term c) = none)
    (logEq : s.voteLog c (s.term c) = s.log c) (bound : ∀ e ∈ s.log c, τ e < s.term c)
    (vote : s.vote v (s.term c) = some c) (lt : T < s.term c)
    (ledT : (s.leader T).isSome) (pre : q <+: s.leadLog T) (last : lastTerm τ q = T)
    (le : q.length ≤ s.acked v T) : q <+: s.log c ∨ Bad s T q (s.term c) := by
  rcases inv.ackVote vote lt ledT pre le with has | ⟨T', gt, lt', led', no⟩
  · have up := (inv.voteCand vote).2
    rw [logEq] at up
    exact inv.dominates (inv.covLog c) (inv.covVote vote) up bound ledT pre last has
  · -- the term of the candidate has no leader yet
    have ne : T' ≠ s.term c := by
      rintro rfl
      rw [unled] at led'
      cases led'
    exact .inr ⟨T', gt, by omega, led', no⟩

/-- The votes of a quorum meet those behind every committed entry. -/
lemma elect (inv : Inv τ quorum s) {Q : Finset N} (pos : 0 < s.term c)
    (unled : s.leader (s.term c) = none) (logEq : s.voteLog c (s.term c) = s.log c)
    (hQ : quorum.mem Q) (votes : ∀ v ∈ Q, s.vote v (s.term c) = some c) :
    Inv τ quorum (s.elect c) := by
  have st : Step τ quorum c s (s.elect c) := .elect pos unled logEq hQ votes
  have ext := st.ext
  -- the new leader's term is later than every entry it starts with
  have bound : ∀ e ∈ s.log c, τ e < s.term c := by
    intro e he
    exact lt_of_le_of_ne (inv.logTerm c e he) (term_ne_unled (inv.covLog c) unled he)
  -- an acknowledged prefix is one of an old leader's log
  have old : ∀ {v T q}, ((s.elect c).leader T).isSome → q <+: (s.elect c).leadLog T →
      q.length ≤ s.acked v T → q = [] ∨ ((s.leader T).isSome ∧ q <+: s.leadLog T) := by
    intro v T q ledT pre le
    rcases elect_isSome ledT with ⟨rfl, -, -⟩ | ⟨ledT, lead, -⟩
    · rw [inv.acked_unled unled] at le
      exact .inl (List.length_eq_zero_iff.mp (by omega))
    · exact .inr ⟨ledT, lead ▸ pre⟩
  refine
    { inv with
      pos := ?_, covLog := ?_, covLead := ?_, covVote := ?_, tail := ?_, initTerm := ?_,
      sorted := ?_, leadLog := ?_, leadTerm := ?_, ackLe := ?_, ackLog := ?_, ackVote := ?_,
      complete := ?_ }
  · intro T ledT
    rcases elect_isSome ledT with ⟨rfl, -, -⟩ | ⟨ledT, -, -⟩
    · exact pos
    · exact inv.pos ledT
  · intro v
    exact (inv.covLog v).mono ext
  · intro T ledT
    rcases elect_isSome ledT with ⟨rfl, lead, -⟩ | ⟨ledT, lead, -⟩
    · rw [lead]
      exact (inv.covLog c).mono ext
    · rw [lead]
      exact (inv.covLead ledT).mono ext
  · intro v U d hd
    exact (inv.covVote hd).mono ext
  · intro T ledT
    rcases elect_isSome ledT with ⟨rfl, lead, init⟩ | ⟨ledT, lead, init⟩
    · refine ⟨[], by rw [lead, init, List.append_nil], fun e he => ?_⟩
      cases he
    · rw [lead, init]
      exact inv.tail ledT
  · intro T ledT
    rcases elect_isSome ledT with ⟨rfl, -, init⟩ | ⟨ledT, -, init⟩
    · rw [init]
      exact bound
    · rw [init]
      exact inv.initTerm ledT
  · intro T ledT
    rcases elect_isSome ledT with ⟨rfl, lead, -⟩ | ⟨ledT, lead, -⟩
    · rw [lead]
      exact inv.sorted_of_covered (inv.covLog c)
    · rw [lead]
      exact inv.sorted ledT
  · intro v hv
    rcases elect_leader hv with ⟨-, rfl, lead, -⟩ | ⟨hv, lead, -⟩
    · exact lead.symm
    · exact (inv.leadLog hv).trans lead.symm
  · intro T d hd
    rcases elect_leader hd with ⟨rfl, rfl, -, -⟩ | ⟨hd, -, -⟩
    · exact le_refl _
    · exact inv.leadTerm hd
  · intro v T pos'
    obtain ⟨ledT, le, lt⟩ := inv.ackLe pos'
    exact ⟨ext.isSome ledT, le.trans (ext.leadLog ledT).length_le, lt⟩
  · intro v T q ledT pre le
    rcases old ledT pre le with rfl | ⟨ledT, pre⟩
    · exact .inl List.nil_prefix
    · exact (inv.ackLog ledT pre le).imp_right fun bad => bad.mono ext (le_refl _)
  · intro v U d T q hd lt ledT pre le
    rcases old ledT pre le with rfl | ⟨ledT, pre⟩
    · exact .inl List.nil_prefix
    · exact (inv.ackVote hd lt ledT pre le).imp_right fun bad => bad.mono ext (le_refl _)
  · intro U d hd
    rcases elect_leader hd with ⟨rfl, rfl, -, init⟩ | ⟨hd, -, init⟩
    · refine ⟨Q, hQ, fun v hv => ⟨votes v hv, ?_⟩⟩
      intro T q lt ledT pre last le
      rw [init]
      rcases old ledT pre le with rfl | ⟨ledT, pre⟩
      · exact .inl List.nil_prefix
      · exact (inv.acked_of_vote unled logEq bound (votes v hv) lt ledT pre last le).imp_right
          fun bad => bad.mono ext (le_refl _)
    · obtain ⟨Q', hQ', voters⟩ := inv.complete hd
      refine ⟨Q', hQ', fun v hv => ⟨(voters v hv).1, ?_⟩⟩
      intro T q lt ledT pre last le
      rw [init]
      rcases old ledT pre le with rfl | ⟨ledT, pre⟩
      · exact .inl List.nil_prefix
      · exact ((voters v hv).2 lt ledT pre last le).imp_right fun bad => bad.mono ext (le_refl _)

/-- Every step preserves the invariant. -/
theorem step {n : N} (inv : Inv τ quorum s) (st : Step τ quorum n s s') : Inv τ quorum s' := by
  cases st with
  | raise lt => exact inv.raise lt
  | castVote fresh cand => exact inv.castVote fresh cand
  | elect pos unled logEq hQ votes => exact inv.elect pos unled logEq hQ votes
  | append led te => exact inv.append led te
  | accept led pre conf => exact inv.accept led pre conf
  | ack led pre has => exact inv.ack led pre has

lemma acts {n : N} (inv : Inv τ quorum s) (acts : Acts τ quorum n s s') : Inv τ quorum s' := by
  induction acts with
  | refl => exact inv
  | tail _ st ih => exact ih.step st

end Inv

end Replication
