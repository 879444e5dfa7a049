import Mathlib.Data.Finset.Card
import Mathlib.Algebra.Order.Group.Nat
import Mathlib.Tactic.Common

/-!
# Quorum systems

A quorum system is a family of finite sets any two of which meet. `QuorumSystem.majority` is the
family of strict majorities of a list of members; the list may repeat a member, in which case the
threshold only gets harder to reach.
-/

/-- A family of node sets that pairwise intersect. -/
structure QuorumSystem (N : Type*) where
  mem : Finset N → Prop
  inter : ∀ {Q Q' : Finset N}, mem Q → mem Q' → ∃ v, v ∈ Q ∧ v ∈ Q'

namespace QuorumSystem

variable {N : Type*} [DecidableEq N]

lemma inter_of_card {M Q Q' : Finset N} (sub : Q ⊆ M) (sub' : Q' ⊆ M)
    (big : M.card < Q.card + Q'.card) : ∃ v, v ∈ Q ∧ v ∈ Q' := by
  by_contra apart
  have disj : Disjoint Q Q' := by
    rw [Finset.disjoint_left]
    intro v hv hv'
    exact apart ⟨v, hv, hv'⟩
  have le := Finset.card_le_card (Finset.union_subset sub sub')
  rw [Finset.card_union_of_disjoint disj] at le
  omega

/-- The strict majorities of a member list. -/
def majority (members : List N) : QuorumSystem N where
  mem Q := Q ⊆ members.toFinset ∧ members.length / 2 + 1 ≤ Q.card
  inter := by
    intro Q Q' h h'
    apply inter_of_card h.1 h'.1
    have le := members.toFinset_card_le
    omega

end QuorumSystem
