import Mathlib.Data.List.Sort
import Mathlib.Order.Bounds.Basic

/-!
# The k-th largest element of a list

The k-th largest element of a list is the greatest bound that k of its elements reach. In a sorted list it
stands at a known place.
-/

namespace OrderStatistic

variable {α : Type*} [LinearOrder α] {l l' : List α} {k k' : ℕ} {v w : α}

/-- How many elements reach the bound. -/
def reaching (l : List α) (v : α) : ℕ := l.countP fun x => v ≤ x

/-- The greatest bound that `k` elements reach. -/
def IsKthLargest (l : List α) (k : ℕ) (v : α) : Prop := IsGreatest {x | k ≤ reaching l x} v

lemma reaching_perm (perm : l.Perm l') : reaching l v = reaching l' v := perm.countP_eq _

lemma reaching_anti (le : v ≤ w) : reaching l w ≤ reaching l v := by
  apply List.countP_mono_left
  intro x _ reach
  exact decide_eq_true (le.trans (of_decide_eq_true reach))

lemma IsKthLargest.perm (h : IsKthLargest l k v) (perm : l.Perm l') : IsKthLargest l' k v := by
  have same : {x | k ≤ reaching l' x} = {x | k ≤ reaching l x} := by
    apply Set.ext
    intro x
    rw [Set.mem_ofPred_eq, Set.mem_ofPred_eq, reaching_perm perm]
  unfold IsKthLargest
  rw [same]
  exact h

lemma IsKthLargest.le_iff (h : IsKthLargest l k v) : w ≤ v ↔ k ≤ reaching l w :=
  ⟨fun le => le_trans h.1 (reaching_anti le), fun reach => h.2 reach⟩

/-- In an ascending list, the elements from a place on are those that reach the one there. -/
lemma isKthLargest_ascending (sorted : l.Pairwise (· ≤ ·)) {i : ℕ} (lt : i < l.length) :
    IsKthLargest l (l.length - i) l[i] := by
  have split := List.take_append_drop i l
  constructor
  · -- all the elements from there on
    have above : ∀ x ∈ l.drop i, decide (l[i] ≤ x) = true := by
      intro x hx
      rw [List.drop_eq_getElem_cons lt] at hx
      cases hx with
      | head => simp
      | tail _ hx =>
        have pair := sorted.sublist (List.drop_sublist i l)
        rw [List.drop_eq_getElem_cons lt] at pair
        exact decide_eq_true (List.rel_of_pairwise_cons pair hx)
    have all : (l.drop i).countP (fun x => l[i] ≤ x) = l.length - i := by
      rw [List.countP_eq_length.mpr above, List.length_drop]
    show l.length - i ≤ l.countP _
    rw [← all]
    exact (List.drop_sublist i l).countP_le
  · -- a greater bound is reached by none of the elements up to there
    intro w reach
    by_contra not
    have gt : l[i] < w := not_le.mp not
    have below : ∀ x ∈ l.take (i + 1), ¬ decide (w ≤ x) = true := by
      intro x hx
      obtain ⟨j, hj, rfl⟩ := List.mem_iff_getElem.mp hx
      rw [List.length_take] at hj
      rw [List.getElem_take]
      have le : l[j] ≤ l[i] := by
        by_cases same : j = i
        · subst same
          exact le_refl _
        · exact List.pairwise_iff_getElem.mp sorted j i (by omega) lt (by omega)
      simpa using le.trans_lt gt
    have none : (l.take (i + 1)).countP (fun x => w ≤ x) = 0 := List.countP_eq_zero.mpr below
    have few : reaching l w ≤ l.length - (i + 1) := by
      unfold reaching
      rw [← List.take_append_drop (i + 1) l, List.countP_append, none, Nat.zero_add]
      refine List.countP_le_length.trans ?_
      rw [List.length_drop, List.take_append_drop]
    have reach : l.length - i ≤ reaching l w := reach
    omega

/-- In a descending list, the elements up to a place are those that reach the one there. -/
lemma isKthLargest_descending (sorted : l.Pairwise (· ≥ ·)) {i : ℕ} (lt : i < l.length) :
    IsKthLargest l (i + 1) l[i] := by
  have lt' : l.length - 1 - i < l.reverse.length := by
    rw [List.length_reverse]
    omega
  have asc := isKthLargest_ascending (List.pairwise_reverse.mpr sorted) lt'
  have place : l.reverse.length - (l.length - 1 - i) = i + 1 := by
    rw [List.length_reverse]
    omega
  rw [place, List.getElem_reverse] at asc
  have back : l.length - 1 - (l.length - 1 - i) = i := by omega
  simp only [back] at asc
  exact asc.perm (List.reverse_perm l)

end OrderStatistic
