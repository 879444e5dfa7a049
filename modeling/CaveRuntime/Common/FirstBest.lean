import Mathlib.Order.Bounds.Basic
import Mathlib.Tactic.Common
import Mathlib.Data.List.Induction

/-!
# The first of the best

A loop looks at the elements of a list one after the other, gets an offer from some of them, and keeps the best
offer so far; a later one replaces it only if it costs less. What it ends with is the first of the cheapest
offers.
-/

namespace FirstBest

variable {α β γ : Type*} [LinearOrder γ]

/-- The better of the best offer so far and the next one. -/
def pick (cost : β → γ) (offer : α → Option β) (best : Option (α × β)) (a : α) : Option (α × β) :=
  match offer a with
  | none => best
  | some b =>
    match best with
    | none => some (a, b)
    | some prev => if cost b < cost prev.2 then some (a, b) else some prev

/-- The whole loop. -/
def first (cost : β → γ) (offer : α → Option β) (l : List α) : Option (α × β) := l.foldl (pick cost offer) none

/-- The offer is cheaper than those before it, and none after it is cheaper. -/
structure IsFirst (cost : β → γ) (offer : α → Option β) (before after : List α) (a : α) (b : β) : Prop where
  offered : offer a = some b
  before : ∀ x ∈ before, ∀ y, offer x = some y → cost b < cost y
  after : ∀ x ∈ after, ∀ y, offer x = some y → cost b ≤ cost y

variable {cost : β → γ} {offer : α → Option β} {l before after : List α} {a : α} {b : β}

lemma first_append (l : List α) (c : α) : first cost offer (l ++ [c]) = pick cost offer (first cost offer l) c := by
  unfold first
  rw [List.foldl_append, List.foldl_cons, List.foldl_nil]

lemma first_eq_none (nothing : first cost offer l = none) : ∀ x ∈ l, offer x = none := by
  induction l using List.reverseRecOn with
  | nil => nofun
  | append_singleton l c ih =>
    rw [first_append] at nothing
    unfold pick at nothing
    cases offered : offer c with
    | none =>
      rw [offered] at nothing
      intro x mem
      rcases List.mem_append.mp mem with mem | mem
      · exact ih nothing x mem
      · rwa [List.mem_singleton.mp mem]
    | some y =>
      rw [offered] at nothing
      dsimp only at nothing
      split at nothing
      · cases nothing
      · split at nothing <;> cases nothing

/-- What the loop finds is the first of the cheapest offers. -/
lemma isFirst_of_first (found : first cost offer l = some (a, b)) :
    ∃ before after, l = before ++ a :: after ∧ IsFirst cost offer before after a b := by
  induction l using List.reverseRecOn generalizing a b with
  | nil => cases found
  | append_singleton l c ih =>
    rw [first_append] at found
    unfold pick at found
    cases offered : offer c with
    | none =>
      rw [offered] at found
      obtain ⟨before, after, rfl, isFirst⟩ := ih found
      refine ⟨before, after ++ [c], by simp, isFirst.offered, isFirst.before, ?_⟩
      intro x mem y offers
      rcases List.mem_append.mp mem with mem | mem
      · exact isFirst.after x mem y offers
      · rw [List.mem_singleton.mp mem, offered] at offers
        cases offers
    | some y =>
      rw [offered] at found
      dsimp only at found
      cases best : first cost offer l with
      | none =>
        rw [best] at found
        cases found
        refine ⟨l, [], rfl, offered, ?_, nofun⟩
        intro x mem y' offers
        rw [first_eq_none best x mem] at offers
        cases offers
      | some prev =>
        obtain ⟨before, after, rfl, isFirst⟩ := ih best
        rw [best] at found
        dsimp only at found
        split at found
        · rename_i cheaper
          cases found
          refine ⟨before ++ prev.1 :: after, [], rfl, offered, ?_, nofun⟩
          intro x mem y' offers
          rcases List.mem_append.mp mem with mem | mem
          · exact cheaper.trans (isFirst.before x mem y' offers)
          · rcases List.mem_cons.mp mem with rfl | mem
            · rw [isFirst.offered] at offers
              cases offers
              exact cheaper
            · exact cheaper.trans_le (isFirst.after x mem y' offers)
        · rename_i dearer
          cases found
          refine ⟨before, after ++ [c], by simp, isFirst.offered, isFirst.before, ?_⟩
          intro x mem y' offers
          rcases List.mem_append.mp mem with mem | mem
          · exact isFirst.after x mem y' offers
          · rw [List.mem_singleton.mp mem, offered] at offers
            cases offers
            exact not_lt.mp dearer

lemma foldl_pick_of_after (after : List α) (dearer : ∀ x ∈ after, ∀ y, offer x = some y → cost b ≤ cost y) :
    after.foldl (pick cost offer) (some (a, b)) = some (a, b) := by
  induction after with
  | nil => rfl
  | cons x after ih =>
    have stays : pick cost offer (some (a, b)) x = some (a, b) := by
      unfold pick
      cases offered : offer x with
      | none => rfl
      | some y => exact if_neg (not_lt.mpr (dearer x List.mem_cons_self y offered))
    rw [List.foldl_cons, stays]
    exact ih fun x mem => dearer x (List.mem_cons_of_mem _ mem)

lemma first_of_isFirst (isFirst : IsFirst cost offer before after a b) :
    first cost offer (before ++ a :: after) = some (a, b) := by
  have here : pick cost offer (first cost offer before) a = some (a, b) := by
    unfold pick
    rw [isFirst.offered]
    cases best : first cost offer before with
    | none => rfl
    | some prev =>
      obtain ⟨before', after', rfl, prevFirst⟩ := isFirst_of_first best
      exact if_pos (isFirst.before prev.1 (by simp) prev.2 prevFirst.offered)
  unfold first at here ⊢
  rw [List.foldl_append, List.foldl_cons, here]
  exact foldl_pick_of_after after isFirst.after

end FirstBest
