import Mathlib.Data.List.Infix
import Mathlib.Algebra.Order.Group.Nat

/-!
# Logs whose entries know their position

A log numbers its entries from one, and every entry carries its number (`Indexed`). Positions are
computed from the numbers by `u64` subtraction, which wraps around where the number is too small
(`wrappingSub`).
-/

namespace Positions

/-- `u64` subtraction as a release build does it. -/
def wrappingSub (a b : ℕ) : ℕ := if b ≤ a then a - b else a + 2 ^ 64 - b

lemma wrappingSub_of_le {a b : ℕ} (le : b ≤ a) : wrappingSub a b = a - b := if_pos le

lemma wrappingSub_succ (n : ℕ) : wrappingSub (n + 1) 1 = n := wrappingSub_of_le (Nat.le_add_left 1 n)

variable {E : Type*} {ι : E → ℕ}

/-- The number of every entry is its position, counted from one. -/
def Indexed (ι : E → ℕ) (l : List E) : Prop := ∀ i e, l[i]? = some e → ι e = i + 1

namespace Indexed

variable {l p : List E} {e : E}

lemma nil : Indexed ι [] := by
  intro i e he
  simp at he

lemma of_map_eq (numbers : l.map ι = List.range' 1 l.length) : Indexed ι l := by
  intro i e he
  have at_i := congrArg (·[i]?) numbers
  have lt := (List.getElem?_eq_some_iff.mp he).1
  simp only [List.getElem?_map, he, Option.map_some, List.getElem?_range' lt, Option.some.injEq] at at_i
  omega

lemma cut (ix : Indexed ι p) (pre : l <+: p) : Indexed ι l := by
  intro i e he
  have lt := (List.getElem?_eq_some_iff.mp he).1
  apply ix i e
  rw [← he, List.prefix_iff_eq_take.mp pre, List.getElem?_take_of_lt lt]

lemma concat (ix : Indexed ι l) (idx : ι e = l.length + 1) : Indexed ι (l ++ [e]) := by
  intro i a ha
  rcases lt_trichotomy i l.length with lt | rfl | gt
  · rw [List.getElem?_append_left lt] at ha
    exact ix i a ha
  · rw [List.getElem?_concat_length] at ha
    rw [← Option.some.inj ha, idx]
  · rw [List.getElem?_eq_none (by simpa using Nat.succ_le_of_lt gt)] at ha
    cases ha

lemma last (ix : Indexed ι (l ++ [e])) : ι e = l.length + 1 :=
  ix _ _ List.getElem?_concat_length

lemma getLast?_index (ix : Indexed ι l) : (l.getLast?.map ι).getD 0 = l.length := by
  induction l using List.reverseRecOn with
  | nil => rfl
  | append_singleton p a _ => simp [ix.last]

/-- The entries from index `k` on are the log without its first `k - 1` entries. -/
lemma filter_le (ix : Indexed ι l) (k : ℕ) : (l.filter fun e => k ≤ ι e) = l.drop (k - 1) := by
  induction l using List.reverseRecOn with
  | nil => simp
  | append_singleton p a ih =>
    have idx := ix.last
    rw [List.filter_append, ih (ix.cut (List.prefix_append _ _))]
    by_cases le : k ≤ ι a
    · rw [List.drop_append_of_le_length (by omega)]
      simp [le]
    · rw [List.drop_eq_nil_of_le (by omega), List.drop_eq_nil_of_le (by simp; omega)]
      simp [le]

end Indexed

end Positions
