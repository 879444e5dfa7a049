import CaveRuntime.Common.Table
import Mathlib.Algebra.BigOperators.Group.List.Basic
import Mathlib.Algebra.Ring.Nat

/-!
# Sums of what a table has

The sum of a quantity over the values of a table, and what it becomes when an entry comes, goes or changes.
-/

namespace Table

variable {α β : Type*}

/-- The sum of `f` over all values. -/
def total (f : β → ℕ) (t : Table α β) : ℕ := (t.entries.map fun e => f e.2).sum

variable [DecidableEq α]

lemma total_insert (f : β → ℕ) (t : Table α β) (a : α) (b : β) :
    total f (t.insert a b) = f b + total f (t.erase a) :=
  rfl

lemma total_congr {f : β → ℕ} {t t' : Table α β} (same : ∀ a, t.lookup a = t'.lookup a) :
    total f t = total f t' :=
  ((perm_of_lookup_eq same).map _).sum_eq

lemma total_eq_add_erase (f : β → ℕ) {t : Table α β} {a : α} {b : β} (look : t.lookup a = some b) :
    total f t = f b + total f (t.erase a) := by
  rw [← total_insert]
  refine total_congr fun a' => ?_
  rw [lookup_insert_eq]
  split
  · rename_i eq
    rw [eq, look]
  · rfl

lemma total_erase_of_none (f : β → ℕ) {t : Table α β} {a : α} (none : t.lookup a = none) :
    total f (t.erase a) = total f t := by
  refine total_congr fun a' => ?_
  rw [lookup_erase_eq]
  split
  · rename_i eq
    rw [eq, none]
  · rfl

end Table
