import Mathlib.Algebra.Ring.Nat
import Mathlib.Tactic.Common

/-!
# Integers of a fixed width

Rust's arithmetic. A result that leaves the width panics if the build has overflow checks and wraps around
if it has none; `checks` says which, and `none` is the panic. A signed width is given by its greatest
element.
-/

namespace MachineInt

/-! ## Signed -/

/-- `i16::MAX`. -/
def i16Max : ℤ := 32767

/-- `i32::MAX`. -/
def i32Max : ℤ := 2147483647

/-- `i64::MAX`. -/
def i64Max : ℤ := 9223372036854775807

/-- The number of a width, with greatest element `top`, that is congruent to `n`. -/
def wrap (top n : ℤ) : ℤ := (n + top + 1) % (2 * top + 2) - top - 1

/-- The result of an operation, brought to the width. -/
def fit (checks : Bool) (top n : ℤ) : Option ℤ :=
  if -top - 1 ≤ n ∧ n ≤ top then some n
  else if checks then none
  else some (wrap top n)

/-- `+`. -/
def add (checks : Bool) (top a b : ℤ) : Option ℤ := fit checks top (a + b)

/-- `*`. -/
def mul (checks : Bool) (top a b : ℤ) : Option ℤ := fit checks top (a * b)

def saturatingAdd (top a b : ℤ) : ℤ := max (-top - 1) (min top (a + b))

lemma add_of_le {checks : Bool} {top a b : ℤ} (low : -top - 1 ≤ a + b) (high : a + b ≤ top) :
    add checks top a b = some (a + b) :=
  if_pos ⟨low, high⟩

lemma saturatingAdd_of_le {top a b : ℤ} (low : -top - 1 ≤ a + b) (high : a + b ≤ top) :
    saturatingAdd top a b = a + b := by
  unfold saturatingAdd
  omega

example : add false i16Max 32767 1 = some (-32768) := by decide

/-! ## Unsigned -/

/-- `as usize` and `as u64` of an `i64`. -/
def asU64 (n : ℤ) : ℕ := (n % ((2 ^ 64 : ℕ) : ℤ)).toNat

/-- `+` of two `u64`. -/
def addU64 (checks : Bool) (a b : ℕ) : Option ℕ :=
  if a + b < 2 ^ 64 then some (a + b) else if checks then none else some ((a + b) % 2 ^ 64)

lemma addU64_checked {a b c : ℕ} (sum : addU64 true a b = some c) : a + b < 2 ^ 64 ∧ c = a + b := by
  unfold addU64 at sum
  split at sum
  · rename_i small
    exact ⟨small, (Option.some.inj sum).symm⟩
  · cases sum

lemma addU64_mod {checks : Bool} {a b c : ℕ} (sum : addU64 checks a b = some c) : c = (a + b) % 2 ^ 64 := by
  unfold addU64 at sum
  split at sum
  · rename_i small
    rw [Nat.mod_eq_of_lt small]
    exact (Option.some.inj sum).symm
  · cases checks with
    | true => cases sum
    | false => exact (Option.some.inj sum).symm

end MachineInt
