import Mathlib.Tactic.Common

/-!
# Checks that refuse

A handler checks its input step by step and refuses it with an error at the first check that fails. The
rules below say that a computation that gets to its end has got past each of its steps.
-/

namespace Refusal

universe u v

variable {ε : Type u} {α β : Type v}

def okOr (e : ε) : Option α → Except ε α
  | some a => .ok a
  | none => .error e

lemma bind_eq_ok {x : Except ε α} {f : α → Except ε β} {b : β} :
    x >>= f = .ok b ↔ ∃ a, x = .ok a ∧ f a = .ok b := by
  cases x with
  | error e =>
    refine ⟨fun eq => (by cases eq), ?_⟩
    rintro ⟨a, eq, -⟩
    cases eq
  | ok a =>
    refine ⟨fun eq => ⟨a, rfl, eq⟩, ?_⟩
    rintro ⟨a', eq, rest⟩
    cases eq
    exact rest

end Refusal
