import Mathlib.Data.List.Basic
import Mathlib.Tactic.Common

/-!
# Overwrites

An overwrite of a map gives some keys new contents and leaves the others alone, whatever the map holds. After
a sequence of overwrites a key has what the last one that reaches it says. So a sequence that is applied after
some of its own members gives what it gives alone.
-/

namespace Overwrite

variable {α β : Type*}

/-- What an overwrite says of each key: its new contents, if it reaches the key. -/
abbrev Effect (α β : Type*) := α → Option (Option β)

/-- The map after an overwrite. -/
def write (m : α → Option β) (u : Effect α β) : α → Option β := fun a => (u a).getD (m a)

lemma foldl_write_unreached {us : List (Effect α β)} {a : α} (unreached : ∀ u ∈ us, u a = none)
    (m : α → Option β) : us.foldl write m a = m a := by
  induction us generalizing m with
  | nil => rfl
  | cons u us ih =>
    rw [List.foldl_cons, ih fun v mem => unreached v (List.mem_cons_of_mem _ mem)]
    simp only [write, unreached u List.mem_cons_self, Option.getD_none]

/-- What a key has afterwards depends on the map only if no overwrite reaches it. -/
lemma foldl_write_congr {us : List (Effect α β)} {a : α} {m m' : α → Option β}
    (same : (∀ u ∈ us, u a = none) → m a = m' a) : us.foldl write m a = us.foldl write m' a := by
  induction us generalizing m m' with
  | nil => exact same fun _ mem => absurd mem List.not_mem_nil
  | cons u us ih =>
    refine ih fun rest => ?_
    unfold write
    cases here : u a with
    | some v => rfl
    | none => exact same (List.forall_mem_cons.mpr ⟨here, rest⟩)

lemma foldl_write_replay {us vs : List (Effect α β)} (sub : vs ⊆ us) (m : α → Option β) :
    us.foldl write (vs.foldl write m) = us.foldl write m := by
  funext a
  refine foldl_write_congr fun unreached => ?_
  exact foldl_write_unreached (fun v mem => unreached v (sub mem)) m

end Overwrite
