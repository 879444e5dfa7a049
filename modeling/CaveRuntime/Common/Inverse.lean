import CaveRuntime.Common.Table

/-!
# Two tables that are inverse to each other

A table `f` and an index `g` of it: what `f` has for a key, together with the key, gives the key of `g` under which
the key of `f` is found again. An entry comes into both tables or leaves both.
-/

namespace Table

section Inverse

variable {α β γ : Type*} [DecidableEq α] [DecidableEq γ] {out : α → β → γ} {f : Table α β} {g : Table γ α}

/-- `g` gives a key back exactly from what `f` has for it. -/
def Inverse (out : α → β → γ) (f : Table α β) (g : Table γ α) : Prop :=
  ∀ c a, g.lookup c = some a ↔ ∃ b, f.lookup a = some b ∧ out a b = c

namespace Inverse

lemma empty : Inverse out (∅ : Table α β) (∅ : Table γ α) := by
  intro c a
  simp only [AList.lookup_empty, reduceCtorEq, false_and, exists_false]

lemma insert (inv : Inverse out f g) {a : α} {b : β} (new : f.lookup a = none) (free : g.lookup (out a b) = none) :
    Inverse out (f.insert a b) (g.insert (out a b) a) := by
  intro c a'
  rw [lookup_insert_eq, lookup_insert_eq]
  by_cases there : c = out a b
  · subst there
    rw [if_pos rfl, Option.some_inj]
    by_cases same : a' = a
    · subst same
      rw [if_pos rfl]
      exact iff_of_true rfl ⟨b, rfl, rfl⟩
    · rw [if_neg same, ← inv, free]
      exact iff_of_false (fun eq => same eq.symm) nofun
  · rw [if_neg there]
    by_cases same : a' = a
    · subst same
      rw [if_pos rfl, inv, new]
      refine iff_of_false (fun ⟨_, eq, _⟩ => nomatch eq) ?_
      rintro ⟨b', eq, rfl⟩
      cases eq
      exact there rfl
    · rw [if_neg same]
      exact inv c a'

lemma erase (inv : Inverse out f g) {a : α} {b : β} (look : f.lookup a = some b) :
    Inverse out (f.erase a) (g.erase (out a b)) := by
  intro c a'
  rw [lookup_erase_eq, lookup_erase_eq]
  have own : g.lookup (out a b) = some a := (inv _ _).mpr ⟨b, look, rfl⟩
  by_cases same : a' = a
  · subst same
    rw [if_pos rfl]
    refine iff_of_false ?_ fun ⟨_, eq, _⟩ => nomatch eq
    by_cases there : c = out a' b
    · rw [if_pos there]
      exact nofun
    · rw [if_neg there, inv, look]
      rintro ⟨b', eq, rfl⟩
      cases eq
      exact there rfl
  · rw [if_neg same]
    by_cases there : c = out a b
    · rw [if_pos there, ← inv, there, own]
      exact iff_of_false nofun fun eq => same (Option.some.inj eq).symm
    · rw [if_neg there]
      exact inv c a'

lemma injective (inv : Inverse out f g) {a a' : α} {b b' : β} (look : f.lookup a = some b)
    (look' : f.lookup a' = some b') (same : out a b = out a' b') : a = a' := by
  have first := (inv (out a b) a).mpr ⟨b, look, rfl⟩
  have second := (inv (out a b) a').mpr ⟨b', look', same.symm⟩
  rw [first] at second
  exact Option.some.inj second

end Inverse

end Inverse

end Table
