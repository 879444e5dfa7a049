import CaveRuntime.Common.Run
import Mathlib.Order.Basic

/-!
# Things that end

A life has a limit and may have an end, which a renewal moves. If every renewal comes before the end and
stays within the limit, the life keeps to its limit and is not taken up again once it is over. The results
are about any system in which one such life can be followed along a clock that does not go back.
-/

namespace Lifetime
open Run

variable {T S E : Type*} [Preorder T]

/-- A limit, and the end that is set now. -/
structure Life (T : Type*) where
  limit : T
  ends : Option T

namespace Life

/-- The end has passed. -/
def Over (now : T) (l : Life T) : Prop := ∃ t ∈ l.ends, t < now

/-- There is an end, within the limit. -/
def Within (l : Life T) : Prop := ∃ t ∈ l.ends, t ≤ l.limit

lemma Over.mono {now now' : T} {l : Life T} (ended : l.Over now) (le : now ≤ now') : l.Over now' := by
  obtain ⟨t, ends, past⟩ := ended
  exact ⟨t, ends, past.trans_le le⟩

lemma Within.ended {now : T} {l : Life T} (within : l.Within) (late : l.limit < now) : l.Over now := by
  obtain ⟨t, ends, le⟩ := within
  exact ⟨t, ends, le.trans_lt late⟩

end Life

/-- What may become of a life at a time: nothing, its removal, or a renewal before its end and within its
limit. -/
inductive Change (now : T) : Option (Life T) → Option (Life T) → Prop
  | same {l : Option (Life T)} : Change now l l
  | gone {l : Option (Life T)} : Change now l none
  | renewed {l : Life T} {t : T} : ¬ l.Over now → t ≤ l.limit →
      Change now (some l) (some ⟨l.limit, some t⟩)

namespace Change

variable {now limit : T} {l l' : Option (Life T)}

lemma within (change : Change now l l') (inv : ∀ x ∈ l, x.limit = limit ∧ x.Within) :
    ∀ x ∈ l', x.limit = limit ∧ x.Within := by
  cases change with
  | same => exact inv
  | gone => exact nofun
  | renewed alive le =>
    intro x here
    cases here
    exact ⟨(inv _ rfl).1, _, rfl, le⟩

lemma of_over (change : Change now l l') (ended : ∀ x ∈ l, x.Over now) : ∀ x ∈ l', x ∈ l := by
  cases change with
  | same => exact fun _ here => here
  | gone => exact nofun
  | renewed alive le => exact absurd (ended _ rfl) alive

end Change

/-- The step changes the life as it may, at a time that is not before the last one. -/
def Follows (clock : S → T) (life : S → Option (Life T)) (s s' : S) : Prop :=
  clock s ≤ clock s' ∧ Change (clock s') (life s) (life s')

section Runs

variable {step : S → E → Option S} {ok : S → E → Prop} {clock : S → T} {life : S → Option (Life T)}
  {s s' : S} {events : List E}

/-- A life that starts within its limit keeps to it. -/
theorem within_of_guarded (follows : ∀ {s e s'}, ok s e → step s e = some s' → Follows clock life s s')
    {limit : T} (gd : Guarded step ok s events) (ran : run step s events = some s')
    (start : ∀ x ∈ life s, x.limit = limit ∧ x.Within) : ∀ x ∈ life s', x.limit = limit ∧ x.Within :=
  invariant_of_guarded (P := fun s => ∀ x ∈ life s, x.limit = limit ∧ x.Within)
    (fun inv ok st => (follows ok st).2.within inv) gd ran start

/-- A life that is over is not renewed. -/
theorem over_of_guarded (follows : ∀ {s e s'}, ok s e → step s e = some s' → Follows clock life s s')
    (gd : Guarded step ok s events) (ran : run step s events = some s')
    (start : ∀ x ∈ life s, x.Over (clock s)) :
    clock s ≤ clock s' ∧ ∀ x ∈ life s', x ∈ life s ∧ x.Over (clock s') := by
  refine invariant_of_guarded
    (P := fun t => clock s ≤ clock t ∧ ∀ x ∈ life t, x ∈ life s ∧ x.Over (clock t)) ?_ gd ran
    ⟨le_refl _, fun x here => ⟨here, start x here⟩⟩
  intro t e t' inv ok st
  obtain ⟨forward, change⟩ := follows ok st
  refine ⟨inv.1.trans forward, fun x here => ?_⟩
  have old := change.of_over (fun y there => (inv.2 y there).2.mono forward) x here
  exact ⟨(inv.2 x old).1, (inv.2 x old).2.mono forward⟩

end Runs

end Lifetime
