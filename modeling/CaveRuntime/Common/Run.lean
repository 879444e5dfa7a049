import Mathlib.Tactic.Common

/-!
# Runs of partial step functions

A system is given by a partial step function `step : S → E → Option S`: `none` means that the event
is not enabled in the state. `run` folds a list of events, `Guarded` says that every event of a run
meets a condition in the state it is taken from, and `invariant_of_run` is the induction rule all
run-level results go through.
-/

namespace Run

variable {S E : Type*} {step : S → E → Option S} {ok : S → E → Prop}

/-- The state after a list of events, if every one of them is enabled in turn. -/
def run (step : S → E → Option S) : S → List E → Option S
  | s, [] => some s
  | s, e :: es => (step s e).bind fun s' => run step s' es

/-- Every event of the run meets `ok` in the state it is taken from. -/
def Guarded (step : S → E → Option S) (ok : S → E → Prop) : S → List E → Prop
  | _, [] => True
  | s, e :: es => ok s e ∧ ∀ s', step s e = some s' → Guarded step ok s' es

instance decidableGuarded [∀ s e, Decidable (ok s e)] :
    ∀ (s : S) (es : List E), Decidable (Guarded step ok s es)
  | _, [] => isTrue trivial
  | s, e :: es =>
    match h : step s e with
    | none => decidable_of_iff (ok s e) (by simp [Guarded, h])
    | some t =>
      have := decidableGuarded t es
      decidable_of_iff (ok s e ∧ Guarded step ok t es) (by simp [Guarded, h])

variable {s : S} {es : List E} {ok' : S → E → Prop}

@[simp] lemma run_nil : run step s [] = some s := rfl

lemma run_cons {s' : S} {e : E} :
    run step s (e :: es) = some s' ↔ ∃ t, step s e = some t ∧ run step t es = some s' := by
  simp only [run, Option.bind_eq_some_iff]

lemma run_append {s' : S} {es' : List E} :
    run step s (es ++ es') = some s' ↔ ∃ t, run step s es = some t ∧ run step t es' = some s' := by
  induction es generalizing s with
  | nil => simp
  | cons e es ih =>
    simp only [List.cons_append, run_cons, ih]
    constructor
    · rintro ⟨t, st, u, ru, ru'⟩
      exact ⟨u, ⟨t, st, ru⟩, ru'⟩
    · rintro ⟨u, ⟨t, st, ru⟩, ru'⟩
      exact ⟨t, st, u, ru, ru'⟩

lemma Guarded.last {t : S} {e : E} (gd : Guarded step ok s (es ++ [e]))
    (hr : run step s es = some t) : ok t e := by
  induction es generalizing s with
  | nil =>
    cases hr
    exact gd.1
  | cons e' es ih =>
    obtain ⟨u, st, hr⟩ := run_cons.mp hr
    exact ih (gd.2 u st) hr

lemma exists_of_test (step : S → E → Option S) (s : S) (es : List E) (test : S → Bool)
    (h : (run step s es).any test = true) : ∃ s', run step s es = some s' ∧ test s' = true := by
  cases hr : run step s es with
  | none => simp [hr] at h
  | some s' => exact ⟨s', rfl, by simpa [hr] using h⟩

lemma Guarded.imp (imp : ∀ {s e}, ok s e → ok' s e)
    (gd : Guarded step ok s es) : Guarded step ok' s es := by
  induction es generalizing s with
  | nil => trivial
  | cons e es ih => exact ⟨imp gd.1, fun t st => ih (gd.2 t st)⟩

/-- In a guarded run, two guards that agree wherever the first one leads are met alike. -/
lemma Guarded.iff_of {within : S → E → Prop} {P : S → Prop}
    (gd : Guarded step within s es) (same : ∀ {s e}, P s → within s e → (ok s e ↔ ok' s e))
    (pres : ∀ {s e s'}, P s → within s e → ok s e → step s e = some s' → P s') (inv : P s) :
    Guarded step ok s es ↔ Guarded step ok' s es := by
  induction es generalizing s with
  | nil => exact Iff.rfl
  | cons e es ih =>
    constructor
    · rintro ⟨here, later⟩
      refine ⟨(same inv gd.1).mp here, fun t st => ?_⟩
      exact (ih (gd.2 t st) (pres inv gd.1 here st)).mp (later t st)
    · rintro ⟨here, later⟩
      have here := (same inv gd.1).mpr here
      refine ⟨here, fun t st => ?_⟩
      exact (ih (gd.2 t st) (pres inv gd.1 here st)).mpr (later t st)

lemma guarded_true (s : S) (es : List E) : Guarded step (fun _ _ => True) s es := by
  induction es generalizing s with
  | nil => trivial
  | cons e es ih => exact ⟨trivial, fun t _ => ih t⟩

/-- Two guards that agree wherever the first one leads are met by the same runs. -/
lemma guarded_iff {P : S → Prop} (same : ∀ {s e}, P s → (ok s e ↔ ok' s e))
    (pres : ∀ {s e s'}, P s → ok s e → step s e = some s' → P s') (inv : P s) :
    Guarded step ok s es ↔ Guarded step ok' s es :=
  (guarded_true s es).iff_of (fun inv _ => same inv) (fun inv _ => pres inv) inv

/-- A guarded run preserves what each guarded step preserves. -/
theorem invariant_of_guarded {P : S → Prop} {s s' : S} {es : List E}
    (pres : ∀ {s e s'}, P s → ok s e → step s e = some s' → P s')
    (gd : Guarded step ok s es) (hr : run step s es = some s') (inv : P s) : P s' := by
  induction es generalizing s with
  | nil =>
    cases hr
    exact inv
  | cons e es ih =>
    obtain ⟨t, st, hr⟩ := run_cons.mp hr
    exact ih (gd.2 t st) hr (pres inv gd.1 st)

/-- A run preserves what each step preserves. -/
theorem invariant_of_run {P : S → Prop} {s s' : S} {es : List E}
    (pres : ∀ {s e s'}, P s → step s e = some s' → P s')
    (hr : run step s es = some s') (inv : P s) : P s' :=
  invariant_of_guarded (fun inv _ st => pres inv st) (guarded_true s es) hr inv

end Run
