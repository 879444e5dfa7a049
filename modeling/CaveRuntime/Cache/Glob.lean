import CaveRuntime.Common.Utf8
import Mathlib.Data.List.Forall2

/-!
# Glob patterns

Model of `glob_match` in `cave-cache/src/db.rs`, which decides `KEYS`, the pattern subscriptions and the key
patterns of the access lists. The loop keeps one place to go back to, the last star with the text it was met
at. It compares bytes before it looks for a star, so that a star that meets the byte `*` is used up by it and
is no star any more. `Matches` is the meaning of a pattern, and `Meets` says that the loop comes to a star of the
pattern at a star of the text. While it does not, no star is used up, and what the loop still has to decide (`Goal`)
does not change from round to round.
-/

namespace Cache
open Utf8

/-- The loop of `glob_match_inner`. The indices are given by what is left of the pattern and of the text;
`star` is the pattern after the last star, with the text at `star_si`. -/
def globLoop : Option (Bytes × Bytes) → Bytes → Bytes → Bool
  | _, pat, [] => (pat.dropWhile (· = 42)).isEmpty
  | star, p :: pat, c :: s =>
    if p = 63 ∨ p = c then globLoop star pat s
    else if p = 42 then globLoop (some (pat, c :: s)) pat (c :: s)
    else
      match star with
      | some (sp, _ :: ss) => globLoop (some (sp, ss)) sp ss
      | _ => false
  | some (sp, _ :: ss), [], _ :: _ => globLoop (some (sp, ss)) sp ss
  | _, [], _ :: _ => false
termination_by star pat s =>
  (star.elim (pat.length + 1) fun m => max m.1.length pat.length, star.elim 0 fun m => m.2.length, s.length)
decreasing_by
  · cases star <;> simp [Prod.lex_def]
    omega
  · cases star <;> simp [Prod.lex_def] <;> omega
  · simp [Prod.lex_def]; omega
  · simp [Prod.lex_def]

def globMatch (pattern text : Bytes) : Bool := globLoop none pattern text

/-- The text can be split as the pattern asks. -/
inductive Matches : Bytes → Bytes → Prop
  | nil : Matches [] []
  | star {pat s : Bytes} (u : Bytes) : Matches pat s → Matches (42 :: pat) (u ++ s)
  | question {pat s : Bytes} (c : UInt8) : Matches pat s → Matches (63 :: pat) (c :: s)
  | literal {pat s : Bytes} {p : UInt8} :
    p ≠ 42 →
    p ≠ 63 →
    Matches pat s →
    Matches (p :: pat) (p :: s)

/-! ## Splitting a match -/

/-- A byte of the pattern that is compared with a byte of the text. -/
def Fits (p c : UInt8) : Prop := p = 63 ∨ p = c

variable {s pat : Bytes} {c p : UInt8} {seg w : Bytes} {star : Option (Bytes × Bytes)}

lemma matches_nil_iff : Matches [] s ↔ s = [] := by
  constructor
  · intro m
    cases m
    rfl
  · rintro rfl
    exact .nil

lemma matches_star_cons :
    Matches (42 :: pat) (c :: s) ↔ Matches pat (c :: s) ∨ Matches (42 :: pat) s := by
  constructor
  · intro m
    generalize e : c :: s = t at m
    cases m with
    | @star _ s' u m =>
      cases u with
      | nil => exact .inl m
      | cons b u =>
        cases e
        exact .inr (.star u m)
    | literal star _ _ => exact absurd rfl star
  · rintro (m | m)
    · exact .star [] m
    · cases m with
      | star u m => exact .star (c :: u) m
      | literal star _ _ => exact absurd rfl star

lemma Matches.star_append (u : Bytes) (m : Matches (42 :: pat) s) :
    Matches (42 :: pat) (u ++ s) := by
  induction u with
  | nil => exact m
  | cons c u ih => exact matches_star_cons.mpr (.inr ih)

lemma matches_cons {t : Bytes} (star : p ≠ 42) :
    Matches (p :: pat) t ↔ ∃ c s, t = c :: s ∧ Fits p c ∧ Matches pat s := by
  constructor
  · intro m
    cases m with
    | star u m => exact absurd rfl star
    | question c m => exact ⟨c, _, rfl, .inl rfl, m⟩
    | literal _ _ m => exact ⟨p, _, rfl, .inr rfl, m⟩
  · rintro ⟨c, s, rfl, rfl | rfl, m⟩
    · exact .question c m
    · by_cases question : p = 63
      · subst question
        exact .question 63 m
      · exact .literal star question m

/-- A byte that fits matches also where both are stars, the star then standing for a star. -/
lemma Matches.cons_of_fits (fits : Fits p c) (m : Matches pat s) :
    Matches (p :: pat) (c :: s) := by
  by_cases star : p = 42
  · subst star
    exact .star [c] m
  · exact (matches_cons star).mpr ⟨c, s, rfl, fits, m⟩

lemma Matches.append_of_fits (fits : List.Forall₂ Fits seg w) (m : Matches pat s) :
    Matches (seg ++ pat) (w ++ s) := by
  induction fits with
  | nil => exact m
  | cons head _ ih => exact ih.cons_of_fits head

lemma Matches.split {t : Bytes} (star : 42 ∉ seg) (m : Matches (seg ++ pat) t) :
    ∃ w s, t = w ++ s ∧ w.length = seg.length ∧ Matches pat s := by
  induction seg generalizing t with
  | nil => exact ⟨[], t, rfl, rfl, m⟩
  | cons p seg ih =>
    obtain ⟨c, s, rfl, _, m⟩ := (matches_cons (fun e => star (e ▸ List.mem_cons_self))).mp m
    obtain ⟨w, s, rfl, length, m⟩ := ih (fun mem => star (List.mem_cons_of_mem p mem)) m
    exact ⟨c :: w, s, rfl, congrArg (· + 1) length, m⟩

lemma matches_empty_iff : Matches pat [] ↔ (pat.dropWhile (· = 42)).isEmpty := by
  induction pat with
  | nil => exact ⟨fun _ => rfl, fun _ => .nil⟩
  | cons p pat ih =>
    by_cases star : p = 42
    · subst star
      rw [List.dropWhile_cons_of_pos (by decide), ← ih]
      constructor
      · intro m
        generalize e : ([] : Bytes) = t at m
        cases m with
        | star u m =>
          obtain ⟨rfl, rfl⟩ := List.append_eq_nil_iff.mp e.symm
          exact m
        | literal star _ _ => exact absurd rfl star
      · exact fun m => .star [] m
    · rw [List.dropWhile_cons_of_neg (by simpa using star)]
      refine ⟨fun m => ?_, fun empty => by cases empty⟩
      obtain ⟨_, _, e, _⟩ := (matches_cons star).mp m
      cases e

/-! ## The loop -/

/-- What the loop still has to decide. -/
def Goal (star : Option (Bytes × Bytes)) (pat s : Bytes) : Prop :=
  match star with
  | none => Matches pat s
  | some (sp, ss) => Matches (42 :: sp) ss

/-- The pattern since the last star has been compared with the text since then, and its bytes are such as are
allowed. -/
def Compared (ok : UInt8 → Prop) (star : Option (Bytes × Bytes)) (pat s : Bytes) : Prop :=
  ∀ sp ss, star = some (sp, ss) →
    ∃ seg w, sp = seg ++ pat ∧ ss = w ++ s ∧ List.Forall₂ Fits seg w ∧ ∀ p ∈ seg, ok p

lemma Compared.push {ok : UInt8 → Prop}
    (done : Compared ok star (p :: pat) (c :: s)) (fits : Fits p c) (allowed : ok p) : Compared ok star pat s := by
  intro sp ss e
  obtain ⟨seg, w, rfl, rfl, all, each⟩ := done sp ss e
  refine ⟨seg ++ [p], w ++ [c], ?_, ?_, List.rel_append all (.cons fits .nil), ?_⟩
  · rw [List.append_assoc, List.singleton_append]
  · rw [List.append_assoc, List.singleton_append]
  · rw [List.forall_mem_append, List.forall_mem_singleton]
    exact ⟨each, allowed⟩

lemma compared_none (ok : UInt8 → Prop) (pat s : Bytes) : Compared ok none pat s := fun _ _ e => by cases e

lemma compared_some (ok : UInt8 → Prop) (pat s : Bytes) : Compared ok (some (pat, s)) pat s := by
  rintro sp ss e
  cases e
  exact ⟨[], [], rfl, rfl, .nil, nofun⟩

lemma Compared.goal {ok : UInt8 → Prop}
    (done : Compared ok star pat s) (m : Matches pat s) : Goal star pat s := by
  match star with
  | none => exact m
  | some (sp, ss) =>
    obtain ⟨seg, w, rfl, rfl, all, -⟩ := done sp ss rfl
    exact .star [] (m.append_of_fits all)

lemma goal_of_globLoop (done : Compared (fun _ => True) star pat s)
    (accepted : globLoop star pat s = true) : Goal star pat s := by
  fun_induction globLoop star pat s with
  | case1 star pat => exact done.goal (matches_empty_iff.mpr accepted)
  | case2 star p pat c s fits ih =>
    have rest := ih (done.push fits trivial) accepted
    cases star with
    | none => exact rest.cons_of_fits fits
    | some last => exact rest
  | case3 star pat c s _ ih => exact done.goal (ih (compared_some _ pat (c :: s)) accepted)
  | case4 p pat c s _ _ sp b ss ih => exact matches_star_cons.mpr (.inr (ih (compared_some _ sp ss) accepted))
  | case5 => cases accepted
  | case6 sp b ss _ _ ih => exact matches_star_cons.mpr (.inr (ih (compared_some _ sp ss) accepted))
  | case7 => cases accepted

/-- The loop comes to a star of the pattern at a byte `*` of the text. -/
inductive Meets : Option (Bytes × Bytes) → Bytes → Bytes → Prop
  | here {star : Option (Bytes × Bytes)} {pat s : Bytes} : Meets star (42 :: pat) (42 :: s)
  | fits {star : Option (Bytes × Bytes)} {pat s : Bytes} {p c : UInt8} :
    Fits p c →
    Meets star pat s →
    Meets star (p :: pat) (c :: s)
  | star {star : Option (Bytes × Bytes)} {pat s : Bytes} {c : UInt8} :
    c ≠ 42 →
    Meets (some (pat, c :: s)) pat (c :: s) →
    Meets star (42 :: pat) (c :: s)
  | back {pat s sp ss : Bytes} {p c b : UInt8} :
    ¬Fits p c →
    p ≠ 42 →
    Meets (some (sp, ss)) sp ss →
    Meets (some (sp, b :: ss)) (p :: pat) (c :: s)
  | rest {s sp ss : Bytes} {c b : UInt8} :
    Meets (some (sp, ss)) sp ss →
    Meets (some (sp, b :: ss)) [] (c :: s)

/-- Then both have a star. -/
lemma Meets.stars (meets : Meets star pat s) :
    (42 ∈ pat ∨ ∃ m ∈ star, 42 ∈ m.1) ∧ (42 ∈ s ∨ ∃ m ∈ star, 42 ∈ m.2) := by
  induction meets with
  | here => simp
  | fits _ _ ih => exact ih.imp (Or.imp_left (List.mem_cons_of_mem _)) (Or.imp_left (List.mem_cons_of_mem _))
  | star _ _ ih => exact ⟨.inl List.mem_cons_self, .inl (by simpa using ih.2)⟩
  | back _ _ _ ih => simp_all
  | rest _ ih => simp_all

lemma Meets.of_fits (fits : Fits p c) (is : p = 42) :
    Meets star (p :: pat) (c :: s) := by
  subst is
  rcases fits with e | rfl
  · cases e
  · exact .here

lemma matches_append_iff (fits : List.Forall₂ Fits seg w) (star : 42 ∉ seg) :
    Matches (seg ++ pat) (w ++ s) ↔ Matches pat s := by
  refine ⟨fun m => ?_, fun m => m.append_of_fits fits⟩
  obtain ⟨w', s', e, length, m⟩ := m.split star
  obtain ⟨-, rfl⟩ := List.append_inj e (fits.length_eq.symm.trans length.symm)
  exact m

/-- At a second star the first is no longer needed: the second can take what the first would have. -/
lemma matches_second_star (fits : List.Forall₂ Fits seg w) (star : 42 ∉ seg) :
    Matches (42 :: (seg ++ 42 :: pat)) (w ++ s) ↔ Matches (42 :: pat) s := by
  refine ⟨fun m => ?_, fun m => .star [] (m.append_of_fits fits)⟩
  generalize e : w ++ s = t at m
  cases m with
  | star u m =>
    obtain ⟨w', s', rfl, length, m⟩ := m.split star
    -- what is left after the first star and the piece is an end of `s`
    have long : s = (u ++ w' ++ s').drop w.length := by
      rw [List.append_assoc, ← e, List.drop_left]
    have short : w.length ≤ (u ++ w').length := by
      rw [List.length_append, length, fits.length_eq]
      exact Nat.le_add_left _ _
    rw [long, List.drop_append_of_le_length short]
    exact m.star_append _
  | literal star _ _ => exact absurd rfl star

/-- The star takes one byte more, as nothing matches where the comparison broke off. -/
lemma Compared.back {sp ss : Bytes} {b : UInt8} (done : Compared (· ≠ 42) (some (sp, b :: ss)) pat s)
    (broken : ¬Matches pat s) : Matches (42 :: sp) (b :: ss) ↔ Matches (42 :: sp) ss := by
  obtain ⟨seg, w, rfl, e, fits, star⟩ := done sp (b :: ss) rfl
  have none : ¬Matches (seg ++ pat) (b :: ss) := by
    rw [e, matches_append_iff fits fun mem => star 42 mem rfl]
    exact broken
  exact matches_star_cons.trans ⟨fun m => m.resolve_left none, .inr⟩

/-- By the measure of the loop: each branch leaves a goal that means the same. -/
lemma globLoop_iff (done : Compared (· ≠ 42) star pat s)
    (free : ¬Meets star pat s) : globLoop star pat s = true ↔ Goal star pat s := by
  refine ⟨goal_of_globLoop ?_, fun goal => ?_⟩
  · intro sp ss e
    obtain ⟨seg, w, pat', text, fits, -⟩ := done sp ss e
    exact ⟨seg, w, pat', text, fits, fun _ _ => trivial⟩
  fun_induction globLoop star pat s with
  | case1 star pat =>
    rw [← matches_empty_iff]
    match star with
    | none => exact goal
    | some (sp, ss) =>
      obtain ⟨seg, w, rfl, rfl, fits, star⟩ := done sp ss rfl
      generalize e : w ++ [] = t at goal
      cases goal with
      | star u m =>
        obtain ⟨w', s', rfl, length, m⟩ := m.split fun mem => star 42 mem rfl
        have lengths := congrArg List.length e
        simp only [List.length_append, List.length_nil, length, fits.length_eq] at lengths
        rw [List.eq_nil_of_length_eq_zero (l := s') (by omega)] at m
        exact m
      | literal star _ _ => exact absurd rfl star
  | case2 star p pat c s fits ih =>
    have here : p ≠ 42 := fun is => free (.of_fits fits is)
    refine ih (done.push fits here) (fun meets => free (.fits fits meets)) ?_
    cases star with
    | none =>
      obtain ⟨_, _, e, _, m⟩ := (matches_cons here).mp goal
      cases e
      exact m
    | some last => exact goal
  | case3 star pat c s fits ih =>
    have other : c ≠ 42 := fun is => fits (.inr is.symm)
    refine ih (compared_some _ pat (c :: s)) (fun meets => free (.star other meets)) ?_
    match star with
    | none => exact goal
    | some (sp, ss) =>
      obtain ⟨seg, w, rfl, rfl, fits, star⟩ := done sp ss rfl
      exact (matches_second_star fits fun mem => star 42 mem rfl).mp goal
  | case4 p pat c s fits star sp b ss ih =>
    refine ih (compared_some _ sp ss) (fun meets => free (.back fits star meets)) ((done.back ?_).mp goal)
    intro m
    obtain ⟨_, _, e, fits', _⟩ := (matches_cons star).mp m
    cases e
    exact fits fits'
  | case5 star p pat c s fits star' last =>
    match star with
    | none =>
      obtain ⟨_, _, e, fits', _⟩ := (matches_cons star').mp goal
      cases e
      exact absurd fits' fits
    | some (sp, []) =>
      obtain ⟨_, _, _, e, _⟩ := done sp [] rfl
      cases (List.append_eq_nil_iff.mp e.symm).2
    | some (sp, b :: ss) => exact (last sp b ss rfl).elim
  | case6 sp b ss c s ih =>
    refine ih (compared_some _ sp ss) (fun meets => free (.rest meets)) ((done.back ?_).mp goal)
    exact fun m => List.cons_ne_nil _ _ (matches_nil_iff.mp m)
  | case7 star c s last =>
    match star with
    | none => cases matches_nil_iff.mp goal
    | some (sp, []) =>
      obtain ⟨_, _, _, e, _⟩ := done sp [] rfl
      cases (List.append_eq_nil_iff.mp e.symm).2
    | some (sp, b :: ss) => exact (last sp b ss rfl).elim

/-! ## Texts with a star -/

lemma forall₂_fits_self (q : Bytes) : List.Forall₂ Fits q q := List.forall₂_same.mpr fun _ _ => .inr rfl

lemma Matches.questions (s : Bytes) : Matches (List.replicate s.length 63) s := by
  induction s with
  | nil => exact .nil
  | cons c s ih => exact .question c ih

lemma globLoop_cons (fits : Fits p c) :
    globLoop none (p :: pat) (c :: s) = globLoop none pat s := by
  rw [globLoop, if_pos (show p = 63 ∨ p = c from fits)]
  intro _ _ _ e
  cases e

lemma globLoop_append (q pat s : Bytes) : globLoop none (q ++ pat) (q ++ s) = globLoop none pat s := by
  induction q with
  | nil => rfl
  | cons c q ih => exact (globLoop_cons (.inr rfl)).trans ih

/-- Without a star to go back to, the text has to have the length of the pattern. -/
lemma length_of_globLoop (star : 42 ∉ pat) (accepted : globLoop none pat s = true) :
    s.length = pat.length := by
  have m : Matches (pat ++ []) s := by
    rw [List.append_nil]
    exact goal_of_globLoop (compared_none _ _ _) accepted
  obtain ⟨w, s', rfl, length, m⟩ := m.split star
  rw [matches_nil_iff.mp m, List.append_nil, length]

/-- The last star of a pattern meets a star, and what comes next has one byte too many. -/
lemma exists_refused_text {pattern : Bytes} (star : 42 ∈ pattern) :
    ∃ text, Matches pattern text ∧ globMatch pattern text = false := by
  obtain ⟨r, q, e, free⟩ := List.eq_append_cons_of_mem (List.mem_reverse.mpr star)
  obtain rfl : pattern = q.reverse ++ 42 :: r.reverse := by
    rw [← List.reverse_reverse pattern, e, List.reverse_append, List.reverse_cons, List.append_assoc,
      List.singleton_append]
  refine ⟨q.reverse ++ 42 :: 42 :: r.reverse, ?_, ?_⟩
  · refine Matches.append_of_fits (forall₂_fits_self _) (.star [42, 42] ?_)
    have m := Matches.nil.append_of_fits (forall₂_fits_self r.reverse)
    rwa [List.append_nil] at m
  · rw [globMatch, globLoop_append, globLoop_cons (.inr rfl), Bool.eq_false_iff]
    intro accepted
    have length := length_of_globLoop (fun mem => free (List.mem_reverse.mp mem)) accepted
    rw [List.length_cons] at length
    omega

lemma exists_refused_pattern {text : Bytes} (star : 42 ∈ text) :
    ∃ pattern, Matches pattern text ∧ globMatch pattern text = false := by
  obtain ⟨u, v, rfl⟩ := List.append_of_mem star
  refine ⟨u ++ 42 :: List.replicate (42 :: v).length 63, ?_, ?_⟩
  · exact Matches.append_of_fits (forall₂_fits_self u) (.star [] (.questions (42 :: v)))
  · rw [globMatch, globLoop_append, globLoop_cons (.inr rfl), Bool.eq_false_iff]
    intro accepted
    have length := length_of_globLoop (fun mem => by cases List.eq_of_mem_replicate mem) accepted
    rw [List.length_replicate, List.length_cons] at length
    omega

/-! ## The matcher and its meaning -/

/-- What is accepted matches, and where no star of the pattern meets a star of the text on the walk, what matches is
accepted. All that matches a pattern is accepted exactly if the pattern has no star, and all patterns a text matches
accept it exactly if the text has no byte `*`. -/
theorem globMatch_correct_iff (pattern text : Bytes) :
    (globMatch pattern text = true → Matches pattern text) ∧
      (¬Meets none pattern text → (globMatch pattern text = true ↔ Matches pattern text)) ∧
      ((∀ text, globMatch pattern text = true ↔ Matches pattern text) ↔ 42 ∉ pattern) ∧
      ((∀ pattern, globMatch pattern text = true ↔ Matches pattern text) ↔ 42 ∉ text) := by
  have walk {pat s : Bytes} (free : ¬Meets none pat s) : globMatch pat s = true ↔ Matches pat s :=
    globLoop_iff (compared_none _ pat s) free
  refine ⟨goal_of_globLoop (compared_none _ pattern text), walk, ⟨fun agrees star => ?_, fun free text => ?_⟩,
    ⟨fun agrees star => ?_, fun free pattern => ?_⟩⟩
  · obtain ⟨text, m, refused⟩ := exists_refused_text star
    exact Bool.false_ne_true (refused.symm.trans ((agrees text).mpr m))
  · exact walk fun meets => free (by simpa using meets.stars.1)
  · obtain ⟨pattern, m, refused⟩ := exists_refused_pattern star
    exact Bool.false_ne_true (refused.symm.trans ((agrees pattern).mpr m))
  · exact walk fun meets => free (by simpa using meets.stars.2)

/-- The star of `a*` does not meet the star of `ab*`: it is met at the `b` and takes the rest. -/
theorem globMatch_correct_on_walk :
    globMatch [97, 42] [97, 98, 42] = true ∧
      (globMatch [97, 42] [97, 98, 42] = true ↔ Matches [97, 42] [97, 98, 42]) := by
  have agrees := (globMatch_correct_iff [97, 42] [97, 98, 42]).2.1 (by
    intro meets
    cases meets with
    | fits _ meets =>
      cases meets with
      | fits fits _ => exact absurd fits (by unfold Fits; decide)
      | star _ meets =>
        cases meets with
        | rest meets =>
          cases meets with
          | rest meets => cases meets)
  exact ⟨agrees.mpr (.literal (by decide) (by decide) (.star [98, 42] .nil)), agrees⟩

/-- The pattern `*` refuses the text `*x`. -/
theorem globMatch_star_refused :
    ¬(globMatch [42] [42, 120] = true ↔ Matches [42] [42, 120]) := by
  intro agrees
  have accepted := agrees.mpr (.star [42, 120] .nil)
  simp [globMatch, globLoop] at accepted

end Cache
