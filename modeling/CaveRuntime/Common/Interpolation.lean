import Mathlib.LinearAlgebra.Lagrange

/-!
# The constant coefficient from enough values

A polynomial of degree less than `n` is determined by its values at `n` points, and its value at zero is
a sum over these points, which a program can compute without the polynomial.
-/

namespace Interpolation
open Polynomial

variable {F : Type*} [Field F]

/-- The polynomial with the given coefficients, the constant one first. -/
noncomputable def ofCoeffs (cs : List F) : F[X] := cs.foldr (fun c p => C c + X * p) 0

lemma eval_ofCoeffs (cs : List F) (x : F) : (ofCoeffs cs).eval x = cs.foldr (fun c y => c + x * y) 0 := by
  induction cs with
  | nil => exact eval_zero
  | cons c cs ih =>
    rw [List.foldr_cons, ← ih]
    simp only [ofCoeffs, List.foldr_cons, eval_add, eval_C, eval_mul, eval_X]

lemma degree_ofCoeffs_lt (cs : List F) : (ofCoeffs cs).degree < cs.length := by
  rw [degree_lt_iff_coeff_zero]
  induction cs with
  | nil => exact fun _ _ => coeff_zero _
  | cons c cs ih =>
    intro m long
    cases m with
    | zero => cases long
    | succ m =>
      have rest := ih m (Nat.le_of_succ_le_succ long)
      simpa [ofCoeffs, coeff_C] using rest

lemma eval_zipWith {cs ds : List F} (len : cs.length = ds.length) (x : F) :
    (ofCoeffs (List.zipWith (· + ·) cs ds)).eval x = (ofCoeffs cs).eval x + (ofCoeffs ds).eval x := by
  simp only [eval_ofCoeffs]
  induction cs generalizing ds with
  | nil =>
    rw [List.length_nil, eq_comm, List.length_eq_zero_iff] at len
    simp [len]
  | cons c cs ih =>
    cases ds with
    | nil => cases len
    | cons d ds =>
      simp only [List.zipWith_cons_cons, List.foldr_cons, ih (Nat.succ.inj len)]
      ring

lemma coeff_ofCoeffs (cs : List F) (i : ℕ) : (ofCoeffs cs).coeff i = cs.getD i 0 := by
  induction cs generalizing i with
  | nil => rfl
  | cons c cs ih =>
    cases i with
    | zero => simp [ofCoeffs]
    | succ i => simpa [ofCoeffs, coeff_C] using ih i

/-- Some polynomial has a given constant coefficient and vanishes at the given points other than zero. -/
lemma exists_vanishing {xs : Finset F} (zero : 0 ∉ xs) (a : F) :
    ∃ cs : List F, cs.length = xs.card ∧ ∀ x ∈ xs, (ofCoeffs (a :: cs)).eval x = 0 := by
  classical
  let value : F → F := fun x => if x = 0 then a else 0
  let f := Lagrange.interpolate (insert 0 xs) id value
  have node {x : F} (mem : x ∈ insert 0 xs) : f.eval x = value x :=
    Lagrange.eval_interpolate_at_node value Function.injective_id.injOn mem
  have degree : f.degree < (xs.card + 1 : ℕ) := by
    rw [← Finset.card_insert_of_notMem zero]
    exact Lagrange.degree_interpolate_lt value Function.injective_id.injOn
  let cs := (List.range xs.card).map fun i => f.coeff (i + 1)
  have same : ofCoeffs (a :: cs) = f := by
    ext i
    rw [coeff_ofCoeffs]
    cases i with
    | zero =>
      rw [coeff_zero_eq_eval_zero, node (Finset.mem_insert_self 0 xs)]
      exact (if_pos rfl).symm
    | succ i =>
      by_cases short : i < xs.card
      · simp [cs, short]
      · rw [coeff_eq_zero_of_degree_lt (degree.trans_le (by exact_mod_cast by omega))]
        simp [cs, Nat.not_lt.mp short]
  refine ⟨cs, by simp [cs], fun x mem => ?_⟩
  rw [same, node (Finset.mem_insert_of_mem mem)]
  exact if_neg (ne_of_mem_of_not_mem mem zero)

/-- The value at zero from the values at enough different points. -/
theorem sum_eq_eval_zero {ι : Type*} [DecidableEq ι] {s : Finset ι} {v : ι → F}
    (different : Set.InjOn v s) {f : F[X]} (enough : f.degree < s.card) :
    ∑ i ∈ s, f.eval (v i) * ∏ j ∈ s.erase i, -v j / (v i - v j) = f.eval 0 := by
  conv_rhs => rw [Lagrange.eq_interpolate different enough]
  rw [Lagrange.interpolate_apply, eval_finsetSum]
  refine Finset.sum_congr rfl fun i _ => ?_
  rw [eval_mul, eval_C, Lagrange.basis, eval_prod]
  congr 1
  refine Finset.prod_congr rfl fun j _ => ?_
  rw [Lagrange.basisDivisor, eval_mul, eval_C, eval_sub, eval_X, eval_C, zero_sub, div_eq_inv_mul]

end Interpolation
