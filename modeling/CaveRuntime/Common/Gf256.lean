import Mathlib.Algebra.CharP.Lemmas
import Mathlib.Algebra.CharP.Two
import Mathlib.Data.UInt
import Mathlib.Tactic.Ring

/-!
# The field of 256 elements

Bytes stand for polynomials over the field of two elements. `mul` multiplies them modulo
`x⁸ + x⁴ + x³ + x + 1` by shifting and adding. It is linear in both factors, so that its laws are checked
on the powers of `x`. `Gf256` is the field that it makes of the bytes, with the exclusive or as its sum.
-/

namespace ShiftAdd

/-- A byte, if the bit of the mask is set. -/
def select (mask a x : UInt8) : UInt8 := if a &&& mask ≠ 0 then x else 0

/-- The product with `x`. -/
def double (a : UInt8) : UInt8 := a <<< 1 ^^^ select 0x80 a 0x1b

/-- The rounds of the multiplication: add the multiplicand if the last bit of the multiplier is set, then
shift both. -/
def loop : ℕ → UInt8 → UInt8 → UInt8 → UInt8
  | 0, _, _, sum => sum
  | n + 1, a, b, sum => loop n (double a) (b >>> 1) (sum ^^^ select 1 b a)

/-- The product. -/
def mul (a b : UInt8) : UInt8 := loop 8 a b 0

/-- The powers of `x`. -/
def powers : List UInt8 := [0x01, 0x02, 0x04, 0x08, 0x10, 0x20, 0x40, 0x80]

/-! ## Linear maps -/

lemma xor_xor_xor_comm (a b c d : UInt8) : a ^^^ b ^^^ (c ^^^ d) = a ^^^ c ^^^ (b ^^^ d) := by
  rw [UInt8.xor_assoc, UInt8.xor_assoc, ← UInt8.xor_assoc b, UInt8.xor_comm b, UInt8.xor_assoc c]

lemma xor_and (a b mask : UInt8) : (a ^^^ b) &&& mask = (a &&& mask) ^^^ (b &&& mask) := by
  apply UInt8.toBitVec_inj.mp
  ext i
  simp [Bool.and_xor_distrib_right]

lemma forall_powers {P : UInt8 → Prop} [DecidablePred P]
    (h : (powers.all fun p => decide (P p)) = true) : ∀ p ∈ powers, P p :=
  fun p hp => of_decide_eq_true (List.all_eq_true.mp h p hp)

lemma and_power {p : UInt8} (hp : p ∈ powers) (a : UInt8) : a &&& p = 0 ∨ a &&& p = p := by
  have power : ∀ p ∈ powers, ∃ i < 8, p.toBitVec = BitVec.twoPow 8 i := forall_powers (by decide)
  obtain ⟨i, -, eq⟩ := power p hp
  have bit := BitVec.and_twoPow a.toBitVec i
  rw [← eq] at bit
  split at bit
  · exact .inr (UInt8.toBitVec_inj.mp bit)
  · exact .inl (UInt8.toBitVec_inj.mp bit)

lemma sum_of_bits (a : UInt8) : (powers.map (· &&& a)).foldr (· ^^^ ·) 0 = a := by
  have sum : ∀ l : List UInt8, (l.map (· &&& a)).foldr (· ^^^ ·) 0 = l.foldr (· ^^^ ·) 0 &&& a := by
    intro l
    induction l with
    | nil => exact UInt8.zero_and.symm
    | cons p l ih => rw [List.map_cons, List.foldr_cons, List.foldr_cons, xor_and, ih]
  rw [sum]
  exact (UInt8.and_comm _ _).trans UInt8.and_neg_one

lemma eq_of_powers {f g : UInt8 → UInt8} (hf : ∀ a b, f (a ^^^ b) = f a ^^^ f b)
    (hg : ∀ a b, g (a ^^^ b) = g a ^^^ g b) (agree : ∀ p ∈ powers, f p = g p) (a : UInt8) : f a = g a := by
  have zero {f : UInt8 → UInt8} (hf : ∀ a b, f (a ^^^ b) = f a ^^^ f b) : f 0 = 0 := by
    have h := hf 0 0
    rw [UInt8.xor_self, UInt8.xor_self] at h
    exact h
  have sum : ∀ l : List UInt8, (∀ b ∈ l, f b = g b) → f (l.foldr (· ^^^ ·) 0) = g (l.foldr (· ^^^ ·) 0) := by
    intro l
    induction l with
    | nil => exact fun _ => (zero hf).trans (zero hg).symm
    | cons b l ih =>
      intro agree
      rw [List.foldr_cons, hf, hg, agree b List.mem_cons_self,
        ih fun c hc => agree c (List.mem_cons_of_mem _ hc)]
  rw [← sum_of_bits a]
  refine sum _ fun b hb => ?_
  obtain ⟨p, hp, rfl⟩ := List.mem_map.mp hb
  rw [UInt8.and_comm]
  cases and_power hp a with
  | inl clear => rw [clear, zero hf, zero hg]
  | inr set => rw [set, agree p hp]

/-! ## The multiplication is linear -/

section Linear

variable {mask : UInt8}

lemma select_xor (a x y : UInt8) : select mask a (x ^^^ y) = select mask a x ^^^ select mask a y := by
  unfold select
  split
  · rfl
  · rfl

lemma select_xor_left (bit : mask ∈ powers) (a b x : UInt8) :
    select mask (a ^^^ b) x = select mask a x ^^^ select mask b x := by
  unfold select
  rw [xor_and]
  cases and_power bit a with
  | inl ha => rw [ha, UInt8.zero_xor, if_neg (not_not.mpr rfl), UInt8.zero_xor]
  | inr ha =>
    cases and_power bit b with
    | inl hb => rw [hb, UInt8.xor_zero, if_neg (not_not.mpr rfl), UInt8.xor_zero]
    | inr hb => rw [ha, hb, UInt8.xor_self, UInt8.xor_self, if_neg (not_not.mpr rfl)]

lemma double_xor (a b : UInt8) : double (a ^^^ b) = double a ^^^ double b := by
  unfold double
  rw [UInt8.shiftLeft_xor, select_xor_left (by decide)]
  exact xor_xor_xor_comm _ _ _ _

lemma loop_xor_left (n : ℕ) (a a' b sum sum' : UInt8) :
    loop n (a ^^^ a') b (sum ^^^ sum') = loop n a b sum ^^^ loop n a' b sum' := by
  induction n generalizing a a' b sum sum' with
  | zero => rfl
  | succ n ih =>
    unfold loop
    rw [double_xor, select_xor, xor_xor_xor_comm]
    exact ih _ _ _ _ _

lemma loop_xor_right (n : ℕ) (a b b' sum sum' : UInt8) :
    loop n a (b ^^^ b') (sum ^^^ sum') = loop n a b sum ^^^ loop n a b' sum' := by
  induction n generalizing a b b' sum sum' with
  | zero => rfl
  | succ n ih =>
    unfold loop
    rw [UInt8.shiftRight_xor, select_xor_left (by decide), xor_xor_xor_comm]
    exact ih _ _ _ _ _

lemma mul_xor_left (a a' b : UInt8) : mul (a ^^^ a') b = mul a b ^^^ mul a' b :=
  loop_xor_left 8 a a' b 0 0

lemma mul_xor_right (a b b' : UInt8) : mul a (b ^^^ b') = mul a b ^^^ mul a b' :=
  loop_xor_right 8 a b b' 0 0

end Linear

lemma double_select (mask a x : UInt8) : double (select mask a x) = select mask a (double x) := by
  unfold select
  split
  · rfl
  · rfl

lemma loop_double (n : ℕ) (a b sum : UInt8) : loop n (double a) b (double sum) = double (loop n a b sum) := by
  induction n generalizing a b sum with
  | zero => rfl
  | succ n ih =>
    unfold loop
    rw [← double_select, ← double_xor]
    exact ih _ _ _

/-! ## The laws -/

lemma mul_comm (a b : UInt8) : mul a b = mul b a := by
  have basis : ∀ p ∈ powers, ∀ q ∈ powers, mul p q = mul q p := by decide +kernel
  refine eq_of_powers (f := fun a => mul a b) (g := mul b) (fun a a' => mul_xor_left a a' b)
    (mul_xor_right b) (fun p hp => ?_) a
  refine eq_of_powers (f := mul p) (g := fun b => mul b p) (mul_xor_right p)
    (fun b b' => mul_xor_left b b' p) (fun q hq => ?_) b
  exact basis p hp q hq

lemma mul_one (a : UInt8) : mul a 1 = a := by
  have basis : ∀ p ∈ powers, mul p 1 = p := forall_powers (by decide)
  exact eq_of_powers (f := fun a => mul a 1) (g := id) (fun a a' => mul_xor_left a a' 1)
    (fun _ _ => rfl) basis a

lemma mul_zero (a : UInt8) : mul a 0 = 0 := by
  have h := mul_xor_right a 0 0
  rw [UInt8.xor_self, UInt8.xor_self] at h
  exact h

lemma mul_double (a b : UInt8) : mul a (double b) = double (mul a b) := by
  rw [mul_comm, mul_comm a]
  exact loop_double 8 b a 0

lemma mul_assoc (a b c : UInt8) : mul (mul a b) c = mul a (mul b c) := by
  refine eq_of_powers (f := mul (mul a b)) (g := fun c => mul a (mul b c)) (mul_xor_right _)
    (fun c c' => ?_) (fun p hp => ?_) c
  · rw [mul_xor_right, mul_xor_right]
  -- a power of `x` is one, doubled so many times
  have power : ∀ p ∈ powers, ∃ k < 8, double^[k] 1 = p := forall_powers (by decide)
  obtain ⟨k, -, rfl⟩ := power p hp
  clear hp
  induction k with
  | zero => rw [Function.iterate_zero_apply, mul_one, mul_one]
  | succ k ih =>
    rw [Function.iterate_succ_apply', mul_double, mul_double, mul_double]
    exact congrArg double ih

end ShiftAdd

/-- The field of 256 elements. -/
@[ext] structure Gf256 where
  byte : UInt8
deriving DecidableEq

namespace Gf256

instance : Zero Gf256 := ⟨⟨0⟩⟩
instance : One Gf256 := ⟨⟨1⟩⟩
instance : Add Gf256 := ⟨fun a b => ⟨a.byte ^^^ b.byte⟩⟩
instance : Neg Gf256 := ⟨id⟩
instance : Mul Gf256 := ⟨fun a b => ⟨ShiftAdd.mul a.byte b.byte⟩⟩

instance : CommRing Gf256 where
  add_assoc _ _ _ := Gf256.ext (UInt8.xor_assoc _ _ _)
  zero_add _ := Gf256.ext UInt8.zero_xor
  add_zero _ := Gf256.ext UInt8.xor_zero
  add_comm _ _ := Gf256.ext (UInt8.xor_comm _ _)
  neg_add_cancel _ := Gf256.ext UInt8.xor_self
  mul_assoc _ _ _ := Gf256.ext (ShiftAdd.mul_assoc _ _ _)
  mul_comm _ _ := Gf256.ext (ShiftAdd.mul_comm _ _)
  mul_one _ := Gf256.ext (ShiftAdd.mul_one _)
  one_mul _ := Gf256.ext ((ShiftAdd.mul_comm _ _).trans (ShiftAdd.mul_one _))
  left_distrib _ _ _ := Gf256.ext (ShiftAdd.mul_xor_right _ _ _)
  right_distrib _ _ _ := Gf256.ext (ShiftAdd.mul_xor_left _ _ _)
  zero_mul _ := Gf256.ext ((ShiftAdd.mul_comm _ _).trans (ShiftAdd.mul_zero _))
  mul_zero _ := Gf256.ext (ShiftAdd.mul_zero _)
  nsmul := nsmulRec
  zsmul := zsmulRec

lemma add_self (a : Gf256) : a + a = 0 := Gf256.ext UInt8.xor_self

instance : CharP Gf256 2 :=
  CharTwo.of_one_ne_zero_of_two_eq_zero (by decide) (one_add_one_eq_two.symm.trans (add_self 1))

lemma byte_pow_two_pow (a : Gf256) (n : ℕ) :
    (a ^ 2 ^ n).byte = (fun b => ShiftAdd.mul b b)^[n] a.byte := by
  induction n with
  | zero => rw [pow_zero, pow_one, Function.iterate_zero_apply]
  | succ n ih =>
    rw [pow_succ, pow_mul, sq, Function.iterate_succ_apply', ← ih]
    rfl

lemma pow_card (a : Gf256) : a ^ 256 = a := by
  have linear (b c : UInt8) : ((⟨b ^^^ c⟩ : Gf256) ^ 2 ^ 8).byte =
      ((⟨b⟩ : Gf256) ^ 2 ^ 8).byte ^^^ ((⟨c⟩ : Gf256) ^ 2 ^ 8).byte :=
    congrArg byte (add_pow_char_pow (⟨b⟩ : Gf256) ⟨c⟩ 2 8)
  have squares : ∀ p ∈ ShiftAdd.powers, (fun b => ShiftAdd.mul b b)^[8] p = p := by decide +kernel
  have basis : ∀ p ∈ ShiftAdd.powers, ((⟨p⟩ : Gf256) ^ 2 ^ 8).byte = p := by
    intro p hp
    rw [byte_pow_two_pow]
    exact squares p hp
  exact Gf256.ext (ShiftAdd.eq_of_powers (g := id) linear (fun _ _ => rfl) basis a.byte)

lemma eq_zero_or_one (a : Gf256) (idem : a * a = a) : a = 0 ∨ a = 1 := by
  have bytes : ∀ n : Fin 256, ShiftAdd.mul (UInt8.ofFin n) (UInt8.ofFin n) = UInt8.ofFin n →
      UInt8.ofFin n = 0 ∨ UInt8.ofFin n = 1 := by decide +kernel
  exact (bytes a.byte.toFin (congrArg byte idem)).imp Gf256.ext Gf256.ext

instance : Field Gf256 where
  inv a := a ^ 254
  exists_pair_ne := ⟨0, 1, by decide⟩
  mul_inv_cancel a ne := by
    show a * a ^ 254 = 1
    have idem : a * a ^ 254 * (a * a ^ 254) = a * a ^ 254 := by
      calc
        a * a ^ 254 * (a * a ^ 254) = a ^ 256 * a ^ 254 := by ring
        _ = a * a ^ 254 := by rw [pow_card]
    cases eq_zero_or_one _ idem with
    | inl zero =>
      refine absurd ?_ ne
      calc
        a = a ^ 256 := (pow_card a).symm
        _ = a * a ^ 254 * a := by ring
        _ = 0 := by rw [zero, zero_mul]
    | inr one => exact one
  inv_zero := zero_pow (by decide)
  nnqsmul := _
  nnqsmul_def _ _ := rfl
  qsmul := _
  qsmul_def _ _ := rfl

end Gf256
