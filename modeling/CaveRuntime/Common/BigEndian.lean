import Mathlib.Algebra.Ring.Nat
import Mathlib.Tactic.Common

/-!
# Big-endian numbers

A number in a fixed number of bytes, the most significant byte first, and the number that bytes stand for.
-/

namespace BigEndian

/-- The last `width` bytes of the number. -/
def encode : ℕ → ℕ → List UInt8
  | 0, _ => []
  | width + 1, n => UInt8.ofNat (n / 256 ^ width) :: encode width n

/-- The number that the bytes stand for. -/
def decode : List UInt8 → ℕ
  | [] => 0
  | b :: bs => 256 ^ bs.length * b.toNat + decode bs

@[simp] lemma length_encode (width n : ℕ) : (encode width n).length = width := by
  induction width with
  | zero => rfl
  | succ width ih => exact congrArg Nat.succ ih

lemma decode_encode_mod (width n : ℕ) : decode (encode width n) = n % 256 ^ width := by
  induction width with
  | zero => exact (Nat.mod_one n).symm
  | succ width ih =>
    have digit : (UInt8.ofNat (n / 256 ^ width)).toNat = n / 256 ^ width % 256 := UInt8.toNat_ofNat'
    rw [encode, decode, length_encode, ih, digit, Nat.mod_pow_succ, Nat.add_comm]

lemma decode_encode {width n : ℕ} (fits : n < 256 ^ width) : decode (encode width n) = n := by
  rw [decode_encode_mod, Nat.mod_eq_of_lt fits]

lemma decode_lt (bs : List UInt8) : decode bs < 256 ^ bs.length := by
  induction bs with
  | nil => exact Nat.one_pos
  | cons b bs ih =>
    have digit : b.toNat ≤ 255 := Nat.le_of_lt_succ b.toNat_lt
    calc decode (b :: bs) < 256 ^ bs.length * b.toNat + 256 ^ bs.length := Nat.add_lt_add_left ih _
      _ ≤ 256 ^ bs.length * 255 + 256 ^ bs.length :=
        Nat.add_le_add_right (Nat.mul_le_mul_left _ digit) _
      _ = 256 ^ (bs.length + 1) := by rw [Nat.pow_succ]; omega

end BigEndian
