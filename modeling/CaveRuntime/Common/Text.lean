import CaveRuntime.Common.Utf8
import Mathlib.Algebra.Ring.Nat

/-!
# Words and numbers in text

What Rust's `str` does with ASCII words, white space and decimal numbers, on the bytes of the text.
-/

namespace Text
open Utf8

/-- The bytes of an ASCII literal. -/
def word (s : String) : Bytes := s.toList.map fun c => UInt8.ofNat c.toNat

/-- The bytes of a string. -/
def utf8 (s : String) : Bytes := s.toUTF8.data.toList

/-- `to_ascii_uppercase`. -/
def upper (b : Bytes) : Bytes := b.map fun c => if 97 ≤ c && c ≤ 122 then c - 32 else c

/-- The text is a keyword, in any case. -/
def isWord (s : String) (arg : Bytes) : Bool := upper arg = word s

/-- The encodings of the characters `str::trim` removes. -/
def spaces : List Bytes :=
  [[9], [10], [11], [12], [13], [32], [0xC2, 0x85], [0xC2, 0xA0], [0xE1, 0x9A, 0x80], [0xE2, 0x80, 0x80],
    [0xE2, 0x80, 0x81], [0xE2, 0x80, 0x82], [0xE2, 0x80, 0x83], [0xE2, 0x80, 0x84], [0xE2, 0x80, 0x85],
    [0xE2, 0x80, 0x86], [0xE2, 0x80, 0x87], [0xE2, 0x80, 0x88], [0xE2, 0x80, 0x89], [0xE2, 0x80, 0x8A],
    [0xE2, 0x80, 0xA8], [0xE2, 0x80, 0xA9], [0xE2, 0x80, 0xAF], [0xE2, 0x81, 0x9F], [0xE3, 0x80, 0x80]]

/-- Drop leading pieces; the number of bytes is fuel enough. -/
def dropPieces (pieces : List Bytes) : ℕ → Bytes → Bytes
  | 0, b => b
  | fuel + 1, b =>
    match pieces.find? (·.isPrefixOf b) with
    | some p => dropPieces pieces fuel (b.drop p.length)
    | none => b

def trim (b : Bytes) : Bytes :=
  let b := dropPieces spaces b.length b
  (dropPieces (spaces.map List.reverse) b.length b.reverse).reverse

/-- A number written in digits. -/
def parseDigits (b : Bytes) : Option ℕ :=
  if b ≠ [] ∧ b.all (fun c => 48 ≤ c && c ≤ 57) then some (b.foldl (fun n c => 10 * n + (c.toNat - 48)) 0)
  else none

/-- `str::parse::<u64>`. -/
def parseU64 (b : Bytes) : Option ℕ :=
  (parseDigits (match b with | 43 :: b => b | b => b)).filter (· < 2 ^ 64)

/-- `str::parse::<i64>`. -/
def parseI64 : Bytes → Option ℤ
  | 45 :: b => (parseDigits b).bind fun n => if n ≤ 2 ^ 63 then some (-n) else none
  | 43 :: b => (parseDigits b).bind fun n => if n < 2 ^ 63 then some n else none
  | b => (parseDigits b).bind fun n => if n < 2 ^ 63 then some n else none

/-! ## Numbers in decimal -/

/-- `to_string` of an unsigned number. -/
def decimal (n : ℕ) : Bytes := (Nat.toDigits 10 n).map fun c => UInt8.ofNat c.toNat

/-- `to_string` of a signed number. -/
def decimalInt (n : ℤ) : Bytes := if n < 0 then 45 :: decimal n.natAbs else decimal n.natAbs

lemma isDigit_bounds {c : Char} (digit : c.isDigit) : 48 ≤ c.toNat ∧ c.toNat ≤ 57 := by
  simp only [Char.isDigit, Bool.and_eq_true, decide_eq_true_eq, UInt32.le_iff_toNat_le] at digit
  exact digit

lemma mem_decimal {n : ℕ} {c : UInt8} (mem : c ∈ decimal n) : 48 ≤ c.toNat ∧ c.toNat ≤ 57 := by
  obtain ⟨d, digit, rfl⟩ := List.mem_map.mp mem
  have bounds := isDigit_bounds (Nat.isDigit_of_mem_toDigits (by decide) (by decide) digit)
  rw [UInt8.toNat_ofNat']
  omega

lemma decimal_ne_nil (n : ℕ) : decimal n ≠ [] := by
  rw [decimal, Ne, List.map_eq_nil_iff]
  exact Nat.toDigits_ne_nil

lemma foldl_digits (l : List Char) (digits : ∀ c ∈ l, c.isDigit) (init : ℕ) :
    (l.map fun c => UInt8.ofNat c.toNat).foldl (fun n c => 10 * n + (c.toNat - 48)) init =
      Nat.ofDigitChars 10 l init := by
  induction l generalizing init with
  | nil => rfl
  | cons c l ih =>
    have bounds := isDigit_bounds (digits c List.mem_cons_self)
    rw [List.map_cons, List.foldl_cons, ih (fun c mem => digits c (List.mem_cons_of_mem _ mem)),
      Nat.ofDigitChars_cons, UInt8.toNat_ofNat', Nat.mod_eq_of_lt (by omega)]
    rfl

lemma parseDigits_decimal (n : ℕ) : parseDigits (decimal n) = some n := by
  have all : (decimal n).all (fun c => 48 ≤ c && c ≤ 57) = true := by
    refine List.all_eq_true.mpr fun c mem => ?_
    have bounds := mem_decimal mem
    rw [Bool.and_eq_true, decide_eq_true_eq, decide_eq_true_eq, UInt8.le_iff_toNat_le, UInt8.le_iff_toNat_le]
    exact bounds
  rw [parseDigits, if_pos ⟨decimal_ne_nil n, all⟩, decimal,
    foldl_digits _ (fun c mem => Nat.isDigit_of_mem_toDigits (by decide) (by decide) mem),
    Nat.ofDigitChars_ten_toDigits]

lemma decimal_eq_cons (n : ℕ) : ∃ c l, decimal n = c :: l ∧ c ≠ 43 ∧ c ≠ 45 := by
  obtain ⟨c, l, e⟩ := List.exists_cons_of_ne_nil (decimal_ne_nil n)
  have bounds := mem_decimal (e ▸ List.mem_cons_self : c ∈ decimal n)
  refine ⟨c, l, e, ?_, ?_⟩
  · rintro rfl
    exact absurd bounds.1 (by decide)
  · rintro rfl
    exact absurd bounds.1 (by decide)

lemma parseU64_decimal {n : ℕ} (small : n < 2 ^ 64) : parseU64 (decimal n) = some n := by
  obtain ⟨c, l, e, plus, -⟩ := decimal_eq_cons n
  have digits := parseDigits_decimal n
  rw [e] at digits ⊢
  unfold parseU64
  split
  · rename_i eq
    exact absurd (List.cons.inj eq).1 plus
  · rw [digits, Option.filter_some, if_pos (decide_eq_true small)]

lemma parseI64_decimalInt {n : ℤ} (low : -(2 ^ 63 : ℕ) ≤ n) (high : n < (2 ^ 63 : ℕ)) :
    parseI64 (decimalInt n) = some n := by
  have digits := parseDigits_decimal n.natAbs
  rw [decimalInt]
  split
  · rename_i negative
    rw [parseI64, digits, Option.bind_some, if_pos (by omega), Option.some.injEq]
    omega
  · obtain ⟨c, l, e, plus, minus⟩ := decimal_eq_cons n.natAbs
    rw [e] at digits ⊢
    unfold parseI64
    split
    · rename_i eq
      exact absurd (List.cons.inj eq).1 minus
    · rename_i eq
      exact absurd (List.cons.inj eq).1 plus
    · rw [digits, Option.bind_some, if_pos (by omega), Option.some.injEq]
      omega

end Text
