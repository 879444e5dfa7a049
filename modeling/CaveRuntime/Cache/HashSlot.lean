import CaveRuntime.Common.Utf8
import Mathlib.Algebra.Ring.Nat
import Mathlib.Logic.Function.Iterate
import Mathlib.Tactic.IntervalCases

/-!
# Hash slots

Model of `crc16` and `hash_slot` in `cave-cache/src/cluster/state.rs`. The table is made from the polynomial
0x8408, with the bits taken from the least significant one on, which is the CRC of the cluster specification
read in a mirror: `crc16` is the reversal of what the specification computes from the reversed bytes.
-/

namespace Cache
open Utf8

/-! ## The code -/

/-- One round of the inner loop of `generate_crc16_table`. -/
def tableRound (crc : BitVec 16) : BitVec 16 :=
  if crc &&& 1 ≠ 0 then (crc >>> 1) ^^^ 0x8408#16 else crc >>> 1

/-- An entry of `CRC16_TABLE`. -/
def crc16Table (i : BitVec 16) : BitVec 16 := tableRound^[8] i

/-- A byte of the loop of `crc16`. -/
def crc16Byte (crc : BitVec 16) (b : UInt8) : BitVec 16 :=
  (crc >>> 8) ^^^ crc16Table ((crc ^^^ b.toBitVec.setWidth 16) &&& 0xFF#16)

def crc16 (data : Bytes) : BitVec 16 := data.foldl crc16Byte 0

/-- The bytes of a key that are hashed. -/
def effective (key : Bytes) : Bytes :=
  match key.dropWhile (· ≠ 123) with
  | [] => key
  | _ :: rest =>
    if 125 ∈ rest ∧ rest.takeWhile (· ≠ 125) ≠ [] then rest.takeWhile (· ≠ 125) else key

def hashSlot (key : Bytes) : ℕ := (crc16 (effective key)).toNat % 16384

/-! ## The specification -/

/-- The hash tag of a key: what stands between the first `{` and the next `}`, unless this is empty. -/
inductive HashTag : Bytes → Bytes → Prop
  | tag {a t c : Bytes} :
    123 ∉ a →
    125 ∉ t →
    t ≠ [] →
    HashTag (a ++ 123 :: (t ++ 125 :: c)) t
  | whole {key : Bytes} :
    (∀ a t c, key = a ++ 123 :: (t ++ 125 :: c) → 123 ∉ a → 125 ∉ t → t = []) →
    HashTag key key

/-- One bit of the division by the polynomial 0x1021, from the most significant one on. -/
def divide (crc : BitVec 16) : BitVec 16 := if crc.msb then (crc <<< 1) ^^^ 0x1021#16 else crc <<< 1

def specByte (crc : BitVec 16) (b : BitVec 8) : BitVec 16 := divide^[8] (crc ^^^ (b.setWidth 16 <<< 8))

/-- The CRC of the specification. -/
def specCrc (data : List (BitVec 8)) : BitVec 16 := data.foldl specByte 0

/-- The slot of a hash tag. -/
def specSlot (tag : Bytes) : ℕ := (specCrc (tag.map (·.toBitVec))).toNat % 16384

/-! ## Hash tags -/

lemma takeWhile_append_cons {x : UInt8} {a : Bytes} (r : Bytes) (free : x ∉ a) :
    (a ++ x :: r).takeWhile (· ≠ x) = a ∧ (a ++ x :: r).dropWhile (· ≠ x) = x :: r := by
  have all : ∀ b ∈ a, decide (b ≠ x) = true := fun b mem => decide_eq_true fun e => free (e ▸ mem)
  refine ⟨?_, ?_⟩
  · rw [List.takeWhile_append_of_pos all, List.takeWhile_cons_of_neg (by simp), List.append_nil]
  · rw [List.dropWhile_append_of_pos all, List.dropWhile_cons_of_neg (by simp)]

lemma HashTag.effective_eq {key tag : Bytes} (h : HashTag key tag) : effective key = tag := by
  cases h with
  | tag free free' some =>
    rename_i a c
    rw [effective, (takeWhile_append_cons (tag ++ 125 :: c) free).2]
    dsimp only
    rw [(takeWhile_append_cons c free').1, if_pos ⟨List.mem_append_right tag List.mem_cons_self, some⟩]
  | whole none =>
    by_cases mem : 123 ∈ key
    · obtain ⟨a, rest, rfl, free⟩ := List.eq_append_cons_of_mem mem
      rw [effective, (takeWhile_append_cons rest free).2]
      dsimp only
      rw [if_neg]
      rintro ⟨closed, some⟩
      obtain ⟨t, c, rfl, free'⟩ := List.eq_append_cons_of_mem closed
      rw [(takeWhile_append_cons c free').1] at some
      exact some (none a t c rfl free free')
    · have nothing : key.dropWhile (· ≠ 123) = [] := List.dropWhile_eq_nil_iff.mpr fun b here =>
        decide_eq_true fun e : b = 123 => mem (e ▸ here)
      rw [effective, nothing]

/-! ## Rounds of the table -/

lemma and_one_ne_zero (x : BitVec 16) : (x &&& 1 ≠ 0) ↔ x.getLsbD 0 = true := by
  rw [show (1 : BitVec 16) = 1#16 from rfl, BitVec.and_one_eq_setWidth_ofBool_getLsbD]
  cases x.getLsbD 0 <;> decide

lemma getLsbD_tableRound (x : BitVec 16) (i : ℕ) :
    (tableRound x).getLsbD i = (x.getLsbD (1 + i) ^^ (x.getLsbD 0 && (0x8408#16).getLsbD i)) := by
  rw [tableRound]
  simp only [and_one_ne_zero]
  cases x.getLsbD 0
  · rw [if_neg Bool.false_ne_true, Bool.false_and, Bool.xor_false, BitVec.getLsbD_ushiftRight]
  · rw [if_pos rfl, BitVec.getLsbD_xor, Bool.true_and, BitVec.getLsbD_ushiftRight]

lemma tableRound_xor (x y : BitVec 16) : tableRound (x ^^^ y) = tableRound x ^^^ tableRound y := by
  apply BitVec.eq_of_getLsbD_eq
  intro i _
  simp only [BitVec.getLsbD_xor, getLsbD_tableRound]
  cases x.getLsbD 0 <;> cases y.getLsbD 0 <;> cases (0x8408#16).getLsbD i <;>
    cases x.getLsbD (1 + i) <;> cases y.getLsbD (1 + i) <;> rfl

lemma tableRounds_xor (n : ℕ) (x y : BitVec 16) :
    tableRound^[n] (x ^^^ y) = tableRound^[n] x ^^^ tableRound^[n] y := by
  induction n generalizing x y with
  | zero => rfl
  | succ n ih => rw [Function.iterate_succ_apply, Function.iterate_succ_apply, Function.iterate_succ_apply,
      tableRound_xor, ih]

lemma tableRounds_high {x : BitVec 16} (low : ∀ i < 8, x.getLsbD i = false) (n : ℕ) (h : n ≤ 8) :
    tableRound^[n] x = x >>> n := by
  induction n with
  | zero => rw [Function.iterate_zero_apply, BitVec.ushiftRight_zero]
  | succ n ih =>
    have bit : (x >>> n).getLsbD 0 = false := by
      rw [BitVec.getLsbD_ushiftRight]
      exact low _ (by omega)
    rw [Function.iterate_succ_apply', ih (by omega), BitVec.shiftRight_add]
    apply BitVec.eq_of_getLsbD_eq
    intro i _
    rw [getLsbD_tableRound, bit, Bool.false_and, Bool.xor_false, ← BitVec.getLsbD_ushiftRight]

lemma split_low (x : BitVec 16) : x = (x &&& 0xFF#16) ^^^ (x &&& 0xFF00#16) := by
  apply BitVec.eq_of_getLsbD_eq
  intro i h
  simp only [BitVec.getLsbD_xor, BitVec.getLsbD_and]
  interval_cases i <;> simp

lemma high_ushiftRight (x : BitVec 16) (b : UInt8) :
    ((x ^^^ b.toBitVec.setWidth 16) &&& 0xFF00#16) >>> 8 = x >>> 8 := by
  apply BitVec.eq_of_getLsbD_eq
  intro i h
  simp only [BitVec.getLsbD_ushiftRight, BitVec.getLsbD_and, BitVec.getLsbD_xor, BitVec.getLsbD_setWidth]
  interval_cases i <;> simp

lemma crc16Byte_eq (crc : BitVec 16) (b : UInt8) :
    crc16Byte crc b = tableRound^[8] (crc ^^^ b.toBitVec.setWidth 16) := by
  have low : ∀ i < 8, ((crc ^^^ b.toBitVec.setWidth 16) &&& 0xFF00#16).getLsbD i = false := by
    intro i h
    rw [BitVec.getLsbD_and]
    interval_cases i <;> simp
  conv_rhs => rw [split_low (crc ^^^ b.toBitVec.setWidth 16)]
  rw [tableRounds_xor, tableRounds_high low 8 (Nat.le_refl 8), high_ushiftRight, BitVec.xor_comm]
  rfl

/-! ## The mirror -/

lemma reverse_xor (x y : BitVec 16) : (x ^^^ y).reverse = x.reverse ^^^ y.reverse := by
  apply BitVec.eq_of_getLsbD_eq
  intro i h
  simp only [BitVec.getLsbD_reverse, BitVec.getLsbD_xor, BitVec.getMsbD_xor]

lemma getLsbD_divide (y : BitVec 16) {i : ℕ} (h : i < 16) :
    (divide y).getLsbD i =
      ((!decide (i < 1) && y.getLsbD (i - 1)) ^^ (y.msb && (0x1021#16).getLsbD i)) := by
  rw [divide]
  cases y.msb
  · rw [if_neg Bool.false_ne_true, Bool.false_and, Bool.xor_false, BitVec.getLsbD_shiftLeft,
      decide_eq_true h, Bool.true_and]
  · rw [if_pos rfl, BitVec.getLsbD_xor, Bool.true_and, BitVec.getLsbD_shiftLeft, decide_eq_true h,
      Bool.true_and]

lemma reverse_tableRound (x : BitVec 16) : (tableRound x).reverse = divide x.reverse := by
  apply BitVec.eq_of_getLsbD_eq
  intro i h
  rw [BitVec.getLsbD_reverse, BitVec.getMsbD_eq_getLsbD, getLsbD_tableRound, getLsbD_divide _ h,
    BitVec.msb_reverse, BitVec.getLsbD_reverse, BitVec.getMsbD_eq_getLsbD]
  interval_cases i <;> simp

lemma reverse_setWidth (b : BitVec 8) : (b.setWidth 16).reverse = b.reverse.setWidth 16 <<< 8 := by
  apply BitVec.eq_of_getLsbD_eq
  intro i h
  simp only [BitVec.getLsbD_reverse, BitVec.getMsbD_eq_getLsbD, BitVec.getLsbD_setWidth,
    BitVec.getLsbD_shiftLeft]
  interval_cases i <;> simp

lemma reverse_crc16Byte (crc : BitVec 16) (b : UInt8) :
    (crc16Byte crc b).reverse = specByte crc.reverse b.toBitVec.reverse := by
  have rounds (n : ℕ) (x : BitVec 16) : (tableRound^[n] x).reverse = divide^[n] x.reverse := by
    induction n generalizing x with
    | zero => rfl
    | succ n ih => rw [Function.iterate_succ_apply, Function.iterate_succ_apply, ih, reverse_tableRound]
  rw [crc16Byte_eq, rounds, reverse_xor, reverse_setWidth]
  rfl

lemma reverse_foldl (data : Bytes) (crc : BitVec 16) :
    (data.foldl crc16Byte crc).reverse = (data.map (·.toBitVec.reverse)).foldl specByte crc.reverse := by
  induction data generalizing crc with
  | nil => rfl
  | cons b data ih => rw [List.foldl_cons, ih, reverse_crc16Byte, List.map_cons, List.foldl_cons]

lemma crc16_eq (data : Bytes) : crc16 data = (specCrc (data.map (·.toBitVec.reverse))).reverse := by
  rw [← BitVec.reverse_reverse_eq (x := crc16 data), crc16, reverse_foldl]
  rfl

/-! ## Slots -/

/-- A key has the slot of the specification exactly if the CRC of its hash tag and the reversal of the CRC of
the hash tag with the bits of each byte reversed agree in their last 14 bits. -/
theorem hashSlot_eq_iff {key tag : Bytes} (h : HashTag key tag) :
    hashSlot key = specSlot tag ↔
      (specCrc (tag.map (·.toBitVec.reverse))).reverse.setWidth 14 =
        (specCrc (tag.map (·.toBitVec))).setWidth 14 := by
  rw [hashSlot, h.effective_eq, crc16_eq, specSlot, ← BitVec.toNat_inj, BitVec.toNat_setWidth,
    BitVec.toNat_setWidth]

/-- The key `x{7aa}`, whose hash tag has a CRC other than 0 on which both agree. -/
theorem hashSlot_mirrored :
    specCrc (([55, 97, 97] : Bytes).map (·.toBitVec)) ≠ 0 ∧
      hashSlot [120, 123, 55, 97, 97, 125] = specSlot [55, 97, 97] :=
  ⟨by decide +kernel, (hashSlot_eq_iff (.tag (a := [120]) (t := [55, 97, 97]) (c := []) (by decide) (by decide)
    (by decide))).mpr (by decide +kernel)⟩

/-- The key `123456789`, whose CRC is 0x31C3. -/
theorem hashSlot_check :
    specCrc (([49, 50, 51, 52, 53, 54, 55, 56, 57] : Bytes).map (·.toBitVec)) = 0x31C3#16 ∧
      HashTag [49, 50, 51, 52, 53, 54, 55, 56, 57] [49, 50, 51, 52, 53, 54, 55, 56, 57] ∧
      hashSlot [49, 50, 51, 52, 53, 54, 55, 56, 57] ≠ specSlot [49, 50, 51, 52, 53, 54, 55, 56, 57] := by
  refine ⟨by decide +kernel, .whole fun a t c e => ?_, by decide +kernel⟩
  have mem : 123 ∈ a ++ 123 :: (t ++ 125 :: c) := List.mem_append_right a List.mem_cons_self
  rw [← e] at mem
  exact absurd mem (by decide)

end Cache
