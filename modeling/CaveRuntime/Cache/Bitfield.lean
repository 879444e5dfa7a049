import CaveRuntime.Cache.Types

/-!
# Bit fields

Model of `BITFIELD` in `cave-cache/src/commands/bitmap.rs`. A field is a number of bits at an offset of a
string, the most significant one first, read with or without a sign. `INCRBY` adds in 64 bits and then looks
whether the sum is in the range of the field: a signed sum that wraps around is answered as it is, and a sum
of 64 bits is never found to be out of range. Shifts by 64 and more panic or use the last six bits of the
number of places. Bit positions stay below 2^64.
-/

namespace Cache
open MachineInt Text Utf8

/-! ## Shifts of 64 bits -/

variable (checks : Bool)

/-- `<<` of a `u64`. -/
def shl (x k : ℕ) : Option ℕ :=
  if k < 64 then some (x <<< k % 2 ^ 64) else if checks then none else some (x <<< (k % 64) % 2 ^ 64)

/-- `>>` of a `u64`. -/
def shr (x k : ℕ) : Option ℕ :=
  if k < 64 then some (x >>> k) else if checks then none else some (x >>> (k % 64))

/-- `bits - 1` as a `u8`. -/
def predU8 (bits : ℕ) : Option ℕ :=
  if 0 < bits then some (bits - 1) else if checks then none else some 255

/-- `as i64` of a `u64`. -/
def asI64 (n : ℕ) : ℤ := wrap i64Max n

/-! ## Bits of a string -/

/-- The bit at a position; there are none behind the end. -/
def bitAt (bytes : Bytes) (pos : ℕ) : Bool :=
  (bytes[pos / 8]?).any fun b => b.toNat.testBit (7 - pos % 8)

def getBits (bytes : Bytes) (offset bits : ℕ) : Option ℕ :=
  (List.range bits).foldl (fun acc i => acc.bind fun val =>
    if (offset + i) / 8 < bytes.length then
      (shl checks (bitAt bytes (offset + i)).toNat (bits - 1 - i)).map (val ||| ·)
    else some val) (some 0)

/-- A bit is set or cleared. -/
def putBit (pos : ℕ) (bit : Bool) (bytes : Bytes) : Bytes :=
  bytes.modify (pos / 8) fun b =>
    if bit then b ||| 1 <<< UInt8.ofNat (7 - pos % 8) else b &&& ~~~(1 <<< UInt8.ofNat (7 - pos % 8))

/-- `resize` with zeros, to no less than there is. -/
def grow (bytes : Bytes) (needed : ℕ) : Bytes := bytes ++ List.replicate (needed - bytes.length) 0

def setBits (bytes : Bytes) (offset bits val : ℕ) : Option Bytes :=
  (List.range bits).foldl (fun acc i => acc.bind fun bytes =>
    (shr checks val (bits - 1 - i)).map fun v => putBit (offset + i) (v.testBit 0) bytes)
    (some (grow bytes ((offset + bits + 7) / 8)))

/-! ## Fields -/

/-- A type and an offset. -/
structure Field where
  signed : Bool
  bits : ℕ
  offset : ℕ
deriving DecidableEq, Repr

inductive OverflowPolicy where
  | wrap | sat | fail
deriving DecidableEq, Repr

/-- The value of a field: what `bitfield_get` makes of the string. -/
def readField (f : Field) (bytes : Bytes) : Option ℤ :=
  (getBits checks bytes f.offset f.bits).bind fun raw =>
    if f.signed ∧ f.bits < 64 then
      (predU8 checks f.bits).bind fun k => (shr checks raw k).map fun top =>
        if top.testBit 0 then asI64 (raw ||| (2 ^ 64 - 2 ^ f.bits)) else asI64 raw
    else some (asI64 raw)

/-- What `bitfield_set` makes of the string. -/
def writeField (f : Field) (value : ℤ) (bytes : Bytes) : Option Bytes :=
  (if f.bits = 64 then some (2 ^ 64 - 1) else (shl checks 1 f.bits).map (· - 1)).bind fun mask =>
    setBits checks bytes f.offset f.bits (asU64 value &&& mask)

/-- The least and the greatest value of a field in `bitfield_incrby`. -/
def fieldRange (f : Field) : Option (ℤ × ℤ) :=
  if f.signed then
    if f.bits = 64 then some (-i64Max - 1, i64Max)
    else (predU8 checks f.bits).bind fun k => (shl checks 1 k).bind fun top =>
      (fit checks i64Max (-asI64 top)).bind fun min => (fit checks i64Max (asI64 top - 1)).map fun max =>
        (min, max)
  else if f.bits = 64 then some (0, asI64 (2 ^ 64 - 1))
  else (shl checks 1 f.bits).map fun top => (0, asI64 (top - 1))

/-- What `INCRBY` stores and answers; nothing under `FAIL` out of the range. -/
def incremented (f : Field) (range : ℤ × ℤ) (policy : OverflowPolicy) (old delta : ℤ) : Option ℤ :=
  let new := wrap i64Max (old + delta)
  if new < range.1 ∨ range.2 < new then
    match policy with
    -- "wrapping already done"
    | .wrap => some (if f.signed then new else asI64 (asU64 new &&& asU64 range.2))
    | .sat => some (if 0 < delta then range.2 else range.1)
    | .fail => none
  else some new

/-! ## Databases -/

/-- A computation that may panic. -/
def orPanic {α : Type} : Option α → Except Failure α
  | some a => .ok a
  | none => .error .panic

/-- The string at a key; a key that is not there has the empty one. -/
def stringAt (now : ℕ) (key : Bytes) (db : Db) : Except Failure (Option Bytes) × Db :=
  match db.getTyped now key .string with
  | (.error e, db) => (.error e, db)
  | (.ok (some e), db) =>
    match e.value with
    | .string s => (.ok (some s), db)
    | _ => (.error .panic, db)
  | (.ok none, db) => (.ok none, db)

def bitfieldGet (now : ℕ) (key : Bytes) (f : Field) (db : Db) : Except Failure ℤ × Db :=
  match stringAt now key db with
  | (.error e, db) => (.error e, db)
  | (.ok s, db) => (orPanic (readField checks f (s.getD [])), db)

/-- `bitfield_set`; a key that is not there is made before the string is written. -/
def bitfieldSet (clock : Clock) (key : Bytes) (f : Field) (value : ℤ) (db : Db) :
    Except Failure ℤ × Db :=
  match bitfieldGet checks (clock.instant 0) key f db with
  | (.error e, db) => (.error e, db)
  | (.ok old, db) =>
    match stringAt (clock.instant 1) key db with
    | (.error e, db) => (.error e, db)
    | (.ok s, db) =>
      let db := if s.isSome then db else db.put key (Entry.new (clock.system 2) (.string []))
      match writeField checks f value (s.getD []) with
      | none => (.error .panic, db)
      | some bytes => (.ok old, db.write key (.string bytes))

def bitfieldIncrby (clock : Clock) (key : Bytes) (f : Field) (delta : ℤ)
    (policy : OverflowPolicy) (db : Db) : Except Failure (Option ℤ) × Db :=
  match bitfieldGet checks (clock.instant 3) key f db with
  | (.error e, db) => (.error e, db)
  | (.ok old, db) =>
    match fieldRange checks f with
    | none => (.error .panic, db)
    | some range =>
      match incremented f range policy old delta with
      | none => (.ok none, db)
      | some result =>
        match bitfieldSet checks clock key f result db with
        | (.error e, db) => (.error e, db)
        | (.ok _, db) => (.ok (some result), db)

/-! ## Reading back what was written -/

section
variable {checks : Bool} {bytes : Bytes} {offset bits val : ℕ}

lemma shl_bit (checks bit : Bool) {k : ℕ} (small : k < 64) :
    ∃ v, shl checks bit.toNat k = some v ∧ ∀ j, v.testBit j = (decide (j = k) && bit) := by
  refine ⟨_, if_pos small, fun j => ?_⟩
  cases bit with
  | false => simp
  | true =>
    rw [Bool.toNat_true, Nat.one_shiftLeft, Nat.testBit_mod_two_pow, Nat.testBit_two_pow, Bool.and_true]
    by_cases here : k = j
    · subst here
      simp [small]
    · simp [here, Ne.symm here]

lemma bitAt_of_length_le {pos : ℕ} (le : bytes.length ≤ pos / 8) : bitAt bytes pos = false := by
  rw [bitAt, List.getElem?_eq_none le, Option.any_none]

/-- The bits that are read are those of the string, the first one on top. -/
lemma getBits_spec (checks : Bool) (bytes : Bytes) (offset : ℕ) (small : bits ≤ 64) :
    ∃ v, getBits checks bytes offset bits = some v ∧
      ∀ j, v.testBit j = (decide (j < bits) && bitAt bytes (offset + (bits - 1 - j))) := by
  -- after `n` rounds the upper `n` bits are there
  have rounds (n : ℕ) (le : n ≤ bits) : ∃ v, (List.range n).foldl (fun acc i => acc.bind fun val =>
      if (offset + i) / 8 < bytes.length then
        (shl checks (bitAt bytes (offset + i)).toNat (bits - 1 - i)).map (val ||| ·)
      else some val) (some 0) = some v ∧
      ∀ j, v.testBit j = (decide (bits ≤ j + n ∧ j < bits) && bitAt bytes (offset + (bits - 1 - j))) := by
    induction n with
    | zero =>
      refine ⟨0, rfl, fun j => ?_⟩
      rw [Nat.zero_testBit, decide_eq_false (by omega), Bool.false_and]
    | succ n ih =>
      obtain ⟨v, eq, bit⟩ := ih (by omega)
      have new : ∃ v', (if (offset + n) / 8 < bytes.length then
          (shl checks (bitAt bytes (offset + n)).toNat (bits - 1 - n)).map (v ||| ·) else some v) = some v' ∧
          ∀ j, v'.testBit j = (v.testBit j || decide (j = bits - 1 - n) && bitAt bytes (offset + n)) := by
        by_cases inside : (offset + n) / 8 < bytes.length
        · obtain ⟨w, shifted, one⟩ := shl_bit checks (bitAt bytes (offset + n)) (k := bits - 1 - n) (by omega)
          refine ⟨v ||| w, by rw [if_pos inside, shifted, Option.map_some], fun j => ?_⟩
          rw [Nat.testBit_or, one]
        · refine ⟨v, if_neg inside, fun j => ?_⟩
          rw [bitAt_of_length_le (Nat.le_of_not_lt inside), Bool.and_false, Bool.or_false]
      obtain ⟨v', done, bit'⟩ := new
      refine ⟨v', by rw [List.range_succ, List.foldl_concat, eq, Option.bind_some, done], fun j => ?_⟩
      rw [bit', bit]
      by_cases here : j = bits - 1 - n
      · subst here
        rw [decide_eq_false (by omega), decide_eq_true rfl, decide_eq_true (by omega),
          show bits - 1 - (bits - 1 - n) = n by omega, Bool.false_and, Bool.false_or]
      · rw [decide_eq_false here, Bool.false_and, Bool.or_false]
        congr 2
        exact propext (by omega)
  obtain ⟨v, eq, bit⟩ := rounds bits (Nat.le_refl bits)
  refine ⟨v, eq, fun j => ?_⟩
  rw [bit]
  congr 2
  exact propext (by omega)

lemma lt_of_testBit {v : ℕ} {f : ℕ → Bool} (bit : ∀ j, v.testBit j = (decide (j < bits) && f j)) :
    v < 2 ^ bits := by
  refine Nat.lt_pow_two_of_testBit v fun j le => ?_
  rw [bit, decide_eq_false (Nat.not_lt.mpr le), Bool.false_and]

lemma testBit_mask : ∀ k < 8, ∀ j < 8, ((1 : UInt8) <<< UInt8.ofNat k).toBitVec.getLsbD j = decide (j = k) := by
  decide

lemma bitAt_putBit {pos q : ℕ} {bit : Bool} (inside : pos / 8 < bytes.length) :
    bitAt (putBit pos bit bytes) q = if q = pos then bit else bitAt bytes q := by
  rw [bitAt, bitAt, putBit, List.getElem?_modify]
  by_cases same : pos / 8 = q / 8
  · have mask := testBit_mask (7 - pos % 8) (by omega) (7 - q % 8) (by omega)
    have here : (7 - q % 8 = 7 - pos % 8) ↔ q = pos := by omega
    simp only [if_pos same, Option.map_eq_map]
    rw [← same, List.getElem?_eq_getElem inside, Option.map_some, Option.any_some, Option.any_some]
    generalize bytes[pos / 8] = b
    change BitVec.getLsbD (UInt8.toBitVec _) _ = if _ then _ else BitVec.getLsbD (UInt8.toBitVec _) _
    cases bit with
    | false =>
      simp only [Bool.false_eq_true, if_false, UInt8.toBitVec_and, UInt8.toBitVec_not, BitVec.getLsbD_and,
        BitVec.getLsbD_not, mask, here]
      by_cases e : q = pos
      · simp [e]
      · simp [e]
        omega
    | true =>
      simp only [if_true, UInt8.toBitVec_or, BitVec.getLsbD_or, mask, here]
      by_cases e : q = pos <;> simp [e]
  · rw [if_neg (c := q = pos) fun e => same (e ▸ rfl)]
    simp [if_neg same]

/-- The bits of the value are written, the highest one first. -/
lemma setBits_spec (checks : Bool) (bytes : Bytes) (offset val : ℕ) (small : bits ≤ 64) :
    ∃ bytes', setBits checks bytes offset bits val = some bytes' ∧
      ∀ j < bits, bitAt bytes' (offset + (bits - 1 - j)) = val.testBit j := by
  have length : (offset + bits + 7) / 8 ≤ (grow bytes ((offset + bits + 7) / 8)).length := by
    rw [grow, List.length_append, List.length_replicate]
    omega
  have rounds (n : ℕ) (le : n ≤ bits) : ∃ b, (List.range n).foldl (fun acc i => acc.bind fun bytes =>
      (shr checks val (bits - 1 - i)).map fun v => putBit (offset + i) (v.testBit 0) bytes)
      (some (grow bytes ((offset + bits + 7) / 8))) = some b ∧ (offset + bits + 7) / 8 ≤ b.length ∧
      ∀ i < n, bitAt b (offset + i) = val.testBit (bits - 1 - i) := by
    induction n with
    | zero => exact ⟨_, rfl, length, fun i lt => absurd lt (Nat.not_lt_zero i)⟩
    | succ n ih =>
      obtain ⟨b, eq, length, bit⟩ := ih (by omega)
      have shifted : shr checks val (bits - 1 - n) = some (val >>> (bits - 1 - n)) := if_pos (by omega)
      refine ⟨putBit (offset + n) ((val >>> (bits - 1 - n)).testBit 0) b, ?_, ?_, fun i lt => ?_⟩
      · rw [List.range_succ, List.foldl_concat, eq, Option.bind_some, shifted, Option.map_some]
      · rw [putBit, List.length_modify]
        exact length
      · rw [bitAt_putBit (by omega), Nat.testBit_shiftRight, Nat.add_zero]
        by_cases here : i = n
        · rw [if_pos (by omega), here]
        · rw [if_neg (by omega), bit i (by omega)]
  obtain ⟨b, eq, -, bit⟩ := rounds bits (Nat.le_refl bits)
  refine ⟨b, eq, fun j lt => ?_⟩
  rw [bit _ (by omega), show bits - 1 - (bits - 1 - j) = j by omega]

lemma getBits_setBits (checks : Bool) (bytes : Bytes) (offset : ℕ) (small : bits ≤ 64) (fits : val < 2 ^ bits) :
    ∃ bytes', setBits checks bytes offset bits val = some bytes' ∧
      getBits checks bytes' offset bits = some val := by
  obtain ⟨bytes', wrote, bit⟩ := setBits_spec checks bytes offset val small
  obtain ⟨v, read, bit'⟩ := getBits_spec checks bytes' offset small
  refine ⟨bytes', wrote, ?_⟩
  rw [read, Option.some.injEq]
  refine Nat.eq_of_testBit_eq fun j => ?_
  rw [bit']
  by_cases lt : j < bits
  · rw [bit j lt, decide_eq_true lt, Bool.true_and]
  · rw [decide_eq_false lt, Bool.false_and]
    exact (Nat.testBit_lt_two_pow (fits.trans_le (Nat.pow_le_pow_right Nat.two_pos (Nat.le_of_not_lt lt)))).symm

end

/-! ## Values of a field -/

/-- The widths are 1 to 64 bits with a sign and 1 to 63 without, and the positions are numbers of 64 bits. -/
structure Field.Valid (f : Field) : Prop where
  pos : 0 < f.bits
  le : f.bits ≤ 64
  unsigned : f.signed = false → f.bits ≤ 63
  room : f.offset + f.bits + 7 < 2 ^ 64

/-- The least value. -/
def Field.lo (f : Field) : ℤ := if f.signed then -((2 ^ (f.bits - 1) : ℕ) : ℤ) else 0

/-- The number of values. -/
def Field.size (f : Field) : ℤ := ((2 ^ f.bits : ℕ) : ℤ)

/-- The greatest value. -/
def Field.hi (f : Field) : ℤ := f.lo + f.size - 1

/-- The value in the range that is congruent to a number. -/
def Field.reduce (f : Field) (s : ℤ) : ℤ := (s - f.lo) % f.size + f.lo

/-- The value of the bits of a field. -/
def Field.value (f : Field) (raw : ℕ) : ℤ :=
  if f.signed ∧ 2 ^ (f.bits - 1) ≤ raw then raw - f.size else raw

namespace Field
variable {f : Field}

/-- Half the size, as a number of at most 63 bits that can be reasoned about. -/
lemma Valid.half (valid : f.Valid) : ∃ n : ℕ, 2 ^ (f.bits - 1) = n ∧ 2 ^ f.bits = 2 * n ∧ 1 ≤ n ∧
    (f.bits < 64 → n ≤ 2 ^ 62) ∧ (f.bits = 64 → n = 2 ^ 63) ∧ 2 * n ∣ 2 ^ 64 := by
  have whole : 2 ^ f.bits = 2 * 2 ^ (f.bits - 1) := by
    rw [← Nat.pow_succ', Nat.succ_eq_add_one, Nat.sub_add_cancel valid.pos]
  refine ⟨2 ^ (f.bits - 1), rfl, whole, Nat.one_le_two_pow, fun lt => ?_, fun eq => by rw [eq], ?_⟩
  · exact Nat.pow_le_pow_right Nat.two_pos (by omega)
  · rw [← whole]
    exact Nat.pow_dvd_pow 2 valid.le

lemma asI64_of_lt {n : ℕ} (lt : n < 2 ^ 63) : asI64 n = n := by
  unfold asI64 wrap i64Max
  omega

lemma asI64_of_le {n : ℕ} (le : 2 ^ 63 ≤ n) (lt : n < 2 ^ 64) : asI64 n = n - ((2 ^ 64 : ℕ) : ℤ) := by
  unfold asI64 wrap i64Max
  omega

end Field

variable {raw : ℕ} {f : Field} {old delta : ℤ}

lemma testBit_top {k n : ℕ} (half : 2 ^ k = n) (fits : raw < 2 * n) : raw.testBit k = decide (n ≤ raw) := by
  rw [Nat.testBit_eq_decide_div_mod_eq, half]
  by_cases le : n ≤ raw
  · have one : raw / n = 1 := Nat.div_eq_of_lt_le (by omega) (by omega)
    rw [one, decide_eq_true le]
    rfl
  · rw [Nat.div_eq_of_lt (by omega), decide_eq_false le]
    rfl

lemma or_signBits {bits : ℕ} (fits : raw < 2 ^ bits) (le : bits ≤ 64) :
    raw ||| (2 ^ 64 - 2 ^ bits) = raw + (2 ^ 64 - 2 ^ bits) := by
  have multiple : 2 ^ 64 - 2 ^ bits = 2 ^ bits * (2 ^ (64 - bits) - 1) := by
    rw [Nat.mul_sub_one, ← Nat.pow_add, Nat.add_sub_cancel' le]
  rw [multiple, Nat.or_comm, ← Nat.two_pow_add_eq_or_of_lt fits, Nat.add_comm]

lemma readField_spec (valid : f.Valid) {checks : Bool} {bytes : Bytes}
    (read : getBits checks bytes f.offset f.bits = some raw) (fits : raw < 2 ^ f.bits) :
    readField checks f bytes = some (f.value raw) := by
  obtain ⟨n, half, whole, pos, small, large, -⟩ := valid.half
  have or := or_signBits fits valid.le
  rw [readField, read, Option.bind_some, Field.value, Field.size, half, whole]
  rw [whole] at fits or
  by_cases narrow : f.signed = true ∧ f.bits < 64
  · have le := small narrow.2
    rw [if_pos narrow, predU8, if_pos valid.pos, Option.bind_some, shr, if_pos (by omega), Option.map_some,
      Nat.testBit_shiftRight, Nat.add_zero, testBit_top half fits]
    by_cases negative : n ≤ raw
    · rw [if_pos (decide_eq_true negative), if_pos ⟨narrow.1, negative⟩, or,
        Field.asI64_of_le (by omega) (by omega)]
      congr 1
      omega
    · rw [if_neg (by simpa using negative), if_neg fun h => negative h.2, Field.asI64_of_lt (by omega)]
  · rw [if_neg narrow]
    cases sign : f.signed with
    | false =>
      have le := small (by have := valid.unsigned sign; omega)
      rw [if_neg fun h => Bool.false_ne_true h.1, Field.asI64_of_lt (by omega)]
    | true =>
      have eq := large (by have := valid.le; have : ¬f.bits < 64 := fun lt => narrow ⟨sign, lt⟩; omega)
      by_cases negative : n ≤ raw
      · rw [if_pos ⟨rfl, negative⟩, Field.asI64_of_le (by omega) (by omega)]
        congr 1
        omega
      · rw [if_neg fun h => negative h.2, Field.asI64_of_lt (by omega)]

lemma exists_readField (valid : f.Valid) (checks : Bool) (bytes : Bytes) :
    ∃ old, readField checks f bytes = some old ∧ f.lo ≤ old ∧ old ≤ f.hi := by
  obtain ⟨raw, read, bit⟩ := getBits_spec checks bytes f.offset valid.le
  have fits := lt_of_testBit bit
  refine ⟨f.value raw, readField_spec valid read fits, ?_⟩
  obtain ⟨n, half, whole, pos, -⟩ := valid.half
  rw [whole] at fits
  rw [Field.hi, Field.lo, Field.value, Field.size, half, whole]
  cases f.signed <;> split <;> simp at * <;> omega

lemma cast_asU64_mod (valid : f.Valid) (value : ℤ) :
    ((asU64 value % 2 ^ f.bits : ℕ) : ℤ) = value % f.size := by
  have dvd : f.size ∣ ((2 ^ 64 : ℕ) : ℤ) := Int.natCast_dvd_natCast.mpr (Nat.pow_dvd_pow 2 valid.le)
  rw [Int.natCast_emod, asU64, Int.toNat_of_nonneg (Int.emod_nonneg value (by decide))]
  exact Int.emod_emod_of_dvd value dvd

/-- What is written to a field, reduced to its width, is read back. -/
lemma readField_writeField (valid : f.Valid) (checks : Bool) (value : ℤ) (bytes : Bytes) :
    ∃ bytes', writeField checks f value bytes = some bytes' ∧
      readField checks f bytes' = some (f.reduce value) := by
  obtain ⟨n, half, whole, pos, small, large, dvd⟩ := valid.half
  have mask : (if f.bits = 64 then some (2 ^ 64 - 1) else (shl checks 1 f.bits).map (· - 1)) =
      some (2 ^ f.bits - 1) := by
    by_cases wide : f.bits = 64
    · rw [if_pos wide, wide]
    · have lt : 2 ^ f.bits < 2 ^ 64 := Nat.pow_lt_pow_right (by decide) (by have := valid.le; omega)
      rw [if_neg wide, shl, if_pos (by have := valid.le; omega), Nat.one_shiftLeft, Nat.mod_eq_of_lt lt,
        Option.map_some]
  obtain ⟨bytes', wrote, read⟩ := getBits_setBits checks bytes f.offset valid.le
    (Nat.mod_lt (asU64 value) (Nat.two_pow_pos f.bits))
  refine ⟨bytes', ?_, ?_⟩
  · rw [writeField, mask, Option.bind_some, Nat.and_two_pow_sub_one_eq_mod, wrote]
  · rw [readField_spec valid read (Nat.mod_lt _ (Nat.two_pow_pos f.bits)), Field.value, Field.reduce,
      ← Int.emod_sub_emod, ← cast_asU64_mod valid value]
    have lt : asU64 value % 2 ^ f.bits < 2 * n := whole ▸ Nat.mod_lt _ (Nat.two_pow_pos f.bits)
    generalize asU64 value % 2 ^ f.bits = q at lt
    rw [Field.lo, Field.size, half, whole]
    cases f.signed with
    | false =>
      rw [if_neg fun h => Bool.false_ne_true h.1, if_neg Bool.false_ne_true, Int.sub_zero, Int.add_zero,
        Int.emod_eq_of_lt (by omega) (by omega)]
    | true =>
      rw [if_pos rfl]
      by_cases negative : n ≤ q
      · rw [if_pos ⟨rfl, negative⟩, ← Int.sub_emod_right, Int.emod_eq_of_lt (by omega) (by omega)]
        congr 1
        omega
      · rw [if_neg fun h => negative h.2, Int.emod_eq_of_lt (by omega) (by omega)]
        congr 1
        omega

/-! ## `INCRBY` -/

/-- What has to be stored and answered for an exact sum. -/
def Field.expected (f : Field) (policy : OverflowPolicy) (s : ℤ) : Option ℤ :=
  match policy with
  | .wrap => some (f.reduce s)
  | .sat => some (max f.lo (min f.hi s))
  | .fail => if f.lo ≤ s ∧ s ≤ f.hi then some s else none

/-- The sum is in the range, or the field has no sign, or it has 64 bits and wraps around, or it has less and
does not. -/
def Field.Handled (f : Field) (policy : OverflowPolicy) (s : ℤ) : Prop :=
  (f.lo ≤ s ∧ s ≤ f.hi) ∨ f.signed = false ∨ (f.bits = 64 ↔ policy = .wrap)

lemma fieldRange_eq (valid : f.Valid) (checks : Bool) : fieldRange checks f = some (f.lo, f.hi) := by
  obtain ⟨n, half, whole, pos, small, large, -⟩ := valid.half
  rw [fieldRange, Field.hi, Field.lo, Field.size, half, whole]
  have le := valid.le
  cases sign : f.signed with
  | false =>
    have narrow := valid.unsigned sign
    have := small (by omega)
    rw [if_neg Bool.false_ne_true, if_neg Bool.false_ne_true, if_neg (by omega), shl, if_pos (by omega),
      Nat.one_shiftLeft, whole, Nat.mod_eq_of_lt (by omega), Option.map_some, Field.asI64_of_lt (by omega)]
    simp only [Option.some.injEq, Prod.mk.injEq, true_and]
    omega
  | true =>
    rw [if_pos rfl, if_pos rfl]
    by_cases wide : f.bits = 64
    · have := large wide
      rw [if_pos wide, i64Max]
      simp only [Option.some.injEq, Prod.mk.injEq]
      omega
    · have := small (by omega)
      rw [if_neg wide, predU8, if_pos valid.pos, Option.bind_some, shl, if_pos (by omega), Nat.one_shiftLeft,
        half, Nat.mod_eq_of_lt (by omega), Option.bind_some, Field.asI64_of_lt (by omega), fit,
        if_pos (by unfold i64Max; omega), Option.bind_some, fit, if_pos (by unfold i64Max; omega),
        Option.map_some]
      simp only [Option.some.injEq, Prod.mk.injEq, true_and]
      omega

lemma Field.reduce_wrap (valid : f.Valid) (s : ℤ) : f.reduce (wrap i64Max s) = f.reduce s := by
  have dvd : f.size ∣ ((2 ^ 64 : ℕ) : ℤ) := Int.natCast_dvd_natCast.mpr (Nat.pow_dvd_pow 2 valid.le)
  have wrapped : ((2 ^ 64 : ℕ) : ℤ) ∣ wrap i64Max s - s := by
    unfold wrap i64Max
    omega
  have same : wrap i64Max s % f.size = s % f.size :=
    Int.emod_eq_emod_iff_emod_sub_eq_zero.mpr (Int.emod_eq_zero_of_dvd (Int.dvd_trans dvd wrapped))
  exact congrArg (· + f.lo) ((Int.emod_sub_cancel_right f.lo).mpr same)

lemma Field.reduce_of_mem {s : ℤ} (low : f.lo ≤ s) (high : s ≤ f.hi) : f.reduce s = s := by
  rw [Field.hi] at high
  rw [reduce, Int.emod_eq_of_lt (by omega) (by omega)]
  omega

lemma Field.reduce_mem (f : Field) (s : ℤ) : f.lo ≤ f.reduce s ∧ f.reduce s ≤ f.hi := by
  have pos : 0 < f.size := Int.natCast_pos.mpr (Nat.two_pow_pos f.bits)
  have := Int.emod_nonneg (s - f.lo) pos.ne'
  have := Int.emod_lt_of_pos (s - f.lo) pos
  rw [hi, reduce]
  omega

lemma Field.Valid.ends (valid : f.Valid) : ∃ n : ℤ, 1 ≤ n ∧
    (f.bits = 64 → f.signed = true ∧ n = 9223372036854775808) ∧ (f.bits ≠ 64 → n ≤ 4611686018427387904) ∧
    (f.signed = true → f.lo = -n ∧ f.hi = n - 1) ∧ (f.signed = false → f.lo = 0 ∧ f.hi = 2 * n - 1) := by
  obtain ⟨n, half, whole, pos, small, large, -⟩ := valid.half
  have le := valid.le
  refine ⟨n, by omega, fun wide => ⟨?_, by have := large wide; omega⟩, fun narrow => ?_, fun sign => ?_,
    fun sign => ?_⟩
  · by_contra sign
    have := valid.unsigned (by simpa using sign)
    omega
  · have := small (by omega)
    omega
  · rw [Field.hi, Field.lo, Field.size, half, whole, if_pos sign]
    omega
  · rw [Field.hi, Field.lo, Field.size, whole, if_neg (by simp [sign])]
    omega

lemma wrap_cases (s : ℤ) (low : -18446744073709551616 ≤ s) (high : s < 18446744073709551616) :
    (-i64Max - 1 ≤ s ∧ s ≤ i64Max ∧ wrap i64Max s = s) ∨
      (i64Max < s ∧ wrap i64Max s = s - 18446744073709551616) ∨
      (s < -i64Max - 1 ∧ wrap i64Max s = s + 18446744073709551616) := by
  unfold wrap i64Max
  omega

lemma incremented_inside {range : ℤ × ℤ} {policy : OverflowPolicy}
    (low : range.1 ≤ wrap i64Max (old + delta)) (high : wrap i64Max (old + delta) ≤ range.2) :
    incremented f range policy old delta = some (wrap i64Max (old + delta)) :=
  if_neg (by omega)

lemma Field.Valid.bounds (valid : f.Valid) :
    f.lo ≤ f.hi ∧ -9223372036854775808 ≤ f.lo ∧ f.hi ≤ 9223372036854775807 := by
  obtain ⟨n, pos, large, small, signed, unsigned⟩ := valid.ends
  cases sign : f.signed with
  | true =>
    have := signed sign
    by_cases wide : f.bits = 64
    · have := large wide
      omega
    · have := small wide
      omega
  | false =>
    have := unsigned sign
    have := small fun wide => by simp [(large wide).1] at sign
    omega

lemma Field.expected_of_mem {s : ℤ} (policy : OverflowPolicy) (inside : f.lo ≤ s ∧ s ≤ f.hi) :
    f.expected policy s = some s := by
  cases policy with
  | wrap => rw [Field.expected, Field.reduce_of_mem inside.1 inside.2]
  | sat => rw [Field.expected, min_eq_right inside.2, max_eq_right inside.1]
  | fail => rw [Field.expected, if_pos inside]

lemma incremented_wide_iff (valid : f.Valid) (policy : OverflowPolicy)
    (wide : f.bits = 64) (low : f.lo ≤ old) (high : old ≤ f.hi) (least : -i64Max - 1 ≤ delta)
    (most : delta ≤ i64Max) (inside : ¬(f.lo ≤ old + delta ∧ old + delta ≤ f.hi)) :
    incremented f (f.lo, f.hi) policy old delta = f.expected policy (old + delta) ↔
      f.Handled policy (old + delta) := by
  obtain ⟨n, pos, large, small, signed, unsigned⟩ := valid.ends
  obtain ⟨sign, rfl⟩ := large wide
  have ends := signed sign
  have sum := wrap_cases (old + delta) (by unfold i64Max at *; omega) (by unfold i64Max at *; omega)
  have stays : f.lo ≤ wrap i64Max (old + delta) ∧ wrap i64Max (old + delta) ≤ f.hi := by
    unfold i64Max at *
    omega
  rw [incremented_inside stays.1 stays.2, Field.Handled, wide, sign]
  cases policy with
  | wrap =>
    rw [Field.expected, ← Field.reduce_wrap valid, Field.reduce_of_mem stays.1 stays.2]
    simp
  | sat =>
    simp only [Field.expected, Option.some.injEq, inside, false_or, Bool.true_eq_false, reduceCtorEq,
      not_true_eq_false, iff_false]
    unfold i64Max at *
    omega
  | fail => simp [Field.expected, inside]

lemma masked_eq_reduce (valid : f.Valid) (sign : f.signed = false) (lo : f.lo = 0) (s : ℤ) :
    asI64 (asU64 (wrap i64Max s) &&& asU64 f.hi) = f.reduce s := by
  have half : 2 ^ f.bits ≤ 2 ^ 63 := Nat.pow_le_pow_right Nat.two_pos (valid.unsigned sign)
  have one : 1 ≤ 2 ^ f.bits := Nat.one_le_two_pow
  have mask : asU64 f.hi = 2 ^ f.bits - 1 := by
    rw [asU64, Field.hi, lo, Field.size]
    omega
  have mod := Nat.mod_lt (asU64 (wrap i64Max s)) (Nat.two_pow_pos f.bits)
  rw [mask, Nat.and_two_pow_sub_one_eq_mod, Field.asI64_of_lt (by omega), cast_asU64_mod valid,
    ← Field.reduce_wrap valid, Field.reduce, lo, Int.sub_zero, Int.add_zero]

/-- Out of the range of a field of fewer bits, the sum in 64 bits is out of it as well. -/
lemma incremented_narrow_iff (valid : f.Valid) (policy : OverflowPolicy)
    (narrow : f.bits ≠ 64) (low : f.lo ≤ old) (high : old ≤ f.hi) (least : -i64Max - 1 ≤ delta)
    (most : delta ≤ i64Max) (inside : ¬(f.lo ≤ old + delta ∧ old + delta ≤ f.hi)) :
    incremented f (f.lo, f.hi) policy old delta = f.expected policy (old + delta) ↔
      f.Handled policy (old + delta) := by
  obtain ⟨n, pos, large, small, signed, unsigned⟩ := valid.ends
  have reduced := f.reduce_mem (old + delta)
  have sum := wrap_cases (old + delta) (by have := valid.bounds; unfold i64Max at *; omega)
    (by have := valid.bounds; unfold i64Max at *; omega)
  have leaves : wrap i64Max (old + delta) < f.lo ∨ f.hi < wrap i64Max (old + delta) := by
    have := small narrow
    unfold i64Max at *
    cases sign : f.signed with
    | true =>
      have := signed sign
      omega
    | false =>
      have := unsigned sign
      omega
  have outside : incremented f (f.lo, f.hi) policy old delta = _ := if_pos leaves
  rw [outside, Field.Handled]
  cases policy with
  | wrap =>
    cases sign : f.signed with
    | true =>
      simp only [Field.expected, if_true, Option.some.injEq, inside, narrow, Bool.true_eq_false, iff_true,
        or_false, iff_false]
      omega
    | false =>
      simp only [Field.expected, Bool.false_eq_true, if_false, Option.some.injEq, true_or, or_true, iff_true]
      exact masked_eq_reduce valid sign (unsigned sign).1 _
  | sat =>
    have := valid.bounds
    simp only [Field.expected, Option.some.injEq, inside, narrow, reduceCtorEq, iff_self, or_true, iff_true]
    unfold i64Max at *
    split <;> omega
  | fail => simp [Field.expected, inside, narrow]

lemma incremented_eq_iff (valid : f.Valid) (policy : OverflowPolicy)
    (low : f.lo ≤ old) (high : old ≤ f.hi) (least : -i64Max - 1 ≤ delta) (most : delta ≤ i64Max) :
    incremented f (f.lo, f.hi) policy old delta = f.expected policy (old + delta) ↔
      f.Handled policy (old + delta) := by
  by_cases inside : f.lo ≤ old + delta ∧ old + delta ≤ f.hi
  · have same : wrap i64Max (old + delta) = old + delta := by
      have := valid.bounds
      unfold wrap i64Max
      omega
    rw [Field.expected_of_mem policy inside, incremented_inside (by omega) (by omega), same]
    exact ⟨fun _ => .inl inside, fun _ => rfl⟩
  · by_cases wide : f.bits = 64
    · exact incremented_wide_iff valid policy wide low high least most inside
    · exact incremented_narrow_iff valid policy wide low high least most inside

/-! ## The command -/

/-- What a key holds while a command runs: no value, or a string that does not expire. -/
def HoldsString (clock : Clock) (db : Db) (key : Bytes) : Option Bytes → Prop
  | none => db.lookup key = none
  | some s => ∃ e, db.lookup key = some e ∧ e.value = .string s ∧ ∀ n, e.isExpired (clock.instant n) = false

section
variable {checks : Bool} {clock : Clock} {db : Db} {key : Bytes} {f : Field} {s : Option Bytes}

lemma stringAt_of_holds (holds : HoldsString clock db key s) (n : ℕ) :
    stringAt (clock.instant n) key db = (.ok s, db) := by
  cases s with
  | none =>
    have look : db.lookup key = none := holds
    simp only [stringAt, Db.getTyped, Db.get, Db.live, look, Option.any_none, Bool.false_eq_true, if_false]
  | some s =>
    obtain ⟨e, look, value, fresh⟩ := holds
    simp only [stringAt, Db.getTyped, Db.get, Db.live, look, Option.any_some, fresh, Bool.false_eq_true,
      if_false, value, Value.typeName, if_true]

lemma bitfieldGet_of_holds (holds : HoldsString clock db key s) (n : ℕ) :
    bitfieldGet checks (clock.instant n) key f db = (orPanic (readField checks f (s.getD [])), db) := by
  rw [bitfieldGet, stringAt_of_holds holds]

lemma bitfieldSet_of_holds {old value : ℤ} {bytes : Bytes} (holds : HoldsString clock db key s)
    (read : readField checks f (s.getD []) = some old)
    (wrote : writeField checks f value (s.getD []) = some bytes) :
    ∃ db', bitfieldSet checks clock key f value db = (.ok old, db') ∧
      HoldsString clock db' key (some bytes) ∧ ∀ key', key' ≠ key → db'.lookup key' = db.lookup key' := by
  rw [bitfieldSet, bitfieldGet_of_holds holds, read]
  dsimp only [orPanic]
  rw [stringAt_of_holds holds]
  dsimp only
  rw [wrote]
  cases s with
  | none =>
    refine ⟨_, rfl, ⟨{ Entry.new (clock.system 2) (.string bytes) with
      version := ((db.lookup key).elim 0 Entry.version) + 1 }, ?_, rfl, fun n => rfl⟩, fun key' ne => ?_⟩
    · simp only [Option.isSome_none, Bool.false_eq_true, if_false, Db.write, Db.put, Table.lookup_modify,
        AList.lookup_insert, if_true, Option.map_some, Entry.new]
    · rw [Db.write, Table.lookup_modify, if_neg ne]
      exact AList.lookup_insert_ne ne
  | some s =>
    obtain ⟨e, look, value, fresh⟩ := holds
    simp only [Option.isSome_some, if_true]
    refine ⟨_, rfl, ⟨{ e with value := .string bytes }, ?_, rfl, fresh⟩, fun key' ne => ?_⟩
    · rw [Db.write, Table.lookup_modify, if_pos rfl, look, Option.map_some]
    · rw [Db.write, Table.lookup_modify, if_neg ne]

lemma bitfieldIncrby_of_holds {old : ℤ} (delta : ℤ) (valid : f.Valid) (policy : OverflowPolicy)
    (holds : HoldsString clock db key s) (read : readField checks f (s.getD []) = some old) :
    ∃ db', bitfieldIncrby checks clock key f delta policy db =
        (.ok (incremented f (f.lo, f.hi) policy old delta), db') ∧
      (incremented f (f.lo, f.hi) policy old delta = none → db' = db) ∧
      ∀ v ∈ incremented f (f.lo, f.hi) policy old delta, ∀ n,
        bitfieldGet checks (clock.instant n) key f db' = (.ok (f.reduce v), db') := by
  rw [bitfieldIncrby, bitfieldGet_of_holds holds, read, fieldRange_eq valid]
  dsimp only [orPanic]
  cases incremented f (f.lo, f.hi) policy old delta with
  | none => exact ⟨db, rfl, fun _ => rfl, fun v mem => by cases mem⟩
  | some v =>
    obtain ⟨bytes, wrote, back⟩ := readField_writeField valid checks v (s.getD [])
    obtain ⟨db', set, holds', -⟩ := bitfieldSet_of_holds holds read wrote
    dsimp only
    rw [set]
    refine ⟨db', rfl, fun none => (by cases none), fun v' mem n => ?_⟩
    cases mem
    rw [bitfieldGet_of_holds holds', Option.getD_some, back]
    rfl

/-- `INCRBY` answers what it has to, and a `GET` afterwards the same; where it answers nothing, nothing
changes. -/
def IncrbyMeets (checks : Bool) (clock : Clock) (key : Bytes) (f : Field) (policy : OverflowPolicy)
    (old delta : ℤ) (db : Db) : Prop :=
  match f.expected policy (old + delta) with
  | some v => ∃ db', bitfieldIncrby checks clock key f delta policy db = (.ok (some v), db') ∧
      ∀ n, bitfieldGet checks (clock.instant n) key f db' = (.ok v, db')
  | none => bitfieldIncrby checks clock key f delta policy db = (.ok none, db)

lemma Field.expected_mem {policy : OverflowPolicy} {sum v : ℤ} (v_mem : v ∈ f.expected policy sum)
    (ends : f.lo ≤ f.hi) : f.lo ≤ v ∧ v ≤ f.hi := by
  cases policy with
  | wrap =>
    cases v_mem
    exact f.reduce_mem sum
  | sat =>
    cases v_mem
    exact ⟨le_max_left .., max_le ends (min_le_left ..)⟩
  | fail =>
    rw [Field.expected] at v_mem
    split at v_mem
    · cases v_mem
      assumption
    · cases v_mem

/-- **`INCRBY` is exact** if and only if the sum is in the range of the field, or the field has no sign, or it
has 64 bits and wraps around, or fewer bits and does not. -/
theorem bitfieldIncrby_meets_iff {old delta : ℤ} (policy : OverflowPolicy) (valid : f.Valid)
    (least : -i64Max - 1 ≤ delta) (most : delta ≤ i64Max) (holds : HoldsString clock db key s)
    (get : (bitfieldGet checks (clock.instant 0) key f db).1 = .ok old) :
    IncrbyMeets checks clock key f policy old delta db ↔ f.Handled policy (old + delta) := by
  obtain ⟨old', read, low, high⟩ := exists_readField valid checks (s.getD [])
  obtain rfl : old' = old := by
    rw [bitfieldGet_of_holds holds, read] at get
    cases get
    rfl
  obtain ⟨db', ran, unchanged, back⟩ := bitfieldIncrby_of_holds delta valid policy holds read
  rw [← incremented_eq_iff valid policy low high least most]
  constructor
  · intro meets
    cases expected : f.expected policy (old' + delta) with
    | none =>
      simp only [IncrbyMeets, expected, ran, Prod.mk.injEq, Except.ok.injEq] at meets
      exact meets.1
    | some v =>
      simp only [IncrbyMeets, expected, ran, Prod.mk.injEq, Except.ok.injEq] at meets
      obtain ⟨_, same, _⟩ := meets
      exact same.1
  · intro same
    rw [IncrbyMeets, ← same]
    split
    next v eq =>
      refine ⟨db', by rw [ran, eq], fun n => ?_⟩
      have expected : f.expected policy (old' + delta) = some v := same ▸ eq
      have mem := Field.expected_mem expected (low.trans high)
      rw [back v eq n, Field.reduce_of_mem mem.1 mem.2]
    next eq => rw [ran, eq, unchanged eq]

end

/-- A database with one string. -/
def oneString (key bytes : Bytes) : Db := Db.put key (Entry.new 0 (.string bytes)) ∅

/-- No time passes. -/
def stillClock : Clock := ⟨fun _ => 0, fun _ => 0⟩

lemma holds_oneString (key bytes : Bytes) :
    HoldsString stillClock (oneString key bytes) key (some bytes) :=
  ⟨_, AList.lookup_insert _, rfl, fun _ => rfl⟩

/-- 250 + 10 in eight bits without a sign, saturated. -/
theorem bitfieldIncrby_meets_saturated :
    IncrbyMeets true stillClock [107] ⟨false, 8, 0⟩ .sat 250 10 (oneString [107] [250]) :=
  (bitfieldIncrby_meets_iff .sat ⟨by decide, by decide, by decide, by decide⟩ (by decide) (by decide)
    (holds_oneString [107] [250]) (by decide +kernel)).mpr (.inr (.inl rfl))

/-- 127 + 1 in eight bits with a sign is answered as 128 under `WRAP`, where -128 is stored; the greatest number
of 64 bits plus one is the least under `SAT`. -/
theorem bitfieldIncrby_not_meets :
    (bitfieldIncrby true stillClock [107] ⟨true, 8, 0⟩ 1 .wrap (oneString [107] [127])).1 = .ok (some 128) ∧
      ¬IncrbyMeets true stillClock [107] ⟨true, 8, 0⟩ .wrap 127 1 (oneString [107] [127]) ∧
      ¬IncrbyMeets true stillClock [107] ⟨true, 64, 0⟩ .sat 9223372036854775807 1
        (oneString [107] [127, 255, 255, 255, 255, 255, 255, 255]) := by
  have narrow : (bitfieldIncrby true stillClock [107] ⟨true, 8, 0⟩ 1 .wrap (oneString [107] [127])).1 =
    .ok (some 128) := by decide +kernel
  have wide : (bitfieldIncrby true stillClock [107] ⟨true, 64, 0⟩ 1 .sat
    (oneString [107] [127, 255, 255, 255, 255, 255, 255, 255])).1 =
    .ok (some (-9223372036854775808)) := by decide +kernel
  refine ⟨narrow, ?_, ?_⟩
  · rintro ⟨db', ran, -⟩
    rw [ran] at narrow
    exact absurd (Option.some.inj (Except.ok.inj narrow)) (by decide +kernel)
  · rintro ⟨db', ran, -⟩
    rw [ran] at wide
    exact absurd (Option.some.inj (Except.ok.inj wide)) (by decide +kernel)

end Cache
