import CaveRuntime.Cache.Bitfield
import CaveRuntime.Cache.Lists

/-!
# Ranges of bits

Model of `BITCOUNT` and `BITPOS` of `cave-cache/src/commands/bitmap.rs`. Both bring the ends of a range into the
string and go through the bytes between them; they are compared with the bits whose positions lie in the range. A
string is taken to have fewer than 2^60 bytes, so that the number of its bits is an `i64`.
-/

namespace Cache
open MachineInt Text Utf8

/-! ## The commands -/

/-- An end of a range is brought into `0..len`; there is no such place if `len` is zero. -/
def clampIndex (len i : ℤ) : ℕ := asU64 (if i < 0 then max (len + i) 0 else min i (len - 1))

def byteRange (start stop : ℤ) (len : ℕ) : ℕ × ℕ := (clampIndex len start, clampIndex len stop)

def bitRangeToBytes (start stop : ℤ) (len : ℕ) : ℕ × ℕ :=
  (clampIndex (8 * len : ℕ) start / 8, clampIndex (8 * len : ℕ) stop / 8)

/-- `count_ones`. -/
def countOnes (b : UInt8) : ℕ := (List.range 8).countP fun j => b.toNat.testBit (7 - j)

def bitcount (v : Bytes) (range : ℕ × ℕ) : ℕ :=
  if range.2 < range.1 ∨ v.length ≤ range.1 then 0
  else (((v.drop range.1).take (min range.2 (v.length - 1) - range.1 + 1)).map countOnes).sum

def bitcountRange (args : List Bytes) (len : ℕ) : Except Failure (ℕ × ℕ) :=
  match args with
  | a :: b :: unit =>
    match bytesToI64 a, bytesToI64 b with
    | some start, some stop =>
      .ok (if unit.head?.any (isWord "BIT") then bitRangeToBytes start stop len else byteRange start stop len)
    | _, _ => .error (.error .notInteger)
  | _ => .ok (0, len - 1)

def cmdBitcount (clock : Clock) (args : List Bytes) (db : Db) : Outcome :=
  if args.length < 2 ∨ 5 < args.length then (.error (.error (.wrongArity "bitcount")), db)
  else
    match stringAt (clock.instant 0) (args.getD 1 []) db with
    | (.error e, db) => (.error e, db)
    | (.ok none, db) => (.ok (.integer 0), db)
    | (.ok (some v), db) => ((bitcountRange (args.drop 2) v.length).map fun range => .integer
        (bitcount v range), db)

/-- The slice of bytes that is searched; a slice that starts behind its end panics. -/
def searchBytes (bytes : Bytes) (range : ℕ × ℕ) : Option Bytes :=
  if bytes = [] then some []
  else if range.1 < bytes.length then
    if min range.2 (bytes.length - 1) + 1 < range.1 then none
    else some ((bytes.drop range.1).take (min range.2 (bytes.length - 1) + 1 - range.1))
  else some []

/-- The two loops go through the bytes and through each byte from its most significant bit. -/
def firstBit (target : Bool) (bytes : Bytes) : Option ℕ :=
  (List.range (8 * bytes.length)).find? fun p => bitAt bytes p = target

def bitpos (target : Bool) (bytes : Bytes) (range : ℕ × ℕ) : Except Failure ℤ :=
  match searchBytes bytes range with
  | none => .error .panic
  | some found =>
    match firstBit target found with
    | some p => .ok (8 * range.1 + p : ℕ)
    | none => .ok (if target then -1 else (8 * bytes.length : ℕ))

def bitposRange (args : List Bytes) (len : ℕ) : Except Failure (ℕ × ℕ) :=
  match args with
  | a :: b :: _ =>
    match bytesToI64 a, bytesToI64 b with
    | some start, some stop => .ok (byteRange start stop len)
    | _, _ => .error (.error .notInteger)
  | [a] =>
    match bytesToI64 a with
    | some start => .ok (byteRange start (len - 1) len)
    | none => .error (.error .notInteger)
  | [] => .ok (0, len - 1)

def cmdBitpos (clock : Clock) (args : List Bytes) (db : Db) : Outcome :=
  match args with
  | _ :: key :: t :: range =>
    if bytesToI64 t = some 0 ∨ bytesToI64 t = some 1 then
      match stringAt (clock.instant 0) key db with
      | (.error e, db) => (.error e, db)
      | (.ok s, db) =>
        ((bitposRange range (s.getD []).length).bind fun range =>
          (bitpos (bytesToI64 t = some 1) (s.getD []) range).map .integer, db)
    else (.error (.error .bitValue), db)
  | _ => (.error (.error (.wrongArity "bitpos")), db)

/-! ## Counting -/

/-- The bits of the bytes between two places. -/
def covered (range : ℕ × ℕ) (p : ℕ) : Bool := range.1 ≤ p / 8 ∧ p / 8 ≤ range.2

lemma countP_range_mul (q : ℕ → Bool) (n : ℕ) :
    (List.range (8 * n)).countP q = ((List.range n).map fun i => (List.range 8).countP fun j =>
      q (8 * i + j)).sum := by
  induction n with
  | zero => rfl
  | succ n ih =>
    rw [Nat.mul_succ, List.range_add, List.countP_append, ih, List.range_succ (n := n), List.map_append,
      List.sum_append,
      List.countP_map]
    simp [Function.comp_def]

lemma sum_slice (f : UInt8 → ℕ) (v : Bytes) (a k : ℕ) :
    (((v.drop a).take k).map f).sum =
      ((List.range v.length).map fun i => if a ≤ i ∧ i < a + k then f (v.getD i 0) else 0).sum := by
  induction v generalizing a k with
  | nil => simp
  | cons x v ih =>
    rw [List.length_cons, List.range_succ_eq_map, List.map_cons, List.map_map, List.sum_cons]
    cases a with
    | zero =>
      cases k with
      | zero => simp [Function.comp_def]
      | succ k =>
        rw [List.drop_zero, List.take_succ_cons, List.map_cons, List.sum_cons, ← List.drop_zero (l := v), ih 0 k]
        simp [Function.comp_def]
    | succ a =>
      rw [List.drop_succ_cons, ih a k]
      simp [Function.comp_def, Nat.add_right_comm]

lemma bitAt_eq (v : Bytes) {i j : ℕ} (lt : i < v.length) (small : j < 8) :
    bitAt v (8 * i + j) = (v.getD i 0).toNat.testBit (7 - j) := by
  have place : (8 * i + j) / 8 = i := by omega
  have bit : (8 * i + j) % 8 = j := by omega
  rw [bitAt, place, bit, List.getElem?_eq_getElem lt, List.getD_eq_getElem?_getD, List.getElem?_eq_getElem lt]
  rfl

/-- The loop over the bytes counts the covered bits that are set. -/
lemma bitcount_eq (v : Bytes) (range : ℕ × ℕ) :
    bitcount v range = (List.range (8 * v.length)).countP fun p => covered range p && bitAt v p := by
  rw [countP_range_mul]
  have each (i : ℕ) (lt : i < v.length) :
      ((List.range 8).countP fun j => covered range (8 * i + j) && bitAt v (8 * i + j)) =
        if range.1 ≤ i ∧ i ≤ range.2 then countOnes (v.getD i 0) else 0 := by
    by_cases inside : range.1 ≤ i ∧ i ≤ range.2
    · rw [if_pos inside, countOnes]
      refine List.countP_congr fun j mem => ?_
      have small := List.mem_range.mp mem
      have place : (8 * i + j) / 8 = i := by omega
      rw [covered, place, bitAt_eq v lt small]
      simp [inside]
    · rw [if_neg inside, List.countP_eq_zero]
      intro j mem
      have small := List.mem_range.mp mem
      have place : (8 * i + j) / 8 = i := by omega
      rw [covered, place]
      simp [inside]
  rw [List.map_congr_left fun i mem => each i (List.mem_range.mp mem)]
  unfold bitcount
  split
  · rename_i none
    have zero : ∀ i ∈ List.range v.length,
        (if range.1 ≤ i ∧ i ≤ range.2 then countOnes (v.getD i 0) else 0) = 0 := by
      intro i mem
      have lt := List.mem_range.mp mem
      exact if_neg (by omega)
    rw [List.map_congr_left zero]
    simp
  · rename_i some
    rw [sum_slice]
    refine congrArg List.sum (List.map_congr_left fun i mem => ?_)
    have lt := List.mem_range.mp mem
    refine if_congr ?_ rfl rfl
    omega

/-- The unit of a range. -/
inductive RangeUnit
  | byte
  | bit

/-- The bit at a position lies in the range. -/
def selected (unit : RangeUnit) (len : ℕ) (start stop : ℤ) (p : ℕ) : Bool :=
  match unit with
  | .byte => position len start ≤ (p / 8 : ℕ) ∧ (p / 8 : ℕ) ≤ position len stop
  | .bit => position (8 * len) start ≤ p ∧ p ≤ position (8 * len) stop

/-- The bytes that are gone through for a range. -/
def RangeUnit.bytes (unit : RangeUnit) (start stop : ℤ) (len : ℕ) : ℕ × ℕ :=
  match unit with
  | .byte => byteRange start stop len
  | .bit => bitRangeToBytes start stop len

lemma clampIndex_eq {n : ℕ} (i : ℤ) (some : 0 < n) (small : n < 2 ^ 63) :
    (clampIndex n i : ℤ) = max 0 (min (position n i) (n - 1)) := by
  unfold clampIndex asU64 position
  split_ifs <;> omega

lemma covered_of_selected {unit : RangeUnit} {len p : ℕ} {start stop : ℤ} (small : len < 2 ^ 60)
    (lt : p < 8 * len) (inside : selected unit len start stop p = true) :
    covered (unit.bytes start stop len) p = true := by
  have some : 0 < len := by omega
  cases unit with
  | byte =>
    obtain ⟨low, high⟩ := of_decide_eq_true inside
    have first := clampIndex_eq start some (by omega)
    have last := clampIndex_eq stop some (by omega)
    refine decide_eq_true ?_
    change clampIndex len start ≤ p / 8 ∧ p / 8 ≤ clampIndex len stop
    omega
  | bit =>
    obtain ⟨low, high⟩ := of_decide_eq_true inside
    have first := clampIndex_eq start (show 0 < 8 * len by omega) (by omega)
    have last := clampIndex_eq stop (show 0 < 8 * len by omega) (by omega)
    refine decide_eq_true ?_
    change clampIndex (8 * len : ℕ) start / 8 ≤ p / 8 ∧ p / 8 ≤ clampIndex (8 * len : ℕ) stop / 8
    omega

lemma countP_eq_iff_of_imp {q r : ℕ → Bool} {l : List ℕ} (imp : ∀ p ∈ l, r p = true → q p = true) :
    l.countP q = l.countP r ↔ ∀ p ∈ l, q p = true → r p = true := by
  induction l with
  | nil => simp
  | cons p l ih =>
    have le : l.countP r ≤ l.countP q := List.countP_mono_left fun p mem => imp p (List.mem_cons_of_mem _ mem)
    have here := imp p List.mem_cons_self
    have later := ih fun p mem => imp p (List.mem_cons_of_mem _ mem)
    rw [List.countP_cons, List.countP_cons, List.forall_mem_cons, ← later]
    by_cases wide : q p = true
    · by_cases narrow : r p = true
      · rw [if_pos wide, if_pos narrow, Nat.add_right_cancel_iff]
        exact ⟨fun same => ⟨fun _ => narrow, same⟩, And.right⟩
      · rw [if_pos wide, if_neg narrow]
        exact iff_of_false (by omega) fun h => narrow (h.1 wide)
    · rw [if_neg wide, if_neg fun narrow => wide (here narrow)]
      exact ⟨fun same => ⟨fun yes => absurd yes wide, same⟩, And.right⟩

/-- How many bits of the range are set. -/
def setBitsIn (unit : RangeUnit) (start stop : ℤ) (v : Bytes) : ℕ :=
  (List.range (8 * v.length)).countP fun p => selected unit v.length start stop p && bitAt v p

lemma bitcount_eq_iff {unit : RangeUnit} {start stop : ℤ} {v : Bytes} (small : v.length < 2 ^ 60) :
    bitcount v (unit.bytes start stop v.length) = setBitsIn unit start stop v ↔
      ∀ p < 8 * v.length, covered (unit.bytes start stop v.length) p = true → bitAt v p = true →
        selected unit v.length start stop p = true := by
  rw [bitcount_eq, setBitsIn, countP_eq_iff_of_imp]
  · simp only [List.mem_range, Bool.and_eq_true]
    exact forall₂_congr fun p _ => ⟨fun h c b => (h ⟨c, b⟩).1, fun h cb => ⟨h cb.1 cb.2, cb.2⟩⟩
  · intro p mem inside
    obtain ⟨inside, set⟩ := Bool.and_eq_true_iff.mp inside
    rw [covered_of_selected small (List.mem_range.mp mem) inside, set]
    rfl

/-! ## The first bit -/

/-- The first bit of the range with the value. -/
def firstIn (target : Bool) (start stop : ℤ) (v : Bytes) : Option ℕ :=
  (List.range (8 * v.length)).find? fun p => selected .byte v.length start stop p && bitAt v p = target

section
variable {target : Bool} {v : Bytes} {range : ℕ × ℕ}

lemma find_congr {q r : ℕ → Bool} {l : List ℕ} (same : ∀ p ∈ l, q p = r p) : l.find? q = l.find? r := by
  induction l with
  | nil => rfl
  | cons p l ih =>
    rw [List.find?_cons, List.find?_cons, same p List.mem_cons_self,
      ih fun p mem => same p (List.mem_cons_of_mem _ mem)]

lemma bitAt_slice {a k p : ℕ} (lt : p < 8 * k) : bitAt ((v.drop a).take k) p = bitAt v (8 * a + p) := by
  have place : (8 * a + p) / 8 = a + p / 8 := by omega
  have bit : (8 * a + p) % 8 = p % 8 := by omega
  rw [bitAt, bitAt, place, bit, List.getElem?_take_of_lt (by omega), List.getElem?_drop]

/-- The first such bit of the covered bytes is found in them alone. -/
lemma find_covered {a k m : ℕ} (length : v.length = a + k + m) (spans : ∀ i < v.length, a ≤ i ∧ i < a + k ↔
      range.1 ≤ i ∧ i ≤ range.2) :
    (List.range (8 * v.length)).find? (fun p => covered range p && decide (bitAt v p = target)) =
      (firstBit target ((v.drop a).take k)).map (8 * a + ·) := by
  have inside {p : ℕ} (lt : p < 8 * v.length) : covered range p = decide (a ≤ p / 8 ∧ p / 8 < a + k) := by
    rw [covered, decide_eq_decide]
    exact (spans (p / 8) (by omega)).symm
  have size : ((v.drop a).take k).length = k := by
    rw [List.length_take, List.length_drop]
    omega
  have before : (List.range (8 * a)).find? (fun p => covered range p && decide (bitAt v p = target)) = none := by
    refine List.find?_eq_none.mpr fun p mem => ?_
    have lt := List.mem_range.mp mem
    rw [inside (by omega)]
    simp
    omega
  have after : ((List.range (8 * m)).map (8 * a + 8 * k + ·)).find?
      (fun p => covered range p && decide (bitAt v p = target)) = none := by
    refine List.find?_eq_none.mpr fun p mem => ?_
    obtain ⟨q, mem', rfl⟩ := List.mem_map.mp mem
    have lt := List.mem_range.mp mem'
    rw [inside (by omega)]
    simp
    omega
  have split : 8 * v.length = 8 * a + 8 * k + 8 * m := by omega
  rw [split, List.range_add, List.range_add, List.find?_append, List.find?_append, before, after, Option.none_or,
    Option.or_none, List.find?_map, firstBit, size]
  congr 1
  refine find_congr fun p mem => ?_
  have lt := List.mem_range.mp mem
  rw [Function.comp_apply, inside (by omega), bitAt_slice lt]
  have place : a ≤ (8 * a + p) / 8 ∧ (8 * a + p) / 8 < a + k := by omega
  simp [place]

/-- Without a panic, `BITPOS` returns the first bit of these bytes, or says that there is none. -/
lemma bitpos_eq (ok : v = [] ∨ range.1 ≤ range.2 + 1) :
    bitpos target v range = .ok (match (List.range (8 * v.length)).find?
        (fun p => covered range p && decide (bitAt v p = target)) with
      | some p => (p : ℤ)
      | none => if target then -1 else (8 * v.length : ℕ)) := by
  unfold bitpos searchBytes
  by_cases empty : v = []
  · subst empty
    rfl
  have ok := ok.resolve_left empty
  rw [if_neg empty]
  by_cases lt : range.1 < v.length
  · rw [if_pos lt, if_neg (by omega)]
    dsimp only
    rw [find_covered (a := range.1) (k := min range.2 (v.length - 1) + 1 - range.1)
      (m := v.length - 1 - min range.2 (v.length - 1) + (range.1 - (min range.2 (v.length - 1) + 1))) (by omega)
      (by omega)]
    cases firstBit target ((v.drop range.1).take (min range.2 (v.length - 1) + 1 - range.1)) <;> rfl
  · rw [if_neg lt]
    have none : (List.range (8 * v.length)).find? (fun p => covered range p && decide (bitAt v p = target)) =
      none := by
      refine List.find?_eq_none.mpr fun p mem => ?_
      have lt := List.mem_range.mp mem
      simp only [covered, Bool.and_eq_true, decide_eq_true_eq]
      omega
    rw [none]
    rfl

lemma bitpos_panics (some : v ≠ []) (lt : range.1 < v.length) (reversed : range.2 + 1 < range.1) :
    bitpos target v range = .error .panic := by
  rw [bitpos, searchBytes, if_neg some, if_pos lt, if_pos (by omega)]

/-- Where the range has a bit of the string, it is brought into the string without a change. -/
lemma covered_iff_selected {start stop : ℤ} (small : v.length < 2 ^ 60) {q : ℕ} (lt : q < 8 * v.length)
    (inside : selected .byte v.length start stop q = true) {p : ℕ} (lt' : p < 8 * v.length) :
    covered (byteRange start stop v.length) p = selected .byte v.length start stop p := by
  obtain ⟨low, high⟩ := of_decide_eq_true inside
  have first := clampIndex_eq start (show 0 < v.length by omega) (by omega)
  have last := clampIndex_eq stop (show 0 < v.length by omega) (by omega)
  rw [covered, selected, decide_eq_decide]
  change clampIndex v.length start ≤ p / 8 ∧ p / 8 ≤ clampIndex v.length stop ↔ _
  omega

lemma bitpos_of_firstIn {start stop : ℤ} {p : ℕ} (small : v.length < 2 ^ 60)
    (found : firstIn target start stop v = some p) :
    bitpos target v (byteRange start stop v.length) = .ok (p : ℤ) := by
  have mem := List.mem_range.mp (List.mem_of_find?_eq_some found)
  have inside : selected .byte v.length start stop p = true := by
    have := List.find?_some found
    simp only [Bool.and_eq_true] at this
    exact this.1
  have reached := covered_of_selected small mem inside
  have ok : (byteRange start stop v.length).1 ≤ (byteRange start stop v.length).2 + 1 := by
    have := of_decide_eq_true reached
    change (byteRange start stop v.length).1 ≤ p / 8 ∧ p / 8 ≤ (byteRange start stop v.length).2 at this
    omega
  have same : (List.range (8 * v.length)).find?
      (fun p => covered (byteRange start stop v.length) p && decide (bitAt v p = target)) = some p := by
    rw [← found, firstIn]
    refine find_congr fun q mem' => ?_
    rw [covered_iff_selected small mem inside (List.mem_range.mp mem')]
  rw [bitpos_eq (.inr ok), same]

lemma firstIn_eq_none_iff {start stop : ℤ} : firstIn target start stop v = none ↔
    ¬∃ p < 8 * v.length, selected .byte v.length start stop p = true ∧ bitAt v p = target := by
  rw [firstIn, List.find?_eq_none]
  simp only [List.mem_range, Bool.and_eq_true, decide_eq_true_eq, not_exists, not_and]

/-- When `BITPOS` with an end answers the first such bit of the range, or -1. -/
lemma bitpos_eq_iff {start stop : ℤ} (small : v.length < 2 ^ 60) :
    bitpos target v (byteRange start stop v.length) =
        .ok (((firstIn target start stop v).map fun p : ℕ => (p : ℤ)).getD (-1)) ↔
      (∃ p < 8 * v.length, selected .byte v.length start stop p = true ∧ bitAt v p = target) ∨
        target = true ∧ (v = [] ∨ (byteRange start stop v.length).1 ≤ (byteRange start stop v.length).2 + 1) ∧
          ∀ p < 8 * v.length, covered (byteRange start stop v.length) p = true → bitAt v p = false := by
  cases found : firstIn target start stop v with
  | some p =>
    refine iff_of_true (bitpos_of_firstIn small found) (.inl ?_)
    by_contra none
    rw [firstIn_eq_none_iff.mpr none] at found
    cases found
  | none =>
    rw [or_iff_right (firstIn_eq_none_iff.mp found)]
    by_cases ok : v = [] ∨ (byteRange start stop v.length).1 ≤ (byteRange start stop v.length).2 + 1
    · rw [bitpos_eq ok]
      cases reached : (List.range (8 * v.length)).find?
          (fun p => covered (byteRange start stop v.length) p && decide (bitAt v p = target)) with
      | some p =>
        have lt := List.mem_range.mp (List.mem_of_find?_eq_some reached)
        have here := List.find?_some reached
        simp only [Bool.and_eq_true, decide_eq_true_eq] at here
        refine iff_of_false (fun same => ?_) ?_
        · injection same with same
          simp only [Option.map_none, Option.getD_none] at same
          omega
        · rintro ⟨rfl, -, all⟩
          rw [all p lt here.1] at here
          cases here.2
      | none =>
        have all := List.find?_eq_none.mp reached
        simp only [List.mem_range, Bool.and_eq_true, decide_eq_true_eq, not_and] at all
        cases target with
        | true => exact iff_of_true rfl ⟨rfl, ok, fun p lt cov => Bool.eq_false_iff.mpr (all p lt cov)⟩
        | false =>
          refine iff_of_false (fun same => ?_) fun h => by cases h.1
          injection same with same
          simp at same
          omega
    · obtain ⟨some, reversed⟩ := not_or.mp ok
      have lt : (byteRange start stop v.length).1 < v.length := by
        have pos := List.length_pos_of_ne_nil some
        have first := clampIndex_eq start pos (by omega)
        change clampIndex v.length start < v.length
        omega
      rw [bitpos_panics some lt (by omega)]
      exact iff_of_false (fun same => by cases same) fun h => ok h.2.1

lemma bitpos_to_end (small : v.length < 2 ^ 60) (start : ℤ) :
    ∃ r, bitpos target v (byteRange start (v.length - 1) v.length) = .ok r ∧
      ∀ p, firstIn target start (v.length - 1) v = some p → r = p := by
  cases found : firstIn target start (v.length - 1) v with
  | some p => exact ⟨p, bitpos_of_firstIn small found, fun q eq => by cases eq; rfl⟩
  | none =>
    refine ⟨_, bitpos_eq ?_, fun q eq => by cases eq⟩
    by_cases empty : v = []
    · exact .inl empty
    · have pos := List.length_pos_of_ne_nil empty
      have first := clampIndex_eq start pos (by omega)
      have last := clampIndex_eq (v.length - 1) pos (by omega)
      refine .inr ?_
      change clampIndex v.length start ≤ clampIndex v.length (v.length - 1) + 1
      unfold position at last
      split_ifs at last <;> omega

lemma bitpos_whole (small : v.length < 2 ^ 60) :
    bitpos target v (0, v.length - 1) = bitpos target v (byteRange 0 (v.length - 1) v.length) := by
  by_cases empty : v = []
  · rw [empty]
    rfl
  · have pos := List.length_pos_of_ne_nil empty
    have first := clampIndex_eq 0 pos (by omega)
    have last := clampIndex_eq (v.length - 1) pos (by omega)
    unfold position at first last
    rw [if_neg (by omega)] at first last
    congr 1
    refine Prod.ext ?_ ?_
    · change 0 = clampIndex v.length 0
      omega
    · change v.length - 1 = clampIndex v.length (v.length - 1)
      omega

end

/-! ## The commands on a stored string -/

section
variable {clock : Clock} {db : Db} {key v a b t : Bytes} {m n : ℤ} {target : Bool}

lemma cmdBitcount_eq (holds : HoldsString clock db key (some v)) (name : Bytes) (args : List Bytes)
    (few : args.length ≤ 3) : cmdBitcount clock (name :: key :: args) db =
      ((bitcountRange args v.length).map fun range => .integer (bitcount v range), db) := by
  unfold cmdBitcount
  rw [if_neg (by simp only [List.length_cons]; omega)]
  simp only [List.getD_cons_succ, List.getD_cons_zero, stringAt_of_holds holds, List.drop_succ_cons,
    List.drop_zero]

lemma cmdBitpos_eq (holds : HoldsString clock db key (some v)) (wanted : bytesToI64 t = some (target.toNat : ℤ))
    (name : Bytes) (args : List Bytes) : cmdBitpos clock (name :: key :: t :: args) db =
      ((bitposRange args v.length).bind fun range => (bitpos target v range).map .integer, db) := by
  have value : (bytesToI64 t = some 0 ∨ bytesToI64 t = some 1) ∧ decide (bytesToI64 t = some 1) = target := by
    rw [wanted]
    cases target <;> decide
  simp only [cmdBitpos, if_pos value.1, value.2, stringAt_of_holds holds, Option.getD_some]

lemma integer_inj {i j : ℤ} :
    ((Except.ok (Resp.integer i) : Except Failure Resp), db) = (.ok (.integer j), db) ↔ i = j := by
  constructor
  · intro same
    injection same with same
    injection same with same
    injection same
  · intro same
    rw [same]

lemma bitcount_whole (v : Bytes) : bitcount v (0, v.length - 1) = (List.range (8 * v.length)).countP (bitAt v) := by
  rw [bitcount_eq, List.countP_congr]
  intro p mem
  have lt := List.mem_range.mp mem
  have all : covered (0, v.length - 1) p = true := decide_eq_true ⟨Nat.zero_le _, by
    change p / 8 ≤ v.length - 1
    omega⟩
  rw [all, Bool.true_and]

lemma cmdBitpos_between_iff (holds : HoldsString clock db key (some v)) (small : v.length < 2 ^ 60)
    (first : bytesToI64 a = some m) (second : bytesToI64 b = some n)
    (wanted : bytesToI64 t = some (target.toNat : ℤ)) (name : Bytes) :
    cmdBitpos clock [name, key, t, a, b] db =
        (.ok (.integer (((firstIn target m n v).map fun p : ℕ => (p : ℤ)).getD (-1))), db) ↔
      (∃ p < 8 * v.length, selected .byte v.length m n p = true ∧ bitAt v p = target) ∨
        target = true ∧ (v = [] ∨ (byteRange m n v.length).1 ≤ (byteRange m n v.length).2 + 1) ∧
          ∀ p < 8 * v.length, covered (byteRange m n v.length) p = true → bitAt v p = false := by
  rw [cmdBitpos_eq holds wanted name [a, b], ← bitpos_eq_iff small]
  simp only [bitposRange, first, second]
  rw [Except.bind]
  cases bitpos target v (byteRange m n v.length) with
  | error e => exact iff_of_false (fun same => by cases congrArg Prod.fst same) fun same => by cases same
  | ok r => exact integer_inj.trans ⟨fun same => congrArg Except.ok same, Except.ok.inj⟩

end

/-- The place of `0..n` that is nearest to an end of a range. -/
def nearest (n : ℕ) (i : ℤ) : ℤ := max 0 (min (position n i) (n - 1))

lemma clampIndex_nearest {n : ℕ} (i : ℤ) (some : 0 < n) (small : n < 2 ^ 63) : nearest n i = clampIndex n i :=
  (clampIndex_eq i some small).symm

lemma covered_byteRange_iff {len p : ℕ} {m n : ℤ} (small : len < 2 ^ 60) (lt : p < 8 * len) :
    covered (byteRange m n len) p = true ↔ nearest len m ≤ (p / 8 : ℕ) ∧ ((p / 8 : ℕ) : ℤ) ≤ nearest len n := by
  rw [clampIndex_nearest m (by omega) (by omega), clampIndex_nearest n (by omega) (by omega), covered,
    decide_eq_true_eq, Int.ofNat_le, Int.ofNat_le]
  rfl

lemma covered_bitRangeToBytes_iff {len p : ℕ} {m n : ℤ} (small : len < 2 ^ 60) (lt : p < 8 * len) :
    covered (bitRangeToBytes m n len) p = true ↔
      nearest (8 * len) m / 8 ≤ (p / 8 : ℕ) ∧ ((p / 8 : ℕ) : ℤ) ≤ nearest (8 * len) n / 8 := by
  rw [clampIndex_nearest m (by omega) (by omega), clampIndex_nearest n (by omega) (by omega), covered,
    decide_eq_true_eq]
  change clampIndex (8 * len : ℕ) m / 8 ≤ p / 8 ∧ p / 8 ≤ clampIndex (8 * len : ℕ) n / 8 ↔ _
  omega

/-- **Ranges of bits**: `BITCOUNT` is right exactly if no bit outside of the range is set in the bytes it goes
through, and `BITPOS` with an end exactly if the range has a bit with the value or the value is 1, the slice is
not reversed and no bit of the bytes it goes through is set. -/
theorem bitRanges_iff {clock : Clock} {db : Db} {key v : Bytes} (holds : HoldsString clock db key (some v))
    (small : v.length < 2 ^ 60) {a b t unit : Bytes} {m n : ℤ} (first : bytesToI64 a = some m)
    (second : bytesToI64 b = some n) (target : Bool) (wanted : bytesToI64 t = some (target.toNat : ℤ))
    (isBit : isWord "BIT" unit = true) (name : Bytes) :
    cmdBitcount clock [name, key] db =
        (.ok (.integer ((List.range (8 * v.length)).countP (bitAt v) : ℕ)), db) ∧
      (cmdBitcount clock [name, key, a, b] db = (.ok (.integer (setBitsIn .byte m n v)), db) ↔
        ∀ p < 8 * v.length, nearest v.length m ≤ (p / 8 : ℕ) ∧ ((p / 8 : ℕ) : ℤ) ≤ nearest v.length n →
          bitAt v p = true → selected .byte v.length m n p = true) ∧
      (cmdBitcount clock [name, key, a, b, unit] db = (.ok (.integer (setBitsIn .bit m n v)), db) ↔
        ∀ p < 8 * v.length,
          nearest (8 * v.length) m / 8 ≤ (p / 8 : ℕ) ∧ ((p / 8 : ℕ) : ℤ) ≤ nearest (8 * v.length) n / 8 →
          bitAt v p = true → selected .bit v.length m n p = true) ∧
      (∃ r, cmdBitpos clock [name, key, t] db = (.ok (.integer r), db) ∧
        ∀ p, firstIn target 0 (v.length - 1) v = some p → r = p) ∧
      (∃ r, cmdBitpos clock [name, key, t, a] db = (.ok (.integer r), db) ∧
        ∀ p, firstIn target m (v.length - 1) v = some p → r = p) ∧
      (cmdBitpos clock [name, key, t, a, b] db =
          (.ok (.integer (((firstIn target m n v).map fun p : ℕ => (p : ℤ)).getD (-1))), db) ↔
        (∃ p < 8 * v.length, selected .byte v.length m n p = true ∧ bitAt v p = target) ∨
          target = true ∧ (v = [] ∨ nearest v.length m ≤ nearest v.length n + 1) ∧
            ∀ p < 8 * v.length, nearest v.length m ≤ (p / 8 : ℕ) ∧ ((p / 8 : ℕ) : ℤ) ≤ nearest v.length n →
              bitAt v p = false) := by
  have bytes (q : ℕ → Prop) : (∀ p < 8 * v.length, covered (byteRange m n v.length) p = true → q p) ↔
      ∀ p < 8 * v.length, nearest v.length m ≤ (p / 8 : ℕ) ∧ ((p / 8 : ℕ) : ℤ) ≤ nearest v.length n → q p :=
    forall₂_congr fun p lt => imp_congr_left (covered_byteRange_iff small lt)
  have ordered : v = [] ∨ (byteRange m n v.length).1 ≤ (byteRange m n v.length).2 + 1 ↔
      v = [] ∨ nearest v.length m ≤ nearest v.length n + 1 := by
    refine or_congr_right' fun some => ?_
    have pos := List.length_pos_of_ne_nil some
    rw [clampIndex_nearest m pos (by omega), clampIndex_nearest n pos (by omega)]
    exact Int.ofNat_le.symm
  refine ⟨?_, ?_, ?_, ?_, ?_, ?_⟩
  · rw [cmdBitcount_eq holds name [] (Nat.zero_le 3), ← bitcount_whole]
    rfl
  · rw [cmdBitcount_eq holds name [a, b] (by simp)]
    simp only [bitcountRange, first, second, List.head?_nil, Option.any_none, Bool.false_eq_true, if_false]
    exact integer_inj.trans (Int.natCast_inj.trans ((@bitcount_eq_iff .byte m n v small).trans (bytes _)))
  · rw [cmdBitcount_eq holds name [a, b, unit] (by simp)]
    simp only [bitcountRange, first, second, List.head?_cons, Option.any_some, isBit, if_true]
    refine integer_inj.trans (Int.natCast_inj.trans ((@bitcount_eq_iff .bit m n v small).trans ?_))
    exact forall₂_congr fun p lt => imp_congr_left (covered_bitRangeToBytes_iff small lt)
  · obtain ⟨r, eq, here⟩ := @bitpos_to_end target v small 0
    rw [← bitpos_whole small] at eq
    refine ⟨r, ?_, here⟩
    rw [cmdBitpos_eq holds wanted name []]
    simp only [bitposRange]
    rw [Except.bind, eq]
    rfl
  · obtain ⟨r, eq, here⟩ := @bitpos_to_end target v small m
    refine ⟨r, ?_, here⟩
    rw [cmdBitpos_eq holds wanted name [a]]
    simp only [bitposRange, first]
    rw [Except.bind, eq]
    rfl
  · rw [cmdBitpos_between_iff holds small first second wanted name, ordered, bytes]

theorem bitRanges_first :
    cmdBitpos stillClock [[], [107], word "1", word "0", word "0"] (oneString [107] [3]) =
      (.ok (.integer 6), oneString [107] [3]) := by
  have all := @bitRanges_iff stillClock (oneString [107] [3]) [107] [3] (holds_oneString [107] [3]) (by decide)
    (word "0") (word "0") (word "1") (word "bit") 0 0 (by decide) (by decide) true (by decide) (by decide) []
  exact all.2.2.2.2.2.mpr (.inl ⟨6, by decide, by decide, by decide⟩)

/-- Of the two bytes `0x0F`, `BITCOUNT` counts the last one for the range from 7 to 9 and all its bits for the
bits from 8 to 8; `BITPOS` of a 0 in bytes that are all set answers 8 and not -1, and with the ends reversed it
panics. -/
theorem bitRanges_wrong :
    (cmdBitcount stillClock [[], [107], word "7", word "9"] (oneString [107] [15, 15])).1 ≠
        .ok (.integer (setBitsIn .byte 7 9 [15, 15])) ∧
      (cmdBitcount stillClock [[], [107], word "8", word "8", word "BIT"] (oneString [107] [15, 15])).1 ≠
        .ok (.integer (setBitsIn .bit 8 8 [15, 15])) ∧
      (cmdBitpos stillClock [[], [107], word "0", word "0", word "0"] (oneString [107] [255])).1 ≠
        .ok (.integer (((firstIn false 0 0 [255]).map fun p : ℕ => (p : ℤ)).getD (-1))) ∧
      (cmdBitpos stillClock [[], [107], word "1", word "2", word "0"] (oneString [107] [1, 1, 1])).1 =
        .error .panic := by
  refine ⟨fun same => ?_, fun same => ?_, fun same => ?_, rfl⟩
  · cases same
  · cases same
  · cases same

end Cache
