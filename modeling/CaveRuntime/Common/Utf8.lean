import Mathlib.Data.List.TakeWhile
import Mathlib.Tactic.Common

/-!
# Strings as UTF-8

Rust's `String` is a byte string that is valid UTF-8, and `String::from_utf8_lossy` makes one from any
bytes, with U+FFFD for each piece that starts no character. A byte string is valid exactly if that
changes nothing, which is how `Str` says it.
-/

namespace Utf8

abbrev Bytes := List UInt8

/-- The bytes that may follow a first byte of a character of more than one byte. -/
def isSecond (first b : UInt8) : Bool :=
  match first with
  | 0xE0 => 0xA0 ≤ b && b ≤ 0xBF
  | 0xED => 0x80 ≤ b && b ≤ 0x9F
  | 0xF0 => 0x90 ≤ b && b ≤ 0xBF
  | 0xF4 => 0x80 ≤ b && b ≤ 0x8F
  | _ => 0x80 ≤ b && b ≤ 0xBF

/-- The number of bytes after the first byte of a character; no character starts with another byte. -/
def following (first : UInt8) : Option ℕ :=
  if first < 0x80 then some 0
  else if first < 0xC2 then none
  else if first < 0xE0 then some 1
  else if first < 0xF0 then some 2
  else if first ≤ 0xF4 then some 3
  else none

/-- How many of the bytes after `first` go on with a character that needs `n` more. -/
def matched (first : UInt8) (n : ℕ) : Bytes → ℕ
  | [] => 0
  | b :: l =>
    if isSecond first b then ((l.take (n - 1)).takeWhile fun c => 0x80 ≤ c && c ≤ 0xBF).length + 1 else 0

/-- The loop of `from_utf8_lossy`; the number of bytes is fuel enough. -/
def lossyLoop : ℕ → Bytes → Bytes
  | 0, _ => []
  | _, [] => []
  | fuel + 1, b :: l =>
    match following b with
    | none => [0xEF, 0xBF, 0xBD] ++ lossyLoop fuel l
    | some 0 => b :: lossyLoop fuel l
    | some n =>
      let k := matched b n l
      (if k = n then b :: l.take k else [0xEF, 0xBF, 0xBD]) ++ lossyLoop fuel (l.drop k)

def fromUtf8Lossy (b : Bytes) : Bytes := lossyLoop b.length b

/-- The first byte of a character and the bytes after it. -/
structure IsChar (first : UInt8) (tail : Bytes) : Prop where
  following : following first = some tail.length
  matched : ∀ l, tail ≠ [] → matched first tail.length (tail ++ l) = tail.length

/-- Characters, one after the other. -/
inductive Chars : Bytes → Prop
  | nil : Chars []
  | cons {first : UInt8} {tail l : Bytes} : IsChar first tail → Chars l → Chars (first :: (tail ++ l))

lemma isChar_replacement : IsChar 0xEF [0xBF, 0xBD] := ⟨by decide, fun _ _ => rfl⟩

lemma isChar_of_matched {first : UInt8} {n : ℕ} {l : Bytes} (more : following first = some (n + 1))
    (all : matched first (n + 1) l = n + 1) : IsChar first (l.take (n + 1)) := by
  cases l with
  | nil => cases all
  | cons b l =>
    simp only [Utf8.matched, Nat.add_sub_cancel] at all
    split at all
    · rename_i second
      have long : ((l.take n).takeWhile fun c => 0x80 ≤ c && c ≤ 0xBF).length = n := Nat.succ.inj all
      have len : (l.take n).length = n := by
        apply Nat.le_antisymm
        · exact List.length_take_le n l
        · have le := (List.takeWhile_sublist (l := l.take n) fun c => 0x80 ≤ c && c ≤ 0xBF).length_le
          rwa [long] at le
      refine ⟨?_, ?_⟩
      · rw [more, List.take_succ_cons, List.length_cons, len]
      · intro l' _
        have again : ((l.take n ++ l').take n) = l.take n := List.take_left' len
        rw [List.take_succ_cons, List.length_cons, len, List.cons_append]
        simp only [Utf8.matched, Nat.add_sub_cancel, if_pos second, again, long]
    · cases all

lemma chars_lossyLoop (fuel : ℕ) (b : Bytes) : Chars (lossyLoop fuel b) := by
  induction fuel generalizing b with
  | zero => exact .nil
  | succ fuel ih =>
    cases b with
    | nil => exact .nil
    | cons first l =>
      unfold lossyLoop
      split
      · exact .cons isChar_replacement (ih l)
      · rename_i single
        exact .cons ⟨single, fun _ h => absurd rfl h⟩ (ih l)
      · rename_i n many more
        dsimp only
        split
        · rename_i all
          cases n with
          | zero => exact absurd rfl many
          | succ n =>
            rw [all]
            exact .cons (isChar_of_matched more all) (ih _)
        · exact .cons isChar_replacement (ih _)

lemma Chars.lossyLoop {b : Bytes} (cs : Chars b) {fuel : ℕ} (enough : b.length ≤ fuel) :
    lossyLoop fuel b = b := by
  induction cs generalizing fuel with
  | nil => cases fuel <;> rfl
  | @cons first tail l hc _ ih =>
    cases fuel with
    | zero => simp at enough
    | succ fuel =>
      simp only [List.length_cons, List.length_append] at enough
      have rest : Utf8.lossyLoop fuel l = l := ih (by omega)
      cases tail with
      | nil =>
        have single : Utf8.following first = some 0 := hc.following
        simp only [List.nil_append, Utf8.lossyLoop, single, rest]
      | cons c tail =>
        have more : Utf8.following first = some (tail.length + 1) := hc.following
        have all : Utf8.matched first (tail.length + 1) (c :: tail ++ l) = tail.length + 1 :=
          hc.matched l (by simp)
        simp only [Utf8.lossyLoop, more, all, if_true]
        rw [List.take_left' (by simp), List.drop_left' (by simp), rest]
        rfl

lemma chars_of_valid {b : Bytes} (valid : fromUtf8Lossy b = b) : Chars b := valid ▸ chars_lossyLoop _ b

lemma Chars.append {a b : Bytes} (ha : Chars a) (hb : Chars b) : Chars (a ++ b) := by
  induction ha with
  | nil => exact hb
  | cons c _ ih =>
    rw [List.cons_append, List.append_assoc]
    exact .cons c ih

lemma Chars.ascii {c : UInt8} {b : Bytes} (ascii : c < 0x80) (hb : Chars b) : Chars (c :: b) :=
  @Chars.cons c [] b ⟨if_pos ascii, fun _ h => absurd rfl h⟩ hb

lemma fromUtf8Lossy_idem (b : Bytes) : fromUtf8Lossy (fromUtf8Lossy b) = fromUtf8Lossy b :=
  (chars_lossyLoop _ b).lossyLoop (Nat.le_refl _)

lemma isChar_of_second {first b : UInt8} {cs : Bytes} (more : following first = some (cs.length + 1))
    (second : isSecond first b) (rest : ∀ c ∈ cs, 0x80 ≤ c ∧ c ≤ 0xBF) : IsChar first (b :: cs) where
  following := more
  matched l _ := by
    have all : cs.takeWhile (fun c => 0x80 ≤ c && c ≤ 0xBF) = cs :=
      List.takeWhile_eq_self_iff.mpr fun c mem => by simpa using rest c mem
    simp only [List.cons_append, List.length_cons, Utf8.matched, if_pos second, Nat.add_sub_cancel,
      List.take_left, all]

lemma continuation_range (n : ℕ) :
    (0x80 : UInt8) ≤ UInt8.ofNat (n % 64 + 128) ∧ UInt8.ofNat (n % 64 + 128) ≤ 0xBF := by
  simp only [UInt8.le_iff_toNat_le, UInt8.toNat_ofNat', UInt8.reduceToNat]
  omega

/-- A continuation byte follows a first byte, with the bounds that four first bytes put on it. -/
lemma isSecond_continuation {x n : ℕ} (small : x < 256) (e0 : x = 0xE0 → 0x20 ≤ n % 64)
    (ed : x = 0xED → n % 64 < 0x20) (f0 : x = 0xF0 → 0x10 ≤ n % 64) (f4 : x = 0xF4 → n % 64 < 0x10) :
    isSecond (UInt8.ofNat x) (UInt8.ofNat (n % 64 + 128)) := by
  have byte : ∀ m < 256, UInt8.ofNat x = UInt8.ofNat m → x = m := by
    intro m lt eq
    have nat := congrArg UInt8.toNat eq
    rwa [UInt8.toNat_ofNat', UInt8.toNat_ofNat', Nat.mod_eq_of_lt small, Nat.mod_eq_of_lt lt] at nat
  unfold isSecond
  split
  all_goals
    rename_i eq
    simp only [UInt8.le_iff_toNat_le, UInt8.toNat_ofNat', UInt8.reduceToNat, Bool.and_eq_true,
      decide_eq_true_eq]
  · have := e0 (byte 0xE0 (by decide) eq)
    omega
  · have := ed (byte 0xED (by decide) eq)
    omega
  · have := f0 (byte 0xF0 (by decide) eq)
    omega
  · have := f4 (byte 0xF4 (by decide) eq)
    omega
  · omega

lemma following_ofNat {x : ℕ} (small : x < 256) : following (UInt8.ofNat x) =
    if x < 0x80 then some 0 else if x < 0xC2 then none else if x < 0xE0 then some 1
    else if x < 0xF0 then some 2 else if x ≤ 0xF4 then some 3 else none := by
  simp only [following, UInt8.lt_iff_toNat_lt, UInt8.le_iff_toNat_le, UInt8.toNat_ofNat',
    UInt8.reduceToNat, Nat.reducePow, Nat.mod_eq_of_lt small]

lemma isChar_utf8EncodeChar (c : Char) :
    ∃ first tail, String.utf8EncodeChar c = first :: tail ∧ IsChar first tail := by
  have scalar : c.val.toNat < 0xD800 ∨ 0xDFFF < c.val.toNat ∧ c.val.toNat < 0x110000 := c.valid
  unfold String.utf8EncodeChar
  dsimp only
  generalize c.val.toNat = v at scalar
  split
  · refine ⟨_, _, rfl, ?_, fun _ h => absurd rfl h⟩
    rw [following_ofNat (by omega), if_pos (by omega)]
    rfl
  split
  · refine ⟨_, _, rfl, isChar_of_second ?_ (isSecond_continuation ?_ ?_ ?_ ?_ ?_) ?_⟩
    · rw [following_ofNat (by omega), if_neg (by omega), if_neg (by omega), if_pos (by omega)]
      rfl
    all_goals first | omega | simp
  split
  · refine ⟨_, _, rfl, isChar_of_second ?_ (isSecond_continuation ?_ ?_ ?_ ?_ ?_) ?_⟩
    · rw [following_ofNat (by omega), if_neg (by omega), if_neg (by omega), if_neg (by omega),
        if_pos (by omega)]
      rfl
    on_goal 6 => simp only [List.mem_singleton, forall_eq, continuation_range, and_self]
    all_goals omega
  · refine ⟨_, _, rfl, isChar_of_second ?_ (isSecond_continuation ?_ ?_ ?_ ?_ ?_) ?_⟩
    · rw [following_ofNat (by omega), if_neg (by omega), if_neg (by omega), if_neg (by omega),
        if_neg (by omega), if_pos (by omega)]
      rfl
    on_goal 6 =>
      simp only [List.mem_cons, List.not_mem_nil, or_false, forall_eq_or_imp, forall_eq,
        continuation_range, and_self]
    all_goals omega

lemma chars_utf8Encode (cs : List Char) : Chars (cs.flatMap String.utf8EncodeChar) := by
  induction cs with
  | nil => exact .nil
  | cons c cs ih =>
    obtain ⟨first, tail, eq, char⟩ := isChar_utf8EncodeChar c
    rw [List.flatMap_cons, eq]
    exact .cons char ih

/-- Rust `String`. -/
def Str := { b : Bytes // fromUtf8Lossy b = b }
  deriving DecidableEq

def Str.asBytes (s : Str) : Bytes := s.1

lemma fromUtf8Lossy_toUTF8 (s : String) : fromUtf8Lossy s.toUTF8.data.toList = s.toUTF8.data.toList := by
  obtain ⟨cs, eq⟩ := s.isValidUTF8
  have bytes : s.toUTF8.data.toList = cs.flatMap String.utf8EncodeChar := by
    show s.toByteArray.data.toList = _
    simp [eq, List.utf8Encode]
  rw [bytes]
  exact (chars_utf8Encode cs).lossyLoop (Nat.le_refl _)

/-- A string of Lean as one of Rust. -/
def Str.ofString (s : String) : Str := ⟨s.toUTF8.data.toList, fromUtf8Lossy_toUTF8 s⟩

/-- Rust `String::from_utf8_lossy(..).into_owned()`. -/
def Str.lossy (b : Bytes) : Str := ⟨fromUtf8Lossy b, fromUtf8Lossy_idem b⟩

lemma Str.asBytes_injective : Function.Injective Str.asBytes :=
  fun _ _ => Subtype.ext

-- "é", then a cut "€", then "a"
example : fromUtf8Lossy [0xC3, 0xA9, 0xE2, 0x82, 0x61] = [0xC3, 0xA9, 0xEF, 0xBF, 0xBD, 0x61] := by
  decide

end Utf8
