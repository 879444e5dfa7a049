import CaveRuntime.Cache.Types
import Mathlib.Data.List.DropRight

/-!
# The protocol

Model of `cave-cache/src/resp.rs`: `encode_resp`, `parse_resp` and `parse_command`. A frame starts with a line,
which says what kind of value comes and how many bytes or values it has. What is received is given as a whole;
a line ends at a line feed or with the connection. A reading records the sizes of the buffers and vectors it
asks for. How a `f64` is written and read is a parameter.

An encoded value is read back as it was, except that the message of a blob error gets back the space before it.
-/

namespace Cache
open MachineInt Text Utf8

/-! ## The serializer -/

/-- A length, a line end, the bytes and a line end. -/
def encodeBlock (tag : UInt8) (content : Bytes) : Bytes :=
  tag :: (decimal content.length ++ [13, 10] ++ content ++ [13, 10])

mutual
def encodeResp (formatF64 : UInt64 → Bytes) : Resp → Bytes
  | .simpleString s => 43 :: (s ++ [13, 10])
  | .error message => 45 :: (utf8 message ++ [13, 10])
  | .integer n => 58 :: (decimalInt n ++ [13, 10])
  | .bulkString none => [36, 45, 49, 13, 10]
  | .bulkString (some s) => encodeBlock 36 s
  | .array none => [42, 45, 49, 13, 10]
  | .array (some items) => 42 :: (decimal items.length ++ [13, 10] ++ encodeItems formatF64 items)
  | .null => [95, 13, 10]
  | .boolean b => [35, if b then 116 else 102, 13, 10]
  | .double bits => 44 :: (formatF64 bits ++ [13, 10])
  | .bigNumber n => 40 :: (n ++ [13, 10])
  | .blobError code message => encodeBlock 33 (code ++ [32] ++ message)
  -- the length is computed for an encoding of three bytes
  | .verbatimString encoding data =>
    61 :: (decimal (3 + 1 + data.length) ++ [13, 10] ++ encoding ++ [58] ++ data ++ [13, 10])
  | .map items => 37 :: (decimal items.length ++ [13, 10] ++ encodePairs formatF64 items)
  | .set items => 126 :: (decimal items.length ++ [13, 10] ++ encodeItems formatF64 items)
  | .push items => 62 :: (decimal items.length ++ [13, 10] ++ encodeItems formatF64 items)

def encodeItems (formatF64 : UInt64 → Bytes) : List Resp → Bytes
  | [] => []
  | item :: items => encodeResp formatF64 item ++ encodeItems formatF64 items

def encodePairs (formatF64 : UInt64 → Bytes) : List (Resp × Resp) → Bytes
  | [] => []
  | pair :: pairs => encodePair formatF64 pair ++ encodePairs formatF64 pairs

def encodePair (formatF64 : UInt64 → Bytes) : Resp × Resp → Bytes
  | (k, v) => encodeResp formatF64 k ++ encodeResp formatF64 v
end

/-! ## Lines -/

/-- How a reading fails. -/
inductive ReadError where
  | protocol (message : String)
  | unknownPrefix (c : UInt8)
  | io
  | panic
deriving DecidableEq, Repr

/-- Values that come in a block of bytes. -/
inductive BlockTag where
  | bulk | blobError | verbatim
deriving DecidableEq, Repr

/-- Values that are made of values. -/
inductive ItemsTag where
  | array | map | set | push
deriving DecidableEq, Repr

/-- What the first line of a value says: the value itself, or how much of what comes next. -/
inductive Frame where
  | value (v : Resp)
  | block (tag : BlockTag) (len : ℕ)
  | items (tag : ItemsTag) (count : ℕ)

/-- `read_line`: the line with its end, and what comes after. -/
def readLine (s : Bytes) : Bytes × Bytes :=
  let n := (s.takeWhile (· ≠ 10)).length + 1
  (s.take n, s.drop n)

/-- `to_string` of text that has been read. -/
def ofUtf8 (b : Bytes) : String := (String.fromUTF8? ⟨b.toArray⟩).getD ""

/-- A number from the text, or an error. -/
def parseOr {α : Type} (message : String) : Option α → Except ReadError α
  | some a => .ok a
  | none => .error (.protocol message)

/-- A frame with a signed length, where -1 stands for no value. -/
def signedLength (nil : Resp) (frame : ℕ → Frame) (message : String) (len : ℤ) : Except ReadError Frame :=
  if len = -1 then .ok (.value nil)
  else if len < 0 then .error (.protocol message)
  else .ok (frame len.toNat)

/-- The match of `parse_resp` on the first character. -/
def frameOf (parseF64 : Bytes → Option UInt64) (c : UInt8) (rest : Bytes) : Except ReadError Frame :=
  match c with
  | 43 => .ok (.value (.simpleString rest))
  | 45 => .ok (.value (.error (ofUtf8 rest)))
  | 58 => (parseOr "Invalid integer" (parseI64 rest)).map fun n => .value (.integer n)
  | 36 => (parseOr "Invalid bulk len" (parseI64 rest)).bind
      (signedLength .nil (.block .bulk) "Invalid bulk length")
  | 42 => (parseOr "Invalid array len" (parseI64 rest)).bind
      (signedLength .nilArray (.items .array) "Invalid array length")
  | 95 => .ok (.value .null)
  | 35 =>
    if rest = [116] then .ok (.value (.boolean true))
    else if rest = [102] then .ok (.value (.boolean false))
    else .error (.protocol "Invalid boolean")
  | 44 => (parseOr "Invalid double" (parseF64 rest)).map fun bits => .value (.double bits)
  | 40 => .ok (.value (.bigNumber rest))
  | 33 => (parseOr "Invalid blob error len" (parseU64 rest)).map (.block .blobError)
  | 61 => (parseOr "Invalid verbatim len" (parseU64 rest)).map (.block .verbatim)
  | 37 => (parseOr "Invalid map len" (parseU64 rest)).map (.items .map)
  | 126 => (parseOr "Invalid set len" (parseU64 rest)).map (.items .set)
  | 62 => (parseOr "Invalid push len" (parseU64 rest)).map (.items .push)
  | c => .error (.unknownPrefix c)

def readFrame (parseF64 : Bytes → Option UInt64) (s : Bytes) : Except ReadError (Frame × Bytes) :=
  let (line, rest) := readLine s
  if line = [] then .error (.protocol "Connection closed")
  else if fromUtf8Lossy line ≠ line then .error .io
  else
    match line.rdropWhile (fun c => c = 13 || c = 10) with
    | [] => .error (.protocol "Empty line")
    | c :: text =>
      -- `&line[1..]` is not at a boundary of characters
      if 128 ≤ c then .error .panic else (frameOf parseF64 c text).map fun frame => (frame, rest)

/-! ## The parser -/

/-- `isize::MAX`. -/
def isizeMax : ℕ := 2 ^ 63 - 1

/-- A reading: the sizes it asked for, and what it made of the bytes with what is left of them. -/
structure Reading (α : Type) where
  asks : List ℕ
  result : Except ReadError (α × Bytes)

namespace Reading
variable {α β : Type}

def bind (r : Reading α) (f : α → Bytes → Reading β) : Reading β :=
  match r.result with
  | .error e => ⟨r.asks, .error e⟩
  | .ok (a, s) => ⟨r.asks ++ (f a s).asks, (f a s).result⟩

/-- A vector of so many elements of so many bytes. -/
def ask (n width : ℕ) (s : Bytes) : Reading Unit :=
  ⟨[n], if n * width ≤ isizeMax then .ok ((), s) else .error .panic⟩

end Reading

/-- `vec![0u8; len + 2]`, `read_exact` and `truncate`. -/
def readBlock (checks : Bool) (len : ℕ) (s : Bytes) : Reading Bytes :=
  match addU64 checks len 2 with
  | none => ⟨[], .error .panic⟩
  | some n => (Reading.ask n 1 s).bind fun _ s =>
      ⟨[], if n ≤ s.length then .ok ((s.take n).take len, s.drop n) else .error .io⟩

/-- The value of a block. -/
def BlockTag.close (buf : Bytes) : BlockTag → Except ReadError Resp
  | .bulk => .ok (.bulkString (some buf))
  | .blobError => .ok (.blobError (buf.takeWhile (· ≠ 32)) (buf.dropWhile (· ≠ 32)))
  | .verbatim =>
    if buf.length < 4 then .error (.protocol "Verbatim too short")
    else .ok (.verbatimString (buf.take 3) (buf.drop 4))

/-- Values in pairs. -/
def pairUp : List Resp → List (Resp × Resp)
  | k :: v :: rest => (k, v) :: pairUp rest
  | _ => []

/-- The number of values of an element. -/
def ItemsTag.arity : ItemsTag → ℕ
  | .map => 2
  | .array | .set | .push => 1

def ItemsTag.close (items : List Resp) : ItemsTag → Resp
  | .array => .array (some items)
  | .map => .map (pairUp items)
  | .set => .set items
  | .push => .push items

/-- The loops of `parse_resp`. -/
def readItems (parse : Bytes → Reading Resp) : ℕ → Bytes → Reading (List Resp)
  | 0, s => ⟨[], .ok ([], s)⟩
  | n + 1, s => (parse s).bind fun v s => (readItems parse n s).bind fun vs s => ⟨[], .ok (v :: vs, s)⟩

/-- `parse_resp`; `width` is the number of bytes of a value. The fuel is the room of the stack for nested calls, and
to run out of it counts as a panic; the number of bytes is enough for every depth. -/
def parseResp (checks : Bool) (width : ℕ) (parseF64 : Bytes → Option UInt64) : ℕ → Bytes → Reading Resp
  | 0, _ => ⟨[], .error .panic⟩
  | fuel + 1, s =>
    match readFrame parseF64 s with
    | .error e => ⟨[], .error e⟩
    | .ok (.value v, s) => ⟨[], .ok (v, s)⟩
    | .ok (.block tag len, s) =>
      (readBlock checks len s).bind fun buf s => ⟨[], (tag.close buf).map fun v => (v, s)⟩
    | .ok (.items tag count, s) =>
      (Reading.ask count (tag.arity * width) s).bind fun _ s =>
        (readItems (parseResp checks width parseF64 fuel) (tag.arity * count) s).bind fun vs s =>
          ⟨[], .ok (tag.close vs, s)⟩

/-- A value from all that is received, on a stack with room for any depth of it. -/
def receive (checks : Bool) (width : ℕ) (parseF64 : Bytes → Option UInt64) (s : Bytes) : Reading Resp :=
  parseResp checks width parseF64 (s.length + 1) s

/-! ## Reading back -/

/-- Text on a line. -/
structure Plain (s : Bytes) : Prop where
  valid : fromUtf8Lossy s = s
  cr : 13 ∉ s
  lf : 10 ∉ s

/-- A byte that can start a line. -/
def Starts (c : UInt8) : Prop := c < 0x80 ∧ c ≠ 13 ∧ c ≠ 10
deriving Decidable

/-- A line that starts with a tag is read up to its end. -/
lemma readFrame_line (parseF64 : Bytes → Option UInt64) {c : UInt8} {text : Bytes} (rest : Bytes)
    (starts : Starts c) (plain : Plain text) :
    readFrame parseF64 (c :: (text ++ [13, 10]) ++ rest) =
      (frameOf parseF64 c text).map fun frame => (frame, rest) := by
  obtain ⟨ascii, cr, lf⟩ := starts
  have free : ∀ b ∈ c :: text ++ [13], decide (b ≠ 10) = true := by
    intro b mem
    rw [List.mem_append, List.mem_cons, List.mem_singleton] at mem
    rcases mem with (rfl | mem) | rfl
    · exact decide_eq_true lf
    · exact decide_eq_true fun e => plain.lf (e ▸ mem)
    · rfl
  have split : c :: (text ++ [13, 10]) ++ rest = (c :: text ++ [13]) ++ 10 :: rest := by simp
  have found : (c :: (text ++ [13, 10]) ++ rest).takeWhile (· ≠ 10) = c :: text ++ [13] := by
    rw [split, List.takeWhile_append_of_pos free, List.takeWhile_cons_of_neg (by decide), List.append_nil]
  have line : readLine (c :: (text ++ [13, 10]) ++ rest) = (c :: (text ++ [13, 10]), rest) := by
    have length : (c :: text ++ [13]).length + 1 = (c :: (text ++ [13, 10])).length := by simp
    rw [readLine, found, length, List.take_left, List.drop_left]
  have valid : fromUtf8Lossy (c :: (text ++ [13, 10])) = c :: (text ++ [13, 10]) :=
    (Chars.ascii ascii ((chars_of_valid plain.valid).append
      (.ascii (by decide) (.ascii (by decide) .nil)))).lossyLoop (Nat.le_refl _)
  have trimmed : (c :: (text ++ [13, 10])).rdropWhile (fun c => c = 13 || c = 10) = c :: text := by
    rw [show c :: (text ++ [13, 10]) = c :: text ++ [13] ++ [10] by simp,
      List.rdropWhile_concat_pos _ _ _ (by decide), List.rdropWhile_concat_pos _ _ _ (by decide),
      List.rdropWhile_eq_self_iff]
    intro ne
    have mem := List.getLast_mem ne
    rw [List.mem_cons] at mem
    rcases mem with eq | mem
    · simp [eq, cr, lf]
    · have cr' : (c :: text).getLast ne ≠ 13 := fun e => plain.cr (e ▸ mem)
      have lf' : (c :: text).getLast ne ≠ 10 := fun e => plain.lf (e ▸ mem)
      simp [cr', lf']
  rw [readFrame, line]
  dsimp only
  rw [if_neg (List.cons_ne_nil _ _), if_neg (not_not.mpr valid), trimmed]
  dsimp only
  rw [if_neg (UInt8.not_le.mpr ascii)]

lemma plain_digits {s : Bytes} (digits : ∀ c ∈ s, 45 ≤ c.toNat ∧ c.toNat ≤ 57) : Plain s := by
  have chars : Chars s := by
    induction s with
    | nil => exact .nil
    | cons c s ih =>
      refine .ascii ?_ (ih fun c mem => digits c (List.mem_cons_of_mem _ mem))
      have := digits c List.mem_cons_self
      rw [UInt8.lt_iff_toNat_lt]
      exact Nat.lt_of_le_of_lt this.2 (by decide)
  refine ⟨chars.lossyLoop (Nat.le_refl _), fun mem => ?_, fun mem => ?_⟩
  · exact absurd (digits 13 mem).1 (by decide)
  · exact absurd (digits 10 mem).1 (by decide)

lemma plain_decimal (n : ℕ) : Plain (decimal n) :=
  plain_digits fun c mem => by
    have := mem_decimal mem
    omega

lemma plain_decimalInt (n : ℤ) : Plain (decimalInt n) := by
  rw [decimalInt]
  split
  · refine plain_digits fun c mem => ?_
    rcases List.mem_cons.mp mem with rfl | mem
    · decide
    · have := mem_decimal mem
      omega
  · exact plain_decimal _

lemma plain_nil : Plain [] := plain_digits fun _ mem => absurd mem List.not_mem_nil

lemma plain_minus : Plain [45, 49] := by
  refine plain_digits fun c mem => ?_
  rcases List.mem_pair.mp mem with rfl | rfl
  · decide
  · decide

lemma parseI64_minus : parseI64 [45, 49] = some (-1) := by decide

lemma plain_letter {c : UInt8} (low : 14 ≤ c) (high : c < 0x80) : Plain [c] := by
  refine ⟨(Chars.ascii high .nil).lossyLoop (Nat.le_refl _), fun mem => ?_, fun mem => ?_⟩
  · rw [← List.mem_singleton.mp mem] at low
    exact absurd low (by decide)
  · rw [← List.mem_singleton.mp mem] at low
    exact absurd low (by decide)

lemma ofUtf8_utf8 (s : String) : ofUtf8 (utf8 s) = s := by
  have bytes : (⟨(utf8 s).toArray⟩ : ByteArray) = s.toByteArray := by
    rw [utf8, Array.toArray_toList]
    rfl
  rw [ofUtf8, bytes, String.fromUTF8?, dif_pos s.isValidUTF8, Option.getD_some]
  rfl

/-! ## The round trip -/

mutual
/-- A value and all values it is made of. -/
def Resp.parts : Resp → List Resp
  | .array (some items) => .array (some items) :: partsItems items
  | .map items => .map items :: partsPairs items
  | .set items => .set items :: partsItems items
  | .push items => .push items :: partsItems items
  | v => [v]

def partsItems : List Resp → List Resp
  | [] => []
  | item :: items => item.parts ++ partsItems items

def partsPairs : List (Resp × Resp) → List Resp
  | [] => []
  | pair :: pairs => partsPair pair ++ partsPairs pairs

def partsPair : Resp × Resp → List Resp
  | (k, v) => k.parts ++ v.parts
end

/-- A vector of so many elements of so many bytes can be there. -/
def VecFits (n width : ℕ) : Prop := n ≤ isizeMax ∧ n * width ≤ isizeMax

/-- A value that can be told from its encoding, and whose vectors fit into memory. -/
def Resp.Sound (width : ℕ) : Resp → Prop
  | .simpleString s => Plain s
  | .error message => Plain (utf8 message)
  | .integer n => -(2 ^ 63 : ℕ) ≤ n ∧ n < (2 ^ 63 : ℕ)
  | .array (some items) => VecFits items.length width
  | .double _ => False
  | .bigNumber n => Plain n
  | .blobError code _ => 32 ∉ code
  | .verbatimString encoding _ => encoding.length = 3
  | .map items => VecFits items.length (2 * width)
  | .set items => VecFits items.length width
  | .push items => VecFits items.length width
  | .bulkString _ | .array none | .null | .boolean _ => True

/-- The value is a blob error. -/
def Resp.isBlobError : Resp → Bool
  | .blobError _ _ => true
  | _ => false

mutual
/-- What is read of the encoding of a value: the message of a blob error has a space before it. -/
def Resp.readBack : Resp → Resp
  | .blobError code message => .blobError code (32 :: message)
  | .array (some items) => .array (some (readBackItems items))
  | .map items => .map (readBackPairs items)
  | .set items => .set (readBackItems items)
  | .push items => .push (readBackItems items)
  | v => v

def readBackItems : List Resp → List Resp
  | [] => []
  | item :: items => item.readBack :: readBackItems items

def readBackPairs : List (Resp × Resp) → List (Resp × Resp)
  | [] => []
  | pair :: pairs => readBackPair pair :: readBackPairs pairs

def readBackPair : Resp × Resp → Resp × Resp
  | (k, v) => (k.readBack, v.readBack)
end

mutual
lemma readBack_eq_iff : (v : Resp) → (v.readBack = v ↔ ∀ u ∈ v.parts, u.isBlobError = false)
  | .blobError code message => by
    simp [Resp.readBack, Resp.parts, Resp.isBlobError]
  | .array (some items) => by
    simp [Resp.readBack, Resp.parts, Resp.isBlobError, readBackItems_eq_iff items]
  | .map items => by
    simp [Resp.readBack, Resp.parts, Resp.isBlobError, readBackPairs_eq_iff items]
  | .set items => by
    simp [Resp.readBack, Resp.parts, Resp.isBlobError, readBackItems_eq_iff items]
  | .push items => by
    simp [Resp.readBack, Resp.parts, Resp.isBlobError, readBackItems_eq_iff items]
  | .simpleString _ | .error _ | .integer _ | .bulkString _ | .array none | .null | .double _ | .boolean _
  | .bigNumber _ | .verbatimString _ _ => by
    simp [Resp.readBack, Resp.parts, Resp.isBlobError]

lemma readBackItems_eq_iff : (items : List Resp) →
    (readBackItems items = items ↔ ∀ u ∈ partsItems items, u.isBlobError = false)
  | [] => by simp [readBackItems, partsItems]
  | item :: items => by
    simp [readBackItems, partsItems, readBack_eq_iff item, readBackItems_eq_iff items, or_imp, forall_and]

lemma readBackPairs_eq_iff : (pairs : List (Resp × Resp)) →
    (readBackPairs pairs = pairs ↔ ∀ u ∈ partsPairs pairs, u.isBlobError = false)
  | [] => by simp [readBackPairs, partsPairs]
  | pair :: pairs => by
    simp [readBackPairs, partsPairs, readBackPair_eq_iff pair, readBackPairs_eq_iff pairs, or_imp, forall_and]

lemma readBackPair_eq_iff : (pair : Resp × Resp) →
    (readBackPair pair = pair ↔ ∀ u ∈ partsPair pair, u.isBlobError = false)
  | (k, v) => by
    simp [readBackPair, partsPair, readBack_eq_iff k, readBack_eq_iff v, or_imp, forall_and]
end

/-- The values of pairs, one after the other. -/
def unpair (pairs : List (Resp × Resp)) : List Resp := pairs.flatMap fun p => [p.1, p.2]

lemma pairUp_unpair (pairs : List (Resp × Resp)) : pairUp (unpair pairs) = pairs := by
  induction pairs with
  | nil => rfl
  | cons pair pairs ih => exact congrArg (pair :: ·) ih

lemma Reading.bind_ok {α β : Type} {r : Reading α} {a : α} {s : Bytes} (f : α → Bytes → Reading β)
    (ok : r.result = .ok (a, s)) : (r.bind f).result = (f a s).result := by
  rw [Reading.bind, ok]

lemma readBlock_content {checks : Bool} {content : Bytes} (rest : Bytes)
    (room : content.length + 2 ≤ isizeMax) :
    (readBlock checks content.length (content ++ [13, 10] ++ rest)).result = .ok (content, rest) := by
  have sum : addU64 checks content.length 2 = some (content.length + 2) :=
    if_pos (Nat.lt_of_le_of_lt room (by decide))
  rw [readBlock, sum]
  dsimp only
  rw [Reading.bind_ok _ (if_pos (by rwa [Nat.mul_one])), if_pos (by simp)]
  have length : (content ++ [13, 10]).length = content.length + 2 := by simp
  rw [← length, List.take_left, List.drop_left, List.take_left]

section
variable {checks : Bool} {width fuel : ℕ} {formatF64 : UInt64 → Bytes} {parseF64 : Bytes → Option UInt64}

variable {c : UInt8} {v : Resp} {content : Bytes} {vs : List Resp} {n : ℕ} {nil : Resp} {frame : ℕ → Frame}
  {m : String}

lemma parseResp_value {text : Bytes} (rest : Bytes) (starts : Starts c)
    (plain : Plain text) (frame : frameOf parseF64 c text = .ok (.value v)) :
    (parseResp checks width parseF64 (fuel + 1) (c :: (text ++ [13, 10]) ++ rest)).result = .ok (v, rest) := by
  rw [parseResp, readFrame_line parseF64 rest starts plain, frame]
  rfl

lemma parseResp_block {tag : BlockTag} (rest : Bytes) (starts : Starts c)
    (room : content.length + 2 ≤ isizeMax)
    (frame : frameOf parseF64 c (decimal content.length) = .ok (.block tag content.length))
    (close : tag.close content = .ok v) :
    (parseResp checks width parseF64 (fuel + 1) (encodeBlock c content ++ rest)).result = .ok (v, rest) := by
  have line : encodeBlock c content ++ rest =
      c :: (decimal content.length ++ [13, 10]) ++ (content ++ [13, 10] ++ rest) := by
    simp [encodeBlock]
  rw [line, parseResp, readFrame_line parseF64 _ starts (plain_decimal _), frame]
  dsimp only [Except.map]
  rw [Reading.bind_ok _ (readBlock_content rest room), close]

lemma parseResp_items {count : ℕ} {tag : ItemsTag} (rest : Bytes)
    (starts : Starts c) (room : count * (tag.arity * width) ≤ isizeMax)
    (frame : frameOf parseF64 c (decimal count) = .ok (.items tag count))
    (read : (readItems (parseResp checks width parseF64 fuel) (tag.arity * count) (content ++ rest)).result =
      .ok (vs, rest)) :
    (parseResp checks width parseF64 (fuel + 1) (c :: (decimal count ++ [13, 10] ++ content) ++ rest)).result =
      .ok (tag.close vs, rest) := by
  have line : c :: (decimal count ++ [13, 10] ++ content) ++ rest =
      c :: (decimal count ++ [13, 10]) ++ (content ++ rest) := by
    simp
  rw [line, parseResp, readFrame_line parseF64 _ starts (plain_decimal _), frame]
  dsimp only [Except.map]
  rw [Reading.bind_ok _ (if_pos room), Reading.bind_ok _ read]

lemma parseResp_list {count : ℕ} {tag : ItemsTag} (rest : Bytes)
    (starts : Starts c) (room : count * width ≤ isizeMax)
    (frame : frameOf parseF64 c (decimal count) = .ok (.items tag count))
    (read : (readItems (parseResp checks width parseF64 fuel) count (content ++ rest)).result = .ok (vs, rest))
    (one : tag.arity = 1) :
    (parseResp checks width parseF64 (fuel + 1) (c :: (decimal count ++ [13, 10] ++ content) ++ rest)).result =
      .ok (tag.close vs, rest) :=
  parseResp_items rest starts (by rwa [one, Nat.one_mul]) frame (by rwa [one, Nat.one_mul])

lemma parseI64_length (small : n ≤ isizeMax) : parseI64 (decimal n) = some (n : ℤ) := by
  have small : n < 2 ^ 63 := Nat.lt_of_le_of_lt small (by decide)
  have signed : decimalInt n = decimal n := by
    rw [decimalInt, if_neg (by omega), Int.natAbs_natCast]
  rw [← signed, parseI64_decimalInt (by omega) (by omega)]

lemma signedLength_natCast {message : String} (n : ℕ) :
    signedLength nil frame message n = .ok (frame n) := by
  rw [signedLength, if_neg (by omega), if_neg (by omega), Int.toNat_natCast]

lemma readItems_cons {parse : Bytes → Reading Resp} {s s' s'' : Bytes}
    (head : (parse s).result = .ok (v, s')) (tail : (readItems parse n s').result = .ok (vs, s'')) :
    (readItems parse (n + 1) s).result = .ok (v :: vs, s'') := by
  rw [readItems, Reading.bind_ok _ head, Reading.bind_ok _ tail]

lemma frameOf_signed {m' : String} (small : n ≤ isizeMax)
    (kind : ∀ text, frameOf parseF64 c text =
      (parseOr m (parseI64 text)).bind (signedLength nil frame m')) :
    frameOf parseF64 c (decimal n) = .ok (frame n) := by
  rw [kind, parseI64_length small]
  exact signedLength_natCast n

lemma frameOf_minus {m' : String}
    (kind : ∀ text, frameOf parseF64 c text =
      (parseOr m (parseI64 text)).bind (signedLength nil frame m')) :
    frameOf parseF64 c [45, 49] = .ok (.value nil) := by
  rw [kind, parseI64_minus]
  rfl

lemma frameOf_unsigned (small : n ≤ isizeMax)
    (kind : ∀ text, frameOf parseF64 c text = (parseOr m (parseU64 text)).map frame) :
    frameOf parseF64 c (decimal n) = .ok (frame n) := by
  rw [kind, parseU64_decimal (Nat.lt_of_le_of_lt small (by decide))]
  rfl

lemma length_encodeBlock (c : UInt8) (content : Bytes) :
    (encodeBlock c content).length = (decimal content.length).length + content.length + 5 := by
  simp [encodeBlock]
  omega

lemma block_room (room : (encodeBlock c content).length ≤ isizeMax) :
    content.length + 2 ≤ isizeMax := by
  rw [length_encodeBlock] at room
  omega

lemma items_length :
    (c :: (decimal n ++ [13, 10] ++ content)).length = (decimal n).length + content.length + 3 := by
  simp
  omega

mutual
/-- By recursion on the value, with one case for each tag. -/
lemma parseResp_encodeResp : (v : Resp) → (∀ u ∈ v.parts, u.Sound width) → (fuel : ℕ) →
    (encodeResp formatF64 v).length < fuel → (encodeResp formatF64 v).length ≤ isizeMax → (rest : Bytes) →
    (parseResp checks width parseF64 fuel (encodeResp formatF64 v ++ rest)).result = .ok (v.readBack, rest)
  | _, _, 0, enough, _, _ => absurd enough (Nat.not_lt_zero _)
  | .simpleString s, sound, fuel + 1, _, _, rest =>
    parseResp_value rest (by decide) (sound _ (List.mem_singleton.mpr rfl)) rfl
  | .error message, sound, fuel + 1, _, _, rest => by
    refine parseResp_value rest (by decide) (sound _ (List.mem_singleton.mpr rfl)) ?_
    show Except.ok (Frame.value (.error (ofUtf8 (utf8 message)))) = _
    rw [ofUtf8_utf8]
    rfl
  | .integer n, sound, fuel + 1, _, _, rest => by
    have range : -(2 ^ 63 : ℕ) ≤ n ∧ n < (2 ^ 63 : ℕ) := sound _ (List.mem_singleton.mpr rfl)
    refine parseResp_value rest (by decide) (plain_decimalInt n) ?_
    show (parseOr _ (parseI64 (decimalInt n))).map _ = _
    rw [parseI64_decimalInt range.1 range.2]
    rfl
  | .bulkString none, _, fuel + 1, _, _, rest =>
    parseResp_value rest (by decide) plain_minus (frameOf_minus fun _ => rfl)
  | .bulkString (some s), _, fuel + 1, _, room, rest => by
    have room' : s.length + 2 ≤ isizeMax := block_room room
    exact parseResp_block rest (by decide) room'
      (frameOf_signed (by omega) fun _ => rfl) rfl
  | .array none, _, fuel + 1, _, _, rest =>
    parseResp_value rest (by decide) plain_minus (frameOf_minus fun _ => rfl)
  | .array (some items), sound, fuel + 1, enough, room, rest => by
    have fits : VecFits items.length width := sound _ List.mem_cons_self
    rw [encodeResp, items_length] at enough room
    rw [encodeResp]
    have read := parseResp_list (c := 42) rest (by decide) fits.2
      (frameOf_signed fits.1 fun _ => rfl)
      (readItems_encodeItems items (fun u mem => sound u (List.mem_cons_of_mem _ mem)) fuel (by omega) (by omega)
        rest) rfl
    exact read
  | .null, _, fuel + 1, _, _, rest =>
    parseResp_value rest (by decide) plain_nil rfl
  | .boolean true, _, fuel + 1, _, _, rest =>
    parseResp_value rest (by decide) (plain_letter (by decide) (by decide)) rfl
  | .boolean false, _, fuel + 1, _, _, rest =>
    parseResp_value rest (by decide) (plain_letter (by decide) (by decide)) rfl
  | .double bits, sound, fuel + 1, _, _, rest => (sound _ (List.mem_singleton.mpr rfl)).elim
  | .bigNumber n, sound, fuel + 1, _, _, rest =>
    parseResp_value rest (by decide) (sound _ (List.mem_singleton.mpr rfl)) rfl
  | .blobError code message, sound, fuel + 1, _, room, rest => by
    have sound' : 32 ∉ code := sound _ (List.mem_singleton.mpr rfl)
    have room' : (code ++ [32] ++ message).length + 2 ≤ isizeMax := block_room room
    refine parseResp_block rest (by decide) room'
      (frameOf_unsigned (by omega) fun _ => rfl) ?_
    have all : ∀ b ∈ code, decide (b ≠ 32) = true := fun b mem => decide_eq_true fun e => sound' (e ▸ mem)
    rw [BlockTag.close, List.append_assoc, List.takeWhile_append_of_pos all, List.dropWhile_append_of_pos all]
    simp [Resp.readBack]
  | .verbatimString encoding data, sound, fuel + 1, _, room, rest => by
    have three : encoding.length = 3 := sound _ (List.mem_singleton.mpr rfl)
    have length : (encoding ++ [58] ++ data).length = 3 + 1 + data.length := by
      rw [List.length_append, List.length_append, three, List.length_singleton]
    have block : encodeResp formatF64 (.verbatimString encoding data) =
        encodeBlock 61 (encoding ++ [58] ++ data) := by
      rw [encodeResp, encodeBlock, length]
      simp only [List.append_assoc]
    rw [block] at room ⊢
    have room' := block_room room
    refine parseResp_block rest (by decide) room'
      (frameOf_unsigned (by omega) fun _ => rfl) ?_
    rw [BlockTag.close, if_neg (by omega), List.append_assoc, List.take_left' three,
      ← List.append_assoc, List.drop_left' (by simp [three])]
    rfl
  | .map items, sound, fuel + 1, enough, room, rest => by
    have fits : VecFits items.length (2 * width) := sound _ List.mem_cons_self
    rw [encodeResp, items_length] at enough room
    rw [encodeResp]
    have read := parseResp_items (c := 37) rest (by decide) fits.2
      (frameOf_unsigned fits.1 fun _ => rfl)
      (readItems_encodePairs items (fun u mem => sound u (List.mem_cons_of_mem _ mem)) fuel (by omega) (by omega)
        rest)
    rw [ItemsTag.close, pairUp_unpair] at read
    exact read
  | .set items, sound, fuel + 1, enough, room, rest => by
    have fits : VecFits items.length width := sound _ List.mem_cons_self
    rw [encodeResp, items_length] at enough room
    rw [encodeResp]
    have read := parseResp_list (c := 126) rest (by decide) fits.2
      (frameOf_unsigned fits.1 fun _ => rfl)
      (readItems_encodeItems items (fun u mem => sound u (List.mem_cons_of_mem _ mem)) fuel (by omega) (by omega)
        rest) rfl
    exact read
  | .push items, sound, fuel + 1, enough, room, rest => by
    have fits : VecFits items.length width := sound _ List.mem_cons_self
    rw [encodeResp, items_length] at enough room
    rw [encodeResp]
    have read := parseResp_list (c := 62) rest (by decide) fits.2
      (frameOf_unsigned fits.1 fun _ => rfl)
      (readItems_encodeItems items (fun u mem => sound u (List.mem_cons_of_mem _ mem)) fuel (by omega) (by omega)
        rest) rfl
    exact read

lemma readItems_encodeItems : (items : List Resp) → (∀ u ∈ partsItems items, u.Sound width) → (fuel : ℕ) →
    (encodeItems formatF64 items).length < fuel → (encodeItems formatF64 items).length ≤ isizeMax →
    (rest : Bytes) → (readItems (parseResp checks width parseF64 fuel) items.length
      (encodeItems formatF64 items ++ rest)).result = .ok (readBackItems items, rest)
  | [], _, _, _, _, rest => rfl
  | item :: items, sound, fuel, enough, room, rest => by
    rw [encodeItems, List.length_append] at enough room
    rw [encodeItems, List.append_assoc]
    exact readItems_cons
      (parseResp_encodeResp item (fun u mem => sound u (List.mem_append_left _ mem)) fuel (by omega) (by omega) _)
      (readItems_encodeItems items (fun u mem => sound u (List.mem_append_right _ mem)) fuel (by omega) (by omega)
        rest)

lemma readItems_encodePairs : (pairs : List (Resp × Resp)) → (∀ u ∈ partsPairs pairs, u.Sound width) →
    (fuel : ℕ) → (encodePairs formatF64 pairs).length < fuel → (encodePairs formatF64 pairs).length ≤ isizeMax →
    (rest : Bytes) → (readItems (parseResp checks width parseF64 fuel) (2 * pairs.length)
      (encodePairs formatF64 pairs ++ rest)).result = .ok (unpair (readBackPairs pairs), rest)
  | [], _, _, _, _, rest => rfl
  | (k, v) :: pairs, sound, fuel, enough, room, rest => by
    rw [encodePairs, encodePair, List.length_append, List.length_append] at enough room
    rw [encodePairs, encodePair, List.append_assoc, List.append_assoc]
    have first : ∀ u ∈ k.parts ++ v.parts, u.Sound width := fun u mem => sound u (List.mem_append_left _ mem)
    exact readItems_cons
      (parseResp_encodeResp k (fun u mem => first u (List.mem_append_left _ mem)) fuel (by omega) (by omega) _)
      (readItems_cons
        (parseResp_encodeResp v (fun u mem => first u (List.mem_append_right _ mem)) fuel (by omega) (by omega) _)
        (readItems_encodePairs pairs (fun u mem => sound u (List.mem_append_right _ mem)) fuel (by omega)
          (by omega) rest))
end

/-- **The round trip**: the encoding of a value, whatever comes behind it, is read as that value with the rest
left, exactly if no part of the value is a blob error. -/
theorem receive_encodeResp_iff (v : Resp) (sound : ∀ u ∈ v.parts, u.Sound width)
    (room : (encodeResp formatF64 v).length ≤ isizeMax) (rest : Bytes) :
    (receive checks width parseF64 (encodeResp formatF64 v ++ rest)).result = .ok (v, rest) ↔
      ∀ u ∈ v.parts, u.isBlobError = false := by
  have enough : (encodeResp formatF64 v).length < (encodeResp formatF64 v ++ rest).length + 1 := by
    rw [List.length_append]
    omega
  rw [receive, parseResp_encodeResp v sound _ enough room rest, ← readBack_eq_iff]
  constructor
  · intro same
    exact (Prod.mk.inj (Except.ok.inj same)).1
  · intro same
    rw [same]

end

/-- A map from an integer to an array of a null and a simple string with a space, before more bytes. -/
theorem receive_encodeResp_map :
    (receive true 56 (fun _ => none) (encodeResp (fun _ => []) (.map [(.integer (-7),
      .array (some [.null, .simpleString [97, 32, 98]]))]) ++ [43, 13])).result =
      .ok (.map [(.integer (-7), .array (some [.null, .simpleString [97, 32, 98]]))], [43, 13]) := by
  refine (receive_encodeResp_iff _ ?_ (by decide +kernel) [43, 13]).mpr ?_
  · simp only [Resp.parts, partsPairs, partsPair, partsItems, List.mem_append, List.mem_cons, List.not_mem_nil,
      or_false]
    rintro u (rfl | rfl | rfl | rfl | rfl)
    · exact ⟨by decide, by decide⟩
    · exact ⟨by decide, by decide⟩
    · exact ⟨by decide, by decide⟩
    · exact trivial
    · exact ⟨by decide, by decide, by decide⟩
  · simp [Resp.parts, partsPairs, partsPair, partsItems, Resp.isBlobError]

/-- The blob error with the code `E` and the message `m`. -/
theorem receive_encodeResp_blobError :
    (receive true 56 (fun _ => none) (encodeResp (fun _ => []) (.blobError [69] [109]) ++ [])).result =
        .ok (.blobError [69] [32, 109], []) ∧
      (receive true 56 (fun _ => none) (encodeResp (fun _ => []) (.blobError [69] [109]) ++ [])).result ≠
        .ok (.blobError [69] [109], []) := by
  have read : (receive true 56 (fun _ => none) (encodeResp (fun _ => []) (.blobError [69] [109]) ++ [])).result =
      .ok (.blobError [69] [32, 109], []) := by
    refine parseResp_encodeResp (.blobError [69] [109]) (fun u mem => ?_) _ (by decide +kernel)
      (by decide +kernel) []
    rw [List.mem_singleton.mp mem]
    show 32 ∉ [69]
    decide
  refine ⟨read, fun same => ?_⟩
  rw [read] at same
  cases same

end Cache
