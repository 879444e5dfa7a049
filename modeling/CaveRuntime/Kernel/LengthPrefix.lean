import CaveRuntime.Common.BigEndian
import CaveRuntime.Common.Utf8

/-!
# The kernel: length-prefixed frames

Model of `cave-kernel/src/codec/length_prefix.rs` and of the loop that `FrameCodec` describes: every read
adds to a buffer, and frames are taken off the buffer until there is none, or an error. What comes of a
stream does not depend on how it is cut into reads, for any specification of the header: a frame or an
error is settled by the bytes that are there, and later bytes change neither.

`usize` has 64 bits, so that a length of four bytes and the offset of the header add up.
-/

namespace Kernel
open Utf8

inductive Endian where
  | big
  | little
deriving DecidableEq, Repr

inductive LengthIncludes where
  | selfAndPayload
  | total
deriving DecidableEq, Repr

structure LengthSpec where
  headerOffset : ℕ
  lengthSize : ℕ
  endian : Endian
  lengthIncludes : LengthIncludes
  maxFrameSize : ℕ
deriving DecidableEq, Repr

/-- `FrameError`, without the errors of the reads. -/
inductive FrameError where
  | incomplete (needed : ℕ)
  | invalid (message : String)
  | limit (actual max : ℕ)
deriving DecidableEq, Repr

namespace LengthSpec

def postgresV3 (maxFrameSize : ℕ) : LengthSpec := ⟨1, 4, .big, .selfAndPayload, maxFrameSize⟩

def postgresStartup (maxFrameSize : ℕ) : LengthSpec := ⟨0, 4, .big, .selfAndPayload, maxFrameSize⟩

def mongoOpMsg (maxFrameSize : ℕ) : LengthSpec := ⟨0, 4, .little, .total, maxFrameSize⟩

variable (spec : LengthSpec)

def totalFrameLen (lengthValue : ℕ) : ℕ :=
  match spec.lengthIncludes with
  | .selfAndPayload => spec.headerOffset + lengthValue
  | .total => lengthValue

def headerTotal : ℕ := spec.headerOffset + spec.lengthSize

def readLength (bytes : Bytes) : Except FrameError ℕ :=
  if bytes.length < spec.lengthSize then .error (.incomplete (spec.lengthSize - bytes.length))
  else match spec.lengthSize, spec.endian with
    | 4, .big => .ok (BigEndian.decode (bytes.take 4))
    | 4, .little => .ok (BigEndian.decode (bytes.take 4).reverse)
    | n, _ =>
      .error (.invalid ("unsupported length_size " ++ toString n ++ "; only 4 is implemented"))

/-- The length that a complete header announces, if it is accepted. -/
def announced (src : Bytes) : Except FrameError ℕ := do
  let lengthValue ← spec.readLength (src.drop spec.headerOffset)
  let frameLen := spec.totalFrameLen lengthValue
  if frameLen < spec.headerTotal then
    .error (.invalid ("announced frame length " ++ toString lengthValue ++ " is shorter than header (" ++
      toString spec.headerTotal ++ ")"))
  else if spec.maxFrameSize < frameLen then .error (.limit frameLen spec.maxFrameSize)
  else .ok frameLen

/-- `try_read_length_prefixed`, with the buffer that it leaves. -/
def tryReadLengthPrefixed (src : Bytes) : Except FrameError (Option Bytes) × Bytes :=
  if src.length < spec.headerTotal then (.ok none, src)
  else match spec.announced src with
    | .error e => (.error e, src)
    | .ok frameLen =>
      if src.length < frameLen then (.ok none, src)
      else (.ok (some (src.take frameLen)), src.drop frameLen)

lemma readLength_append {bytes : Bytes} (long : spec.lengthSize ≤ bytes.length) (more : Bytes) :
    spec.readLength (bytes ++ more) = spec.readLength bytes := by
  have first (four : spec.lengthSize = 4) : (bytes ++ more).take 4 = bytes.take 4 :=
    List.take_append_of_le_length (four ▸ long)
  unfold readLength
  rw [if_neg (Nat.not_lt.mpr long), if_neg (by rw [List.length_append]; omega)]
  split
  · rename_i four _
    rw [first four]
  · rename_i four _
    rw [first four]
  · rfl

lemma announced_append {src : Bytes} (long : spec.headerTotal ≤ src.length) (more : Bytes) :
    spec.announced (src ++ more) = spec.announced src := by
  have offset : spec.headerOffset ≤ src.length := le_trans (Nat.le_add_right _ _) long
  unfold announced
  rw [List.drop_append_of_le_length offset, spec.readLength_append]
  rw [List.length_drop]
  exact Nat.le_sub_of_add_le' long

lemma announced_pos {src : Bytes} {frameLen : ℕ} (ok : spec.announced src = .ok frameLen) : 0 < frameLen := by
  unfold announced at ok
  cases read : spec.readLength (src.drop spec.headerOffset) with
  | error e =>
    rw [read] at ok
    cases ok
  | ok lengthValue =>
    have four : spec.lengthSize = 4 := by
      unfold readLength at read
      split at read
      · cases read
      · split at read
        · assumption
        · assumption
        · cases read
    simp only [read, bind, Except.bind, headerTotal, four] at ok
    split at ok
    · cases ok
    · split at ok
      · cases ok
      · cases ok
        omega

/-- A call finds nothing and leaves the buffer, refuses the buffer, or takes a frame off it; and the latter
two do not depend on what comes after. -/
inductive Reading (src : Bytes) : Except FrameError (Option Bytes) × Bytes → Prop
  | nothing : Reading src (.ok none, src)
  | refused {e : FrameError} : (∀ more, spec.tryReadLengthPrefixed (src ++ more) = (.error e, src ++ more)) →
      Reading src (.error e, src)
  | frame {frame rest : Bytes} : rest.length < src.length →
      (∀ more, spec.tryReadLengthPrefixed (src ++ more) = (.ok (some frame), rest ++ more)) →
      Reading src (.ok (some frame), rest)

lemma reading (src : Bytes) : spec.Reading src (spec.tryReadLengthPrefixed src) := by
  unfold tryReadLengthPrefixed
  split
  · exact .nothing
  rename_i long
  have long : spec.headerTotal ≤ src.length := Nat.not_lt.mp long
  have longer (more : Bytes) : ¬ (src ++ more).length < spec.headerTotal := by
    rw [List.length_append]
    omega
  cases ann : spec.announced src with
  | error e =>
    refine .refused fun more => ?_
    simp only [tryReadLengthPrefixed, if_neg (longer more), spec.announced_append long, ann]
  | ok frameLen =>
    dsimp only
    split
    · exact .nothing
    rename_i enough
    have enough : frameLen ≤ src.length := Nat.not_lt.mp enough
    have pos := spec.announced_pos ann
    refine .frame (by rw [List.length_drop]; omega) fun more => ?_
    have still : ¬ (src ++ more).length < frameLen := by
      rw [List.length_append]
      omega
    simp only [tryReadLengthPrefixed, if_neg (longer more), spec.announced_append long, ann, if_neg still,
      List.take_append_of_le_length enough, List.drop_append_of_le_length enough]

end LengthSpec

/-- How the decoding of a buffer ends. -/
inductive Ending where
  | waiting (remainder : Bytes)
  | failed (e : FrameError)
deriving DecidableEq, Repr

/-- The frames that are taken off a buffer until there is none, or an error. -/
def drain (spec : LengthSpec) (buf : Bytes) : List Bytes × Ending :=
  match spec.tryReadLengthPrefixed buf, spec.reading buf with
  | (.error e, _), _ => ([], .failed e)
  | (.ok none, rest), _ => ([], .waiting rest)
  | (.ok (some frame), rest), _ =>
    let (frames, ending) := drain spec rest
    (frame :: frames, ending)
termination_by buf.length
decreasing_by
  rename_i found
  cases found with
  | frame shorter _ => exact shorter

/-- The loop over the reads, with the bytes that are left from earlier ones. It ends with an error. -/
def receive (spec : LengthSpec) : Bytes → List Bytes → List Bytes × Ending
  | buf, [] => ([], .waiting buf)
  | buf, read :: reads =>
    match drain spec (buf ++ read) with
    | (frames, .failed e) => (frames, .failed e)
    | (frames, .waiting rest) =>
      let (more, ending) := receive spec rest reads
      (frames ++ more, ending)

section Drain

variable {spec : LengthSpec} {buf rest : Bytes}

lemma drain_failed {e : FrameError} (found : spec.tryReadLengthPrefixed buf = (.error e, rest)) :
    drain spec buf = ([], .failed e) := by
  rw [drain]
  split <;> simp_all

lemma drain_waiting (found : spec.tryReadLengthPrefixed buf = (.ok none, rest)) :
    drain spec buf = ([], .waiting rest) := by
  rw [drain]
  split <;> simp_all

lemma drain_frame {frame : Bytes} (found : spec.tryReadLengthPrefixed buf = (.ok (some frame), rest)) :
    drain spec buf = (frame :: (drain spec rest).1, (drain spec rest).2) := by
  rw [drain]
  split <;> simp_all

@[elab_as_elim]
lemma drain_induction {motive : Bytes → Prop} (spec : LengthSpec) (buf : Bytes)
    (waiting : ∀ buf, spec.tryReadLengthPrefixed buf = (.ok none, buf) → motive buf)
    (failed : ∀ buf e, spec.tryReadLengthPrefixed buf = (.error e, buf) →
      (∀ more, spec.tryReadLengthPrefixed (buf ++ more) = (.error e, buf ++ more)) → motive buf)
    (frame : ∀ buf frame rest, spec.tryReadLengthPrefixed buf = (.ok (some frame), rest) →
      (∀ more, spec.tryReadLengthPrefixed (buf ++ more) = (.ok (some frame), rest ++ more)) →
      motive rest → motive buf) : motive buf := by
  induction len : buf.length using Nat.strong_induction_on generalizing buf with
  | _ n ih =>
    have reading := spec.reading buf
    generalize found : spec.tryReadLengthPrefixed buf = result at reading
    cases reading with
    | nothing => exact waiting buf found
    | refused always => exact failed buf _ found always
    | @frame taken rest shorter always =>
      exact frame buf taken rest found always (ih rest.length (len ▸ shorter) rest rfl)

/-- More bytes do not change what was taken off a buffer, and go on from what was left. -/
lemma drain_append (spec : LengthSpec) (buf more : Bytes) :
    drain spec (buf ++ more) =
      match drain spec buf with
      | (frames, .failed e) => (frames, .failed e)
      | (frames, .waiting rest) =>
        (frames ++ (drain spec (rest ++ more)).1, (drain spec (rest ++ more)).2) := by
  induction buf using drain_induction spec with
  | waiting buf found =>
    rw [drain_waiting found]
    rfl
  | failed buf e found always => rw [drain_failed found, drain_failed (always more)]
  | frame buf taken rest found always ih =>
    rw [drain_frame found, drain_frame (always more), ih]
    cases drain spec rest with
    | mk frames ending => cases ending <;> rfl

lemma drain_drain {frames : List Bytes} (left : drain spec buf = (frames, .waiting rest)) :
    drain spec rest = ([], .waiting rest) := by
  induction buf using drain_induction spec generalizing frames with
  | waiting buf found =>
    rw [drain_waiting found] at left
    cases left
    exact drain_waiting found
  | failed buf e found =>
    rw [drain_failed found] at left
    cases left
  | frame buf taken rest' found _ ih =>
    rw [drain_frame found] at left
    have ending : (drain spec rest').2 = .waiting rest := congrArg Prod.snd left
    exact ih (Prod.ext rfl ending)

end Drain

/-- Reads that go on from a buffer without a frame give what the whole stream gives. -/
lemma receive_eq_drain {spec : LengthSpec} {buf : Bytes} (none : drain spec buf = ([], .waiting buf))
    (reads : List Bytes) : receive spec buf reads = drain spec (buf ++ reads.flatten) := by
  induction reads generalizing buf with
  | nil => rw [receive, List.flatten_nil, List.append_nil, none]
  | cons read reads ih =>
    rw [receive, List.flatten_cons, ← List.append_assoc, drain_append spec (buf ++ read)]
    cases left : drain spec (buf ++ read) with
    | mk frames ending =>
      cases ending with
      | failed e => rfl
      | waiting rest =>
        dsimp only
        rw [← ih (drain_drain left)]

/-- The specifications of the protocols. -/
inductive LengthSpec.Built (maxFrameSize : ℕ) : LengthSpec → Prop
  | postgresV3 : Built maxFrameSize (.postgresV3 maxFrameSize)
  | postgresStartup : Built maxFrameSize (.postgresStartup maxFrameSize)
  | mongoOpMsg : Built maxFrameSize (.mongoOpMsg maxFrameSize)

/-- Framing does not depend on how the stream is cut: the reads give the frames and the ending of the whole
stream, and a call that finds no frame leaves the buffer as it is. -/
theorem frames_of_any_reads {maxFrameSize : ℕ} {spec : LengthSpec} (built : spec.Built maxFrameSize)
    (reads : List Bytes) :
    receive spec [] reads = drain spec reads.flatten ∧
      ∀ src, (spec.tryReadLengthPrefixed src).1 = .ok none → (spec.tryReadLengthPrefixed src).2 = src := by
  have empty : drain spec [] = ([], .waiting []) := by
    refine drain_waiting (if_pos ?_)
    cases built <;> exact Nat.succ_pos _
  refine ⟨receive_eq_drain empty reads, fun src found => ?_⟩
  have reading := spec.reading src
  generalize spec.tryReadLengthPrefixed src = result at reading found
  cases reading with
  | nothing => rfl
  | refused _ => cases found
  | frame _ _ => cases found

/-- A frame of five bytes that comes in three reads, with a byte of the next one. -/
theorem frames_of_three_reads :
    LengthSpec.Built 64 (.postgresStartup 64) ∧
      receive (.postgresStartup 64) [] [[0, 0], [0, 5, 7], [0]] =
        drain (.postgresStartup 64) [0, 0, 0, 5, 7, 0] :=
  ⟨.postgresStartup, (frames_of_any_reads .postgresStartup [[0, 0], [0, 5, 7], [0]]).1⟩

end Kernel
