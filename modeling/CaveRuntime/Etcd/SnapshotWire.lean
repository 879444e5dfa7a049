import CaveRuntime.Common.BigEndian
import CaveRuntime.Common.MachineInt
import CaveRuntime.Common.Refusal
import CaveRuntime.Common.Text
import CaveRuntime.Etcd.Snapshot

/-!
# The etcd-compatible store: snapshot frames

Model of `crates/compute/cave-etcd/src/snapshot_wire.rs`, lines 33-201. SHA-256 is a parameter.
Where the code can panic, `none` is the panic; `checks` says whether the build has overflow checks.

The length of a frame is the length of its header and the one that the header gives for the payload. If that
sum leaves 64 bits it panics, or wraps around to an end of the payload that is before its start, which
panics as well. Otherwise a frame is read back from what starts with it, and its strict prefixes are
partial.
-/

namespace Etcd
open Utf8 MachineInt

/-- Rust `[u8; 32]`. -/
abbrev Digest := { b : Bytes // b.length = 32 }

def frameMagic : ℕ := 0x45544344

def frameVersion : ℕ := 1

def frameHeaderLen : ℕ := 88

/-- Rust `isize::MAX`, which no `Vec<u8>` is longer than. -/
def isizeMax : ℕ := 2 ^ 63 - 1

structure SnapshotFrame where
  sequence : UInt64
  payloadSha256 : Digest
  totalSha256 : Digest
  payload : Bytes
  deriving DecidableEq

/-! ## Hexadecimal -/

/-- The last `width` digits of the number, as `{:0width$x}` writes them. -/
def lowerHex : ℕ → ℕ → List Char
  | 0, _ => []
  | width + 1, n => ("0123456789abcdef".toList.getD (n / 16 ^ width % 16) '0') :: lowerHex width n

def hexString (b : Bytes) : String := String.ofList (b.flatMap fun x => lowerHex 2 x.toNat)

def hexNibble (c : UInt8) : Except EtcdError UInt8 :=
  if 0x30 ≤ c ∧ c ≤ 0x39 then .ok (c - 0x30)
  else if 0x61 ≤ c ∧ c ≤ 0x66 then .ok (c - 0x61 + 10)
  else if 0x41 ≤ c ∧ c ≤ 0x46 then .ok (c - 0x41 + 10)
  else .error (.snapshotDecode ("non-hex char 0x" ++ String.ofList (lowerHex 2 c.toNat)))

/-- The loop of `parse_hex32`. -/
def parsePairs : Bytes → Except EtcdError Bytes
  | hi :: lo :: rest => do
    let hi ← hexNibble hi
    let lo ← hexNibble lo
    let out ← parsePairs rest
    return (hi <<< 4 ||| lo) :: out
  | _ => .ok []

lemma length_parsePairs {b out : Bytes} (ok : parsePairs b = .ok out) : out.length = b.length / 2 := by
  induction b using parsePairs.induct generalizing out with
  | case1 hi lo rest ih =>
    rw [parsePairs] at ok
    obtain ⟨_, _, ok⟩ := Refusal.bind_eq_ok.mp ok
    obtain ⟨_, _, ok⟩ := Refusal.bind_eq_ok.mp ok
    obtain ⟨tail, parsed, made⟩ := Refusal.bind_eq_ok.mp ok
    cases made
    rw [List.length_cons, ih parsed, List.length_cons, List.length_cons]
    omega
  | case2 b short =>
    rw [parsePairs.eq_2 b short] at ok
    cases ok
    match b with
    | [] => rfl
    | [_] => simp
    | hi :: lo :: rest => exact absurd rfl (short hi lo rest)

def parseHex32 (s : String) : Except EtcdError Digest :=
  let b := Text.utf8 s
  if len : b.length ≠ 64 then
    .error (.snapshotDecode ("hex must be 64 chars, got " ++ toString b.length))
  else
    match parsed : parsePairs b with
    | .error e => .error e
    | .ok out => .ok ⟨out, by rw [length_parsePairs parsed, not_not.mp len]⟩

/-! ## Frames -/

/-- The header of a frame. -/
def frameHeader (seq : UInt64) (payloadLen : ℕ) (payloadSha256 totalSha256 : Digest) : Bytes :=
  BigEndian.encode 4 frameMagic ++ BigEndian.encode 4 frameVersion ++ BigEndian.encode 8 seq.toNat ++
    BigEndian.encode 8 payloadLen ++ payloadSha256.1 ++ totalSha256.1

def encodeFrame (sha256 : Bytes → Digest) (seq : UInt64) (chunk : SnapshotChunk) :
    Except EtcdError Bytes := do
  let total ← parseHex32 chunk.checksum
  return frameHeader seq chunk.blob.length (sha256 chunk.blob) total ++ chunk.blob

/-- Rust `bytes[start..end]`. -/
def slice (b : Bytes) (start stop : ℕ) : Bytes := (b.drop start).take (stop - start)

lemma length_slice {b : Bytes} {start stop : ℕ} (le : stop ≤ b.length) :
    (slice b start stop).length = stop - start := by
  rw [slice, List.length_take, List.length_drop]
  omega

/-- The error for a frame that is not there as a whole. -/
def partialFrame (present need : ℕ) : EtcdError :=
  .snapshotDecode ("partial: have " ++ toString present ++ " need " ++ toString need)

/-- The magic number of a frame. -/
def magicOf (b : Bytes) : ℕ := BigEndian.decode (slice b 0 4)

/-- The version of a frame. -/
def versionOf (b : Bytes) : ℕ := BigEndian.decode (slice b 4 8)

/-- The length that a frame gives for its payload. -/
def payloadLenOf (b : Bytes) : ℕ := BigEndian.decode (slice b 16 24)

/-- The end of `decode_frame`, with the payload `bytes[FRAME_HEADER_LEN..frame_total]`. -/
def checkPayload (sha256 : Bytes → Digest) (sequence : UInt64) (payloadSha256 totalSha256 : Digest)
    (payload : Bytes) (frameTotal : ℕ) : Except EtcdError (SnapshotFrame × ℕ) :=
  let actual := sha256 payload
  if actual ≠ payloadSha256 then
    .error (.snapshotChecksumMismatch (hexString payloadSha256.1) (hexString actual.1))
  else .ok (⟨sequence, payloadSha256, totalSha256, payload⟩, frameTotal)

lemma length_payloadSha {b : Bytes} (long : ¬ b.length < frameHeaderLen) : (slice b 24 56).length = 32 :=
  length_slice ((by decide : 56 ≤ 88).trans (Nat.not_lt.mp long))

lemma length_totalSha {b : Bytes} (long : ¬ b.length < frameHeaderLen) : (slice b 56 88).length = 32 :=
  length_slice (Nat.not_lt.mp long)

/-- Rust `decode_frame`; `none` is a panic. -/
def decodeFrame (checks : Bool) (sha256 : Bytes → Digest) (b : Bytes) :
    Option (Except EtcdError (SnapshotFrame × ℕ)) :=
  if short : b.length < frameHeaderLen then some (.error (partialFrame b.length frameHeaderLen))
  else if magicOf b ≠ frameMagic then
    some (.error (.snapshotDecode ("bad magic 0x" ++ String.ofList (lowerHex 8 (magicOf b)))))
  else if versionOf b ≠ frameVersion then
    some (.error (.snapshotDecode ("unsupported version " ++ toString (versionOf b))))
  else
    let sequence := UInt64.ofNat (BigEndian.decode (slice b 8 16))
    let payloadSha256 : Digest := ⟨slice b 24 56, length_payloadSha short⟩
    let totalSha256 : Digest := ⟨slice b 56 88, length_totalSha short⟩
    match addU64 checks frameHeaderLen (payloadLenOf b) with
    | none => none
    | some frameTotal =>
      if b.length < frameTotal then some (.error (partialFrame b.length frameTotal))
      -- a slice that ends before it starts
      else if frameTotal < frameHeaderLen then none
      else
        some (checkPayload sha256 sequence payloadSha256 totalSha256 (slice b frameHeaderLen frameTotal)
          frameTotal)

/-- If the bytes start like a frame, the length of the frame fits into 64 bits. -/
def LengthFits (b : Bytes) : Prop :=
  frameHeaderLen ≤ b.length → magicOf b = frameMagic → versionOf b = frameVersion →
    frameHeaderLen + payloadLenOf b < 2 ^ 64
deriving Decidable

lemma payloadLenOf_lt (b : Bytes) : payloadLenOf b < 2 ^ 64 := by
  have lt := BigEndian.decode_lt (slice b 16 24)
  have width : (slice b 16 24).length ≤ 8 := by
    rw [slice, List.length_take]
    exact Nat.min_le_left _ _
  exact lt.trans_le (Nat.pow_le_pow_right (by decide) width)

lemma decodeFrame_isSome (checks : Bool) (sha256 : Bytes → Digest) (b : Bytes) :
    (decodeFrame checks sha256 b).isSome = true ↔ LengthFits b := by
  have small := payloadLenOf_lt b
  unfold decodeFrame LengthFits
  split
  · rename_i short
    exact iff_of_true rfl fun long => absurd short (Nat.not_lt.mpr long)
  rename_i long
  split
  · rename_i magic
    exact iff_of_true rfl fun _ same => absurd same magic
  rename_i magic
  split
  · rename_i version
    exact iff_of_true rfl fun _ _ same => absurd same version
  rename_i version
  rw [forall_prop_of_true (Nat.not_lt.mp long), forall_prop_of_true (not_not.mp magic),
    forall_prop_of_true (not_not.mp version)]
  dsimp only
  unfold addU64
  by_cases fits : frameHeaderLen + payloadLenOf b < 2 ^ 64
  · rw [if_pos fits]
    refine iff_of_true ?_ fits
    dsimp only
    split
    · rfl
    · rw [if_neg (by omega)]
      rfl
  · rw [if_neg fits]
    refine iff_of_false ?_ fits
    cases checks with
    | true => simp
    | false =>
      -- the sum wraps around to less than a header
      have wrapped : (frameHeaderLen + payloadLenOf b) % 2 ^ 64 < frameHeaderLen := by
        unfold frameHeaderLen at fits ⊢
        omega
      simp only [Bool.false_eq_true, if_false]
      rw [if_neg (by omega), if_pos wrapped]
      simp

/-! ## What is encoded -/

lemma slice_append (pre mid : Bytes) {b post : Bytes} {start stop : ℕ} (parts : b = pre ++ mid ++ post)
    (before : pre.length = start) (upTo : start + mid.length = stop) : slice b start stop = mid := by
  unfold slice
  rw [parts, List.append_assoc, List.drop_left' before]
  exact List.take_left' (by omega)

section Header

variable {seq : UInt64} {len : ℕ} {payloadSha256 totalSha256 : Digest} {b tail : Bytes}

lemma length_frameHeader : (frameHeader seq len payloadSha256 totalSha256).length = frameHeaderLen := by
  simp [frameHeader, payloadSha256.2, totalSha256.2, frameHeaderLen]

section

variable (eq : b = frameHeader seq len payloadSha256 totalSha256 ++ tail)

include eq

lemma magicOf_frame :
    magicOf b = frameMagic := by
  rw [magicOf, slice_append [] (BigEndian.encode 4 frameMagic) (by simp [eq, frameHeader]; rfl) (by simp)
    (by simp)]
  exact BigEndian.decode_encode (by decide)

lemma versionOf_frame :
    versionOf b = frameVersion := by
  rw [versionOf, slice_append (BigEndian.encode 4 frameMagic) (BigEndian.encode 4 frameVersion)
    (by simp [eq, frameHeader]; rfl) (by simp) (by simp)]
  exact BigEndian.decode_encode (by decide)

lemma sequence_frame :
    UInt64.ofNat (BigEndian.decode (slice b 8 16)) = seq := by
  rw [slice_append (BigEndian.encode 4 frameMagic ++ BigEndian.encode 4 frameVersion)
    (BigEndian.encode 8 seq.toNat) (by simp [eq, frameHeader]; rfl) (by simp) (by simp),
    BigEndian.decode_encode seq.toNat_lt, UInt64.ofNat_toNat]

lemma payloadLenOf_frame
    (fits : len < 2 ^ 64) : payloadLenOf b = len := by
  rw [payloadLenOf, slice_append (BigEndian.encode 4 frameMagic ++ BigEndian.encode 4 frameVersion ++
    BigEndian.encode 8 seq.toNat) (BigEndian.encode 8 len) (by simp [eq, frameHeader]; rfl) (by simp) (by simp)]
  exact BigEndian.decode_encode fits

lemma payloadSha256_frame :
    slice b 24 56 = payloadSha256.1 :=
  slice_append (BigEndian.encode 4 frameMagic ++ BigEndian.encode 4 frameVersion ++
    BigEndian.encode 8 seq.toNat ++ BigEndian.encode 8 len) payloadSha256.1
    (by simp [eq, frameHeader]; rfl) (by simp) (by rw [payloadSha256.2])

lemma totalSha256_frame :
    slice b 56 88 = totalSha256.1 :=
  slice_append (BigEndian.encode 4 frameMagic ++ BigEndian.encode 4 frameVersion ++
    BigEndian.encode 8 seq.toNat ++ BigEndian.encode 8 len ++ payloadSha256.1) totalSha256.1
    (by simp [eq, frameHeader]; rfl) (by simp [payloadSha256.2]) (by rw [totalSha256.2])

end

/-- What starts with the header of a frame is partial, or its payload is checked. -/
lemma decodeFrame_frame (checks : Bool) (sha256 : Bytes → Digest)
    (eq : b = frameHeader seq len payloadSha256 totalSha256 ++ tail) (fits : frameHeaderLen + len < 2 ^ 64) :
    decodeFrame checks sha256 b =
      if tail.length < len then some (.error (partialFrame b.length (frameHeaderLen + len)))
      else
        some (checkPayload sha256 seq payloadSha256 totalSha256 (tail.take len) (frameHeaderLen + len)) := by
  have length : b.length = frameHeaderLen + tail.length := by
    rw [eq, List.length_append, length_frameHeader]
  have added : addU64 checks frameHeaderLen (payloadLenOf b) = some (frameHeaderLen + len) := by
    rw [payloadLenOf_frame eq (by omega)]
    exact if_pos fits
  have payload : slice b frameHeaderLen (frameHeaderLen + len) = tail.take len := by
    rw [slice, eq, List.drop_left' length_frameHeader, Nat.add_sub_cancel_left]
  unfold decodeFrame
  rw [dif_neg (by omega), if_neg (not_not.mpr (magicOf_frame eq)), if_neg (not_not.mpr (versionOf_frame eq))]
  simp only [added, sequence_frame eq, payloadSha256_frame eq, totalSha256_frame eq, payload, length]
  by_cases short : tail.length < len
  · rw [if_pos short, if_pos (by omega)]
  · rw [if_neg short, if_neg (by omega), if_neg (by omega)]

end Header

/-- `decode_frame` does not panic exactly if the length of the frame fits. A chunk with a checksum in
hexadecimal is framed, what starts with its frame is decoded to it and to the length of the frame, and every
strict prefix of the frame is partial. -/
theorem frames_on_the_wire (checks : Bool) (sha256 : Bytes → Digest) :
    (∀ b, (decodeFrame checks sha256 b).isSome = true ↔ LengthFits b) ∧
      ∀ seq chunk total, parseHex32 chunk.checksum = .ok total → chunk.blob.length ≤ isizeMax →
        ∃ frame, encodeFrame sha256 seq chunk = .ok frame ∧
          (∀ rest, decodeFrame checks sha256 (frame ++ rest) =
            some (.ok (⟨seq, sha256 chunk.blob, total, chunk.blob⟩, frame.length))) ∧
          ∀ b, b <+: frame → b ≠ frame → ∃ need, b.length < need ∧
            decodeFrame checks sha256 b = some (.error (partialFrame b.length need)) := by
  refine ⟨decodeFrame_isSome checks sha256, fun seq chunk total hex bound => ?_⟩
  have fits : frameHeaderLen + chunk.blob.length < 2 ^ 64 := by
    unfold frameHeaderLen
    unfold isizeMax at bound
    omega
  let header := frameHeader seq chunk.blob.length (sha256 chunk.blob) total
  have headerLength : header.length = frameHeaderLen := length_frameHeader
  have encoded : encodeFrame sha256 seq chunk = .ok (header ++ chunk.blob) := by
    unfold encodeFrame
    rw [hex]
    rfl
  refine ⟨header ++ chunk.blob, encoded, fun rest => ?_, fun b strict ne => ?_⟩
  · rw [decodeFrame_frame checks sha256 (List.append_assoc _ _ _) fits, if_neg (by simp),
      List.take_left' rfl, checkPayload, if_neg (not_not.mpr rfl), List.length_append, headerLength]
  · have shorter : b.length < frameHeaderLen + chunk.blob.length := by
      rw [← headerLength, ← List.length_append]
      exact lt_of_le_of_ne strict.length_le fun same => ne (strict.eq_of_length same)
    by_cases short : b.length < frameHeaderLen
    · exact ⟨frameHeaderLen, short, dif_pos short⟩
    · -- the header is there, and the payload is cut
      have cut : b = header ++ chunk.blob.take (b.length - frameHeaderLen) := by
        conv_lhs => rw [List.prefix_iff_eq_take.mp strict]
        rw [List.take_append, headerLength, List.take_of_length_le (by omega)]
      refine ⟨_, shorter, ?_⟩
      rw [decodeFrame_frame checks sha256 cut fits, if_pos]
      rw [List.length_take]
      omega

/-- A header without payload that gives `u64::MAX` as the length of the payload. -/
def oversizedFrame : Bytes :=
  BigEndian.encode 4 frameMagic ++ BigEndian.encode 4 frameVersion ++ List.replicate 8 0 ++
    List.replicate 8 255 ++ List.replicate 64 0

/-- `decode_frame` panics, with overflow checks and without them. -/
theorem oversized_frame_panics :
    ∃ sha256 : Bytes → Digest,
      decodeFrame true sha256 oversizedFrame = none ∧ decodeFrame false sha256 oversizedFrame = none := by
  refine ⟨fun _ => ⟨List.replicate 32 0, rfl⟩, ?_, ?_⟩
  · decide
  · decide

/-! ## Reassembly -/

/-- The loop of `assemble_frames`. -/
def checkFrames (totalHash : Digest) : ℕ → List SnapshotFrame → Except EtcdError Unit
  | _, [] => .ok ()
  | i, f :: frames =>
    if f.totalSha256 ≠ totalHash then
      .error (.snapshotChecksumMismatch (hexString totalHash.1) (hexString f.totalSha256.1))
    else if f.sequence.toNat ≠ i then
      .error (.snapshotDecode ("out-of-order: frame " ++ toString i ++ " declared sequence " ++
        toString f.sequence))
    else checkFrames totalHash (i + 1) frames

def assembleFrames (sha256 : Bytes → Digest) : List SnapshotFrame → Except EtcdError (Bytes × Digest)
  | [] => .error (.snapshotDecode "no frames")
  | first :: rest => do
    let frames := first :: rest
    let totalHash := first.totalSha256
    checkFrames totalHash 0 frames
    let blob := frames.flatMap (·.payload)
    let actual := sha256 blob
    if actual ≠ totalHash then
      .error (.snapshotChecksumMismatch (hexString totalHash.1) (hexString actual.1))
    else .ok (blob, totalHash)

lemma checkFrames_ok {totalHash : Digest} {i : ℕ} {frames : List SnapshotFrame} :
    checkFrames totalHash i frames = .ok () ↔
      ∀ k f, frames[k]? = some f → f.totalSha256 = totalHash ∧ f.sequence.toNat = i + k := by
  induction frames generalizing i with
  | nil => simp [checkFrames]
  | cons f frames ih =>
    rw [checkFrames]
    constructor
    · intro ok
      split at ok
      · cases ok
      split at ok
      · cases ok
      rename_i total seq
      rintro (_ | k) g here
      · cases here
        exact ⟨not_not.mp total, not_not.mp seq⟩
      · obtain ⟨same, at_⟩ := ih.mp ok k g here
        exact ⟨same, by omega⟩
    · intro all
      obtain ⟨total, seq⟩ := all 0 f rfl
      rw [if_neg (not_not.mpr total), if_neg (not_not.mpr (seq.trans (Nat.add_zero i)))]
      refine ih.mpr fun k g here => ?_
      obtain ⟨same, at_⟩ := all (k + 1) g here
      exact ⟨same, by omega⟩

/-- The frames of one transfer, in the order in which they are sent. -/
def Numbered (total : Digest) (sent : List SnapshotFrame) : Prop :=
  ∀ (i : ℕ) (f : SnapshotFrame), sent[i]? = some f → f.sequence.toNat = i ∧ f.totalSha256 = total

section
variable {total : Digest} {sent frames : List SnapshotFrame} {f : SnapshotFrame}

lemma Numbered.at_sequence (numbered : Numbered total sent) (mem : f ∈ sent) :
    f.totalSha256 = total ∧ sent[f.sequence.toNat]? = some f := by
  obtain ⟨i, here⟩ := List.mem_iff_getElem?.mp mem
  obtain ⟨seq, same⟩ := numbered i f here
  exact ⟨same, seq.symm ▸ here⟩

lemma Numbered.checkFrames_iff (numbered : Numbered total sent) (drawn : frames ⊆ sent) :
    checkFrames total 0 frames = .ok () ↔ frames <+: sent := by
  rw [checkFrames_ok, List.prefix_iff_getElem?]
  constructor
  · intro all k lt
    obtain ⟨-, seq⟩ := all k _ (List.getElem?_eq_getElem lt)
    rw [← (numbered.at_sequence (drawn (List.getElem_mem lt))).2, seq, Nat.zero_add]
  · intro pre k f here
    obtain ⟨lt, rfl⟩ := List.getElem?_eq_some_iff.mp here
    obtain ⟨seq, same⟩ := numbered k _ (pre k lt)
    exact ⟨same, seq.trans (Nat.zero_add k).symm⟩

/-- From frames of one transfer, lost, repeated and reordered in any way, `assemble_frames` makes a blob
exactly if they are the first ones in order and the blob has the digest of the whole. -/
theorem assembleFrames_iff {sha256 : Bytes → Digest} {totalHash : Digest} {blob : Bytes}
    (numbered : Numbered total sent) (drawn : frames ⊆ sent) :
    assembleFrames sha256 frames = .ok (blob, totalHash) ↔
      frames ≠ [] ∧ frames <+: sent ∧ blob = frames.flatMap (·.payload) ∧ sha256 blob = total ∧
        totalHash = total := by
  cases frames with
  | nil => exact iff_of_false nofun fun h => h.1 rfl
  | cons first rest =>
    have start := (numbered.at_sequence (drawn List.mem_cons_self)).1
    rw [assembleFrames, start, Refusal.bind_eq_ok, ← numbered.checkFrames_iff drawn]
    constructor
    · rintro ⟨_, ok, last⟩
      dsimp only at last
      split at last
      · cases last
      · rename_i digest
        cases last
        exact ⟨nofun, ok, rfl, not_not.mp digest, rfl⟩
    · rintro ⟨-, ok, rfl, digest, rfl⟩
      exact ⟨(), ok, if_neg (not_not.mpr digest)⟩

end

lemma length_padded (b : Bytes) : ((b ++ List.replicate 32 0).take 32).length = 32 := by
  simp

/-- The first 32 bytes, in place of a hash. -/
def padded (b : Bytes) : Digest := ⟨(b ++ List.replicate 32 0).take 32, length_padded b⟩

/-- Three frames arrive in order; then the second is lost, the first repeated, the last two exchanged, or the last
one lost, where the part that arrives does not have the digest of the whole. -/
theorem assembleFrames_of_three :
    let frame (i : UInt64) (payload : Bytes) : SnapshotFrame := ⟨i, padded payload, padded [7, 8, 9, 5], payload⟩
    assembleFrames padded [frame 0 [7, 8], frame 1 [9], frame 2 [5]] = .ok ([7, 8, 9, 5], padded [7, 8, 9, 5]) ∧
      ∀ blob hash, ∀ frames ∈ [[frame 0 [7, 8], frame 2 [5]], [frame 0 [7, 8], frame 0 [7, 8], frame 1 [9]],
        [frame 0 [7, 8], frame 2 [5], frame 1 [9]], [frame 0 [7, 8], frame 1 [9]]],
        assembleFrames padded frames ≠ .ok (blob, hash) := by
  intro frame
  have numbered : Numbered (padded [7, 8, 9, 5]) [frame 0 [7, 8], frame 1 [9], frame 2 [5]] := by
    rintro (_ | _ | _ | i) f here <;> cases here <;> exact ⟨rfl, rfl⟩
  refine ⟨(assembleFrames_iff numbered (List.Subset.refl _)).mpr ⟨nofun, List.prefix_refl _, rfl, rfl, rfl⟩, ?_⟩
  intro blob hash frames mem arrived
  have drawn : frames ⊆ [frame 0 [7, 8], frame 1 [9], frame 2 [5]] := by
    clear arrived
    revert frames
    decide
  obtain ⟨-, first, rfl, whole, -⟩ := (assembleFrames_iff numbered drawn).mp arrived
  clear arrived
  revert frames
  decide

end Etcd
