import CaveRuntime.Common.BigEndian
import CaveRuntime.Common.MachineInt
import CaveRuntime.Common.Utf8

/-!
# Decoding Kafka requests

Model of the decoders of `cave-streams/src/protocol.rs` and `kafka_wire.rs`. Strings and the counts of arrays are
checked against what is left. The numbers between them are not, and `get_i32` panics where fewer than four bytes
are left; an array reserves as many items as its count, whatever is left. `Layout.walk` goes through the fields
of a request without decoding them, and every decoder ends the way the walk of its layout does.
-/

namespace KafkaDecode
open MachineInt Utf8

/-! ## Decoders -/

/-- What `StreamsError::ProtocolDecode` says, without the words. -/
inductive DecodeError where
  | headerTooShort
  | unknownApiKey (raw : ℤ)
  | stringLength
  | truncated (need left : ℕ)
  | utf8 (text : Bytes)
  | nullString
  | arrayLength
deriving DecidableEq, Repr

/-- How decoding stops; `excess` at memory for more items than the bytes that are left can hold. -/
inductive Fault where
  | refused (e : DecodeError)
  | panic
  | excess
deriving DecidableEq, Repr

abbrev Decoder := StateT Bytes (Except Fault)

/-- `copy_to_bytes`. -/
def getBytes (n : ℕ) : Decoder Bytes := fun s =>
  if s.length < n then .error .panic else .ok (s.take n, s.drop n)

def getInt (n : ℕ) (top : ℤ) : Decoder ℤ := (fun b => wrap top (BigEndian.decode b)) <$> getBytes n

def getI8 : Decoder ℤ := getInt 1 127

def getI16 : Decoder ℤ := getInt 2 i16Max

def getI32 : Decoder ℤ := getInt 4 i32Max

def getI64 : Decoder ℤ := getInt 8 i64Max

def getU8 : Decoder ℕ := BigEndian.decode <$> getBytes 1

/-- A field that versions have from some version on. -/
def since {α : Type} (version first : ℤ) (field : Decoder α) (default : α) : Decoder α :=
  if first ≤ version then field else pure default

def decodeNullableString : Decoder (Option Str) := fun s =>
  if s.length < 2 then .error (.refused .stringLength)
  else
    let len := wrap i16Max (BigEndian.decode (s.take 2))
    let rest := s.drop 2
    if len = -1 then .ok (none, rest)
    else if rest.length < asU64 len then .error (.refused (.truncated (asU64 len) rest.length))
    else if valid : fromUtf8Lossy (rest.take (asU64 len)) = rest.take (asU64 len) then
      .ok (some ⟨rest.take (asU64 len), valid⟩, rest.drop (asU64 len))
    else .error (.refused (.utf8 (rest.take (asU64 len))))

def decodeString : Decoder Str := fun s =>
  match decodeNullableString s with
  | .error e => .error e
  | .ok (none, _) => .error (.refused .nullString)
  | .ok (some text, rest) => .ok (text, rest)

/-- The loop of `decode_array`. -/
def decodeItems {α : Type} (item : Decoder α) : ℕ → Decoder (List α)
  | 0 => pure []
  | n + 1 => do
    let a ← item
    let rest ← decodeItems item n
    pure (a :: rest)

/-- `decode_array`; an item has at least so many bytes, or takes no memory at all. -/
def decodeArray {α : Type} (least : ℕ) (item : Decoder α) : Decoder (List α) := fun s =>
  if s.length < 4 then .error (.refused .arrayLength)
  else
    let count := wrap i32Max (BigEndian.decode (s.take 4))
    let rest := s.drop 4
    if count = -1 then .ok ([], rest)
    else if rest.length < asU64 count * least then .error .excess
    else decodeItems item (asU64 count) rest

/-- The records of a partition. -/
def getRecords : Decoder Bytes := do
  let len ← getI32
  if len > 0 then getBytes len.toNat else pure []

/-- `vec![0; n]` and `copy_to_slice`. -/
def getSlice (n : ℕ) : Decoder Bytes := fun s =>
  if s.length < n then .error .excess else .ok (s.take n, s.drop n)

/-- The bytes of a protocol or an assignment. -/
def getVec : Decoder Bytes := do
  let len ← getI32
  if len ≤ 0 then pure [] else getSlice len.toNat

/-! ## Requests -/

/-- `ApiKey`, by its number. -/
def ApiKey := { raw : ℤ // 0 ≤ raw ∧ raw ≤ 61 ∨ 64 ≤ raw ∧ raw ≤ 67 }

/-- `ApiKey::from_i16`. -/
def ApiKey.fromI16 (raw : ℤ) : Option ApiKey :=
  if known : 0 ≤ raw ∧ raw ≤ 61 ∨ 64 ≤ raw ∧ raw ≤ 67 then some ⟨raw, known⟩ else none

structure RequestHeader where
  apiKey : ApiKey
  apiVersion : ℤ
  correlationId : ℤ
  clientId : Option Str

def RequestHeader.decode : Decoder RequestHeader := fun s =>
  if s.length < 8 then .error (.refused .headerTooShort)
  else
    (do
      let raw ← getI16
      let apiVersion ← getI16
      let correlationId ← getI32
      match ApiKey.fromI16 raw with
      | none => throw (.refused (.unknownApiKey raw))
      | some apiKey =>
        let clientId ← decodeNullableString
        pure ⟨apiKey, apiVersion, correlationId, clientId⟩ : Decoder RequestHeader) s

structure ProducePartitionData where
  index : ℤ
  records : Bytes

structure ProduceTopicData where
  name : Str
  partitionData : List ProducePartitionData

structure ProduceRequest where
  transactionalId : Option Str
  acks : ℤ
  timeoutMs : ℤ
  topicData : List ProduceTopicData

def ProduceRequest.decode (_version : ℤ) : Decoder ProduceRequest := do
  let transactionalId ← decodeNullableString
  let acks ← getI16
  let timeoutMs ← getI32
  let topicData ← decodeArray 6 do
    let name ← decodeString
    let partitionData ← decodeArray 8 do
      let index ← getI32
      let records ← getRecords
      pure (⟨index, records⟩ : ProducePartitionData)
    pure (⟨name, partitionData⟩ : ProduceTopicData)
  pure ⟨transactionalId, acks, timeoutMs, topicData⟩

structure FetchPartition where
  partition : ℤ
  currentLeaderEpoch : ℤ
  fetchOffset : ℤ
  partitionMaxBytes : ℤ

structure FetchTopic where
  name : Str
  partitions : List FetchPartition

structure FetchRequest where
  replicaId : ℤ
  maxWaitMs : ℤ
  minBytes : ℤ
  maxBytes : ℤ
  isolationLevel : ℤ
  topics : List FetchTopic

variable (version : ℤ)

def FetchRequest.decode : Decoder FetchRequest := do
  let replicaId ← getI32
  let maxWaitMs ← getI32
  let minBytes ← getI32
  let maxBytes ← since version 3 getI32 i32Max
  let isolationLevel ← since version 4 getI8 0
  let topics ← decodeArray 6 do
    let name ← decodeString
    let partitions ← decodeArray (if 9 ≤ version then 20 else 16) do
      let partition ← getI32
      let currentLeaderEpoch ← since version 9 getI32 (-1)
      let fetchOffset ← getI64
      let partitionMaxBytes ← getI32
      pure (⟨partition, currentLeaderEpoch, fetchOffset, partitionMaxBytes⟩ : FetchPartition)
    pure (⟨name, partitions⟩ : FetchTopic)
  pure ⟨replicaId, maxWaitMs, minBytes, maxBytes, isolationLevel, topics⟩

structure MetadataRequest where
  topics : Option (List Str)
  allowAutoTopicCreation : Bool

def MetadataRequest.decode : Decoder MetadataRequest := do
  let topics ← decodeArray 2 decodeString
  let allow ← since version 4 ((fun n => decide (n ≠ 0)) <$> getU8) true
  pure ⟨if topics.isEmpty then none else some topics, allow⟩

structure CreateTopicConfig where
  name : Str
  numPartitions : ℤ
  replicationFactor : ℤ
  configs : List (Str × Option Str)

structure CreateTopicsRequest where
  topics : List CreateTopicConfig
  timeoutMs : ℤ
  validateOnly : Bool

/-- The assignments are read past: a `Vec<()>` takes no memory. -/
def CreateTopicsRequest.decode : Decoder CreateTopicsRequest := do
  let topics ← decodeArray 16 do
    let name ← decodeString
    let numPartitions ← getI32
    let replicationFactor ← getI16
    let _assignments ← decodeArray 0 do
      let _part ← getI32
      let _replicas ← decodeArray 4 getI32
      pure ()
    let configs ← decodeArray 4 do
      let k ← decodeString
      let v ← decodeNullableString
      pure (k, v)
    pure (⟨name, numPartitions, replicationFactor, configs⟩ : CreateTopicConfig)
  let timeoutMs ← getI32
  let validateOnly ← since version 1 ((fun n => decide (n ≠ 0)) <$> getU8) false
  pure ⟨topics, timeoutMs, validateOnly⟩

structure OffsetCommitPartition where
  partitionIndex : ℤ
  committedOffset : ℤ
  committedLeaderEpoch : ℤ
  committedMetadata : Option Str

structure OffsetCommitTopic where
  name : Str
  partitions : List OffsetCommitPartition

structure OffsetCommitRequest where
  groupId : Str
  generationId : ℤ
  memberId : Str
  groupInstanceId : Option Str
  topics : List OffsetCommitTopic

def OffsetCommitRequest.decode : Decoder OffsetCommitRequest := do
  let groupId ← decodeString
  let generationId ← since version 1 getI32 (-1)
  let memberId ← since version 1 decodeString (Str.ofString "")
  let groupInstanceId ← since version 7 decodeNullableString none
  let topics ← decodeArray 6 do
    let name ← decodeString
    let partitions ← decodeArray (if 6 ≤ version then 18 else 14) do
      let partitionIndex ← getI32
      let committedOffset ← getI64
      let committedLeaderEpoch ← since version 6 getI32 (-1)
      let committedMetadata ← decodeNullableString
      pure (⟨partitionIndex, committedOffset, committedLeaderEpoch, committedMetadata⟩ : OffsetCommitPartition)
    pure (⟨name, partitions⟩ : OffsetCommitTopic)
  pure ⟨groupId, generationId, memberId, groupInstanceId, topics⟩

/-- A `JoinGroupProtocol` or a `SyncGroupAssignment`. -/
structure Named where
  name : Str
  bytes : Bytes

structure JoinGroupRequest where
  groupId : Str
  sessionTimeoutMs : ℤ
  rebalanceTimeoutMs : ℤ
  memberId : Str
  groupInstanceId : Option Str
  protocolType : Str
  protocols : List Named
  reason : Option Str

def Named.decode : Decoder Named := do
  let name ← decodeString
  let bytes ← getVec
  pure ⟨name, bytes⟩

def JoinGroupRequest.decode (version : ℤ) : Decoder JoinGroupRequest := do
  let groupId ← decodeString
  let sessionTimeoutMs ← getI32
  let rebalanceTimeoutMs ← since version 1 getI32 (-1)
  let memberId ← decodeString
  let groupInstanceId ← since version 5 decodeNullableString none
  let protocolType ← decodeString
  let protocols ← decodeArray 6 Named.decode
  let reason ← since version 9 decodeNullableString none
  pure ⟨groupId, sessionTimeoutMs, rebalanceTimeoutMs, memberId, groupInstanceId, protocolType, protocols, reason⟩

structure SyncGroupRequest where
  groupId : Str
  generationId : ℤ
  memberId : Str
  groupInstanceId : Option Str
  protocolType : Option Str
  protocolName : Option Str
  assignments : List Named

def SyncGroupRequest.decode (version : ℤ) : Decoder SyncGroupRequest := do
  let groupId ← decodeString
  let generationId ← getI32
  let memberId ← decodeString
  let groupInstanceId ← since version 3 decodeNullableString none
  let protocolType ← since version 5 decodeNullableString none
  let protocolName ← since version 5 decodeNullableString none
  let assignments ← decodeArray 6 Named.decode
  pure ⟨groupId, generationId, memberId, groupInstanceId, protocolType, protocolName, assignments⟩

structure HeartbeatRequest where
  groupId : Str
  generationId : ℤ
  memberId : Str
  groupInstanceId : Option Str

def HeartbeatRequest.decode : Decoder HeartbeatRequest := do
  let groupId ← decodeString
  let generationId ← getI32
  let memberId ← decodeString
  let groupInstanceId ← since version 3 decodeNullableString none
  pure ⟨groupId, generationId, memberId, groupInstanceId⟩

/-! ## Layouts -/

/-- The fields of a request. -/
inductive Layout where
  | nothing
  | fixed (n : ℕ)
  | text (nullable : Bool)
  | blob
  | array (sized : Bool) (item : Layout)
  | seq (a b : Layout)

/-- Fields one after the other. -/
@[simp] def Layout.all : List Layout → Layout
  | [] => nothing
  | l :: ls => seq l (all ls)

def Layout.since (version first : ℤ) (l : Layout) : Layout := if first ≤ version then l else nothing

/-- The fewest bytes of such fields. -/
@[simp] def Layout.least : Layout → ℕ
  | nothing => 0
  | fixed n => n
  | text _ => 2
  | blob => 4
  | array _ _ => 4
  | seq a b => a.least + b.least

/-- Where a walk through fields ends. -/
inductive Walk where
  /-- Behind the fields. -/
  | there (rest : Bytes)
  /-- At a string or a count that is refused. -/
  | refused
  /-- At a number that is not there, or at a count or a length of more than is left. -/
  | missing
deriving DecidableEq, Repr

def Walk.bind (next : Bytes → Walk) : Walk → Walk
  | there rest => next rest
  | refused => refused
  | missing => missing

def walkItems (item : Bytes → Walk) : ℕ → Bytes → Walk
  | 0, s => .there s
  | n + 1, s => (item s).bind (walkItems item n)

@[simp] def Layout.walk : Layout → Bytes → Walk
  | nothing => .there
  | fixed n => fun s => if s.length < n then .missing else .there (s.drop n)
  | text nullable => fun s =>
    let len := wrap i16Max (BigEndian.decode (s.take 2))
    let body := (s.drop 2).take (asU64 len)
    if s.length < 2 then .refused
    else if len = -1 then (if nullable then .there (s.drop 2) else .refused)
    else if (s.drop 2).length < asU64 len ∨ fromUtf8Lossy body ≠ body then .refused
    else .there ((s.drop 2).drop (asU64 len))
  | blob => fun s =>
    let len := wrap i32Max (BigEndian.decode (s.take 4))
    if s.length < 4 ∨ (s.drop 4).length < len.toNat then .missing else .there ((s.drop 4).drop len.toNat)
  | array sized item => fun s =>
    let count := wrap i32Max (BigEndian.decode (s.take 4))
    if s.length < 4 then .refused
    else if count = -1 then .there (s.drop 4)
    else if (s.drop 4).length < asU64 count * (if sized then item.least else 0) then .missing
    else walkItems item.walk (asU64 count) (s.drop 4)
  | seq a b => fun s => (a.walk s).bind b.walk

def produceLayout : Layout :=
  .all [.text true, .fixed 2, .fixed 4, .array true (.all [.text false, .array true (.all [.fixed 4, .blob])])]

def fetchLayout : Layout :=
  .all [.fixed 4, .fixed 4, .fixed 4, .since version 3 (.fixed 4), .since version 4 (.fixed 1),
    .array true (.all [.text false,
      .array true (.all [.fixed 4, .since version 9 (.fixed 4), .fixed 8, .fixed 4])])]

def metadataLayout : Layout :=
  .all [.array true (.text false), .since version 4 (.fixed 1)]

def createTopicsLayout : Layout :=
  .all [.array true (.all [.text false, .fixed 4, .fixed 2,
      .array false (.all [.fixed 4, .array true (.fixed 4)]),
      .array true (.all [.text false, .text true])]),
    .fixed 4, .since version 1 (.fixed 1)]

def offsetCommitLayout : Layout :=
  .all [.text false, .since version 1 (.fixed 4), .since version 1 (.text false), .since version 7 (.text true),
    .array true (.all [.text false,
      .array true (.all [.fixed 4, .fixed 8, .since version 6 (.fixed 4), .text true])])]

def joinGroupLayout : Layout :=
  .all [.text false, .fixed 4, .since version 1 (.fixed 4), .text false, .since version 5 (.text true),
    .text false, .array true (.all [.text false, .blob]), .since version 9 (.text true)]

def syncGroupLayout : Layout :=
  .all [.text false, .fixed 4, .text false, .since version 3 (.text true), .since version 5 (.text true),
    .since version 5 (.text true), .array true (.all [.text false, .blob])]

def heartbeatLayout : Layout :=
  .all [.text false, .fixed 4, .text false, .since version 3 (.text true)]

/-! ## Decoders follow their layouts -/

section
variable {α β : Type} {d : Decoder α} {l l' : Layout}

/-- How decoding ends, without what is decoded. -/
def outcome : Except Fault (α × Bytes) → Walk
  | .ok (_, rest) => .there rest
  | .error (.refused _) => .refused
  | .error .panic | .error .excess => .missing

/-- It ends with a request or an error. -/
def Total (r : Except Fault (α × Bytes)) : Prop := r ≠ .error .panic ∧ r ≠ .error .excess

def Follows (d : Decoder α) (l : Layout) : Prop := ∀ s, outcome (d s) = l.walk s

lemma total_iff (r : Except Fault (α × Bytes)) : Total r ↔ outcome r ≠ .missing := by
  unfold Total
  rcases r with (e | _ | _) | ⟨a, rest⟩ <;> simp [outcome]

lemma Follows.total_iff (follows : Follows d l) (s : Bytes) : Total (d s) ↔ l.walk s ≠ .missing := by
  rw [KafkaDecode.total_iff, follows]

lemma outcome_bind (d : Decoder α) (k : α → Decoder β) (s : Bytes) {w : Bytes → Walk}
    (follows : ∀ a s, outcome (k a s) = w s) : outcome ((d >>= k) s) = (outcome (d s)).bind w := by
  change outcome ((d s).bind fun p => k p.1 p.2) = _
  rcases d s with (e | _ | _) | ⟨a, rest⟩
  · rfl
  · rfl
  · rfl
  · exact follows a rest

lemma follows_pure (a : α) : Follows (pure a) .nothing := fun _ => rfl

lemma Follows.bind {k : α → Decoder β} (hd : Follows d l) (hk : ∀ a, Follows (k a) l') :
    Follows (d >>= k) (.seq l l') := by
  intro s
  rw [outcome_bind d k s hk, hd]
  rfl

lemma Follows.map (f : α → β) (hd : Follows d l) : Follows (f <$> d) l := by
  intro s
  rw [← hd]
  change outcome ((d s).bind fun p => .ok (f p.1, p.2)) = _
  rcases d s with (e | _ | _) | ⟨a, rest⟩ <;> rfl

lemma Follows.since (version first : ℤ) (hd : Follows d l) (default : α) :
    Follows (KafkaDecode.since version first d default) (.since version first l) := by
  unfold KafkaDecode.since Layout.since
  split
  · exact hd
  · exact follows_pure default

lemma follows_getBytes (n : ℕ) : Follows (getBytes n) (.fixed n) := by
  intro s
  rw [getBytes, Layout.walk]
  dsimp only
  split <;> rfl

lemma follows_getInt (n : ℕ) (top : ℤ) : Follows (getInt n top) (.fixed n) := (follows_getBytes n).map _

lemma follows_decodeNullableString : Follows decodeNullableString (.text true) := by
  intro s
  rw [decodeNullableString, Layout.walk]
  dsimp only
  split
  · rfl
  split
  · rfl
  split
  · rename_i short
    rw [if_pos (Or.inl short)]
    rfl
  · rename_i long
    split
    · rename_i valid
      rw [if_neg (not_or.mpr ⟨long, not_not.mpr valid⟩)]
      rfl
    · rename_i invalid
      rw [if_pos (Or.inr invalid)]
      rfl

lemma follows_decodeString : Follows decodeString (.text false) := by
  intro s
  rw [decodeString, decodeNullableString, Layout.walk]
  dsimp only
  by_cases short : s.length < 2
  · rw [if_pos short, if_pos short]
    rfl
  rw [if_neg short, if_neg short]
  by_cases null : wrap i16Max (BigEndian.decode (s.take 2)) = -1
  · rw [if_pos null, if_pos null]
    rfl
  rw [if_neg null, if_neg null]
  by_cases cut : (s.drop 2).length < asU64 (wrap i16Max (BigEndian.decode (s.take 2)))
  · rw [if_pos cut, if_pos (Or.inl cut)]
    rfl
  rw [if_neg cut]
  by_cases valid : fromUtf8Lossy ((s.drop 2).take (asU64 (wrap i16Max (BigEndian.decode (s.take 2))))) =
      (s.drop 2).take (asU64 (wrap i16Max (BigEndian.decode (s.take 2))))
  · rw [dif_pos valid, if_neg (not_or.mpr ⟨cut, not_not.mpr valid⟩)]
    rfl
  · rw [dif_neg valid, if_pos (Or.inr valid)]
    rfl

lemma follows_decodeItems (hd : Follows d l) (n : ℕ) (s : Bytes) :
    outcome (decodeItems d n s) = walkItems l.walk n s := by
  induction n generalizing s with
  | zero => rfl
  | succ n ih =>
    rw [decodeItems, walkItems, ← hd]
    refine outcome_bind d _ s fun a rest => ?_
    rw [outcome_bind (decodeItems d n) _ rest (w := .there) fun as rest => rfl, ih]
    cases walkItems l.walk n rest <;> rfl

lemma Follows.array (sized : Bool) {least : ℕ} (hd : Follows d l)
    (size : least = if sized then l.least else 0) : Follows (decodeArray least d) (.array sized l) := by
  intro s
  rw [decodeArray, Layout.walk, ← size]
  dsimp only
  split
  · rfl
  split
  · rfl
  split
  · rfl
  · exact follows_decodeItems hd _ _

lemma follows_blob {k : ℤ → Decoder Bytes} (empty : ∀ len ≤ 0, k len = pure [])
    (filled : ∀ len > 0, Follows (k len) (.fixed len.toNat)) : Follows (getI32 >>= k) .blob := by
  intro s
  rw [Layout.walk]
  dsimp only
  change outcome ((getI32 s).bind fun p => k p.1 p.2) = _
  have read : getI32 s = (getBytes 4 s).map fun p => (wrap i32Max (BigEndian.decode p.1), p.2) := by
    change (getBytes 4 s).bind _ = _
    cases getBytes 4 s <;> rfl
  rw [read, getBytes]
  by_cases short : s.length < 4
  · rw [if_pos short, if_pos (Or.inl short)]
    rfl
  rw [if_neg short]
  change outcome (k (wrap i32Max (BigEndian.decode (s.take 4))) (s.drop 4)) = _
  by_cases pos : wrap i32Max (BigEndian.decode (s.take 4)) ≤ 0
  · rw [empty _ pos, Int.toNat_of_nonpos pos, if_neg (by omega)]
    rfl
  · rw [filled _ (by omega), Layout.walk]
    simp only [short, false_or]

lemma follows_getRecords : Follows getRecords .blob := by
  refine follows_blob (fun len neg => if_neg (by omega)) fun len pos => ?_
  rw [if_pos pos]
  exact follows_getBytes _

lemma follows_getSlice (n : ℕ) : Follows (getSlice n) (.fixed n) := by
  intro s
  rw [getSlice, Layout.walk]
  dsimp only
  split <;> rfl

lemma follows_getVec : Follows getVec .blob := by
  refine follows_blob (fun len neg => if_pos neg) fun len pos => ?_
  rw [if_neg (by omega)]
  exact follows_getSlice _

lemma Named.follows_decode : Follows Named.decode (.all [.text false, .blob]) :=
  follows_decodeString.bind fun _ => follows_getVec.bind fun _ => follows_pure _

lemma ProduceRequest.follows_decode (version : ℤ) : Follows (ProduceRequest.decode version) produceLayout := by
  have partition := (follows_getInt 4 i32Max).bind fun index => follows_getRecords.bind fun records =>
    follows_pure (⟨index, records⟩ : ProducePartitionData)
  have topic := follows_decodeString.bind fun name => (partition.array true rfl).bind fun partitions =>
    follows_pure (⟨name, partitions⟩ : ProduceTopicData)
  exact follows_decodeNullableString.bind fun _ => (follows_getInt 2 i16Max).bind fun _ =>
    (follows_getInt 4 i32Max).bind fun _ => (topic.array true rfl).bind fun _ => follows_pure _

lemma FetchRequest.follows_decode (version : ℤ) :
    Follows (FetchRequest.decode version) (fetchLayout version) := by
  have number := follows_getInt 4 i32Max
  have partition := number.bind fun partition => (number.since version 9 (-1)).bind fun epoch =>
    (follows_getInt 8 i64Max).bind fun offset => number.bind fun max =>
      follows_pure (⟨partition, epoch, offset, max⟩ : FetchPartition)
  have size : (if 9 ≤ version then 20 else 16) =
      (Layout.all [.fixed 4, .since version 9 (.fixed 4), .fixed 8, .fixed 4]).least := by
    simp only [Layout.all, Layout.since, Layout.least]
    split <;> rfl
  have topic := follows_decodeString.bind fun name => (partition.array true size).bind fun partitions =>
    follows_pure (⟨name, partitions⟩ : FetchTopic)
  exact number.bind fun _ => number.bind fun _ => number.bind fun _ => (number.since version 3 _).bind fun _ =>
    ((follows_getInt 1 127).since version 4 _).bind fun _ => (topic.array true rfl).bind fun _ => follows_pure _

lemma MetadataRequest.follows_decode (version : ℤ) :
    Follows (MetadataRequest.decode version) (metadataLayout version) :=
  (follows_decodeString.array true rfl).bind fun _ =>
    ((((follows_getBytes 1).map _).map _).since version 4 _).bind fun _ => follows_pure _

lemma CreateTopicsRequest.follows_decode (version : ℤ) :
    Follows (CreateTopicsRequest.decode version) (createTopicsLayout version) := by
  have number := follows_getInt 4 i32Max
  have assignment := number.bind fun _ => (number.array true rfl).bind fun _ => follows_pure ()
  have config := follows_decodeString.bind fun k => follows_decodeNullableString.bind fun v => follows_pure (k, v)
  have topic := follows_decodeString.bind fun name => number.bind fun partitions =>
    (follows_getInt 2 i16Max).bind fun factor => (assignment.array false rfl).bind fun _ =>
      (config.array true rfl).bind fun configs =>
        follows_pure (⟨name, partitions, factor, configs⟩ : CreateTopicConfig)
  exact (topic.array true rfl).bind fun _ => number.bind fun _ =>
    ((((follows_getBytes 1).map _).map _).since version 1 _).bind fun _ => follows_pure _

lemma OffsetCommitRequest.follows_decode (version : ℤ) :
    Follows (OffsetCommitRequest.decode version) (offsetCommitLayout version) := by
  have number := follows_getInt 4 i32Max
  have partition := number.bind fun index => (follows_getInt 8 i64Max).bind fun offset =>
    (number.since version 6 (-1)).bind fun epoch => follows_decodeNullableString.bind fun metadata =>
      follows_pure (⟨index, offset, epoch, metadata⟩ : OffsetCommitPartition)
  have size : (if 6 ≤ version then 18 else 14) =
      (Layout.all [.fixed 4, .fixed 8, .since version 6 (.fixed 4), .text true]).least := by
    simp only [Layout.all, Layout.since, Layout.least]
    split <;> rfl
  have topic := follows_decodeString.bind fun name => (partition.array true size).bind fun partitions =>
    follows_pure (⟨name, partitions⟩ : OffsetCommitTopic)
  exact follows_decodeString.bind fun _ => (number.since version 1 _).bind fun _ =>
    (follows_decodeString.since version 1 _).bind fun _ =>
      (follows_decodeNullableString.since version 7 _).bind fun _ =>
        (topic.array true rfl).bind fun _ => follows_pure _

lemma JoinGroupRequest.follows_decode (version : ℤ) :
    Follows (JoinGroupRequest.decode version) (joinGroupLayout version) := by
  have number := follows_getInt 4 i32Max
  exact follows_decodeString.bind fun _ => number.bind fun _ => (number.since version 1 _).bind fun _ =>
    follows_decodeString.bind fun _ => (follows_decodeNullableString.since version 5 _).bind fun _ =>
      follows_decodeString.bind fun _ => (Named.follows_decode.array true rfl).bind fun _ =>
        (follows_decodeNullableString.since version 9 _).bind fun _ => follows_pure _

lemma SyncGroupRequest.follows_decode (version : ℤ) :
    Follows (SyncGroupRequest.decode version) (syncGroupLayout version) :=
  follows_decodeString.bind fun _ => (follows_getInt 4 i32Max).bind fun _ => follows_decodeString.bind fun _ =>
    (follows_decodeNullableString.since version 3 _).bind fun _ =>
      (follows_decodeNullableString.since version 5 _).bind fun _ =>
        (follows_decodeNullableString.since version 5 _).bind fun _ =>
          (Named.follows_decode.array true rfl).bind fun _ => follows_pure _

lemma HeartbeatRequest.follows_decode (version : ℤ) :
    Follows (HeartbeatRequest.decode version) (heartbeatLayout version) :=
  follows_decodeString.bind fun _ => (follows_getInt 4 i32Max).bind fun _ => follows_decodeString.bind fun _ =>
    (follows_decodeNullableString.since version 3 _).bind fun _ => follows_pure _

lemma total_bind_getInt {n : ℕ} {top : ℤ} {k : ℤ → Decoder α} {s : Bytes} (enough : n ≤ s.length)
    (total : ∀ a, Total (k a (s.drop n))) : Total ((getInt n top >>= k) s) := by
  have read : getInt n top s = .ok (wrap top (BigEndian.decode (s.take n)), s.drop n) := by
    change (getBytes n s).bind _ = _
    rw [getBytes, if_neg (by omega)]
    rfl
  change Total ((getInt n top s).bind fun p => k p.1 p.2)
  rw [read]
  exact total _

lemma walk_text_ne_missing (nullable : Bool) (s : Bytes) : (Layout.text nullable).walk s ≠ .missing := by
  rw [Layout.walk]
  dsimp only
  split
  · exact fun e => by cases e
  split
  · split
    · exact fun e => by cases e
    · exact fun e => by cases e
  split
  · exact fun e => by cases e
  · exact fun e => by cases e

lemma RequestHeader.total_decode (s : Bytes) : Total (RequestHeader.decode s) := by
  rw [RequestHeader.decode]
  split
  · exact (KafkaDecode.total_iff _).mpr fun e => by cases e
  · refine total_bind_getInt (by omega) fun raw => ?_
    refine total_bind_getInt (by rw [List.length_drop]; omega) fun version => ?_
    refine total_bind_getInt (by rw [List.length_drop, List.length_drop]; omega) fun id => ?_
    cases ApiKey.fromI16 raw with
    | none => exact (KafkaDecode.total_iff _).mpr fun e => by cases e
    | some key =>
      have follows := follows_decodeNullableString.bind fun client =>
        follows_pure (⟨key, version, id, client⟩ : RequestHeader)
      refine (follows.total_iff _).mpr fun missing => ?_
      rw [Layout.walk] at missing
      dsimp only at missing
      cases text : (Layout.text true).walk (((s.drop 2).drop 2).drop 4) with
      | there rest =>
        rw [text] at missing
        cases missing
      | refused =>
        rw [text] at missing
        cases missing
      | missing => exact walk_text_ne_missing true _ text

end

/-- **Decoding is total** exactly on the bytes whose numbers, counts and lengths are there. -/
theorem decode_total_iff (version : ℤ) (s : Bytes) :
    Total (RequestHeader.decode s) ∧
      (Total (ProduceRequest.decode version s) ↔ produceLayout.walk s ≠ .missing) ∧
      (Total (FetchRequest.decode version s) ↔ (fetchLayout version).walk s ≠ .missing) ∧
      (Total (MetadataRequest.decode version s) ↔ (metadataLayout version).walk s ≠ .missing) ∧
      (Total (CreateTopicsRequest.decode version s) ↔ (createTopicsLayout version).walk s ≠ .missing) ∧
      (Total (OffsetCommitRequest.decode version s) ↔ (offsetCommitLayout version).walk s ≠ .missing) ∧
      (Total (JoinGroupRequest.decode version s) ↔ (joinGroupLayout version).walk s ≠ .missing) ∧
      (Total (SyncGroupRequest.decode version s) ↔ (syncGroupLayout version).walk s ≠ .missing) ∧
      (Total (HeartbeatRequest.decode version s) ↔ (heartbeatLayout version).walk s ≠ .missing) :=
  ⟨RequestHeader.total_decode s, (ProduceRequest.follows_decode version).total_iff s,
    (FetchRequest.follows_decode version).total_iff s, (MetadataRequest.follows_decode version).total_iff s,
    (CreateTopicsRequest.follows_decode version).total_iff s,
    (OffsetCommitRequest.follows_decode version).total_iff s,
    (JoinGroupRequest.follows_decode version).total_iff s,
    (SyncGroupRequest.follows_decode version).total_iff s,
    (HeartbeatRequest.follows_decode version).total_iff s⟩

/-- A produce request that ends behind its first string, and a metadata request with a count of -2. -/
theorem decode_not_total :
    ¬Total (ProduceRequest.decode 0 [0xFF, 0xFF]) ∧
      ¬Total (MetadataRequest.decode 0 [0xFF, 0xFF, 0xFF, 0xFE]) := by
  rw [(ProduceRequest.follows_decode 0).total_iff, (MetadataRequest.follows_decode 0).total_iff]
  decide +kernel

end KafkaDecode
