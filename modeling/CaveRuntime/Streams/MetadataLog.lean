import CaveRuntime.Streams.Basic
import Mathlib.Data.List.Induction

/-!
# The metadata log of the controller

Model of `cave-streams/src/kraft/metadata.rs` and `metadata_log.rs`. The log keeps the last record of each
key and drops a key whose last record is a tombstone. Applying the records in order does more than that:
a `TopicRemoved` also removes the partitions of the topic, which have keys of their own and stay in the
compacted log. The snapshot is the result of applying all records exactly if no partition is left with its
last record before a removal of its topic.

`HashMap::values` visits the entries in any order. The offset wraps around at 2^64, as it does in a build
without overflow checks.
-/

namespace Streams
open Utf8

inductive MetadataKey where
  | topic (name : Bytes)
  | partition (topic : Bytes) (partitionId : ℤ)
  | broker (brokerId : ℤ)
  | config (scope target key : Bytes)
deriving DecidableEq, Repr

structure TopicRecord where
  name : Bytes
  topicId : Bytes
  partitionCount : ℤ
  replicationFactor : ℤ
deriving DecidableEq, Repr

structure PartitionRecord where
  topic : Bytes
  partitionId : ℤ
  leader : ℤ
  isr : List ℤ
  replicas : List ℤ
  leaderEpoch : ℤ
deriving DecidableEq, Repr

structure BrokerRegistration where
  brokerId : ℤ
  host : Bytes
  port : UInt16
  incarnationId : Bytes
  fenced : Bool
deriving DecidableEq, Repr

structure ConfigRecord where
  scope : Bytes
  target : Bytes
  key : Bytes
  value : Option Bytes
deriving DecidableEq, Repr

inductive MetadataRecord where
  | topic (epoch : ℕ) (record : TopicRecord)
  | topicRemoved (epoch : ℕ) (name : Bytes)
  | partition (epoch : ℕ) (record : PartitionRecord)
  | broker (epoch : ℕ) (record : BrokerRegistration)
  | brokerUnregistered (epoch : ℕ) (brokerId : ℤ)
  | config (epoch : ℕ) (record : ConfigRecord)
deriving DecidableEq, Repr

namespace MetadataRecord

def key : MetadataRecord → MetadataKey
  | topic _ record => .topic record.name
  | topicRemoved _ name => .topic name
  | partition _ record => .partition record.topic record.partitionId
  | broker _ record => .broker record.brokerId
  | brokerUnregistered _ brokerId => .broker brokerId
  | config _ record => .config record.scope record.target record.key

def isTombstone : MetadataRecord → Bool
  | topicRemoved _ _ => true
  | brokerUnregistered _ _ => true
  | config _ record => record.value.isNone
  | _ => false

end MetadataRecord

structure ClusterMetadata where
  topics : Table Bytes TopicRecord := ∅
  partitions : Table (Bytes × ℤ) PartitionRecord := ∅
  brokers : Table ℤ BrokerRegistration := ∅
  configs : Table (Bytes × Bytes × Bytes) Bytes := ∅

namespace ClusterMetadata

def apply (m : ClusterMetadata) : MetadataRecord → ClusterMetadata
  | .topic _ record => { m with topics := m.topics.insert record.name record }
  | .topicRemoved _ name =>
    { m with
      topics := m.topics.erase name
      partitions := m.partitions.eraseAll (m.partitions.keys.filter (·.1 = name)) }
  | .partition _ record =>
    { m with partitions := m.partitions.insert (record.topic, record.partitionId) record }
  | .broker _ record => { m with brokers := m.brokers.insert record.brokerId record }
  | .brokerUnregistered _ brokerId => { m with brokers := m.brokers.erase brokerId }
  | .config _ record =>
    let k := (record.scope, record.target, record.key)
    match record.value with
    | some v => { m with configs := m.configs.insert k v }
    | none => { m with configs := m.configs.erase k }

/-- Equality of the four ordered maps. -/
structure Same (m m' : ClusterMetadata) : Prop where
  topics (name : Bytes) : m.topics.lookup name = m'.topics.lookup name
  partitions (key : Bytes × ℤ) : m.partitions.lookup key = m'.partitions.lookup key
  brokers (brokerId : ℤ) : m.brokers.lookup brokerId = m'.brokers.lookup brokerId
  configs (key : Bytes × Bytes × Bytes) : m.configs.lookup key = m'.configs.lookup key

end ClusterMetadata

structure LogEntry where
  offset : ℕ
  record : MetadataRecord
deriving DecidableEq, Repr

structure MetadataLog where
  nextOffset : ℕ := 0
  byKey : Table MetadataKey LogEntry := ∅
  appended : List LogEntry := []

namespace MetadataLog

def append (log : MetadataLog) (record : MetadataRecord) : LogEntry × MetadataLog :=
  let entry := ⟨log.nextOffset, record⟩
  (entry, {
    nextOffset := (log.nextOffset + 1) % 18446744073709551616
    byKey := if record.isTombstone then log.byKey.erase record.key else log.byKey.insert record.key entry
    appended := log.appended ++ [entry] })

def appendBatch (log : MetadataLog) : List MetadataRecord → List LogEntry × MetadataLog
  | [] => ([], log)
  | record :: records =>
    let (entry, log) := log.append record
    let (entries, log) := log.appendBatch records
    (entry :: entries, log)

def snapshot (order : Order LogEntry) (log : MetadataLog) : ClusterMetadata :=
  let entries := order.visit (log.byKey.entries.map (·.2))
  (entries.insertionSort (·.offset ≤ ·.offset)).foldl (fun snap e => snap.apply e.record) {}

end MetadataLog

/-- The calls that append. -/
inductive LogCall where
  | append (record : MetadataRecord)
  | appendBatch (records : List MetadataRecord)
deriving DecidableEq, Repr

/-- The log after a call. -/
def MetadataLog.step (log : MetadataLog) : LogCall → MetadataLog
  | .append record => (log.append record).2
  | .appendBatch records => (log.appendBatch records).2

/-- The records that a call appends. -/
def LogCall.records : LogCall → List MetadataRecord
  | .append record => [record]
  | .appendBatch records => records

/-- All records applied in order. -/
def replay (records : List MetadataRecord) : ClusterMetadata := records.foldl ClusterMetadata.apply {}

/-! ## What is stored under a key -/

/-- What the cluster knows under a key. -/
inductive MetadataValue where
  | topic (record : TopicRecord)
  | partition (record : PartitionRecord)
  | broker (record : BrokerRegistration)
  | config (value : Bytes)
deriving DecidableEq, Repr

/-- What a record puts under its key; a tombstone puts nothing there. -/
def MetadataRecord.value : MetadataRecord → Option MetadataValue
  | topic _ record => some (.topic record)
  | topicRemoved _ _ => none
  | partition _ record => some (.partition record)
  | broker _ record => some (.broker record)
  | brokerUnregistered _ _ => none
  | config _ record => record.value.map .config

/-- The record removes what is under a key that is not its own. -/
def MetadataRecord.removes : MetadataRecord → MetadataKey → Bool
  | topicRemoved _ name, .partition t _ => t = name
  | _, _ => false

namespace ClusterMetadata

/-- What is under a key. -/
def find (m : ClusterMetadata) : MetadataKey → Option MetadataValue
  | .topic name => (m.topics.lookup name).map .topic
  | .partition topic partitionId => (m.partitions.lookup (topic, partitionId)).map .partition
  | .broker brokerId => (m.brokers.lookup brokerId).map .broker
  | .config scope target key => (m.configs.lookup (scope, target, key)).map .config

lemma map_inj {α β : Type*} {f : α → β} (inj : ∀ {a b}, f a = f b → a = b) {o o' : Option α}
    (h : o.map f = o'.map f) : o = o' :=
  Option.map_injective (fun _ _ => inj) h

lemma same_iff_find {m m' : ClusterMetadata} : m.Same m' ↔ ∀ key, m.find key = m'.find key := by
  constructor
  · intro same key
    cases key with
    | topic name => exact congrArg (Option.map _) (same.topics name)
    | partition topic partitionId => exact congrArg (Option.map _) (same.partitions (topic, partitionId))
    | broker brokerId => exact congrArg (Option.map _) (same.brokers brokerId)
    | config scope target key => exact congrArg (Option.map _) (same.configs (scope, target, key))
  · intro eq
    refine ⟨fun name => ?_, fun key => ?_, fun brokerId => ?_, fun key => ?_⟩
    · exact map_inj MetadataValue.topic.inj (eq (.topic name))
    · exact map_inj MetadataValue.partition.inj (eq (.partition key.1 key.2))
    · exact map_inj MetadataValue.broker.inj (eq (.broker brokerId))
    · exact map_inj MetadataValue.config.inj (eq (.config key.1 key.2.1 key.2.2))

section Lookup

variable {α β : Type*} [DecidableEq α] (f : β → MetadataValue) (t : Table α β) (a a' : α)

lemma map_lookup_insert (b : β) :
    ((t.insert a b).lookup a').map f = if a' = a then some (f b) else (t.lookup a').map f := by
  rw [Table.lookup_insert_eq]
  split
  · rfl
  · rfl

lemma map_lookup_erase :
    ((t.erase a).lookup a').map f = if a' = a then none else (t.lookup a').map f := by
  rw [Table.lookup_erase_eq]
  split
  · rfl
  · rfl

end Lookup

lemma map_lookup_retain (t : Table (Bytes × ℤ) PartitionRecord) (name : Bytes) (key : Bytes × ℤ) :
    ((t.eraseAll (t.keys.filter (·.1 = name))).lookup key).map MetadataValue.partition =
      if key.1 = name then none else (t.lookup key).map .partition := by
  rw [Table.lookup_eraseAll]
  by_cases here : key.1 = name
  · cases look : t.lookup key with
    | none => simp
    | some record =>
      have mem : key ∈ t.keys := Table.lookup_isSome.mp (look ▸ rfl)
      simp [here, mem]
  · simp [here]

/-- A record sets what is under its key, and a removed topic takes its partitions with it. -/
lemma find_apply (m : ClusterMetadata) (record : MetadataRecord) (key : MetadataKey) :
    (m.apply record).find key =
      if key = record.key then record.value else if record.removes key then none else m.find key := by
  cases record with
  | topic epoch record =>
    cases key <;> simp [apply, find, MetadataRecord.key, MetadataRecord.value, MetadataRecord.removes,
      map_lookup_insert]
  | topicRemoved epoch name =>
    cases key <;> simp [apply, find, MetadataRecord.key, MetadataRecord.value, MetadataRecord.removes,
      map_lookup_erase, map_lookup_retain]
  | partition epoch record =>
    cases key <;> simp [apply, find, MetadataRecord.key, MetadataRecord.value, MetadataRecord.removes,
      map_lookup_insert]
  | broker epoch record =>
    cases key <;> simp [apply, find, MetadataRecord.key, MetadataRecord.value, MetadataRecord.removes,
      map_lookup_insert]
  | brokerUnregistered epoch brokerId =>
    cases key <;> simp [apply, find, MetadataRecord.key, MetadataRecord.value, MetadataRecord.removes,
      map_lookup_erase]
  | config epoch record =>
    obtain ⟨scope, target, name, value⟩ := record
    cases value with
    | none =>
      cases key <;> simp [apply, find, MetadataRecord.key, MetadataRecord.value, MetadataRecord.removes,
        map_lookup_erase]
    | some value =>
      cases key <;> simp [apply, find, MetadataRecord.key, MetadataRecord.value, MetadataRecord.removes,
        map_lookup_insert]

end ClusterMetadata

/-! ## The compacted log -/

namespace MetadataRecord

variable {r : MetadataRecord}

lemma value_of_tombstone (h : r.isTombstone = true) : r.value = none := by
  cases r with
  | config epoch record => exact congrArg (Option.map _) (Option.isNone_iff_eq_none.mp h)
  | topicRemoved epoch name => rfl
  | brokerUnregistered epoch brokerId => rfl
  | topic epoch record => cases h
  | partition epoch record => cases h
  | broker epoch record => cases h

/-- Only the removal of a topic removes what is under another key, and only that of a partition. -/
lemma removes_iff {key : MetadataKey} : r.removes key = true ↔
    ∃ epoch name partitionId, r = .topicRemoved epoch name ∧ key = .partition name partitionId := by
  constructor
  · intro h
    unfold removes at h
    split at h
    · cases of_decide_eq_true h
      exact ⟨_, _, _, rfl, rfl⟩
    · cases h
  · rintro ⟨epoch, name, partitionId, rfl, rfl⟩
    exact decide_eq_true rfl

lemma removes_eq_false_of_not_tombstone (h : r.isTombstone = false) (key : MetadataKey) :
    r.removes key = false := by
  rw [Bool.eq_false_iff]
  intro removes
  obtain ⟨epoch, name, partitionId, rfl, -⟩ := removes_iff.mp removes
  cases h

end MetadataRecord

namespace MetadataLog

variable {log : MetadataLog}

/-- The records that are kept stand under their keys, and none of them is a tombstone. -/
def Compacted (log : MetadataLog) : Prop :=
  ∀ key entry, log.byKey.lookup key = some entry →
    entry.record.key = key ∧ entry.record.isTombstone = false

/-- What the compacted log has under a key. -/
def live (log : MetadataLog) (key : MetadataKey) : Option MetadataValue :=
  (log.byKey.lookup key).bind (·.record.value)

lemma lookup_append (r : MetadataRecord) (key : MetadataKey) :
    (log.append r).2.byKey.lookup key =
      if key = r.key then if r.isTombstone then none else some ⟨log.nextOffset, r⟩
      else log.byKey.lookup key := by
  unfold append
  dsimp only
  cases r.isTombstone with
  | true => simp [Table.lookup_erase_eq]
  | false => simp [Table.lookup_insert_eq]

lemma Compacted.append (compacted : log.Compacted) (r : MetadataRecord) : (log.append r).2.Compacted := by
  intro key entry look
  rw [lookup_append] at look
  split at look
  · rename_i here
    cases dead : r.isTombstone with
    | true =>
      rw [dead] at look
      cases look
    | false =>
      rw [dead] at look
      cases look
      exact ⟨here.symm, dead⟩
  · exact compacted key entry look

lemma live_append (r : MetadataRecord) (key : MetadataKey) :
    (log.append r).2.live key = if key = r.key then r.value else log.live key := by
  unfold live
  rw [lookup_append]
  split
  · cases dead : r.isTombstone with
    | true => exact (MetadataRecord.value_of_tombstone dead).symm
    | false => rfl
  · rfl

/-- Applying records with different keys, none of them a tombstone, puts each under its key. -/
lemma find_foldl_apply {entries : List LogEntry} (nodup : (entries.map (·.record.key)).Nodup)
    (kept : ∀ e ∈ entries, e.record.isTombstone = false) (m : ClusterMetadata) (key : MetadataKey)
    (v : MetadataValue) :
    (entries.foldl (fun snap e => snap.apply e.record) m).find key = some v ↔
      (∃ e ∈ entries, e.record.key = key ∧ e.record.value = some v) ∨
        (key ∉ entries.map (·.record.key) ∧ m.find key = some v) := by
  induction entries generalizing m with
  | nil => simp
  | cons e entries ih =>
    rw [List.map_cons, List.nodup_cons] at nodup
    rw [List.foldl_cons, ih nodup.2 (fun e' mem => kept e' (.tail _ mem)), ClusterMetadata.find_apply,
      MetadataRecord.removes_eq_false_of_not_tombstone (kept e (.head _))]
    by_cases here : key = e.record.key
    · subst here
      simp only [if_true, List.mem_cons, exists_eq_or_imp, true_and, List.map_cons, true_or, not_true,
        false_and, or_false]
      constructor
      · rintro (rest | ⟨-, new⟩)
        · exact .inr rest
        · exact .inl new
      · rintro (new | rest)
        · exact .inr ⟨nodup.1, new⟩
        · exact .inl rest
    · simp only [here, if_false, List.mem_cons, exists_eq_or_imp, List.map_cons, false_or,
        Ne.symm here, false_and, Bool.false_eq_true]

/-- A snapshot of a compacted log has what is live in the log. -/
lemma find_snapshot (order : Order LogEntry) (compacted : log.Compacted) (key : MetadataKey) :
    (log.snapshot order).find key = log.live key := by
  have perm : ((order.visit (log.byKey.entries.map (·.2))).insertionSort (·.offset ≤ ·.offset)).Perm
      (log.byKey.entries.map (·.2)) := (List.perm_insertionSort _ _).trans (order.perm _)
  have entry {e : LogEntry} : e ∈ log.byKey.entries.map (·.2) ↔ ∃ k, log.byKey.lookup k = some e := by
    simp only [List.mem_map]
    constructor
    · rintro ⟨⟨k, e⟩, mem, rfl⟩
      exact ⟨k, Table.mem_entries.mp mem⟩
    · rintro ⟨k, look⟩
      exact ⟨⟨k, e⟩, Table.mem_entries.mpr look, rfl⟩
  have keys : (log.byKey.entries.map (·.2)).map (·.record.key) = log.byKey.keys := by
    rw [List.map_map]
    refine List.map_congr_left fun e mem => ?_
    exact (compacted e.1 e.2 (Table.mem_entries.mp mem)).1
  have nodup : (((order.visit (log.byKey.entries.map (·.2))).insertionSort
      (·.offset ≤ ·.offset)).map (·.record.key)).Nodup := by
    rw [(perm.map _).nodup_iff, keys]
    exact log.byKey.keys_nodup
  have kept : ∀ e ∈ (order.visit (log.byKey.entries.map (·.2))).insertionSort (·.offset ≤ ·.offset),
      e.record.isTombstone = false := by
    intro e mem
    obtain ⟨k, look⟩ := entry.mp (perm.mem_iff.mp mem)
    exact (compacted k e look).2
  ext v
  unfold snapshot
  dsimp only
  rw [find_foldl_apply nodup kept]
  constructor
  · rintro (⟨e, mem, here, new⟩ | ⟨-, old⟩)
    · obtain ⟨k, look⟩ := entry.mp (perm.mem_iff.mp mem)
      have eq : k = key := (compacted k e look).1.symm.trans here
      exact Option.bind_eq_some_iff.mpr ⟨e, eq ▸ look, new⟩
    · cases key <;> cases old
  · intro h
    obtain ⟨e, look, new⟩ := Option.bind_eq_some_iff.mp h
    exact .inl ⟨e, perm.mem_iff.mpr (entry.mpr ⟨key, look⟩), (compacted key e look).1, new⟩

end MetadataLog

/-! ## Snapshot and replay -/

/-- The log with the given records. -/
def logOf (records : List MetadataRecord) : MetadataLog :=
  records.foldl (fun log record => (log.append record).2) {}

/-- No removal of a topic comes after the last record of one of its partitions. -/
def Settled (records : List MetadataRecord) : Prop :=
  ∀ before epoch name after, records = before ++ .topicRemoved epoch name :: after →
    ∀ partitionId, (∃ r ∈ before, r.key = .partition name partitionId) →
      ∃ r ∈ after, r.key = .partition name partitionId

/-- The same for one key. -/
def SettledAt (records : List MetadataRecord) (key : MetadataKey) : Prop :=
  ∀ before r after, records = before ++ r :: after → r.removes key = true →
    (∃ q ∈ before, q.key = key) → ∃ q ∈ after, q.key = key

variable {records : List MetadataRecord} {key : MetadataKey} {r : MetadataRecord}

lemma settled_iff_settledAt : Settled records ↔ ∀ key, SettledAt records key := by
  constructor
  · intro settled key before r after split removes
    obtain ⟨epoch, name, partitionId, rfl, rfl⟩ := MetadataRecord.removes_iff.mp removes
    exact settled before epoch name after split partitionId
  · intro settled before epoch name after split partitionId
    exact settled (.partition name partitionId) before _ after split
      (MetadataRecord.removes_iff.mpr ⟨epoch, name, partitionId, rfl, rfl⟩)

lemma append_singleton_split {α : Type*} {l before after : List α} {a b : α}
    (h : l ++ [a] = before ++ b :: after) :
    (l = before ∧ a = b ∧ after = []) ∨ ∃ rest, after = rest ++ [a] ∧ l = before ++ b :: rest := by
  cases List.eq_nil_or_concat after with
  | inl nil =>
    subst nil
    obtain ⟨rfl, eq⟩ := List.append_inj' h rfl
    cases eq
    exact .inl ⟨rfl, rfl, rfl⟩
  | inr last =>
    obtain ⟨rest, c, rfl⟩ := last
    rw [List.concat_eq_append, ← List.cons_append, ← List.append_assoc] at h
    obtain ⟨rfl, eq⟩ := List.append_inj' h rfl
    cases eq
    exact .inr ⟨rest, List.concat_eq_append, rfl⟩

lemma logOf_concat : logOf (records ++ [r]) = ((logOf records).append r).2 := by
  unfold logOf
  rw [List.foldl_append]
  rfl

lemma find_replay_concat : (replay (records ++ [r])).find key =
    if key = r.key then r.value else if r.removes key then none else (replay records).find key := by
  unfold replay
  rw [List.foldl_append]
  exact ClusterMetadata.find_apply _ r key

lemma logOf_compacted (records : List MetadataRecord) : (logOf records).Compacted := by
  induction records using List.reverseRecOn with
  | nil => intro key entry look; cases look
  | append_singleton records r ih => exact logOf_concat ▸ ih.append r

/-- A record that removes a key has another one, and no tombstone has the key that is removed. -/
lemma removes_key (h : r.removes key = true) :
    key ≠ r.key ∧ ∀ q : MetadataRecord, q.key = key → q.value ≠ none := by
  obtain ⟨epoch, name, partitionId, rfl, rfl⟩ := MetadataRecord.removes_iff.mp h
  refine ⟨MetadataKey.noConfusion, fun q same => ?_⟩
  cases q with
  | partition epoch record => exact Option.some_ne_none _
  | topic epoch record => cases same
  | topicRemoved epoch name => cases same
  | broker epoch record => cases same
  | brokerUnregistered epoch brokerId => cases same
  | config epoch record => cases same

/-- Under a key that only a removed topic clears, the log has a value once it has had one. -/
lemma live_logOf_eq_none (values : ∀ q : MetadataRecord, q.key = key → q.value ≠ none) :
    (logOf records).live key = none ↔ ∀ q ∈ records, q.key ≠ key := by
  induction records using List.reverseRecOn with
  | nil => simp [logOf, MetadataLog.live]
  | append_singleton records r ih =>
    rw [logOf_concat, MetadataLog.live_append]
    by_cases here : key = r.key
    · simp only [if_pos here, values r here.symm, false_iff]
      exact fun none => none r (by simp) here.symm
    · simp only [if_neg here, ih, List.forall_mem_append, List.forall_mem_singleton, Ne.symm here,
        and_true, ne_eq, not_false_eq_true]

lemma settledAt_concat_own (own : r.key = key) : SettledAt (records ++ [r]) key := by
  intro before q after split removes _
  cases append_singleton_split split with
  | inl last =>
    obtain ⟨-, rfl, -⟩ := last
    exact absurd own.symm (removes_key removes).1
  | inr inner =>
    obtain ⟨rest, rfl, -⟩ := inner
    exact ⟨r, List.mem_append_right _ (List.mem_singleton_self r), own⟩

lemma settledAt_concat_removes (removes : r.removes key = true) :
    SettledAt (records ++ [r]) key ↔ ∀ q ∈ records, q.key ≠ key := by
  constructor
  · intro settled q mem same
    obtain ⟨q', mem', -⟩ := settled records r [] rfl removes ⟨q, mem, same⟩
    cases mem'
  · rintro none before q after split - ⟨q', mem, same⟩
    cases append_singleton_split split with
    | inl last =>
      obtain ⟨rfl, -, -⟩ := last
      exact absurd same (none q' mem)
    | inr inner =>
      obtain ⟨rest, -, rfl⟩ := inner
      exact absurd same (none q' (List.mem_append_left _ mem))

lemma settledAt_concat_other (other : r.key ≠ key) (keeps : r.removes key = false) :
    SettledAt (records ++ [r]) key ↔ SettledAt records key := by
  constructor
  · intro settled before q after split removes had
    obtain ⟨q', mem, same⟩ := settled before q (after ++ [r]) (by simp [split]) removes had
    cases List.mem_append.mp mem with
    | inl mem => exact ⟨q', mem, same⟩
    | inr mem =>
      cases List.mem_singleton.mp mem
      exact absurd same other
  · intro settled before q after split removes had
    cases append_singleton_split split with
    | inl last =>
      obtain ⟨-, rfl, -⟩ := last
      cases keeps.symm.trans removes
    | inr inner =>
      obtain ⟨rest, rfl, rfl⟩ := inner
      obtain ⟨q', mem, same⟩ := settled before q rest rfl removes had
      exact ⟨q', List.mem_append_left _ mem, same⟩

lemma live_eq_find_replay_iff :
    (logOf records).live key = (replay records).find key ↔ SettledAt records key := by
  induction records using List.reverseRecOn with
  | nil =>
    have empty : SettledAt [] key := by
      intro before r after split
      cases before <;> cases split
    refine iff_of_true ?_ empty
    cases key <;> rfl
  | append_singleton records r ih =>
    rw [logOf_concat, MetadataLog.live_append, find_replay_concat]
    by_cases own : key = r.key
    · -- the last record sets the key in both
      rw [if_pos own, if_pos own]
      exact iff_of_true rfl (settledAt_concat_own own.symm)
    rw [if_neg own, if_neg own]
    cases removes : r.removes key with
    | true =>
      -- the last record clears the key in the replay only
      rw [if_pos rfl, live_logOf_eq_none (removes_key removes).2, settledAt_concat_removes removes]
    | false => rw [if_neg Bool.false_ne_true, ih, settledAt_concat_other (Ne.symm own) removes]

lemma appendBatch_eq_foldl (log : MetadataLog) (records : List MetadataRecord) :
    (log.appendBatch records).2 = records.foldl (fun log record => (log.append record).2) log := by
  induction records generalizing log with
  | nil => rfl
  | cons r records ih => exact ih (log.append r).2

lemma foldl_step_eq_logOf (calls : List LogCall) :
    calls.foldl MetadataLog.step {} = logOf (calls.flatMap LogCall.records) := by
  unfold logOf
  generalize ({} : MetadataLog) = log
  induction calls generalizing log with
  | nil => rfl
  | cons call calls ih =>
    have first : log.step call = call.records.foldl (fun log record => (log.append record).2) log := by
      cases call with
      | append record => rfl
      | appendBatch records => exact appendBatch_eq_foldl log records
    rw [List.foldl_cons, ih, List.flatMap_cons, List.foldl_append, first]

/-- **The snapshot of the compacted log is the result of applying all records exactly if no topic is
removed after the last record of one of its partitions.** -/
theorem snapshot_same_replay_iff (order : Order LogEntry) (calls : List LogCall) :
    ((calls.foldl MetadataLog.step {}).snapshot order).Same (replay (calls.flatMap LogCall.records)) ↔
      Settled (calls.flatMap LogCall.records) := by
  rw [foldl_step_eq_logOf, ClusterMetadata.same_iff_find, settled_iff_settledAt]
  refine forall_congr' fun key => ?_
  rw [MetadataLog.find_snapshot order (logOf_compacted _)]
  exact live_eq_find_replay_iff

/-- A topic `t` with one partition is created and deleted: the snapshot still has the partition. -/
theorem snapshot_keeps_partition :
    ¬ ((([.appendBatch [.topic 1 ⟨[116], [1], 1, 1⟩, .partition 1 ⟨[116], 0, 1, [1], [1], 0⟩],
          .append (.topicRemoved 1 [116])] : List LogCall).foldl MetadataLog.step {}).snapshot .asIs).Same
      (replay [.topic 1 ⟨[116], [1], 1, 1⟩, .partition 1 ⟨[116], 0, 1, [1], [1], 0⟩,
        .topicRemoved 1 [116]]) := by
  intro same
  have eq := same.partitions ([116], 0)
  revert eq
  decide

end Streams
