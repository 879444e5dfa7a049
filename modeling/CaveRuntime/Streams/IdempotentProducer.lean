import CaveRuntime.Common.Run
import CaveRuntime.Streams.Basic

/-!
# Idempotent producers

Model of `cave-streams/src/idempotent_producer.rs`. For each producer and partition the registry keeps one
number, the last sequence number accepted, and answers `Duplicate` to every batch that starts at or below
it. The number survives a change of epoch and says neither where the accepted batches began nor how far a
retried batch reaches, so that a batch with records nobody has stored is acknowledged as a duplicate; and
it stops at the greatest `i32` instead of wrapping to 0. If every first batch starts at 0, retries stay
within what was accepted, a partition is written under one epoch and no batch reaches the greatest `i32`,
each record is accepted once and duplicates are what they are called.
-/

namespace Streams
open MachineInt Utf8 Run

inductive SequenceCheck where
  | accepted
  | duplicate
  | outOfOrder
deriving DecidableEq, Repr

structure PartitionSequence where
  lastSequence : ℤ := -1
  wrapCount : UInt32 := 0
deriving DecidableEq, Repr

namespace PartitionSequence

/-- The answer of `check` to a batch of the current epoch. -/
def outcome (checks : Bool) (entry : PartitionSequence) (baseSequence : ℤ) : Except Failure SequenceCheck :=
  if entry.lastSequence = -1 then
    if baseSequence < 0 then .error (.error (.internal s!"negative base_sequence {baseSequence}"))
    else .ok .accepted
  else
    match add checks i32Max entry.lastSequence 1 with
    | none => .error .panic
    | some next =>
      if baseSequence = next then .ok .accepted
      else if baseSequence ≤ entry.lastSequence then .ok .duplicate
      else .ok .outOfOrder

/-- What `check` writes when it accepts a batch. -/
def accept (entry : PartitionSequence) (baseSequence recordCount : ℤ) : PartitionSequence :=
  let newLast := saturatingAdd i32Max baseSequence (recordCount - 1)
  if newLast < baseSequence then ⟨-1, entry.wrapCount + 1⟩
  else { entry with lastSequence := newLast }

end PartitionSequence

structure ProducerIdRegistry where
  nextId : ℤ := 1
  epochs : Table ℤ ℤ := ∅
  sequences : Table (ℤ × Bytes × ℤ) PartitionSequence := ∅

namespace ProducerIdRegistry

variable (r : ProducerIdRegistry)

def allocate : ℤ × ProducerIdRegistry :=
  (r.nextId, { r with nextId := wrap i64Max (r.nextId + 1), epochs := r.epochs.insert r.nextId 0 })

def bumpEpoch (producerId : ℤ) : Except Failure ℤ × ProducerIdRegistry :=
  match r.epochs.lookup producerId with
  | none => (.error (.error (.producerIdNotFound producerId)), r)
  | some e =>
    let e := saturatingAdd i16Max e 1
    (.ok e, { r with epochs := r.epochs.insert producerId e })

def epoch (producerId : ℤ) : Option ℤ := r.epochs.lookup producerId

/-- The entry of a partition, or the default. -/
def entry (key : ℤ × Bytes × ℤ) : PartitionSequence :=
  (r.sequences.lookup key).getD {}

/-- Write the entry of a partition. -/
def write (key : ℤ × Bytes × ℤ) (entry : PartitionSequence) : ProducerIdRegistry :=
  { r with sequences := r.sequences.insert key entry }

/-- Persist a higher epoch. -/
def raise (producerId curEpoch epoch : ℤ) : ProducerIdRegistry :=
  if curEpoch < epoch then { r with epochs := r.epochs.insert producerId epoch } else r

def check (checks : Bool) (r : ProducerIdRegistry) (producerId epoch : ℤ) (topic : Bytes)
    (partition baseSequence recordCount : ℤ) : Except Failure SequenceCheck × ProducerIdRegistry :=
  match r.epoch producerId with
  | none => (.error (.error (.producerIdNotFound producerId)), r)
  | some curEpoch =>
    if epoch < curEpoch then
      (.error (.error (.internal
        s!"INVALID_PRODUCER_EPOCH: pid={producerId}, got={epoch}, expected≥{curEpoch}")), r)
    else
      let key := (producerId, topic, partition)
      let entry := r.entry key
      -- `or_default` writes the entry also when the batch is not accepted
      let r := (r.raise producerId curEpoch epoch).write key entry
      match entry.outcome checks baseSequence with
      | .error e => (.error e, r)
      | .ok .accepted => (.ok .accepted, r.write key (entry.accept baseSequence recordCount))
      | .ok outcome => (.ok outcome, r)

end ProducerIdRegistry

/-! ## Histories -/

/-- A batch of records, as `check` is told of it. -/
structure Batch where
  producerId : ℤ
  epoch : ℤ
  topic : Bytes
  partition : ℤ
  baseSequence : ℤ
  recordCount : ℤ
  positive : 0 < recordCount
deriving DecidableEq, Repr

namespace Batch

/-- The producer and the partition. -/
def key (b : Batch) : ℤ × Bytes × ℤ := (b.producerId, b.topic, b.partition)

/-- The batch has a record with the sequence number. -/
def Covers (b : Batch) (n : ℤ) : Prop := b.baseSequence ≤ n ∧ n < b.baseSequence + b.recordCount
deriving Decidable

/-- Two batches of one producer epoch for one partition. -/
def SameEpoch (b b' : Batch) : Prop := b.key = b'.key ∧ b.epoch = b'.epoch
deriving Decidable

end Batch

/-- The calls of the registry. -/
inductive ProducerCall where
  | allocate
  | bumpEpoch (producerId : ℤ)
  | check (batch : Batch)

/-- The registry, and what `check` has answered, the last answer first. -/
structure Producers where
  registry : ProducerIdRegistry := {}
  answers : List (Batch × SequenceCheck) := []

namespace Producers

/-- One call. -/
def step (checks : Bool) (s : Producers) : ProducerCall → Option Producers
  | .allocate => some { s with registry := s.registry.allocate.2 }
  | .bumpEpoch producerId => some { s with registry := (s.registry.bumpEpoch producerId).2 }
  | .check b =>
    match s.registry.check checks b.producerId b.epoch b.topic b.partition b.baseSequence b.recordCount with
    | (.ok answer, registry) => some ⟨registry, (b, answer) :: s.answers⟩
    | (.error _, registry) => some { s with registry }

/-- The batch has been accepted. -/
def Accepted (s : Producers) (b : Batch) : Prop := (b, .accepted) ∈ s.answers

/-- No two accepted batches of a producer epoch have a sequence number in common. -/
def Once (answers : List (Batch × SequenceCheck)) : Prop :=
  answers.Pairwise fun a a' => a.2 = .accepted → a'.2 = .accepted → a.1.SameEpoch a'.1 →
    ∀ n, ¬ (a.1.Covers n ∧ a'.1.Covers n)

/-- All the records of a duplicate are in batches of its epoch that were accepted before it. -/
def Explained (answers : List (Batch × SequenceCheck)) : Prop :=
  ∀ later b earlier, answers = later ++ (b, .duplicate) :: earlier →
    ∀ n, b.Covers n → ∃ b', (b', .accepted) ∈ earlier ∧ b.SameEpoch b' ∧ b'.Covers n

/-- The batch fits behind, or within, what has been accepted up to `last`. -/
def Fits (last : ℤ) (b : Batch) : Prop :=
  (last = -1 → b.baseSequence ≤ 0) ∧
    (last ≠ -1 → 0 ≤ b.baseSequence ∧
      (b.baseSequence ≤ last → b.baseSequence + b.recordCount ≤ last + 1)) ∧
    (b.baseSequence = last + 1 → b.baseSequence + b.recordCount ≤ i32Max)
deriving Decidable

/-- A batch that is not fenced comes under the only epoch that has written to the partition, and fits. -/
def InOrder (s : Producers) : ProducerCall → Prop
  | .check b => (∃ curEpoch ∈ s.registry.epoch b.producerId, curEpoch ≤ b.epoch) →
      (∀ a ∈ s.answers, a.2 = .accepted → a.1.key = b.key → a.1.epoch = b.epoch) ∧
        Fits (s.registry.entry b.key).lastSequence b
  | _ => True

instance (s : Producers) : (call : ProducerCall) → Decidable (s.InOrder call)
  | .check _ => inferInstanceAs (Decidable ((∃ curEpoch ∈ s.registry.epoch _, _) → _ ∧ _))
  | .allocate | .bumpEpoch _ => inferInstanceAs (Decidable True)

/-- What has been accepted for each partition are the numbers from 0 to its last one. -/
structure Inv (s : Producers) : Prop where
  low (key : ℤ × Bytes × ℤ) : -1 ≤ (s.registry.entry key).lastSequence
  high (key : ℤ × Bytes × ℤ) : (s.registry.entry key).lastSequence < i32Max
  within {b : Batch} : s.Accepted b →
    0 ≤ b.baseSequence ∧ b.baseSequence + b.recordCount ≤ (s.registry.entry b.key).lastSequence + 1
  whole {key : ℤ × Bytes × ℤ} {n : ℤ} : 0 ≤ n → n ≤ (s.registry.entry key).lastSequence →
    ∃ b, s.Accepted b ∧ b.key = key ∧ b.Covers n
  once : Once s.answers
  explained : Explained s.answers

end Producers

/-! ## What a call does -/

namespace PartitionSequence

variable {checks : Bool} {entry : PartitionSequence} {baseSequence recordCount : ℤ}

lemma outcome_accepted (low : -1 ≤ entry.lastSequence) (high : entry.lastSequence < i32Max)
    (h : entry.outcome checks baseSequence = .ok .accepted) :
    entry.lastSequence = -1 ∧ 0 ≤ baseSequence ∨ baseSequence = entry.lastSequence + 1 := by
  unfold outcome at h
  split at h
  · rename_i first
    split at h
    · cases h
    · rename_i nonneg
      exact .inl ⟨first, Int.not_lt.mp nonneg⟩
  · have fits : -i32Max - 1 ≤ entry.lastSequence + 1 := by
      unfold i32Max
      omega
    rw [add_of_le fits high] at h
    dsimp only at h
    split at h
    · rename_i next
      exact .inr next
    · split at h
      · cases h
      · cases h

lemma outcome_duplicate (h : entry.outcome checks baseSequence = .ok .duplicate) :
    entry.lastSequence ≠ -1 ∧ baseSequence ≤ entry.lastSequence := by
  unfold outcome at h
  split at h
  · split at h
    · cases h
    · cases h
  · rename_i begun
    cases next : add checks i32Max entry.lastSequence 1 with
    | none =>
      rw [next] at h
      cases h
    | some n =>
      rw [next] at h
      dsimp only at h
      split at h
      · cases h
      · split at h
        · rename_i below
          exact ⟨begun, below⟩
        · cases h

/-- A batch that stays below the greatest number moves the last one to its end. -/
lemma accept_lastSequence (nonneg : 0 ≤ baseSequence) (pos : 0 < recordCount)
    (fits : baseSequence + recordCount ≤ i32Max) :
    (entry.accept baseSequence recordCount).lastSequence = baseSequence + recordCount - 1 := by
  have sum : saturatingAdd i32Max baseSequence (recordCount - 1) = baseSequence + recordCount - 1 := by
    rw [saturatingAdd_of_le (by unfold i32Max; omega) (by omega)]
    omega
  unfold accept
  dsimp only
  rw [sum, if_neg (by omega)]

end PartitionSequence

namespace ProducerIdRegistry

variable (r : ProducerIdRegistry)

lemma entry_write (key key' : ℤ × Bytes × ℤ) (e : PartitionSequence) :
    (r.write key e).entry key' = if key' = key then e else r.entry key' := by
  unfold write entry
  rw [Table.lookup_insert_eq]
  split
  · rfl
  · rfl

@[simp] lemma entry_raise (producerId curEpoch epoch : ℤ) (key : ℤ × Bytes × ℤ) :
    (r.raise producerId curEpoch epoch).entry key = r.entry key := by
  unfold raise
  split
  · rfl
  · rfl

lemma entry_write_self (producerId curEpoch epoch : ℤ) (key key' : ℤ × Bytes × ℤ) :
    ((r.raise producerId curEpoch epoch).write key (r.entry key)).entry key' = r.entry key' := by
  rw [entry_write, entry_raise]
  split
  · rename_i here
    rw [here]
  · rfl

@[simp] lemma entry_bumpEpoch (producerId : ℤ) (key : ℤ × Bytes × ℤ) :
    (r.bumpEpoch producerId).2.entry key = r.entry key := by
  unfold bumpEpoch
  cases r.epochs.lookup producerId with
  | none => rfl
  | some e => rfl

end ProducerIdRegistry

namespace Producers

/-- What a call of `check` does. -/
inductive CheckOutcome (s : Producers) (b : Batch) : Producers → Prop
  | same {registry : ProducerIdRegistry} :
      (∀ key, registry.entry key = s.registry.entry key) → CheckOutcome s b { s with registry }
  | accepted {registry : ProducerIdRegistry} :
      (∃ curEpoch ∈ s.registry.epoch b.producerId, curEpoch ≤ b.epoch) →
      ((s.registry.entry b.key).lastSequence = -1 ∧ 0 ≤ b.baseSequence ∨
        b.baseSequence = (s.registry.entry b.key).lastSequence + 1) →
      (∀ key, registry.entry key =
        if key = b.key then (s.registry.entry b.key).accept b.baseSequence b.recordCount
        else s.registry.entry key) →
      CheckOutcome s b ⟨registry, (b, .accepted) :: s.answers⟩
  | duplicate {registry : ProducerIdRegistry} :
      (∃ curEpoch ∈ s.registry.epoch b.producerId, curEpoch ≤ b.epoch) →
      (s.registry.entry b.key).lastSequence ≠ -1 →
      b.baseSequence ≤ (s.registry.entry b.key).lastSequence →
      (∀ key, registry.entry key = s.registry.entry key) →
      CheckOutcome s b ⟨registry, (b, .duplicate) :: s.answers⟩
  | outOfOrder {registry : ProducerIdRegistry} :
      (∀ key, registry.entry key = s.registry.entry key) →
      CheckOutcome s b ⟨registry, (b, .outOfOrder) :: s.answers⟩

section Check

variable {checks : Bool} {s s' : Producers} {b : Batch}

/-- What the check of a batch leads to. -/
lemma check_outcome (low : -1 ≤ (s.registry.entry b.key).lastSequence)
    (high : (s.registry.entry b.key).lastSequence < i32Max) (st : s.step checks (.check b) = some s') :
    CheckOutcome s b s' := by
  simp only [step, ProducerIdRegistry.check] at st
  cases known : s.registry.epoch b.producerId with
  | none =>
    rw [known] at st
    cases st
    exact .same fun _ => rfl
  | some curEpoch =>
    rw [known] at st
    dsimp only at st
    by_cases fenced : b.epoch < curEpoch
    · rw [if_pos fenced] at st
      cases st
      exact .same fun _ => rfl
    · rw [if_neg fenced] at st
      have current : ∃ curEpoch ∈ s.registry.epoch b.producerId, curEpoch ≤ b.epoch :=
        ⟨curEpoch, known, Int.not_lt.mp fenced⟩
      have kept := s.registry.entry_write_self b.producerId curEpoch b.epoch b.key
      cases answer : (s.registry.entry b.key).outcome checks b.baseSequence with
      | error e =>
        rw [show (b.producerId, b.topic, b.partition) = b.key from rfl, answer] at st
        cases st
        exact .same kept
      | ok check =>
        rw [show (b.producerId, b.topic, b.partition) = b.key from rfl, answer] at st
        cases check with
        | accepted =>
          cases st
          refine .accepted current (PartitionSequence.outcome_accepted low high answer) fun key => ?_
          rw [ProducerIdRegistry.entry_write]
          split
          · rfl
          · exact kept key
        | duplicate =>
          cases st
          obtain ⟨begun, below⟩ := PartitionSequence.outcome_duplicate answer
          exact .duplicate current begun below kept
        | outOfOrder =>
          cases st
          exact .outOfOrder kept

end Check

/-! ## The invariant -/

variable {checks : Bool} {s s' : Producers} {call : ProducerCall} {b : Batch}

lemma once_cons {answer : SequenceCheck} {answers : List (Batch × SequenceCheck)} (once : Once answers)
    (apart : answer = .accepted → ∀ b', (b', .accepted) ∈ answers → b.SameEpoch b' →
      ∀ n, ¬ (b.Covers n ∧ b'.Covers n)) : Once ((b, answer) :: answers) := by
  refine List.pairwise_cons.mpr ⟨fun a mem here there => ?_, once⟩
  obtain ⟨b', answer'⟩ := a
  cases there
  exact apart here b' mem

lemma explained_cons {answer : SequenceCheck} {answers : List (Batch × SequenceCheck)}
    (explained : Explained answers)
    (new : answer = .duplicate → ∀ n, b.Covers n →
      ∃ b', (b', .accepted) ∈ answers ∧ b.SameEpoch b' ∧ b'.Covers n) :
    Explained ((b, answer) :: answers) := by
  intro later b' earlier e
  cases later with
  | nil =>
    cases e
    exact new rfl
  | cons a later =>
    cases e
    exact explained later b' earlier rfl

/-- Answers other than `accepted` leave what the invariant says about the sequence numbers. -/
lemma Inv.unchanged (inv : s.Inv) (entries : ∀ key, s'.registry.entry key = s.registry.entry key)
    (accepted : ∀ b, s'.Accepted b ↔ s.Accepted b) (once : Once s'.answers)
    (explained : Explained s'.answers) : s'.Inv where
  low key := entries key ▸ inv.low key
  high key := entries key ▸ inv.high key
  within acc := entries _ ▸ inv.within ((accepted _).mp acc)
  whole nonneg le := by
    obtain ⟨b, acc, here, covers⟩ := inv.whole nonneg (entries _ ▸ le)
    exact ⟨b, (accepted b).mpr acc, here, covers⟩
  once := once
  explained := explained

lemma accepted_cons {answer : SequenceCheck} (ne : answer ≠ .accepted) {registry : ProducerIdRegistry}
    (b' : Batch) : Accepted ⟨registry, (b, answer) :: s.answers⟩ b' ↔ s.Accepted b' := by
  unfold Accepted
  constructor
  · intro mem
    cases mem with
    | head => exact absurd rfl ne
    | tail _ mem => exact mem
  · exact .tail _

/-- A batch that fits and is accepted starts right behind the last sequence number. -/
lemma Fits.base_eq {last : ℤ} (fits : Fits last b)
    (next : last = -1 ∧ 0 ≤ b.baseSequence ∨ b.baseSequence = last + 1) : b.baseSequence = last + 1 := by
  cases next with
  | inl first =>
    have := fits.1 first.1
    omega
  | inr eq => exact eq

/-- The next batch of a producer is accepted. -/
lemma Inv.accept (inv : s.Inv) {registry : ProducerIdRegistry}
    (fits : Fits (s.registry.entry b.key).lastSequence b)
    (next : b.baseSequence = (s.registry.entry b.key).lastSequence + 1)
    (entries : ∀ key, registry.entry key =
      if key = b.key then (s.registry.entry b.key).accept b.baseSequence b.recordCount
      else s.registry.entry key) : Inv ⟨registry, (b, .accepted) :: s.answers⟩ := by
  have low := inv.low b.key
  have top := fits.2.2 next
  have pos := b.positive
  have here : (registry.entry b.key).lastSequence = b.baseSequence + b.recordCount - 1 := by
    rw [entries, if_pos rfl]
    exact PartitionSequence.accept_lastSequence (by omega) pos top
  have there {key : ℤ × Bytes × ℤ} (ne : key ≠ b.key) : registry.entry key = s.registry.entry key := by
    rw [entries, if_neg ne]
  refine ⟨fun key => ?_, fun key => ?_, fun {b'} acc => ?_, fun {key n} nonneg le => ?_, ?_, ?_⟩
  · by_cases same : key = b.key
    · subst same
      show -1 ≤ (registry.entry b.key).lastSequence
      omega
    · exact there same ▸ inv.low key
  · by_cases same : key = b.key
    · subst same
      show (registry.entry b.key).lastSequence < i32Max
      omega
    · exact there same ▸ inv.high key
  · cases acc with
    | head => exact ⟨by omega, by show _ ≤ (registry.entry b.key).lastSequence + 1; omega⟩
    | tail _ acc =>
      have ⟨nonneg, within⟩ := inv.within acc
      refine ⟨nonneg, ?_⟩
      by_cases same : b'.key = b.key
      · show _ ≤ (registry.entry b'.key).lastSequence + 1
        rw [same] at within ⊢
        omega
      · exact there same ▸ within
  · -- the numbers of the partition up to the old last one, and those of the new batch
    by_cases same : key = b.key
    · subst same
      change n ≤ (registry.entry b.key).lastSequence at le
      by_cases old : n ≤ (s.registry.entry b.key).lastSequence
      · obtain ⟨b', acc, eq, covers⟩ := inv.whole nonneg old
        exact ⟨b', .tail _ acc, eq, covers⟩
      · exact ⟨b, .head _, rfl, by omega, by omega⟩
    · obtain ⟨b', acc, eq, covers⟩ := inv.whole nonneg (there same ▸ le)
      exact ⟨b', .tail _ acc, eq, covers⟩
  · refine once_cons inv.once fun _ b' acc same n both => ?_
    have ⟨_, within⟩ := inv.within acc
    rw [← same.1] at within
    have := both.1.1
    have := both.2.2
    omega
  · exact explained_cons inv.explained fun h => by cases h

/-- Every call in order keeps the invariant. -/
lemma inv_step (inv : s.Inv) (ok : s.InOrder call) (st : s.step checks call = some s') : s'.Inv := by
  cases call with
  | allocate =>
    cases st
    exact inv.unchanged (fun _ => rfl) (fun _ => Iff.rfl) inv.once inv.explained
  | bumpEpoch producerId =>
    cases st
    exact inv.unchanged (fun key => s.registry.entry_bumpEpoch producerId key) (fun _ => Iff.rfl) inv.once
      inv.explained
  | check b =>
    cases check_outcome (inv.low b.key) (inv.high b.key) st with
    | same entries => exact inv.unchanged entries (fun _ => Iff.rfl) inv.once inv.explained
    | accepted current next entries =>
      have fits := (ok current).2
      exact inv.accept fits (fits.base_eq next) entries
    | duplicate current begun below entries =>
      obtain ⟨epoch, -, fits, -⟩ := ok current
      obtain ⟨nonneg, inside⟩ := fits begun
      refine inv.unchanged entries (accepted_cons (fun h => by cases h))
        (once_cons inv.once fun h => by cases h) (explained_cons inv.explained fun _ n covers => ?_)
      have le : n ≤ (s.registry.entry b.key).lastSequence :=
        Int.le_of_lt_add_one (covers.2.trans_le (inside below))
      obtain ⟨b', acc, key, covers'⟩ := inv.whole (nonneg.trans covers.1) le
      exact ⟨b', acc, ⟨key.symm, (epoch _ acc rfl key).symm⟩, covers'⟩
    | outOfOrder entries =>
      exact inv.unchanged entries (accepted_cons (fun h => by cases h))
        (once_cons inv.once fun h => by cases h) (explained_cons inv.explained fun h => by cases h)

lemma inv_init : Inv {} where
  low _ := Int.le_refl _
  high _ := show -1 < i32Max by decide
  within acc := by cases acc
  whole nonneg le := absurd (nonneg.trans le) (show ¬ (0 : ℤ) ≤ -1 by decide)
  once := .nil
  explained later b earlier e := by
    cases later with
    | nil => cases e
    | cons a later => cases e

/-- **In every run whose batches come in order, no record is accepted twice and every duplicate has been
accepted before.** -/
theorem accepted_once_of_inOrder {calls : List ProducerCall}
    (ok : Guarded (step checks) InOrder {} calls) (ran : run (step checks) {} calls = some s) :
    Once s.answers ∧ Explained s.answers := by
  have inv : s.Inv := invariant_of_guarded inv_step ok ran inv_init
  exact ⟨inv.once, inv.explained⟩

/-- A batch of producer 1 for partition 0 of topic `t`, with one record more than the last argument. -/
def batch (epoch baseSequence : ℤ) (recordCount : ℕ) : Batch :=
  ⟨1, epoch, [116], 0, baseSequence, recordCount + 1, by omega⟩

lemma not_explained {earlier : List (Batch × SequenceCheck)} {n : ℤ} (covers : b.Covers n)
    (none : ∀ a ∈ earlier, ¬ (a.2 = .accepted ∧ b.SameEpoch a.1 ∧ a.1.Covers n)) :
    ¬ Explained ((b, .duplicate) :: earlier) := by
  intro explained
  obtain ⟨b', mem, rest⟩ := explained [] b earlier rfl n covers
  exact none _ mem ⟨rfl, rest⟩

/-- Five records, five more, and the first five again. -/
theorem accepted_once_of_inOrder_retry :
    ∃ s, run (step true) {} [.allocate, .check (batch 0 0 4), .check (batch 0 5 4), .check (batch 0 0 4)] =
        some s ∧
      s.answers = [(batch 0 0 4, .duplicate), (batch 0 5 4, .accepted), (batch 0 0 4, .accepted)] ∧
      Once s.answers ∧ Explained s.answers := by
  have ok : Guarded (step true) InOrder {}
    [.allocate, .check (batch 0 0 4), .check (batch 0 5 4), .check (batch 0 0 4)] := by decide
  exact ⟨_, rfl, rfl, accepted_once_of_inOrder ok rfl⟩

/-- Records 0 to 4 are accepted. Then 3 to 7 are a duplicate, with 5 to 7 in no accepted batch; and so are
0 to 4 of the next epoch, which has no accepted batch at all. A producer that runs on past the greatest
`i32` has its number accepted twice. -/
theorem duplicate_not_accepted :
    (∃ s, run (step false) {} [.allocate, .check (batch 0 0 4), .check (batch 0 3 4)] = some s ∧
      ¬ Explained s.answers) ∧
    (∃ s, run (step false) {} [.allocate, .check (batch 0 0 4), .bumpEpoch 1, .check (batch 1 0 4)] =
        some s ∧ ¬ Explained s.answers) ∧
    ∃ s, run (step false) {} [.allocate, .check (batch 0 2147483647 0),
        .check (batch 0 (-2147483648) 2147483646), .check (batch 0 (-1) 0), .check (batch 0 2147483647 0)] =
        some s ∧ ¬ Once s.answers := by
  refine ⟨⟨_, rfl, ?_⟩, ⟨_, rfl, ?_⟩, _, rfl, ?_⟩
  · exact not_explained (n := 7) (b := batch 0 3 4) (by decide) (by decide)
  · exact not_explained (n := 0) (b := batch 1 0 4) (by decide) (by decide)
  · intro once
    have apart := (List.pairwise_cons.mp once).1 (batch 0 2147483647 0, .accepted) (by decide) rfl rfl
      (by decide) 2147483647
    exact apart (by decide)

end Producers

end Streams
