import CaveRuntime.Common.Run
import CaveRuntime.Streams.Basic

/-!
# The transaction coordinator

Model of `cave-streams/src/transactions.rs`. Ending a transaction completes it, and a completed transaction
takes no partitions: a producer runs one transaction after `init_producer` and has to call it again, with a
new epoch, before the next. The epoch of a transactional id grows by one each time until it reaches the
greatest `i16`; up to there a call with an older epoch is rejected.

The times of a transaction, which nothing reads, are left out.
-/

namespace Streams
open MachineInt Utf8 Run

structure ProducerState where
  producerId : ℤ
  epoch : ℤ
  sequences : Table (Bytes × ℤ) ℤ := ∅
  transactionId : Option Bytes
  transactionTimeoutMs : ℤ

def ProducerState.checkSequence (checks : Bool) (p : ProducerState) (topic : Bytes)
    (partition baseSequence : ℤ) : Except Failure ProducerState :=
  let key := (topic, partition)
  let expected :=
    match p.sequences.lookup key with
    | none => some 0
    | some s => add checks i32Max s 1
  match expected with
  | none => .error .panic
  | some expected =>
    if baseSequence = expected ∨ baseSequence = 0 then
      .ok { p with sequences := p.sequences.insert key baseSequence }
    else if baseSequence < expected then .ok p
    else .error (.error (.duplicateSequenceNumber p.producerId topic partition))

inductive TxnState where
  | empty
  | ongoing
  | prepareCommit
  | prepareAbort
  | completeCommit
  | completeAbort
  | dead
  | prepareEpochFence
deriving DecidableEq, Repr

/-- The name that `Debug` prints. -/
def TxnState.debug : TxnState → String
  | empty => "Empty"
  | ongoing => "Ongoing"
  | prepareCommit => "PrepareCommit"
  | prepareAbort => "PrepareAbort"
  | completeCommit => "CompleteCommit"
  | completeAbort => "CompleteAbort"
  | dead => "Dead"
  | prepareEpochFence => "PrepareEpochFence"

structure Transaction where
  transactionalId : Bytes
  producerId : ℤ
  producerEpoch : ℤ
  timeoutMs : ℤ
  state : TxnState := .empty
  partitions : List (Bytes × ℤ) := []
  consumerGroupOffsets : Table Bytes (Table (Bytes × ℤ) ℤ) := ∅

namespace Transaction

def addPartitions (partitions : List (Bytes × ℤ)) (txn : Transaction) : Except StreamsError Transaction :=
  if txn.state ≠ .empty ∧ txn.state ≠ .ongoing then
    .error (.invalidTxnState ("cannot add partitions in state " ++ txn.state.debug))
  else
    .ok { txn with
      state := .ongoing
      partitions := partitions.foldl (fun set p => set.insert p) txn.partitions }

/-- `Transaction::end`. -/
def endWith (commit : Bool) (txn : Transaction) : Except StreamsError Transaction :=
  if txn.state ≠ .ongoing then
    .error (.invalidTxnState ("cannot end transaction in state " ++ txn.state.debug))
  else .ok { txn with state := if commit then .prepareCommit else .prepareAbort }

def complete (txn : Transaction) : Transaction :=
  { txn with
    state :=
      match txn.state with
      | .prepareCommit => .completeCommit
      | .prepareAbort => .completeAbort
      | _ => .dead }

def commitOffsetToTxn (groupId : Bytes) (txn : Transaction) (offset : Bytes × ℤ × ℤ) : Transaction :=
  let group := (txn.consumerGroupOffsets.lookup groupId).getD ∅
  { txn with
    consumerGroupOffsets :=
      txn.consumerGroupOffsets.insert groupId (group.insert (offset.1, offset.2.1) offset.2.2) }

end Transaction

structure TransactionCoordinator where
  transactions : Table Bytes Transaction := ∅
  producers : Table ℤ ProducerState := ∅

namespace TransactionCoordinator

variable (c : TransactionCoordinator)

/-- Insert a transaction and its producer. -/
def register (txnId : Bytes) (producerId epoch timeoutMs : ℤ) :
    TransactionCoordinator where
  transactions := c.transactions.insert txnId ⟨txnId, producerId, epoch, timeoutMs, .empty, [], ∅⟩
  producers := c.producers.insert producerId ⟨producerId, epoch, ∅, some txnId, timeoutMs⟩

/-- `init_producer`; `nextId` is what `next_id_fn` gives. -/
def initProducer (checks : Bool) (c : TransactionCoordinator) (transactionalId : Option Bytes)
    (timeoutMs nextId : ℤ) : Except Failure (ℤ × ℤ) × TransactionCoordinator :=
  match transactionalId with
  | some txnId =>
    match c.transactions.lookup txnId with
    | some txn =>
      match add checks i16Max txn.producerEpoch 1 with
      | none => (.error .panic, c)
      | some epoch => (.ok (txn.producerId, epoch), c.register txnId txn.producerId epoch timeoutMs)
    | none => (.ok (nextId, 0), c.register txnId nextId 0 timeoutMs)
  | none =>
    (.ok (nextId, 0), { c with producers := c.producers.insert nextId ⟨nextId, 0, ∅, none, timeoutMs⟩ })

def verifyProducer (txn : Transaction) (producerId producerEpoch : ℤ) : Except StreamsError Unit :=
  if txn.producerId ≠ producerId ∨ txn.producerEpoch ≠ producerEpoch then
    .error (.invalidTxnState ("producer fenced: expected (" ++ toString txn.producerId ++ ", " ++
      toString txn.producerEpoch ++ "), got (" ++ toString producerId ++ ", " ++ toString producerEpoch ++
      ")"))
  else .ok ()

/-- Change a transaction on behalf of its producer. -/
def withTransaction (transactionalId : Bytes) (missing : String)
    (producerId producerEpoch : ℤ) (change : Transaction → Except StreamsError Transaction) :
    Except StreamsError Unit × TransactionCoordinator :=
  match c.transactions.lookup transactionalId with
  | none => (.error (.invalidTxnState missing), c)
  | some txn =>
    match verifyProducer txn producerId producerEpoch with
    | .error e => (.error e, c)
    | .ok () =>
      match change txn with
      | .error e => (.error e, c)
      | .ok txn => (.ok (), { c with transactions := c.transactions.insert transactionalId txn })

def addPartitionsToTxn (transactionalId : Bytes)
    (producerId producerEpoch : ℤ) (partitions : List (Bytes × ℤ)) :
    Except StreamsError Unit × TransactionCoordinator :=
  c.withTransaction transactionalId "transaction not initialised" producerId producerEpoch
    (Transaction.addPartitions partitions)

def endTxn (transactionalId : Bytes) (producerId producerEpoch : ℤ)
    (commit : Bool) : Except StreamsError Unit × TransactionCoordinator :=
  c.withTransaction transactionalId "transaction not found" producerId producerEpoch
    fun txn => (txn.endWith commit).map .complete

def txnOffsetCommit (transactionalId groupId : Bytes)
    (producerId producerEpoch : ℤ) (offsets : List (Bytes × ℤ × ℤ)) :
    Except StreamsError Unit × TransactionCoordinator :=
  c.withTransaction transactionalId "transaction not found" producerId producerEpoch
    fun txn => .ok (offsets.foldl (.commitOffsetToTxn groupId) txn)

def checkSequence (checks : Bool) (c : TransactionCoordinator) (producerId : ℤ) (topic : Bytes)
    (partition baseSequence : ℤ) : Except Failure Unit × TransactionCoordinator :=
  match c.producers.lookup producerId with
  | none => (.error (.error (.producerIdNotFound producerId)), c)
  | some p =>
    match p.checkSequence checks topic partition baseSequence with
    | .error e => (.error e, c)
    | .ok p => (.ok (), { c with producers := c.producers.insert producerId p })

end TransactionCoordinator

/-- The calls a producer makes under its epoch. -/
inductive TxnRequest where
  | addPartitionsToTxn (partitions : List (Bytes × ℤ))
  | endTxn (commit : Bool)
  | txnOffsetCommit (groupId : Bytes) (offsets : List (Bytes × ℤ × ℤ))
deriving DecidableEq, Repr

/-- The answer to a request, and the coordinator after it. -/
def TxnRequest.apply (c : TransactionCoordinator) (transactionalId : Bytes) (producerId producerEpoch : ℤ) :
    TxnRequest → Except StreamsError Unit × TransactionCoordinator
  | .addPartitionsToTxn partitions => c.addPartitionsToTxn transactionalId producerId producerEpoch partitions
  | .endTxn commit => c.endTxn transactionalId producerId producerEpoch commit
  | .txnOffsetCommit groupId offsets =>
    c.txnOffsetCommit transactionalId groupId producerId producerEpoch offsets

/-- The calls of the coordinator. -/
inductive TxnCall where
  | initProducer (transactionalId : Option Bytes) (timeoutMs nextId : ℤ)
  | request (transactionalId : Bytes) (producerId producerEpoch : ℤ) (request : TxnRequest)
  | checkSequence (producerId : ℤ) (topic : Bytes) (partition baseSequence : ℤ)
deriving DecidableEq, Repr

/-- The coordinator, and what `init_producer` has returned for each transactional id, the last one first. -/
structure TxnHistory where
  coordinator : TransactionCoordinator := {}
  inits : List (Bytes × ℤ × ℤ) := []

namespace TxnHistory

/-- One call. -/
def step (checks : Bool) (s : TxnHistory) : TxnCall → Option TxnHistory
  | .initProducer transactionalId timeoutMs nextId =>
    match transactionalId, s.coordinator.initProducer checks transactionalId timeoutMs nextId with
    | some txnId, (.ok producer, coordinator) => some ⟨coordinator, (txnId, producer) :: s.inits⟩
    | _, (_, coordinator) => some { s with coordinator }
  | .request transactionalId producerId producerEpoch request =>
    some { s with coordinator := (request.apply s.coordinator transactionalId producerId producerEpoch).2 }
  | .checkSequence producerId topic partition baseSequence =>
    some { s with
      coordinator := (s.coordinator.checkSequence checks producerId topic partition baseSequence).2 }

/-- The producer that the latest `init_producer` has returned for a transactional id. -/
def latest (s : TxnHistory) (transactionalId : Bytes) : Option (ℤ × ℤ) :=
  (s.inits.find? (·.1 = transactionalId)).map (·.2)

/-- The epoch of a transactional id can still grow. -/
def Bounded (s : TxnHistory) : TxnCall → Prop
  | .initProducer (some txnId) _ _ =>
    ∀ txn ∈ s.coordinator.transactions.lookup txnId, txn.producerEpoch < i16Max
  | _ => True

instance (s : TxnHistory) : (call : TxnCall) → Decidable (s.Bounded call)
  | .initProducer (some _) _ _ => inferInstanceAs (Decidable (∀ txn ∈ _, _))
  | .initProducer none _ _ | .request _ _ _ _ | .checkSequence _ _ _ _ => inferInstanceAs (Decidable True)

end TxnHistory

/-! ## What a request does -/

namespace TransactionCoordinator

variable {c c' : TransactionCoordinator} {transactionalId : Bytes} {producerId producerEpoch : ℤ}

/-- The producer that a transaction belongs to. -/
def producerOf (c : TransactionCoordinator) (transactionalId : Bytes) : Option (ℤ × ℤ) :=
  (c.transactions.lookup transactionalId).map fun txn => (txn.producerId, txn.producerEpoch)

/-- The transaction takes partitions. -/
def Open (c : TransactionCoordinator) (transactionalId : Bytes) : Prop :=
  ∃ txn ∈ c.transactions.lookup transactionalId, txn.state = .empty ∨ txn.state = .ongoing

lemma verifyProducer_ok {txn : Transaction} :
    verifyProducer txn producerId producerEpoch = .ok () ↔
      txn.producerId = producerId ∧ txn.producerEpoch = producerEpoch := by
  unfold verifyProducer
  split
  · rename_i differs
    refine iff_of_false (fun h => by cases h) fun same => ?_
    cases differs with
    | inl ne => exact ne same.1
    | inr ne => exact ne same.2
  · rename_i same
    rw [not_or, not_not, not_not] at same
    exact iff_of_true rfl same

/-- What `withTransaction` does. -/
inductive TransactionOutcome (c : TransactionCoordinator) (transactionalId : Bytes)
    (producerId producerEpoch : ℤ) (change : Transaction → Except StreamsError Transaction) :
    Except StreamsError Unit × TransactionCoordinator → Prop
  | rejected {e : StreamsError} : c.producerOf transactionalId ≠ some (producerId, producerEpoch) →
      TransactionOutcome c transactionalId producerId producerEpoch change (.error e, c)
  | refused {txn : Transaction} {e : StreamsError} : c.transactions.lookup transactionalId = some txn →
      change txn = .error e →
      TransactionOutcome c transactionalId producerId producerEpoch change (.error e, c)
  | changed {txn txn' : Transaction} : c.transactions.lookup transactionalId = some txn →
      txn.producerId = producerId → txn.producerEpoch = producerEpoch → change txn = .ok txn' →
      TransactionOutcome c transactionalId producerId producerEpoch change
        (.ok (), { c with transactions := c.transactions.insert transactionalId txn' })

lemma withTransaction_outcome (missing : String) (change : Transaction → Except StreamsError Transaction) :
    TransactionOutcome c transactionalId producerId producerEpoch change
      (c.withTransaction transactionalId missing producerId producerEpoch change) := by
  unfold withTransaction
  cases look : c.transactions.lookup transactionalId with
  | none => exact .rejected (by simp [producerOf, look])
  | some txn =>
    dsimp only
    cases verified : verifyProducer txn producerId producerEpoch with
    | error e =>
      refine .rejected fun same => ?_
      rw [producerOf, look] at same
      cases same
      rw [verifyProducer_ok.mpr ⟨rfl, rfl⟩] at verified
      cases verified
    | ok u =>
      obtain ⟨sameId, sameEpoch⟩ := verifyProducer_ok.mp verified
      dsimp only
      cases changed : change txn with
      | error e => exact .refused look changed
      | ok txn' => exact .changed look sameId sameEpoch changed

lemma TransactionOutcome.producerOf_eq {change : Transaction → Except StreamsError Transaction}
    {r : Except StreamsError Unit × TransactionCoordinator}
    (out : TransactionOutcome c transactionalId producerId producerEpoch change r)
    (keeps : ∀ {txn txn'}, change txn = .ok txn' →
      txn'.producerId = txn.producerId ∧ txn'.producerEpoch = txn.producerEpoch) (id : Bytes) :
    r.2.producerOf id = c.producerOf id := by
  cases out with
  | rejected _ => rfl
  | refused _ _ => rfl
  | changed look _ _ changed =>
    unfold producerOf
    rw [Table.lookup_insert_eq]
    split
    · rename_i here
      subst here
      rw [look, Option.map_some, Option.map_some, (keeps changed).1, (keeps changed).2]
    · rfl

end TransactionCoordinator

open TransactionCoordinator

/-- What a request does to the transaction. -/
def TxnRequest.change : TxnRequest → Transaction → Except StreamsError Transaction
  | .addPartitionsToTxn partitions, txn => txn.addPartitions partitions
  | .endTxn commit, txn => (txn.endWith commit).map .complete
  | .txnOffsetCommit groupId offsets, txn => .ok (offsets.foldl (.commitOffsetToTxn groupId) txn)

lemma Transaction.foldl_commitOffsetToTxn (groupId : Bytes) (offsets : List (Bytes × ℤ × ℤ))
    (txn : Transaction) :
    (offsets.foldl (.commitOffsetToTxn groupId) txn).producerId = txn.producerId ∧
      (offsets.foldl (.commitOffsetToTxn groupId) txn).producerEpoch = txn.producerEpoch := by
  induction offsets generalizing txn with
  | nil => exact ⟨rfl, rfl⟩
  | cons offset offsets ih => exact ih (txn.commitOffsetToTxn groupId offset)

namespace TxnRequest

variable {txn txn' : Transaction}

lemma change_producer {request : TxnRequest} (h : request.change txn = .ok txn') :
    txn'.producerId = txn.producerId ∧ txn'.producerEpoch = txn.producerEpoch := by
  cases request with
  | addPartitionsToTxn partitions =>
    simp only [change, Transaction.addPartitions] at h
    split at h
    · cases h
    · cases h
      exact ⟨rfl, rfl⟩
  | endTxn commit =>
    simp only [change, Transaction.endWith] at h
    split at h
    · cases h
    · cases h
      exact ⟨rfl, rfl⟩
  | txnOffsetCommit groupId offsets =>
    cases h
    exact Transaction.foldl_commitOffsetToTxn groupId offsets txn

lemma apply_outcome (c : TransactionCoordinator) (transactionalId : Bytes) (producerId producerEpoch : ℤ)
    (request : TxnRequest) :
    TransactionOutcome c transactionalId producerId producerEpoch request.change
      (request.apply c transactionalId producerId producerEpoch) := by
  cases request with
  | addPartitionsToTxn partitions => exact withTransaction_outcome _ _
  | endTxn commit => exact withTransaction_outcome _ _
  | txnOffsetCommit groupId offsets => exact withTransaction_outcome _ _

/-- A request under another producer id or epoch is rejected and changes nothing. -/
lemma apply_of_ne {c : TransactionCoordinator} {transactionalId : Bytes} {producerId producerEpoch : ℤ}
    (other : c.producerOf transactionalId ≠ some (producerId, producerEpoch)) (request : TxnRequest) :
    ∃ e, request.apply c transactionalId producerId producerEpoch = (.error e, c) := by
  generalize result : request.apply c transactionalId producerId producerEpoch = r
  have out := request.apply_outcome c transactionalId producerId producerEpoch
  rw [result] at out
  cases out with
  | rejected _ => exact ⟨_, rfl⟩
  | refused _ _ => exact ⟨_, rfl⟩
  | changed look sameId sameEpoch _ =>
    subst sameId sameEpoch
    exact absurd (by rw [producerOf, look]; rfl) other

end TxnRequest

/-! ## Rounds -/

namespace TransactionCoordinator

variable {c c' : TransactionCoordinator} {transactionalId : Bytes} {producerId producerEpoch : ℤ}

/-- One transaction of a producer: partitions are added and the transaction is ended; `none` if one of the
calls fails. -/
def round (transactionalId : Bytes) (producerId producerEpoch : ℤ) (c : TransactionCoordinator)
    (r : List (Bytes × ℤ) × Bool) : Option TransactionCoordinator :=
  match c.addPartitionsToTxn transactionalId producerId producerEpoch r.1 with
  | (.error _, _) => none
  | (.ok (), c) =>
    match c.endTxn transactionalId producerId producerEpoch r.2 with
    | (.error _, _) => none
    | (.ok (), c) => some c

variable {txn : Transaction}

lemma addPartitions_ok (h : txn.state = .empty ∨ txn.state = .ongoing)
    (partitions : List (Bytes × ℤ)) :
    ∃ txn', txn.addPartitions partitions = .ok txn' ∧ txn'.state = .ongoing ∧
      txn'.producerId = txn.producerId ∧ txn'.producerEpoch = txn.producerEpoch := by
  have free : ¬ (txn.state ≠ .empty ∧ txn.state ≠ .ongoing) := by
    intro closed
    cases h with
    | inl empty => exact closed.1 empty
    | inr ongoing => exact closed.2 ongoing
  exact ⟨_, if_neg free, rfl, rfl, rfl⟩

lemma addPartitions_error (h : ¬ (txn.state = .empty ∨ txn.state = .ongoing))
    (partitions : List (Bytes × ℤ)) : ∃ e, txn.addPartitions partitions = .error e :=
  ⟨_, if_pos (not_or.mp h)⟩

section

variable (look : c.transactions.lookup transactionalId = some txn)

include look

lemma withTransaction_eq
    (missing : String) (change : Transaction → Except StreamsError Transaction) :
    c.withTransaction transactionalId missing txn.producerId txn.producerEpoch change =
      match change txn with
      | .error e => (.error e, c)
      | .ok txn' => (.ok (), { c with transactions := c.transactions.insert transactionalId txn' }) := by
  unfold withTransaction
  rw [look]
  dsimp only
  rw [verifyProducer_ok.mpr ⟨rfl, rfl⟩]

/-- In a transaction that takes partitions a round goes through, and completes it. -/
lemma round_of_open
    (free : txn.state = .empty ∨ txn.state = .ongoing) (r : List (Bytes × ℤ) × Bool) :
    ∃ c' txn', round transactionalId txn.producerId txn.producerEpoch c r = some c' ∧
      c'.transactions.lookup transactionalId = some txn' ∧
      txn'.producerId = txn.producerId ∧ txn'.producerEpoch = txn.producerEpoch ∧
      ¬ (txn'.state = .empty ∨ txn'.state = .ongoing) := by
  obtain ⟨begun, added, ongoing, sameId, sameEpoch⟩ := addPartitions_ok free r.1
  have ended : (begun.endWith r.2).map .complete =
      .ok { begun with state := if r.2 then .completeCommit else .completeAbort } := by
    unfold Transaction.endWith
    rw [if_neg (not_not_intro ongoing)]
    cases r.2 with
    | true => rfl
    | false => rfl
  unfold round addPartitionsToTxn
  rw [withTransaction_eq look, added]
  dsimp only
  rw [← sameId, ← sameEpoch, endTxn, withTransaction_eq (AList.lookup_insert _), ended]
  refine ⟨_, _, rfl, AList.lookup_insert _, rfl, rfl, ?_⟩
  cases r.2 with
  | true => simp
  | false => simp

lemma round_of_closed
    (closed : ¬ (txn.state = .empty ∨ txn.state = .ongoing)) (r : List (Bytes × ℤ) × Bool) :
    round transactionalId txn.producerId txn.producerEpoch c r = none := by
  obtain ⟨e, refused⟩ := addPartitions_error closed r.1
  unfold round addPartitionsToTxn
  rw [withTransaction_eq look, refused]

end

/-- A producer completes no round or one, and one only in a transaction that takes partitions. -/
lemma rounds_iff (live : c.producerOf transactionalId = some (producerId, producerEpoch))
    (rounds : List (List (Bytes × ℤ) × Bool)) :
    (∃ c', run (round transactionalId producerId producerEpoch) c rounds = some c') ↔
      rounds = [] ∨ rounds.length = 1 ∧ c.Open transactionalId := by
  obtain ⟨txn, look, same⟩ := Option.map_eq_some_iff.mp live
  cases same
  have isOpen : c.Open transactionalId ↔ txn.state = .empty ∨ txn.state = .ongoing := by
    simp [Open, look]
  rw [isOpen]
  cases rounds with
  | nil => exact iff_of_true ⟨c, rfl⟩ (.inl rfl)
  | cons r rounds =>
    simp only [run_cons, List.length_cons, reduceCtorEq, false_or]
    by_cases free : txn.state = .empty ∨ txn.state = .ongoing
    · obtain ⟨c₁, txn₁, first, look₁, sameId, sameEpoch, closed⟩ := round_of_open look free r
      cases rounds with
      | nil => exact iff_of_true ⟨c₁, c₁, first, rfl⟩ ⟨rfl, free⟩
      | cons r' rounds =>
        refine iff_of_false ?_ (fun h => by cases h.1)
        rintro ⟨c', t, st, ran⟩
        cases first.symm.trans st
        obtain ⟨u, st', -⟩ := run_cons.mp ran
        rw [← sameId, ← sameEpoch, round_of_closed look₁ closed] at st'
        cases st'
    · refine iff_of_false ?_ (fun h => free h.2)
      rintro ⟨c', t, st, -⟩
      rw [round_of_closed look free] at st
      cases st

end TransactionCoordinator

/-! ## Epochs -/

namespace TxnHistory

variable {checks : Bool} {s s' : TxnHistory} {call : TxnCall}

/-- The transactions belong to the producers of the latest calls of `init_producer`, whose epochs are the
greatest so far. -/
structure Inv (s : TxnHistory) : Prop where
  latest (id : Bytes) : s.latest id = s.coordinator.producerOf id
  growing : s.inits.Pairwise fun later earlier => later.1 = earlier.1 → earlier.2.2 < later.2.2
  bound {i : Bytes × ℤ × ℤ} : i ∈ s.inits → ∀ p ∈ s.coordinator.producerOf i.1, i.2.2 ≤ p.2
  nonneg {id : Bytes} {p : ℤ × ℤ} : s.coordinator.producerOf id = some p → 0 ≤ p.2

lemma Inv.keep (inv : s.Inv) {coordinator : TransactionCoordinator}
    (keep : ∀ id, coordinator.producerOf id = s.coordinator.producerOf id) :
    Inv { s with coordinator } where
  latest id := (inv.latest id).trans (keep id).symm
  growing := inv.growing
  bound mem p h := inv.bound mem p (keep _ ▸ h)
  nonneg h := inv.nonneg (keep _ ▸ h)

lemma producerOf_register (c : TransactionCoordinator) (txnId : Bytes) (producerId epoch timeoutMs : ℤ)
    (id : Bytes) : (c.register txnId producerId epoch timeoutMs).producerOf id =
      if id = txnId then some (producerId, epoch) else c.producerOf id := by
  unfold producerOf register
  dsimp only
  rw [Table.lookup_insert_eq]
  split
  · rfl
  · rfl

lemma Inv.register (inv : s.Inv) {txnId : Bytes} {producerId epoch timeoutMs : ℤ} (pos : 0 ≤ epoch)
    (above : ∀ i ∈ s.inits, i.1 = txnId → i.2.2 < epoch) :
    Inv ⟨s.coordinator.register txnId producerId epoch timeoutMs,
      (txnId, producerId, epoch) :: s.inits⟩ := by
  refine ⟨fun id => ?_, ?_, fun {i} mem p h => ?_, fun {id p} h => ?_⟩
  · rw [producerOf_register, ← inv.latest id]
    unfold TxnHistory.latest
    by_cases here : id = txnId
    · simp [here]
    · simp [here, Ne.symm here]
  · refine List.pairwise_cons.mpr ⟨fun i mem same => above i mem same.symm, inv.growing⟩
  · change p ∈ producerOf (s.coordinator.register txnId producerId epoch timeoutMs) i.1 at h
    rw [producerOf_register] at h
    split at h
    · rename_i here
      cases h
      cases mem with
      | head => exact Int.le_refl _
      | tail _ mem => exact Int.le_of_lt (above i mem here)
    · rename_i other
      cases mem with
      | head => exact absurd rfl other
      | tail _ mem => exact inv.bound mem p h
  · rw [producerOf_register] at h
    split at h
    · cases h
      exact pos
    · exact inv.nonneg h

/-- Every call within the bounds keeps the invariant. -/
lemma inv_step (inv : s.Inv) (ok : s.Bounded call) (st : s.step checks call = some s') : s'.Inv := by
  cases call with
  | initProducer transactionalId timeoutMs nextId =>
    cases transactionalId with
    | none =>
      cases st
      exact inv.keep fun _ => rfl
    | some txnId =>
      simp only [step, initProducer] at st
      cases look : s.coordinator.transactions.lookup txnId with
      | none =>
        rw [look] at st
        cases st
        refine inv.register (Int.le_refl 0) fun i mem same => ?_
        have unknown := inv.latest txnId
        rw [producerOf, look, TxnHistory.latest, Option.map_none, Option.map_eq_none_iff,
          List.find?_eq_none] at unknown
        exact absurd (decide_eq_true same) (unknown i mem)
      | some txn =>
        have known : s.coordinator.producerOf txnId = some (txn.producerId, txn.producerEpoch) := by
          rw [producerOf, look]
          rfl
        have low := inv.nonneg known
        have high := ok txn look
        dsimp only at low
        rw [look] at st
        dsimp only at st
        rw [add_of_le (by unfold i16Max; omega) (by omega)] at st
        cases st
        refine inv.register (by omega) fun i mem same => ?_
        have old := inv.bound mem _ (same ▸ known)
        exact Int.lt_add_one_of_le old
  | request transactionalId producerId producerEpoch request =>
    cases st
    exact inv.keep (request.apply_outcome _ _ _ _ |>.producerOf_eq TxnRequest.change_producer)
  | checkSequence producerId topic partition baseSequence =>
    cases st
    refine inv.keep fun id => ?_
    unfold TransactionCoordinator.checkSequence
    cases s.coordinator.producers.lookup producerId with
    | none => rfl
    | some p =>
      dsimp only
      cases p.checkSequence checks topic partition baseSequence with
      | error e => rfl
      | ok p => rfl

lemma inv_init : Inv {} where
  latest _ := rfl
  growing := .nil
  bound mem := by cases mem
  nonneg h := by cases h

/-- **While epochs can grow they do, a call with an older one is rejected, and the latest producer of a
transactional id completes one round at most, in a transaction that has not been ended.** -/
theorem live_producer_rounds {calls : List TxnCall} (ok : Guarded (step checks) Bounded {} calls)
    (ran : run (step checks) {} calls = some s) :
    s.inits.Pairwise (fun later earlier => later.1 = earlier.1 → earlier.2.2 < later.2.2) ∧
    ∀ id producerId epoch, s.latest id = some (producerId, epoch) →
      (∀ rounds : List (List (Bytes × ℤ) × Bool),
        (∃ c, run (round id producerId epoch) s.coordinator rounds = some c) ↔
          rounds = [] ∨ rounds.length = 1 ∧ s.coordinator.Open id) ∧
      ∀ older < epoch, ∀ (producerId' : ℤ) (request : TxnRequest),
        ∃ e, request.apply s.coordinator id producerId' older = (.error e, s.coordinator) := by
  have inv : s.Inv := invariant_of_guarded inv_step ok ran inv_init
  refine ⟨inv.growing, fun id producerId epoch live => ?_⟩
  rw [inv.latest] at live
  refine ⟨rounds_iff live, fun older lt producerId' request => ?_⟩
  refine TxnRequest.apply_of_ne (fun same => ?_) request
  cases live.symm.trans same
  exact Int.lt_irrefl _ lt

/-- The producer `x` is initialised twice. -/
def twice : List TxnCall := [.initProducer (some [120]) 60000 7, .initProducer (some [120]) 60000 8]

theorem live_producer_rounds_twice :
    ∃ s, run (step true) {} twice = some s ∧ s.inits = [([120], 7, 1), ([120], 7, 0)] ∧
      (∃ c, run (round [120] 7 1) s.coordinator [([([116], 0)], true)] = some c) ∧
      ∃ e, TxnRequest.apply s.coordinator [120] 7 0 (.endTxn true) = (.error e, s.coordinator) := by
  have ok : Guarded (step true) Bounded {} twice := by decide
  obtain ⟨rounds, older⟩ := (live_producer_rounds ok rfl).2 [120] 7 1 rfl
  refine ⟨_, rfl, rfl, (rounds _).mpr (.inr ⟨rfl, _, rfl, .inl rfl⟩), older 0 (by decide) 7 _⟩

lemma step_init {txn : Transaction} {epoch : ℤ}
    (look : s.coordinator.transactions.lookup [120] = some txn)
    (next : add checks i16Max txn.producerEpoch 1 = some epoch) :
    ∃ s' txn', s.step checks (.initProducer (some [120]) 60000 7) = some s' ∧
      s'.coordinator.transactions.lookup [120] = some txn' ∧ txn'.producerEpoch = epoch ∧
      s'.latest [120] = some (txn.producerId, epoch) := by
  simp only [step, initProducer, look, next]
  exact ⟨_, _, rfl, AList.lookup_insert _, rfl, rfl⟩

lemma run_inits (n : ℕ) (le : n ≤ 32767) :
    ∃ s txn, run (step checks) {} (List.replicate (n + 1) (.initProducer (some [120]) 60000 7)) = some s ∧
      s.coordinator.transactions.lookup [120] = some txn ∧ txn.producerEpoch = n := by
  induction n with
  | zero => exact ⟨_, _, rfl, rfl, rfl⟩
  | succ n ih =>
    obtain ⟨s, txn, ran, look, epoch⟩ := ih (Nat.le_of_succ_le le)
    have next : add checks i16Max txn.producerEpoch 1 = some (n + 1) := by
      rw [epoch]
      exact add_of_le (by unfold i16Max; omega) (by unfold i16Max; omega)
    obtain ⟨s', txn', st, look', epoch', -⟩ := step_init look next
    refine ⟨s', txn', ?_, look', epoch'⟩
    rw [List.replicate_succ', run_append]
    exact ⟨s, ran, run_cons.mpr ⟨s', st, rfl⟩⟩

/-- A second transaction of the same producer is refused; and the epoch after 32767 is -32768. -/
theorem live_producer_refused :
    (∃ s, run (step true) {} [.initProducer (some [120]) 60000 7,
        .request [120] 7 0 (.addPartitionsToTxn [([116], 0)]), .request [120] 7 0 (.endTxn true)] = some s ∧
      s.latest [120] = some (7, 0) ∧
      (s.coordinator.addPartitionsToTxn [120] 7 0 [([116], 0)]).1 =
        .error (.invalidTxnState "cannot add partitions in state CompleteCommit")) ∧
    ∃ s p, run (step false) {} (List.replicate 32769 (.initProducer (some [120]) 60000 7)) = some s ∧
      s.latest [120] = some (p, -32768) := by
  refine ⟨⟨_, rfl, rfl, rfl⟩, ?_⟩
  obtain ⟨s, txn, ran, look, epoch⟩ := run_inits 32767 (Nat.le_refl _)
  have next : add false i16Max txn.producerEpoch 1 = some (-32768) := by
    rw [epoch]
    decide
  obtain ⟨s', -, st, -, -, latest⟩ := step_init look next
  refine ⟨s', txn.producerId, ?_, latest⟩
  rw [List.replicate_succ', run_append]
  exact ⟨s, ran, run_cons.mpr ⟨s', st, rfl⟩⟩

end TxnHistory

end Streams
