import CaveRuntime.Etcd.Concurrency

/-!
# The etcd-compatible store: the mutex with a header

Model of `HeaderedMutex` of `cave-etcd/src/lock_manager.rs`. `lock` draws a revision before it takes the
lock of the state, so that another caller can come in between: one with a later revision enters first and
is granted, and the earlier revision then stands first in the queue and is granted as well. If every
caller enters with a revision above the first one of the queue, at most one lease holds the mutex, the one
that `header` reports.

The revision is a natural number here, a `u64` there. `try_lock_until`, which waits for the header to
name its caller, is left out.
-/

namespace Etcd
open Run

inductive LockManagerError where
  | deadlineExceeded
  | duplicateKey (key : String)
  | notOwner
  | noLeader
  | notLeader
  | unknownLock (key : String)
deriving DecidableEq, Repr

structure LockHeader where
  acquiredRevision : ℕ
  leaseId : ℤ
  key : String
  acquiredAt : ℕ
deriving DecidableEq, Repr

/-- `HeaderedMutex`, with its `HeaderedInner`. -/
structure HeaderedMutex where
  key : String
  revision : ℕ
  queue : Table ℕ ℤ
  holderHeader : Option LockHeader

namespace HeaderedMutex

def new (key : String) : HeaderedMutex := ⟨key, 0, ∅, none⟩

variable (m : HeaderedMutex)

/-- `next_rev`, the first step of `lock`. -/
def nextRev : ℕ × HeaderedMutex :=
  (m.revision + 1, { m with revision := m.revision + 1 })

/-- The end of `lock`: stand in the queue, and hold the mutex if no one stands before. -/
def enqueue (rev : ℕ) (leaseId : ℤ) (now : ℕ) :
    Except ConcurrencyError LockHeader × HeaderedMutex :=
  let queue : Table ℕ ℤ := m.queue.insert rev leaseId
  if queue.first.map Prod.fst = some rev then
    let header : LockHeader := ⟨rev, leaseId, m.key, now⟩
    (.ok header, { m with queue := queue, holderHeader := some header })
  else (.error .wouldBlock, { m with queue := queue })

/-- The second step of `lock`, under the lock of the state, with the revision that was drawn before. -/
def enter (rev : ℕ) (leaseId : ℤ) (now : ℕ) :
    Except ConcurrencyError LockHeader × HeaderedMutex :=
  match m.holderHeader with
  | some h => if h.leaseId = leaseId then (.ok h, m) else m.enqueue rev leaseId now
  | none => m.enqueue rev leaseId now

/-- The header of the caller that stands first. -/
def promote (now : ℕ) : Option LockHeader :=
  m.queue.first.map fun e => ⟨e.1, e.2, m.key, now⟩

/-- `unlock`. An error leaves the mutex as it was. -/
def unlock (leaseId : ℤ) (now : ℕ) : Except LockManagerError HeaderedMutex :=
  match m.queue.first with
  | none => .error .notOwner
  | some (rev, holder) =>
    if holder = leaseId then
      let m := { m with queue := m.queue.erase rev }
      .ok { m with holderHeader := m.promote now }
    else .error .notOwner

def header : Option LockHeader := m.holderHeader

end HeaderedMutex

/-- The steps of the callers: the two steps of `lock`, and `unlock`. The second step of `lock` is that of
any call under way. -/
inductive LockStep where
  | draw (leaseId : ℤ)
  | enter (call now : ℕ)
  | unlock (leaseId : ℤ) (now : ℕ)
deriving DecidableEq, Repr

/-- A mutex and its callers: the calls of `lock` that have drawn a revision and not entered yet, and the
leases for which `lock` returned `Ok` and which have not unlocked. -/
structure Callers where
  mutex : HeaderedMutex
  calls : List (ℕ × ℤ)
  holding : Finset ℤ

namespace Callers

/-- A new mutex. -/
def new (key : String) : Callers := ⟨.new key, [], ∅⟩

/-- What the return of `lock` leaves. -/
def returned (s : Callers) (leaseId : ℤ) : Except ConcurrencyError LockHeader → Finset ℤ
  | .ok _ => insert leaseId s.holding
  | .error _ => s.holding

/-- One step of a caller. -/
def step (s : Callers) : LockStep → Option Callers
  | .draw leaseId =>
    let (rev, mutex) := s.mutex.nextRev
    some { s with mutex := mutex, calls := s.calls ++ [(rev, leaseId)] }
  | .enter call now =>
    match s.calls[call]? with
    | none => none
    | some (rev, leaseId) =>
      let (result, mutex) := s.mutex.enter rev leaseId now
      some ⟨mutex, s.calls.eraseIdx call, s.returned leaseId result⟩
  | .unlock leaseId now =>
    match s.mutex.unlock leaseId now with
    | .error _ => some s
    | .ok mutex => some { s with mutex := mutex, holding := s.holding.erase leaseId }

/-- A caller enters with a revision above the first one of the queue, or with the lease that stands
first. -/
def InOrder (s : Callers) : LockStep → Prop
  | .enter call _ => ∀ c ∈ s.calls[call]?, ∀ e ∈ s.mutex.queue.first, e.1 < c.1 ∨ e.2 = c.2
  | _ => True

instance (s : Callers) : (e : LockStep) → Decidable (s.InOrder e)
  | .enter _ _ => inferInstanceAs (Decidable (∀ c ∈ _, _))
  | .draw _ => inferInstanceAs (Decidable True)
  | .unlock _ _ => inferInstanceAs (Decidable True)

end Callers

/-- The header is that of the caller that stands first. -/
def HeaderedMutex.NamesFirst (m : HeaderedMutex) : Prop :=
  m.queue.first = m.holderHeader.map fun h => (h.acquiredRevision, h.leaseId)

namespace HeaderedMutex.NamesFirst

variable {m : HeaderedMutex}

lemma promote (m : HeaderedMutex) (now : ℕ) : NamesFirst { m with holderHeader := m.promote now } := by
  unfold NamesFirst HeaderedMutex.promote
  cases m.queue.first with
  | none => rfl
  | some e => rfl

lemma enqueue_first (names : m.NamesFirst) (free : m.holderHeader = none) (rev : ℕ) (leaseId : ℤ)
    (now : ℕ) : ∃ h, (m.enqueue rev leaseId now).1 = .ok h ∧ h.leaseId = leaseId ∧
      (m.enqueue rev leaseId now).2.header = some h ∧ (m.enqueue rev leaseId now).2.NamesFirst := by
  have empty : m.queue.first = none := by
    rw [names, free]
    rfl
  have head : Table.first (m.queue.insert rev leaseId) = some (rev, leaseId) :=
    Table.first_insert_of_none empty
  simp only [enqueue, head, Option.map_some, if_true]
  exact ⟨_, rfl, rfl, rfl, head⟩

lemma enqueue_last (names : m.NamesFirst) {h : LockHeader} (held : m.holderHeader = some h) {rev : ℕ}
    (above : h.acquiredRevision < rev) (leaseId : ℤ) (now : ℕ) :
    (m.enqueue rev leaseId now).1 = .error .wouldBlock ∧
      (m.enqueue rev leaseId now).2.header = some h ∧ (m.enqueue rev leaseId now).2.NamesFirst := by
  have first : m.queue.first = some (h.acquiredRevision, h.leaseId) := by
    rw [names, held]
    rfl
  have head : Table.first (m.queue.insert rev leaseId) = some (h.acquiredRevision, h.leaseId) :=
    Table.first_insert_of_lt first above
  simp only [enqueue, head, Option.map_some, Option.some.injEq, if_neg (Nat.ne_of_lt above), true_and]
  refine ⟨held, ?_⟩
  simp only [NamesFirst, head, held, Option.map_some]

end HeaderedMutex.NamesFirst

/-- The invariant: the header is that of the caller that stands first, and only its lease holds the
mutex. -/
structure Callers.Exclusive (s : Callers) : Prop where
  names : s.mutex.NamesFirst
  holder : ∀ l ∈ s.holding, ∃ h, s.mutex.header = some h ∧ h.leaseId = l

namespace Callers.Exclusive

variable {s s' : Callers}

lemma new (key : String) : Exclusive (.new key) where
  names := rfl
  holder := by simp [Callers.new]

/-- A caller enters the queue and holds the lock if it is the first. -/
lemma enter (ex : s.Exclusive) {rev : ℕ} {leaseId : ℤ} (now : ℕ) (calls : List (ℕ × ℤ))
    (order : ∀ e ∈ s.mutex.queue.first, e.1 < rev ∨ e.2 = leaseId) :
    Exclusive ⟨(s.mutex.enter rev leaseId now).2, calls,
      s.returned leaseId (s.mutex.enter rev leaseId now).1⟩ := by
  unfold HeaderedMutex.enter
  cases held : s.mutex.holderHeader with
  | none =>
    obtain ⟨h, ok, its, header, names⟩ := ex.names.enqueue_first held rev leaseId now
    refine ⟨names, fun l mem => ?_⟩
    simp only [ok, returned, Finset.mem_insert] at mem
    cases mem with
    | inl here => exact ⟨h, header, its.trans here.symm⟩
    | inr before =>
      -- nobody held the mutex
      obtain ⟨h', header', -⟩ := ex.holder l before
      rw [HeaderedMutex.header, held] at header'
      cases header'
  | some h =>
    dsimp only
    split
    · rename_i here
      refine ⟨ex.names, fun l mem => ?_⟩
      cases Finset.mem_insert.mp mem with
      | inl same => exact ⟨h, held, here.trans same.symm⟩
      | inr before => exact ex.holder l before
    · rename_i other
      have first : s.mutex.queue.first = some (h.acquiredRevision, h.leaseId) := by
        rw [ex.names, held]
        rfl
      have above : h.acquiredRevision < rev := (order _ first).resolve_right other
      obtain ⟨blocked, header, names⟩ := ex.names.enqueue_last held above leaseId now
      refine ⟨names, fun l mem => ?_⟩
      rw [blocked] at mem
      obtain ⟨h', header', its⟩ := ex.holder l mem
      rw [HeaderedMutex.header, held] at header'
      cases header'
      exact ⟨h, header, its⟩

lemma unlock (ex : s.Exclusive) {leaseId : ℤ} {now : ℕ} {mutex : HeaderedMutex}
    (done : s.mutex.unlock leaseId now = .ok mutex) :
    Exclusive { s with mutex := mutex, holding := s.holding.erase leaseId } := by
  unfold HeaderedMutex.unlock at done
  split at done
  · cases done
  · rename_i rev holder first
    split at done
    · rename_i here
      cases done
      refine ⟨.promote _ now, fun l mem => ?_⟩
      -- only the lease that leaves held the mutex
      obtain ⟨ne, before⟩ := Finset.mem_erase.mp mem
      obtain ⟨h, header, its⟩ := ex.holder l before
      have same : some (rev, holder) = some (h.acquiredRevision, h.leaseId) := by
        rw [← first, ex.names, show s.mutex.holderHeader = some h from header]
        rfl
      cases same
      exact absurd (its.symm.trans here) ne
    · cases done

lemma step (ex : s.Exclusive) {e : LockStep} (order : s.InOrder e) (st : s.step e = some s') :
    s'.Exclusive := by
  cases e with
  | draw leaseId =>
    cases st
    exact ⟨ex.names, ex.holder⟩
  | enter call now =>
    simp only [Callers.step] at st
    split at st
    · cases st
    · rename_i rev leaseId found
      cases st
      exact ex.enter now _ (order (rev, leaseId) found)
  | unlock leaseId now =>
    simp only [Callers.step] at st
    split at st
    · cases st
      exact ex
    · rename_i mutex done
      cases st
      exact ex.unlock done

end Callers.Exclusive

/-- If every caller enters with a revision above the first one of the queue, at most one lease holds the
mutex, and it is the one that `header` reports. -/
theorem holder_is_unique (key : String) (es : List LockStep) (s : Callers)
    (order : Guarded Callers.step Callers.InOrder (.new key) es)
    (hr : run Callers.step (.new key) es = some s) :
    (∀ l ∈ s.holding, ∀ l' ∈ s.holding, l = l') ∧
      ∀ l ∈ s.holding, ∃ h, s.mutex.header = some h ∧ h.leaseId = l := by
  have ex : s.Exclusive := invariant_of_guarded (fun ex => ex.step) order hr (.new key)
  refine ⟨fun l mem l' mem' => ?_, ex.holder⟩
  obtain ⟨h, header, its⟩ := ex.holder l mem
  obtain ⟨h', header', its'⟩ := ex.holder l' mem'
  rw [header] at header'
  cases header'
  exact its.symm.trans its'

/-- Two callers draw a revision and enter in turn; the first one unlocks, and the second one calls
again. -/
def inTurn : List LockStep :=
  [.draw 1, .draw 2, .enter 0 10, .enter 0 11, .unlock 1 12, .draw 2, .enter 0 13]

theorem holder_is_unique_in_turn :
    ∃ s, run Callers.step (.new "lock") inTurn = some s ∧ s.holding = {2} ∧
      s.mutex.header = some ⟨2, 2, "lock", 12⟩ ∧ ∀ l ∈ s.holding, ∀ l' ∈ s.holding, l = l' := by
  refine ⟨_, rfl, by decide, by decide, ?_⟩
  exact (holder_is_unique "lock" inTurn _ (by decide) rfl).1

/-- Two callers draw a revision, and the second one enters first. -/
def overtaken : List LockStep := [.draw 1, .draw 2, .enter 1 10, .enter 0 11]

/-- Both are granted, and the header reports the first one only. -/
theorem both_hold :
    ∃ s, run Callers.step (.new "lock") overtaken = some s ∧ s.holding = {1, 2} ∧
      s.mutex.header = some ⟨1, 1, "lock", 11⟩ := by
  refine ⟨_, rfl, ?_⟩
  decide

end Etcd
