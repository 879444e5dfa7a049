import CaveRuntime.Common.Run
import CaveRuntime.Common.Table
import Mathlib.Data.Finset.Basic

/-!
# The etcd-compatible store: the distributed mutex

Model of `DistMutex` of `cave-etcd/src/concurrency.rs`. The callers wait in a queue that is ordered by
the revision at which each of them registered, and the first one owns the lock. A lease that already
stands in the queue gets `Ok` from `lock`, also when it does not stand first. If no lease that waits calls
`lock` again, every grant is the owner's.

The revision is a natural number here, a `u64` there. A run is a sequence of calls, each of which returns
before the next one is made.
-/

namespace Etcd
open Run

inductive ConcurrencyError where
  | notOwner
  | wouldBlock
  | leaseNotFound (id : ℤ)
  | notLeader
  | noLeader
deriving DecidableEq, Repr

/-- `MutexEntry`: one caller in the queue. -/
structure MutexEntry where
  leaseId : ℤ
  createRevision : ℕ
deriving DecidableEq, Repr

structure DistMutex where
  keyPrefix : String
  revision : ℕ
  queue : Table ℕ MutexEntry

namespace DistMutex

def new (keyPrefix : String) : DistMutex := ⟨keyPrefix, 0, ∅⟩

variable (m : DistMutex)

def nextRev : ℕ × DistMutex := (m.revision + 1, { m with revision := m.revision + 1 })

/-- The first entry of a lease, in the order of the queue. -/
def find (m : DistMutex) (leaseId : ℤ) : Option ℕ :=
  ((Table.ascending m.queue).find? fun e => e.2.leaseId = leaseId).map Sigma.fst

/-- Stand in the queue. -/
def register (rev : ℕ) (leaseId : ℤ) : DistMutex :=
  { m with queue := m.queue.insert rev ⟨leaseId, rev⟩ }

def lock (leaseId : ℤ) : Except ConcurrencyError ℕ × DistMutex :=
  let (rev, m) := m.nextRev
  match m.find leaseId with
  | some existingRev => (.ok existingRev, m)
  | none =>
    let m := m.register rev leaseId
    if m.queue.first.map Prod.fst = some rev then (.ok rev, m) else (.error .wouldBlock, m)

def tryLock (leaseId : ℤ) : Except ConcurrencyError ℕ × DistMutex :=
  if m.queue.first.isSome then (.error .wouldBlock, m)
  else
    let (rev, m) := m.nextRev
    (.ok rev, m.register rev leaseId)

/-- `unlock`. An error leaves the mutex as it was. -/
def unlock (leaseId : ℤ) : Except ConcurrencyError DistMutex :=
  match m.find leaseId with
  | none => .error .notOwner
  | some rev => .ok { m with queue := m.queue.erase rev }

def expireLease (leaseId : ℤ) : DistMutex :=
  let revs := ((Table.ascending m.queue).filter fun e => e.2.leaseId = leaseId).map Sigma.fst
  { m with queue := m.queue.eraseAll revs }

def isOwner (leaseId : ℤ) : Bool :=
  m.queue.first.map (fun e => e.2.leaseId) = some leaseId

end DistMutex

/-- The calls that change a mutex. -/
inductive MutexCall where
  | lock (leaseId : ℤ)
  | tryLock (leaseId : ℤ)
  | unlock (leaseId : ℤ)
  | expireLease (leaseId : ℤ)
deriving DecidableEq, Repr

/-- A mutex, and the leases that hold a grant: one of their calls returned `Ok`, and they have not been
released since. -/
structure Grants where
  mutex : DistMutex
  granted : Finset ℤ

namespace Grants

/-- A new mutex. -/
def new (keyPrefix : String) : Grants := ⟨.new keyPrefix, ∅⟩

/-- What an attempt to lock leaves. -/
def attempt (s : Grants) (leaseId : ℤ) : Except ConcurrencyError ℕ × DistMutex → Grants
  | (.ok _, m) => ⟨m, insert leaseId s.granted⟩
  | (.error _, m) => { s with mutex := m }

/-- One call. A grant is released by an `unlock` that succeeds and by the end of the lease. -/
def step (s : Grants) : MutexCall → Option Grants
  | .lock leaseId => some (s.attempt leaseId (s.mutex.lock leaseId))
  | .tryLock leaseId => some (s.attempt leaseId (s.mutex.tryLock leaseId))
  | .unlock leaseId =>
    match s.mutex.unlock leaseId with
    | .error _ => some s
    | .ok m => some ⟨m, s.granted.erase leaseId⟩
  | .expireLease leaseId => some ⟨s.mutex.expireLease leaseId, s.granted.erase leaseId⟩

end Grants

namespace DistMutex

variable {m : DistMutex} {leaseId lease : ℤ}

lemma isOwner_iff : m.isOwner leaseId = true ↔
    ∃ rev e, m.queue.first = some (rev, e) ∧ e.leaseId = leaseId := by
  unfold isOwner
  rw [decide_eq_true_iff, Option.map_eq_some_iff]
  constructor
  · rintro ⟨⟨rev, e⟩, first, eq⟩
    exact ⟨rev, e, first, eq⟩
  · rintro ⟨rev, e, first, eq⟩
    exact ⟨(rev, e), first, eq⟩

lemma lookup_of_find {rev : ℕ} (found : m.find leaseId = some rev) :
    ∃ e, m.queue.lookup rev = some e ∧ e.leaseId = leaseId := by
  obtain ⟨⟨rev', e⟩, hit, eq⟩ := Option.map_eq_some_iff.mp found
  cases eq
  have mem := Table.mem_ascending.mp (List.mem_of_find?_eq_some hit)
  have its := List.find?_some hit
  exact ⟨e, Table.mem_entries.mp mem, of_decide_eq_true its⟩

/-- The revisions of the queue have been drawn. -/
def Drawn (m : DistMutex) : Prop := ∀ rev e, m.queue.lookup rev = some e → rev ≤ m.revision

lemma Drawn.register (drawn : m.Drawn) : (m.nextRev.2.register m.nextRev.1 leaseId).Drawn := by
  intro rev e look
  simp only [DistMutex.register, nextRev, Table.lookup_insert_eq] at look
  split at look
  · rename_i here
    exact le_of_eq here
  · exact Nat.le_succ_of_le (drawn rev e look)

lemma Drawn.eraseAll (drawn : m.Drawn) (revs : List ℕ) :
    Drawn { m with queue := m.queue.eraseAll revs } := by
  intro rev e look
  simp only [Table.lookup_eraseAll] at look
  split at look
  · cases look
  · exact drawn rev e look

lemma isOwner_register_of_none {rev : ℕ} (empty : m.queue.first = none) :
    (m.register rev leaseId).isOwner leaseId = true :=
  isOwner_iff.mpr ⟨rev, ⟨leaseId, rev⟩, Table.first_insert_of_none empty, rfl⟩

lemma isOwner_eraseAll {revs : List ℕ} (owner : m.isOwner lease = true)
    (others : ∀ rev ∈ revs, ∃ e, m.queue.lookup rev = some e ∧ e.leaseId ≠ lease) :
    isOwner { m with queue := m.queue.eraseAll revs } lease = true := by
  obtain ⟨rev, e, first, eq⟩ := isOwner_iff.mp owner
  have other : rev ∉ revs := by
    intro mem
    obtain ⟨e', look, ne⟩ := others rev mem
    rw [Table.lookup_of_first first] at look
    cases look
    exact ne eq
  exact isOwner_iff.mpr ⟨rev, e, Table.first_eraseAll first other, eq⟩

end DistMutex

/-- A lease that waits in the queue does not call `lock` again. -/
def Grants.Patient (s : Grants) : MutexCall → Prop
  | .lock leaseId => s.mutex.isOwner leaseId = true ∨ s.mutex.find leaseId = none
  | _ => True

instance (s : Grants) : (call : MutexCall) → Decidable (s.Patient call)
  | .lock _ => inferInstanceAs (Decidable (_ ∨ _))
  | .tryLock _ => inferInstanceAs (Decidable True)
  | .unlock _ => inferInstanceAs (Decidable True)
  | .expireLease _ => inferInstanceAs (Decidable True)

/-- The invariant: only the owner holds a grant. -/
structure Grants.Owned (s : Grants) : Prop where
  drawn : s.mutex.Drawn
  owner : ∀ l ∈ s.granted, s.mutex.isOwner l = true

namespace Grants

variable {s s' : Grants} {leaseId : ℤ}

lemma Owned.new (keyPrefix : String) : Owned (.new keyPrefix) where
  drawn := by rintro _ _ ⟨⟩
  owner := by simp [Grants.new]

variable (own : s.Owned)

include own

lemma Owned.none_granted (empty : s.mutex.queue.first = none) {l : ℤ} :
    l ∉ s.granted := by
  intro mem
  obtain ⟨rev, e, first, -⟩ := DistMutex.isOwner_iff.mp (own.owner l mem)
  rw [empty] at first
  cases first

lemma Owned.register_first (empty : s.mutex.queue.first = none) :
    Owned ⟨s.mutex.nextRev.2.register s.mutex.nextRev.1 leaseId, insert leaseId s.granted⟩ where
  drawn := own.drawn.register
  owner := by
    intro l mem
    cases Finset.mem_insert.mp mem with
    | inl here =>
      subst here
      exact DistMutex.isOwner_register_of_none empty
    | inr before => exact absurd before (own.none_granted empty)

lemma Owned.register_last {rev : ℕ} {e : MutexEntry}
    (first : s.mutex.queue.first = some (rev, e)) (leaseId : ℤ) :
    (s.mutex.nextRev.2.register s.mutex.nextRev.1 leaseId).queue.first = some (rev, e) := by
  have above : rev < s.mutex.revision + 1 :=
    Nat.lt_succ_of_le (own.drawn rev e (Table.lookup_of_first first))
  exact Table.first_insert_of_lt first above

lemma Owned.lock (patient : s.Patient (.lock leaseId)) :
    (s.attempt leaseId (s.mutex.lock leaseId)).Owned ∧
      ∀ rev, (s.mutex.lock leaseId).1 = .ok rev → (s.mutex.lock leaseId).2.isOwner leaseId = true := by
  have drawn : s.mutex.nextRev.2.Drawn := fun rev e look => Nat.le_succ_of_le (own.drawn rev e look)
  have same : s.mutex.nextRev.2.find leaseId = s.mutex.find leaseId := rfl
  simp only [DistMutex.lock, same]
  cases found : s.mutex.find leaseId with
  | some existingRev =>
    have owner : s.mutex.isOwner leaseId = true := by
      cases patient with
      | inl owner => exact owner
      | inr absent =>
        rw [found] at absent
        cases absent
    refine ⟨⟨drawn, fun l mem => ?_⟩, fun _ _ => owner⟩
    cases Finset.mem_insert.mp mem with
    | inl here => exact here ▸ owner
    | inr before => exact own.owner l before
  | none =>
    cases first : s.mutex.queue.first with
    | none =>
      have head : (s.mutex.nextRev.2.register s.mutex.nextRev.1 leaseId).queue.first =
          some (s.mutex.nextRev.1, ⟨leaseId, s.mutex.nextRev.1⟩) := Table.first_insert_of_none first
      simp only [head, Option.map_some, if_true]
      exact ⟨own.register_first first, fun _ _ => DistMutex.isOwner_register_of_none first⟩
    | some e =>
      obtain ⟨rev, e⟩ := e
      have head := own.register_last first leaseId
      have behind : rev ≠ s.mutex.nextRev.1 :=
        Nat.ne_of_lt (Nat.lt_succ_of_le (own.drawn rev e (Table.lookup_of_first first)))
      simp only [head, Option.map_some, Option.some.injEq, if_neg behind]
      refine ⟨⟨own.drawn.register, fun l mem => ?_⟩, nofun⟩
      obtain ⟨rev', e', first', eq⟩ := DistMutex.isOwner_iff.mp (own.owner l mem)
      rw [first] at first'
      cases first'
      exact DistMutex.isOwner_iff.mpr ⟨rev, e, head, eq⟩

lemma Owned.tryLock :
    (s.attempt leaseId (s.mutex.tryLock leaseId)).Owned ∧
      ∀ rev, (s.mutex.tryLock leaseId).1 = .ok rev →
        (s.mutex.tryLock leaseId).2.isOwner leaseId = true := by
  unfold DistMutex.tryLock
  cases first : s.mutex.queue.first with
  | none => exact ⟨own.register_first first, fun _ _ => DistMutex.isOwner_register_of_none first⟩
  | some e => exact ⟨⟨own.drawn, own.owner⟩, nofun⟩

lemma Owned.leave (revs : List ℕ)
    (its : ∀ rev ∈ revs, ∃ e, s.mutex.queue.lookup rev = some e ∧ e.leaseId = leaseId) :
    Owned ⟨{ s.mutex with queue := s.mutex.queue.eraseAll revs }, s.granted.erase leaseId⟩ where
  drawn := own.drawn.eraseAll revs
  owner := by
    intro l mem
    obtain ⟨ne, before⟩ := Finset.mem_erase.mp mem
    refine DistMutex.isOwner_eraseAll (own.owner l before) fun rev mem => ?_
    obtain ⟨e, look, eq⟩ := its rev mem
    exact ⟨e, look, fun same => ne (same.symm.trans eq)⟩

lemma Owned.step {call : MutexCall} (patient : s.Patient call)
    (st : s.step call = some s') : s'.Owned := by
  cases call with
  | lock leaseId =>
    cases st
    exact (own.lock patient).1
  | tryLock leaseId =>
    cases st
    exact own.tryLock.1
  | unlock leaseId =>
    simp only [Grants.step, DistMutex.unlock] at st
    cases found : s.mutex.find leaseId with
    | none =>
      rw [found] at st
      cases st
      exact own
    | some rev =>
      rw [found] at st
      cases st
      refine own.leave [rev] fun rev' mem => ?_
      rw [List.mem_singleton.mp mem]
      exact DistMutex.lookup_of_find found
  | expireLease leaseId =>
    cases st
    refine own.leave _ fun rev mem => ?_
    obtain ⟨⟨rev', e⟩, hit, eq⟩ := List.mem_map.mp mem
    cases eq
    obtain ⟨mem, its⟩ := List.mem_filter.mp hit
    exact ⟨e, Table.mem_entries.mp (Table.mem_ascending.mp mem), of_decide_eq_true its⟩

end Grants

/-- If no lease that waits calls `lock` again, a call that returns `Ok` makes the caller the owner, and no
two leases hold a grant at the same time. -/
theorem grants_are_the_owners (keyPrefix : String) (calls : List MutexCall) (s : Grants)
    (patient : Guarded Grants.step Grants.Patient (.new keyPrefix) calls)
    (hr : run Grants.step (.new keyPrefix) calls = some s) :
    (∀ leaseId rev, s.Patient (.lock leaseId) → (s.mutex.lock leaseId).1 = .ok rev →
      (s.mutex.lock leaseId).2.isOwner leaseId = true) ∧
    (∀ leaseId rev, (s.mutex.tryLock leaseId).1 = .ok rev →
      (s.mutex.tryLock leaseId).2.isOwner leaseId = true) ∧
    (∀ l ∈ s.granted, s.mutex.isOwner l = true) ∧
    ∀ l ∈ s.granted, ∀ l' ∈ s.granted, l = l' := by
  have own : s.Owned := invariant_of_guarded (fun own => own.step) patient hr (.new keyPrefix)
  refine ⟨fun leaseId rev patient => (own.lock patient).2 rev, fun leaseId => own.tryLock.2, own.owner, ?_⟩
  intro l mem l' mem'
  obtain ⟨rev, e, first, eq⟩ := DistMutex.isOwner_iff.mp (own.owner l mem)
  obtain ⟨rev', e', first', eq'⟩ := DistMutex.isOwner_iff.mp (own.owner l' mem')
  rw [first] at first'
  cases first'
  exact eq.symm.trans eq'

/-- Two leases wait behind a first one, which unlocks; the second one's lease ends, and the third one
locks again. -/
def handedOn : List MutexCall :=
  [.tryLock 1, .lock 2, .lock 3, .lock 1, .unlock 1, .expireLease 2, .lock 3]

theorem grants_are_the_owners_handed_on :
    ∃ s, run Grants.step (.new "lock") handedOn = some s ∧ s.granted = {3} ∧
      ∀ l ∈ s.granted, s.mutex.isOwner l = true := by
  refine ⟨_, rfl, by decide, ?_⟩
  exact (grants_are_the_owners "lock" handedOn _ (by decide) rfl).2.2.1

/-- A lease waits, and calls `lock` again. -/
def asksTwice : List MutexCall := [.lock 1, .lock 2, .lock 2]

/-- The second call returns `Ok`, although the first lease owns the lock. -/
theorem waiter_is_granted :
    ∃ s, run Grants.step (.new "lock") asksTwice = some s ∧ s.granted = {1, 2} ∧
      s.mutex.isOwner 1 = true ∧ s.mutex.isOwner 2 = false := by
  refine ⟨_, rfl, ?_⟩
  decide

end Etcd
