import Mathlib.Data.String.Basic
import CaveRuntime.Etcd.LockManager

/-!
# The etcd-compatible store: several locks at once

Model of `acquire_all` of `cave-etcd/src/lock_manager.rs`, lines 207-240. The keys are taken in order, and
what has been acquired is released again if a lock is held by someone else. The failing lock keeps the
registration of the caller, though, and a key without a lock ends the call without a release. So the locks
are as before only if the call finds all of them free or its own, or comes to a key without a lock when it
has passed only locks that its lease held already.

`String`s are ordered by code points, as their bytes in UTF-8 are.
-/

namespace Etcd
open Run

/-- The locks of a map by their names. -/
abbrev Locks := Table String HeaderedMutex

/-- The instants that a call reads, for the lock of each key. -/
structure LockTimes where
  lockedAt : String → ℕ
  unlockedAt : String → ℕ

namespace HeaderedMutex

/-- `lock`, when no other caller comes in between. -/
def lock (m : HeaderedMutex) (leaseId : ℤ) (now : ℕ) : Except ConcurrencyError LockHeader × HeaderedMutex :=
  let (rev, m) := m.nextRev
  m.enter rev leaseId now

/-- The mutex after `unlock`, whatever it returns. -/
def unlocked (m : HeaderedMutex) (leaseId : ℤ) (now : ℕ) : HeaderedMutex :=
  (m.unlock leaseId now).toOption.getD m

end HeaderedMutex

namespace Locks

variable (times : LockTimes) (leaseId : ℤ)

/-- The release of what has been acquired. -/
def rollBack (acquired : List (String × LockHeader)) (locks : Locks) : Locks :=
  acquired.reverse.foldl
    (fun locks a => Table.modify a.1 (fun m => m.unlocked leaseId (times.unlockedAt a.1)) locks) locks

/-- The loop of `acquire_all`. -/
def acquireLoop : List String → List (String × LockHeader) → Locks →
    Except LockManagerError (List (String × LockHeader)) × Locks
  | [], acquired, locks => (.ok acquired, locks)
  | k :: ks, acquired, locks =>
    match locks.lookup k with
    | none => (.error (.unknownLock k), locks)
    | some m =>
      match m.lock leaseId (times.lockedAt k) with
      | (.ok h, m) => acquireLoop ks (acquired ++ [(k, h)]) (locks.insert k m)
      | (.error _, m) => (.error .deadlineExceeded, rollBack times leaseId acquired (locks.insert k m))

/-- The first key that has been seen before. -/
def firstRepeat (seen : List String) : List String → Option String
  | [] => none
  | k :: ks => if k ∈ seen then some k else firstRepeat (k :: seen) ks

/-- Rust `acquire_all`. When the loop is through, every key has its header. -/
def acquireAll (locks : Locks) (keys : List String) : Except LockManagerError (List LockHeader) × Locks :=
  match firstRepeat [] keys with
  | some k => (.error (.duplicateKey k), locks)
  | none =>
    match acquireLoop times leaseId (keys.insertionSort (· ≤ ·)) [] locks with
    | (.error e, locks) => (.error e, locks)
    | (.ok acquired, locks) => (.ok (keys.filterMap fun k => acquired.lookup k), locks)

/-- The queue and the holder of a lock. -/
def view (locks : Locks) (k : String) : Option (Table ℕ ℤ × Option LockHeader) :=
  (locks.lookup k).map fun m => (m.queue, m.holderHeader)

/-- The lease holds the lock. -/
def holds (locks : Locks) (k : String) : Bool :=
  ((locks.lookup k).bind HeaderedMutex.holderHeader).any (·.leaseId = leaseId)

/-- The lock is there, and no other lease holds it. -/
def grantable (locks : Locks) (k : String) : Bool :=
  (locks.lookup k).any fun m => m.holderHeader.all (·.leaseId = leaseId)

end Locks

/-! ## One lock -/

namespace HeaderedMutex

/-- What holds of every mutex: the header is that of the caller that stands first, and the revisions in the
queue have been drawn. -/
structure Sound (m : HeaderedMutex) : Prop where
  names : m.NamesFirst
  drawn : ∀ rev leaseId, m.queue.lookup rev = some leaseId → rev ≤ m.revision

/-- The mutex of some callers. -/
def Reachable (m : HeaderedMutex) : Prop :=
  ∃ key es s, run Callers.step (.new key) es = some s ∧ s.mutex = m

variable {m : HeaderedMutex} {leaseId : ℤ} {now : ℕ}

lemma Sound.fresh (sound : m.Sound) : m.queue.lookup (m.revision + 1) = none := by
  cases look : m.queue.lookup (m.revision + 1) with
  | none => rfl
  | some leaseId => exact absurd (sound.drawn _ _ look) (Nat.not_succ_le_self _)

lemma Sound.insert_ne (sound : m.Sound) : m.queue.insert (m.revision + 1) leaseId ≠ m.queue := by
  intro same
  have look := congrArg (AList.lookup (m.revision + 1)) same
  rw [AList.lookup_insert, sound.fresh] at look
  cases look

lemma enqueue_queue (m : HeaderedMutex) (rev : ℕ) (leaseId : ℤ) (now : ℕ) :
    (m.enqueue rev leaseId now).2.queue = m.queue.insert rev leaseId := by
  unfold enqueue
  dsimp only
  split
  · rfl
  · rfl

lemma lock_held {h : LockHeader} (held : m.holderHeader = some h) (own : h.leaseId = leaseId) :
    m.lock leaseId now = (.ok h, { m with revision := m.revision + 1 }) := by
  unfold lock nextRev enter
  dsimp only
  rw [held]
  exact if_pos own

lemma Sound.lock_queue (sound : m.Sound) (other : ∀ h ∈ m.holderHeader, h.leaseId ≠ leaseId) :
    m.lock leaseId now = { m with revision := m.revision + 1 }.enqueue (m.revision + 1) leaseId now ∧
      (m.lock leaseId now).2.queue ≠ m.queue := by
  have eq : m.lock leaseId now =
      { m with revision := m.revision + 1 }.enqueue (m.revision + 1) leaseId now := by
    unfold lock nextRev enter
    dsimp only
    split
    · rename_i h held
      exact if_neg (other h held)
    · rfl
  refine ⟨eq, ?_⟩
  rw [eq, enqueue_queue]
  exact sound.insert_ne

lemma Sound.lock_free (sound : m.Sound) (free : m.holderHeader = none) :
    ∃ h m', m.lock leaseId now = (.ok h, m') ∧ m'.queue ≠ m.queue := by
  have names : NamesFirst { m with revision := m.revision + 1 } := sound.names
  obtain ⟨h, granted, _⟩ := names.enqueue_first free (m.revision + 1) leaseId now
  obtain ⟨eq, changed⟩ := sound.lock_queue (by simp [free] : ∀ h ∈ m.holderHeader, h.leaseId ≠ leaseId)
  exact ⟨h, (m.lock leaseId now).2, Prod.ext ((congrArg Prod.fst eq).trans granted) rfl, changed⟩

lemma Sound.lock_blocked (sound : m.Sound) {h : LockHeader} (held : m.holderHeader = some h)
    (other : h.leaseId ≠ leaseId) :
    ∃ e m', m.lock leaseId now = (.error e, m') ∧ m'.queue ≠ m.queue := by
  have names : NamesFirst { m with revision := m.revision + 1 } := sound.names
  have first : m.queue.first = some (h.acquiredRevision, h.leaseId) := by
    rw [sound.names, held]
    rfl
  have above : h.acquiredRevision < m.revision + 1 :=
    Nat.lt_succ_of_le (sound.drawn _ _ (Table.lookup_of_first first))
  obtain ⟨blocked, _⟩ := names.enqueue_last held above leaseId now
  have others : ∀ h' ∈ m.holderHeader, h'.leaseId ≠ leaseId := by
    rw [held]
    rintro h' ⟨⟩
    exact other
  obtain ⟨eq, changed⟩ := sound.lock_queue others
  exact ⟨_, (m.lock leaseId now).2, Prod.ext ((congrArg Prod.fst eq).trans blocked) rfl, changed⟩

end HeaderedMutex

/-- Every mutex of some callers is sound, and the revisions of the calls under way have been drawn. -/
structure Callers.Sound (s : Callers) : Prop where
  mutex : s.mutex.Sound
  calls : ∀ c ∈ s.calls, c.1 ≤ s.mutex.revision

namespace Callers.Sound

variable {s s' : Callers}

lemma new (key : String) : Callers.Sound (.new key) where
  mutex := ⟨rfl, fun rev leaseId look => by cases look⟩
  calls := by simp [Callers.new]

lemma enqueue {m : HeaderedMutex} (sound : m.Sound) {rev : ℕ} (drawn : rev ≤ m.revision) (leaseId : ℤ)
    (now : ℕ) : (m.enqueue rev leaseId now).2.Sound := by
  have grown (rev' : ℕ) (leaseId' : ℤ) (look : AList.lookup rev' (m.queue.insert rev leaseId) = some leaseId') :
      rev' ≤ m.revision := by
    rw [Table.lookup_insert_eq] at look
    split at look
    · rename_i here
      rwa [here]
    · exact sound.drawn rev' leaseId' look
  unfold HeaderedMutex.enqueue
  dsimp only
  split
  · rename_i head
    obtain ⟨⟨a, b⟩, first, eq⟩ := Option.map_eq_some_iff.mp head
    cases eq
    have look := Table.lookup_of_first first
    rw [AList.lookup_insert] at look
    cases look
    exact ⟨first, grown⟩
  · rename_i behind
    refine ⟨?_, grown⟩
    -- the first caller is the same as before
    obtain ⟨⟨a, b⟩, first⟩ := Table.exists_first (AList.lookup_insert m.queue : _ = some leaseId)
    have ne : a ≠ rev := by
      rintro rfl
      exact behind (by rw [first]; rfl)
    have same : m.queue.first = some (a, b) := by
      refine Table.first_eq_some_iff.mpr ⟨?_, fun a' b' look => ?_⟩
      · rw [← Table.lookup_of_first first, AList.lookup_insert_ne ne]
      · by_cases here : a' = rev
        · rw [here]
          exact Table.first_le first (AList.lookup_insert m.queue)
        · exact Table.first_le first ((AList.lookup_insert_ne here).trans look)
    exact first.trans (same.symm.trans sound.names)

lemma enter {m : HeaderedMutex} (sound : m.Sound) {rev : ℕ} (drawn : rev ≤ m.revision) (leaseId : ℤ)
    (now : ℕ) : (m.enter rev leaseId now).2.Sound := by
  unfold HeaderedMutex.enter
  split
  · split
    · exact sound
    · exact enqueue sound drawn leaseId now
  · exact enqueue sound drawn leaseId now

lemma enter_revision (m : HeaderedMutex) (rev : ℕ) (leaseId : ℤ) (now : ℕ) :
    (m.enter rev leaseId now).2.revision = m.revision := by
  have queued : (m.enqueue rev leaseId now).2.revision = m.revision := by
    unfold HeaderedMutex.enqueue
    dsimp only
    split
    · rfl
    · rfl
  unfold HeaderedMutex.enter
  split
  · split
    · rfl
    · exact queued
  · exact queued

lemma unlock {m m' : HeaderedMutex} (sound : m.Sound) {leaseId : ℤ} {now : ℕ}
    (done : m.unlock leaseId now = .ok m') : m'.Sound ∧ m'.revision = m.revision := by
  unfold HeaderedMutex.unlock at done
  split at done
  · cases done
  split at done
  · cases done
    refine ⟨⟨.promote _ now, fun rev leaseId look => ?_⟩, rfl⟩
    have look : (AList.erase _ m.queue).lookup rev = some leaseId := look
    rw [Table.lookup_erase_eq] at look
    split at look
    · cases look
    · exact sound.drawn rev leaseId look
  · cases done

/-- A step of a caller keeps the mutex sound, in whatever order the callers enter. -/
lemma step (sound : s.Sound) {e : LockStep} (st : s.step e = some s') : s'.Sound := by
  cases e with
  | draw leaseId =>
    cases st
    refine ⟨⟨sound.mutex.names, fun rev leaseId look => ?_⟩, fun c mem => ?_⟩
    · exact (sound.mutex.drawn rev leaseId look).trans (Nat.le_succ _)
    · cases List.mem_append.mp mem with
      | inl before => exact (sound.calls c before).trans (Nat.le_succ _)
      | inr new => rw [List.mem_singleton.mp new]
  | enter call now =>
    simp only [Callers.step] at st
    split at st
    · cases st
    · rename_i rev leaseId found
      cases st
      refine ⟨enter sound.mutex (sound.calls _ (List.mem_of_getElem? found)) leaseId now, fun c mem => ?_⟩
      show c.1 ≤ (s.mutex.enter rev leaseId now).2.revision
      rw [enter_revision]
      exact sound.calls c (List.mem_of_mem_eraseIdx mem)
  | unlock leaseId now =>
    simp only [Callers.step] at st
    split at st
    · cases st
      exact sound
    · rename_i mutex done
      cases st
      obtain ⟨kept, revision⟩ := unlock sound.mutex done
      refine ⟨kept, fun c mem => ?_⟩
      show c.1 ≤ mutex.revision
      rw [revision]
      exact sound.calls c mem

end Callers.Sound

lemma HeaderedMutex.Reachable.sound {m : HeaderedMutex} (reached : m.Reachable) : m.Sound := by
  obtain ⟨key, es, s, hr, rfl⟩ := reached
  exact (invariant_of_run (fun sound st => sound.step st) hr (Callers.Sound.new key)).mutex

/-! ## Several locks -/

namespace Locks

variable {times : LockTimes} {leaseId : ℤ} {locks : Locks} {k : String} {ks : List String}

lemma firstRepeat_eq_none {seen keys : List String} :
    firstRepeat seen keys = none ↔ keys.Nodup ∧ ∀ k ∈ keys, k ∉ seen := by
  induction keys generalizing seen with
  | nil => simp [firstRepeat]
  | cons k ks ih =>
    rw [firstRepeat]
    split
    · rename_i repeated
      refine iff_of_false nofun fun distinct => distinct.2 k List.mem_cons_self repeated
    · rename_i new
      rw [ih, List.nodup_cons]
      constructor
      · rintro ⟨distinct, unseen⟩
        refine ⟨⟨fun mem => unseen k mem List.mem_cons_self, distinct⟩, fun k' mem => ?_⟩
        cases List.mem_cons.mp mem with
        | inl here => exact here ▸ new
        | inr later => exact fun seen => unseen k' later (List.mem_cons_of_mem _ seen)
      · rintro ⟨⟨fresh, distinct⟩, unseen⟩
        refine ⟨distinct, fun k' mem seen => ?_⟩
        cases List.mem_cons.mp seen with
        | inl here => exact fresh (here ▸ mem)
        | inr before => exact unseen k' (List.mem_cons_of_mem _ mem) before

lemma lookup_rollBack (acquired : List (String × LockHeader)) (other : k ∉ acquired.map Prod.fst) :
    (rollBack times leaseId acquired locks).lookup k = locks.lookup k := by
  have keep (l : List (String × LockHeader)) (other : k ∉ l.map Prod.fst) (locks : Locks) :
      (l.foldl (fun locks a =>
        Table.modify a.1 (fun m => m.unlocked leaseId (times.unlockedAt a.1)) locks) locks).lookup k =
        locks.lookup k := by
    induction l generalizing locks with
    | nil => rfl
    | cons a l ih =>
      rw [List.map_cons, List.mem_cons, not_or] at other
      rw [List.foldl_cons, ih other.2, Table.lookup_modify, if_neg other.1]
  exact keep _ (by rwa [List.map_reverse, List.mem_reverse]) locks

lemma view_insert_ne {k' : String} {m : HeaderedMutex} (ne : k' ≠ k) :
    view (locks.insert k m) k' = view locks k' := by
  rw [view, AList.lookup_insert_ne ne, view]

lemma holds_insert_ne {k' : String} {m : HeaderedMutex} (ne : k' ≠ k) :
    holds leaseId (locks.insert k m) k' = holds leaseId locks k' := by
  rw [holds, AList.lookup_insert_ne ne, holds]

lemma grantable_insert_ne {k' : String} {m : HeaderedMutex} (ne : k' ≠ k) :
    grantable leaseId (locks.insert k m) k' = grantable leaseId locks k' := by
  rw [grantable, AList.lookup_insert_ne ne, grantable]

/-- What the loop finds at a key. -/
inductive Turn (times : LockTimes) (leaseId : ℤ) (locks : Locks) (k : String) : Prop
  | unknown (absent : locks.lookup k = none)
  | held (m m' : HeaderedMutex) (h : LockHeader) (found : locks.lookup k = some m)
      (granted : m.lock leaseId (times.lockedAt k) = (.ok h, m'))
      (unchanged : (m'.queue, m'.holderHeader) = (m.queue, m.holderHeader))
      (own : holds leaseId locks k = true) (free : grantable leaseId locks k = true)
  | free (m m' : HeaderedMutex) (h : LockHeader) (found : locks.lookup k = some m)
      (granted : m.lock leaseId (times.lockedAt k) = (.ok h, m')) (queued : m'.queue ≠ m.queue)
      (own : holds leaseId locks k = false) (free : grantable leaseId locks k = true)
  | blocked (m m' : HeaderedMutex) (e : ConcurrencyError) (found : locks.lookup k = some m)
      (refused : m.lock leaseId (times.lockedAt k) = (.error e, m')) (queued : m'.queue ≠ m.queue)
      (own : holds leaseId locks k = false) (free : grantable leaseId locks k = false)

lemma turn (times : LockTimes) (leaseId : ℤ) (sound : ∀ m, locks.lookup k = some m → m.Sound) :
    Turn times leaseId locks k := by
  cases found : locks.lookup k with
  | none => exact .unknown found
  | some m =>
    have sound := sound m found
    cases holder : m.holderHeader with
    | none =>
      obtain ⟨h, m', granted, queued⟩ :=
        @HeaderedMutex.Sound.lock_free m leaseId (times.lockedAt k) sound holder
      refine .free m m' h found granted queued ?_ ?_
      · simp [holds, found, holder]
      · simp [grantable, found, holder]
    | some h =>
      by_cases own : h.leaseId = leaseId
      · refine .held m _ h found (HeaderedMutex.lock_held holder own) rfl ?_ ?_
        · simp [holds, found, holder, own]
        · simp [grantable, found, holder, own]
      · obtain ⟨e, m', refused, queued⟩ :=
          @HeaderedMutex.Sound.lock_blocked m leaseId (times.lockedAt k) sound h holder own
        refine .blocked m m' e found refused queued ?_ ?_
        · simp [holds, found, holder, own]
        · simp [grantable, found, holder, own]

/-- The loop has acquired the locks of other keys, and the locks of the keys to come are sound and look as
at the beginning of the call. -/
structure Ready (start : String → Option (Table ℕ ℤ × Option LockHeader)) (ks : List String)
    (acquired : List (String × LockHeader)) (locks : Locks) : Prop where
  distinct : (acquired.map Prod.fst ++ ks).Nodup
  sound : ∀ k ∈ ks, ∀ m, locks.lookup k = some m → m.Sound
  same : ∀ k ∈ ks, view locks k = start k

section Loop

variable {start : String → Option (Table ℕ ℤ × Option LockHeader)}
  {acquired : List (String × LockHeader)}

section

variable (ready : Ready start (k :: ks) acquired locks)

include ready

lemma Ready.ne {k' : String} (mem : k' ∈ ks) : k' ≠ k := by
  rintro rfl
  exact (List.nodup_cons.mp (List.nodup_append.mp ready.distinct).2.1).1 mem

lemma Ready.fresh : k ∉ acquired.map Prod.fst := by
  intro mem
  exact (List.nodup_append.mp ready.distinct).2.2 k mem k List.mem_cons_self rfl

lemma Ready.next (h : LockHeader) (m : HeaderedMutex) :
    Ready start ks (acquired ++ [(k, h)]) (locks.insert k m) where
  distinct := by
    rw [List.map_append, List.append_assoc]
    exact ready.distinct
  sound k' mem m' found := by
    rw [AList.lookup_insert_ne (ready.ne mem)] at found
    exact ready.sound k' (List.mem_cons_of_mem _ mem) m' found
  same k' mem := by
    rw [view_insert_ne (ready.ne mem)]
    exact ready.same k' (List.mem_cons_of_mem _ mem)

lemma Ready.grantable (m : HeaderedMutex) :
    (∀ k' ∈ ks, grantable leaseId (locks.insert k m) k' = true) ↔
      ∀ k' ∈ ks, grantable leaseId locks k' = true :=
  forall₂_congr fun k' mem => by rw [grantable_insert_ne (ready.ne mem)]

end

lemma acquireLoop_ok_iff (ready : Ready start ks acquired locks) :
    (∃ all, (acquireLoop times leaseId ks acquired locks).1 = .ok all) ↔
      ∀ k ∈ ks, grantable leaseId locks k = true := by
  induction ks generalizing acquired locks with
  | nil => exact iff_of_true ⟨_, rfl⟩ (by simp)
  | cons k ks ih =>
    rw [acquireLoop, List.forall_mem_cons]
    cases turn times leaseId (ready.sound k List.mem_cons_self) with
    | unknown absent =>
      rw [absent]
      exact iff_of_false (by simp) (by simp [grantable, absent])
    | held m m' h found granted _ _ free =>
      simp only [found, granted]
      rw [ih (ready.next h m'), ready.grantable, and_iff_right free]
    | free m m' h found granted _ _ free =>
      simp only [found, granted]
      rw [ih (ready.next h m'), ready.grantable, and_iff_right free]
    | blocked m m' e found refused _ _ free =>
      simp only [found, refused]
      exact iff_of_false (by simp) (by simp [free])

/-- A lock that the loop finds held by another lease is left with another queue. -/
lemma blocked_changed (ready : Ready start (k :: ks) acquired locks) {m m' : HeaderedMutex}
    (found : locks.lookup k = some m) (queued : m'.queue ≠ m.queue) :
    view (rollBack times leaseId acquired (locks.insert k m')) k ≠ start k := by
  rw [← ready.same k List.mem_cons_self, view, view, lookup_rollBack _ ready.fresh, AList.lookup_insert, found]
  intro same
  exact queued (congrArg Prod.fst (Option.some.inj same))

/-- Once a lock has been acquired that was free, the call fails with a change. -/
lemma changed_of_error (ready : Ready start ks acquired locks) {c : String} (other : c ∉ ks)
    (changed : view locks c ≠ start c) {err : LockManagerError} {locks' : Locks}
    (failed : acquireLoop times leaseId ks acquired locks = (.error err, locks')) :
    ∃ c, view locks' c ≠ start c := by
  induction ks generalizing acquired locks with
  | nil => cases failed
  | cons k ks ih =>
    rw [List.mem_cons, not_or] at other
    rw [acquireLoop] at failed
    cases turn times leaseId (ready.sound k List.mem_cons_self) with
    | unknown absent =>
      rw [absent] at failed
      cases failed
      exact ⟨c, changed⟩
    | held m m' h found granted _ _ _ =>
      simp only [found, granted] at failed
      exact ih (ready.next h m') other.2 (by rwa [view_insert_ne other.1]) failed
    | free m m' h found granted _ _ _ =>
      simp only [found, granted] at failed
      exact ih (ready.next h m') other.2 (by rwa [view_insert_ne other.1]) failed
    | blocked m m' e found refused queued _ _ =>
      simp only [found, refused] at failed
      cases failed
      exact ⟨k, blocked_changed ready found queued⟩

lemma acquireLoop_changed_iff (ready : Ready start ks acquired locks) {c : String} (other : c ∉ ks)
    (changed : view locks c ≠ start c) :
    (∀ err locks', acquireLoop times leaseId ks acquired locks = (.error err, locks') →
        ∀ c, view locks' c = start c) ↔ ∀ k ∈ ks, Locks.grantable leaseId locks k = true := by
  rw [← @acquireLoop_ok_iff times leaseId _ _ _ _ ready]
  generalize result : acquireLoop times leaseId ks acquired locks = r
  obtain ⟨outcome, locks'⟩ := r
  cases outcome with
  | ok all => exact iff_of_true nofun ⟨all, rfl⟩
  | error err =>
    refine iff_of_false (fun unchanged => ?_) nofun
    obtain ⟨c, differs⟩ := changed_of_error ready other changed result
    exact differs (unchanged err locks' rfl c)

/-- The first key whose lock the lease does not hold has no lock. -/
def EndsUnknown (leaseId : ℤ) (locks : Locks) (ks : List String) : Prop :=
  ∃ pre k post, ks = pre ++ k :: post ∧ locks.lookup k = none ∧ ∀ k' ∈ pre, holds leaseId locks k' = true

lemma endsUnknown_cons : EndsUnknown leaseId locks (k :: ks) ↔
    locks.lookup k = none ∨ holds leaseId locks k = true ∧ EndsUnknown leaseId locks ks := by
  constructor
  · rintro ⟨pre, k', post, eq, absent, held⟩
    cases pre with
    | nil =>
      cases eq
      exact .inl absent
    | cons first pre =>
      cases eq
      exact .inr ⟨held k List.mem_cons_self, pre, k', post, rfl, absent,
        fun k'' mem => held k'' (List.mem_cons_of_mem _ mem)⟩
  · rintro (absent | ⟨own, pre, k', post, rfl, absent, held⟩)
    · exact ⟨[], k, ks, rfl, absent, nofun⟩
    · exact ⟨k :: pre, k', post, rfl, absent, List.forall_mem_cons.mpr ⟨own, held⟩⟩

lemma endsUnknown_insert {m : HeaderedMutex} (ne : ∀ k' ∈ ks, k' ≠ k) :
    EndsUnknown leaseId (locks.insert k m) ks ↔ EndsUnknown leaseId locks ks := by
  unfold EndsUnknown
  refine exists₃_congr fun pre k' post => and_congr_right fun eq => ?_
  subst eq
  have here : k' ≠ k := ne k' (List.mem_append_right _ List.mem_cons_self)
  rw [AList.lookup_insert_ne here]
  refine and_congr_right fun _ => forall₂_congr fun k'' mem => ?_
  rw [holds_insert_ne (ne k'' (List.mem_append_left _ mem))]

/-- From locks that look as at the beginning, the loop fails without a change exactly if it cannot fail, or
comes to a key without a lock before it has acquired anything. -/
lemma acquireLoop_unchanged_iff (ready : Ready start ks acquired locks)
    (clean : ∀ c, view locks c = start c) :
    (∀ err locks', acquireLoop times leaseId ks acquired locks = (.error err, locks') →
        ∀ c, view locks' c = start c) ↔
      (∀ k ∈ ks, Locks.grantable leaseId locks k = true) ∨ EndsUnknown leaseId locks ks := by
  induction ks generalizing acquired locks with
  | nil => exact iff_of_true nofun (.inl (by simp))
  | cons k ks ih =>
    rw [List.forall_mem_cons, endsUnknown_cons, acquireLoop]
    cases turn times leaseId (ready.sound k List.mem_cons_self) with
    | unknown absent =>
      rw [absent]
      refine iff_of_true ?_ (.inr (.inl rfl))
      rintro err locks' ⟨⟩
      exact clean
    | held m m' h found granted unchanged own free =>
      simp only [found, granted]
      have clean' (c : String) : view (locks.insert k m') c = start c := by
        rw [← clean c]
        by_cases here : c = k
        · rw [here, view, view, AList.lookup_insert, found]
          exact congrArg some unchanged
        · exact view_insert_ne here
      rw [ih (ready.next h m') clean', endsUnknown_insert fun k' mem => ready.ne mem, ready.grantable,
        and_iff_right free, and_iff_right own, or_iff_right (Option.some_ne_none m)]
    | free m m' h found granted queued own free =>
      simp only [found, granted]
      have changed : view (locks.insert k m') k ≠ start k := by
        rw [← clean k, view, view, AList.lookup_insert, found]
        intro same
        exact queued (congrArg Prod.fst (Option.some.inj same))
      rw [acquireLoop_changed_iff (ready.next h m') (fun mem => ready.ne mem rfl) changed, ready.grantable,
        and_iff_right free, or_iff_left]
      rintro (absent | ⟨held, _⟩)
      · cases absent
      · rw [own] at held
        cases held
    | blocked m m' e found refused queued own free =>
      simp only [found, refused]
      refine iff_of_false (fun unchanged => ?_) ?_
      · exact blocked_changed ready found queued (unchanged _ _ rfl k)
      · simp [own, free]

end Loop

/-! ## The call -/

/-- A key is given twice; or every key has a lock that is free or the lease's; or some key has no lock, and
the lease holds the locks of all keys before it. -/
def AllOrNothing (leaseId : ℤ) (locks : Locks) (keys : List String) : Prop :=
  ¬ keys.Nodup ∨ (∀ k ∈ keys, grantable leaseId locks k = true) ∨
    ∃ k ∈ keys, locks.lookup k = none ∧ ∀ k' ∈ keys, k' < k → holds leaseId locks k' = true
deriving Decidable

lemma endsUnknown_sorted {keys : List String} (distinct : keys.Nodup) :
    EndsUnknown leaseId locks (keys.insertionSort (· ≤ ·)) ↔
      ∃ k ∈ keys, locks.lookup k = none ∧ ∀ k' ∈ keys, k' < k → holds leaseId locks k' = true := by
  have perm : (keys.insertionSort (· ≤ ·)).Perm keys := List.perm_insertionSort _ _
  have sorted : (keys.insertionSort (· ≤ ·)).Pairwise (· ≤ ·) := List.pairwise_insertionSort _ _
  have nodup : (keys.insertionSort (· ≤ ·)).Nodup := perm.nodup_iff.mpr distinct
  generalize keys.insertionSort (· ≤ ·) = ks at perm sorted nodup
  constructor
  · rintro ⟨pre, k, post, rfl, absent, held⟩
    refine ⟨k, perm.mem_iff.mp (List.mem_append_right _ List.mem_cons_self), absent, fun k' mem lt => ?_⟩
    have up := (List.pairwise_append.mp sorted).2.1
    cases List.mem_append.mp (perm.mem_iff.mpr mem) with
    | inl before => exact held k' before
    | inr here =>
      cases List.mem_cons.mp here with
      | inl same => exact absurd same lt.ne
      | inr later => exact absurd ((List.pairwise_cons.mp up).1 k' later) (not_le.mpr lt)
  · rintro ⟨k, mem, absent, held⟩
    obtain ⟨pre, post, rfl⟩ := List.append_of_mem (perm.mem_iff.mpr mem)
    refine ⟨pre, k, post, rfl, absent, fun k' before => ?_⟩
    refine held k' (perm.mem_iff.mp (List.mem_append_left _ before)) ?_
    have le := (List.pairwise_append.mp sorted).2.2 k' before k List.mem_cons_self
    exact lt_of_le_of_ne le fun same => (List.nodup_append.mp nodup).2.2 k' before k List.mem_cons_self same

/-- A failed `acquire_all` leaves every queue and every holder as they were exactly if the locks are such
that it does nothing before it fails. -/
theorem acquireAll_atomic_iff (times : LockTimes) (leaseId : ℤ) (locks : Locks) (keys : List String)
    (reached : ∀ k m, locks.lookup k = some m → m.Reachable) :
    (∀ err locks', acquireAll times leaseId locks keys = (.error err, locks') →
        ∀ k, view locks' k = view locks k) ↔ AllOrNothing leaseId locks keys := by
  unfold acquireAll AllOrNothing
  by_cases distinct : keys.Nodup
  · have none : firstRepeat [] keys = none := firstRepeat_eq_none.mpr ⟨distinct, by simp⟩
    have perm : (keys.insertionSort (· ≤ ·)).Perm keys := List.perm_insertionSort _ _
    have ready : Ready (view locks) (keys.insertionSort (· ≤ ·)) [] locks :=
      ⟨perm.nodup_iff.mpr distinct, fun k _ m found => (reached k m found).sound, fun _ _ => rfl⟩
    have loop := @acquireLoop_unchanged_iff times leaseId _ _ _ _ ready fun _ => rfl
    rw [endsUnknown_sorted distinct] at loop
    simp only [perm.mem_iff] at loop
    rw [or_iff_right (not_not.mpr distinct), ← loop, none]
    generalize acquireLoop times leaseId (keys.insertionSort (· ≤ ·)) [] locks = r
    obtain ⟨outcome, locks'⟩ := r
    cases outcome with
    | ok all => exact iff_of_true nofun nofun
    | error err =>
      constructor
      · rintro unchanged _ _ ⟨⟩
        exact unchanged err locks' rfl
      · rintro unchanged _ _ ⟨⟩
        exact unchanged err locks' rfl
  · refine iff_of_true ?_ (.inl distinct)
    cases repeated : firstRepeat [] keys with
    | none => exact absurd (firstRepeat_eq_none.mp repeated).1 distinct
    | some k =>
      rintro err locks' ⟨⟩
      exact fun _ => rfl

/-- A mutex that a lease has locked. -/
def taken (key : String) (leaseId : ℤ) : HeaderedMutex := ((HeaderedMutex.new key).lock leaseId 10).2

lemma taken_reachable (key : String) (leaseId : ℤ) : (taken key leaseId).Reachable :=
  ⟨key, [.draw leaseId, .enter 0 10], _, rfl, rfl⟩

/-- The lock "a", held by lease 1. -/
def ownLock : Locks := AList.insert "a" (taken "a" 1) ∅

lemma ownLock_reachable (k : String) (m : HeaderedMutex) (found : ownLock.lookup k = some m) :
    m.Reachable := by
  unfold ownLock at found
  rw [Table.lookup_insert_eq] at found
  split at found
  · cases found
    exact taken_reachable _ _
  · cases found

/-- Every lock is locked at 20 and unlocked at 30. -/
def someTimes : LockTimes := ⟨fun _ => 20, fun _ => 30⟩

theorem acquireAll_atomic_own :
    AllOrNothing 1 ownLock ["z", "a"] ∧
      ∃ locks', acquireAll someTimes 1 ownLock ["z", "a"] = (.error (.unknownLock "z"), locks') ∧
        ∀ k, view locks' k = view ownLock k := by
  have fits : AllOrNothing 1 ownLock ["z", "a"] := by decide
  have failed : acquireAll someTimes 1 ownLock ["z", "a"] =
      (.error (.unknownLock "z"), (acquireAll someTimes 1 ownLock ["z", "a"]).2) := Prod.ext rfl rfl
  refine ⟨fits, _, failed, ?_⟩
  exact (acquireAll_atomic_iff someTimes 1 ownLock _ ownLock_reachable).mpr fits _ _ failed

/-- The lock "a" is free, and lease 2 holds the lock "b". -/
def freeAndTaken : Locks := AList.insert "b" (taken "b" 2) (AList.insert "a" (.new "a") ∅)

/-- Lease 1 holds the lock "a", and lease 2 the lock "b". -/
def bothTaken : Locks := AList.insert "b" (taken "b" 2) (AList.insert "a" (taken "a" 1) ∅)

/-- Lease 1 fails to acquire both locks and waits for the second one; if it held the first one, it has lost
it; and if there is no second one, it keeps the first one. -/
theorem acquireAll_not_atomic :
    (∃ locks', acquireAll someTimes 1 freeAndTaken ["a", "b"] =
        (.error .deadlineExceeded, locks') ∧
      (freeAndTaken.lookup "b").map (·.queue.keys) = some [1] ∧
      (locks'.lookup "b").map (·.queue.keys) = some [2, 1]) ∧
    (∃ locks', acquireAll someTimes 1 bothTaken ["a", "b"] =
        (.error .deadlineExceeded, locks') ∧ holds 1 bothTaken "a" = true ∧ holds 1 locks' "a" = false) ∧
    ∃ locks', acquireAll someTimes 1 freeAndTaken ["a", "c"] =
        (.error (.unknownLock "c"), locks') ∧ holds 1 freeAndTaken "a" = false ∧
      holds 1 locks' "a" = true := by
  exact ⟨⟨_, rfl, rfl, rfl⟩, ⟨_, rfl, rfl, rfl⟩, _, rfl, rfl, rfl⟩

end Locks

/-- In every interleaving the header is that of the caller with the lowest revision in the queue. -/
theorem HeaderedMutex.header_is_first {m : HeaderedMutex} (reached : m.Reachable) :
    m.queue.first = m.header.map fun h => (h.acquiredRevision, h.leaseId) :=
  reached.sound.names

/-- The caller with the lower revision comes second. -/
theorem HeaderedMutex.header_is_first_overtaken :
    ∃ m : HeaderedMutex, m.Reachable ∧ m.header.map (·.leaseId) = some 1 ∧ m.queue.first = some (1, 1) :=
  have reached : Reachable _ := ⟨"a", [.draw 1, .draw 2, .enter 1 10, .enter 0 20], _, rfl, rfl⟩
  ⟨_, reached, rfl, header_is_first reached⟩

end Etcd
