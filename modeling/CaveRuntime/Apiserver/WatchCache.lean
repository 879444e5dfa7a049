import Mathlib.Algebra.Group.Nat.Defs
import Mathlib.Data.List.Basic
import CaveRuntime.Common.Run

/-!
# The apiserver: the watch cache

Model of `cave-apiserver/src/watch_cache.rs`: a ring of the last events of all tenants, with bookmarks
between them, and the replay of a tenant's events after a resource version. Events leave the ring when it
is compacted, which raises the floor below which a replay is refused, and when the ring is full, which does
not: a replay over events that were pushed out is answered with the rest. A replay is complete in every run
in which a full ring only loses bookmarks.

`push` is cut into what it does under the lock and what it publishes afterwards. `fetch_add` wraps; the sum
after it would panic instead in a build with overflow checks.
-/

namespace Apiserver
open Run

inductive WatchCacheEvent (R : Type*) where
  | added (resourceVersion : ℕ) (tenantId : String) (resource : R)
  | modified (resourceVersion : ℕ) (tenantId : String) (resource : R)
  | deleted (resourceVersion : ℕ) (tenantId : String) (resource : R)
  | bookmark (resourceVersion : ℕ) (tenantId : String)
deriving DecidableEq, Repr

variable {R : Type*}

namespace WatchCacheEvent

def resourceVersion : WatchCacheEvent R → ℕ
  | added rv _ _ | modified rv _ _ | deleted rv _ _ | bookmark rv _ => rv

def tenantId : WatchCacheEvent R → String
  | added _ t _ | modified _ t _ | deleted _ t _ | bookmark _ t => t

def isBookmark : WatchCacheEvent R → Bool
  | bookmark _ _ => true
  | _ => false

end WatchCacheEvent

/-- `WatchCache`. `liveBus` is everything that was published. -/
structure WatchCache (R : Type*) where
  capacity : ℕ
  bookmarkInterval : ℕ
  events : List (WatchCacheEvent R)
  eventsSinceBookmark : ℕ
  rv : ℕ
  compactedRv : ℕ
  liveBus : List (WatchCacheEvent R)

inductive ReplayOutcome (R : Type*) where
  | compacted (compactedTo : ℕ)
  | events (events : List (WatchCacheEvent R))

/-- The three kinds of change. -/
inductive Change where
  | added
  | modified
  | deleted
deriving DecidableEq, Repr

/-- The event of a change. -/
def Change.event : Change → ℕ → String → R → WatchCacheEvent R
  | .added => .added
  | .modified => .modified
  | .deleted => .deleted

section Change

variable (change : Change) (rv : ℕ) (tenantId : String) (resource : R)

@[simp] lemma Change.resourceVersion_event : (change.event rv tenantId resource).resourceVersion = rv := by
  cases change <;> rfl

@[simp] lemma Change.tenantId_event : (change.event rv tenantId resource).tenantId = tenantId := by
  cases change <;> rfl

@[simp] lemma Change.isBookmark_event : (change.event rv tenantId resource).isBookmark = false := by
  cases change <;> rfl

end Change

namespace WatchCache

/-- `WatchCache::new`; `none` if an assertion fails. -/
def new (capacity bookmarkInterval : ℕ) : Option (WatchCache R) :=
  if 0 < capacity ∧ 0 < bookmarkInterval then some ⟨capacity, bookmarkInterval, [], 0, 0, 0, []⟩ else none

/-- `push_back`, and `pop_front` if that was too much. -/
def pushRing (capacity : ℕ) (events : List (WatchCacheEvent R)) (event : WatchCacheEvent R) :
    List (WatchCacheEvent R) :=
  if capacity < (events ++ [event]).length then (events ++ [event]).tail else events ++ [event]

variable (s : WatchCache R)

def nextRv : ℕ × WatchCache R :=
  let rv := (s.rv + 1) % 2 ^ 64
  (rv, { s with rv })

/-- `live_bus.publish`. -/
def publish (event : WatchCacheEvent R) : WatchCache R :=
  { s with liveBus := s.liveBus ++ [event] }

/-- What `push` does under the lock, with the bookmark to emit. -/
def pushLocked (event : WatchCacheEvent R) : Option (WatchCacheEvent R) × WatchCache R :=
  let events := pushRing s.capacity s.events event
  let eventsSinceBookmark := s.eventsSinceBookmark + 1
  if s.bookmarkInterval ≤ eventsSinceBookmark then
    let bookmark := .bookmark event.resourceVersion event.tenantId
    (some bookmark, { s with events := pushRing s.capacity events bookmark, eventsSinceBookmark := 0 })
  else (none, { s with events, eventsSinceBookmark })

def push (event : WatchCacheEvent R) : WatchCache R :=
  let (bookmarkToEmit, s) := s.pushLocked event
  let s := s.publish event
  match bookmarkToEmit with
  | some bookmark => s.publish bookmark
  | none => s

/-- `record_added`, `record_modified` and `record_deleted`. -/
def record (change : Change) (s : WatchCache R) (tenantId : String) (resource : R) : ℕ × WatchCache R :=
  let (rv, s) := s.nextRv
  (rv, s.push (change.event rv tenantId resource))

def recordAdded : WatchCache R → String → R → ℕ × WatchCache R := record .added

def recordModified : WatchCache R → String → R → ℕ × WatchCache R := record .modified

def recordDeleted : WatchCache R → String → R → ℕ × WatchCache R := record .deleted

/-- What `force_bookmark` does under the lock. -/
def markLocked (bookmark : WatchCacheEvent R) : WatchCache R :=
  { s with events := pushRing s.capacity s.events bookmark, eventsSinceBookmark := 0 }

def forceBookmark (tenantId : String) : ℕ × WatchCache R :=
  (s.rv, (s.markLocked (.bookmark s.rv tenantId)).publish (.bookmark s.rv tenantId))

def compact (floor : ℕ) : WatchCache R :=
  if floor ≤ s.compactedRv then s
  else { s with compactedRv := floor, events := s.events.filter (floor < ·.resourceVersion) }

def replayForTenant (tenantId : String) (sinceRv : ℕ) : List (WatchCacheEvent R) :=
  s.events.filter fun e => sinceRv < e.resourceVersion && e.tenantId == tenantId

def replayForTenantChecked (tenantId : String) (sinceRv : ℕ) : ReplayOutcome R :=
  if sinceRv < s.compactedRv then .compacted s.compactedRv
  else .events (s.replayForTenant tenantId sinceRv)

end WatchCache

/-- The calls of a watch cache. -/
inductive WatchCall (R : Type*) where
  | record (change : Change) (tenantId : String) (resource : R)
  | forceBookmark (tenantId : String)
  | compact (floor : ℕ)
deriving DecidableEq, Repr

/-- The cache, and every event that was recorded. -/
structure Recording (R : Type*) where
  cache : WatchCache R
  recorded : List (WatchCacheEvent R)

/-- One call. -/
def Recording.step (r : Recording R) : WatchCall R → Option (Recording R)
  | .record change tenantId resource =>
    let (rv, cache) := r.cache.record change tenantId resource
    some ⟨cache, r.recorded ++ [change.event rv tenantId resource]⟩
  | .forceBookmark tenantId => some ⟨(r.cache.forceBookmark tenantId).2, r.recorded⟩
  | .compact floor => some ⟨r.cache.compact floor, r.recorded⟩

/-! ## The ring -/

/-- Not a bookmark. -/
def WatchCacheEvent.isChange (e : WatchCacheEvent R) : Bool := !e.isBookmark

/-- The ring in version order, with every change above the floor. -/
structure Holds (rv floor : ℕ) (recorded events : List (WatchCacheEvent R)) : Prop where
  sorted : events.Pairwise (·.resourceVersion ≤ ·.resourceVersion)
  below : ∀ e ∈ events, e.resourceVersion ≤ rv
  kept : events.filter (·.isChange) = recorded.filter fun e => floor < e.resourceVersion

/-- A push makes no change fall out. -/
def Spares (capacity : ℕ) (events : List (WatchCacheEvent R)) (event : WatchCacheEvent R) : Prop :=
  capacity < (events ++ [event]).length → ∀ e ∈ (events ++ [event]).head?, e.isBookmark = true
deriving Decidable

section Ring

variable {capacity rv floor : ℕ} {recorded events : List (WatchCacheEvent R)} {event : WatchCacheEvent R}

lemma pushRing_sublist : (WatchCache.pushRing capacity events event).Sublist (events ++ [event]) := by
  unfold WatchCache.pushRing
  split
  · exact List.tail_sublist _
  · exact .refl _

lemma filter_pushRing (spares : Spares capacity events event) :
    (WatchCache.pushRing capacity events event).filter (·.isChange) =
      (events ++ [event]).filter (·.isChange) := by
  unfold WatchCache.pushRing
  split
  · rename_i full
    have mark := spares full
    cases h : events ++ [event] with
    | nil => rfl
    | cons e rest =>
      rw [h] at mark
      have out : e.isChange = false := by
        rw [WatchCacheEvent.isChange, mark e rfl, Bool.not_true]
      rw [List.tail_cons, List.filter_cons_of_neg (by simp [out])]
  · rfl

variable (holds : Holds rv floor recorded events)

include holds

lemma Holds.pushRing (spares : Spares capacity events event)
    (now : event.resourceVersion = rv) (more : List (WatchCacheEvent R))
    (new : [event].filter (·.isChange) = more.filter fun e => floor < e.resourceVersion) :
    Holds rv floor (recorded ++ more) (WatchCache.pushRing capacity events event) := by
  refine ⟨?_, ?_, ?_⟩
  · apply List.Pairwise.sublist pushRing_sublist
    refine List.pairwise_append.mpr ⟨holds.sorted, List.pairwise_singleton _ _, fun e he f hf => ?_⟩
    rw [List.mem_singleton.mp hf, now]
    exact holds.below e he
  · intro e he
    cases List.mem_append.mp (pushRing_sublist.subset he) with
    | inl old => exact holds.below e old
    | inr here => exact Nat.le_of_eq (List.mem_singleton.mp here ▸ now)
  · rw [filter_pushRing spares, List.filter_append, List.filter_append, holds.kept, new]

lemma Holds.mark {tenantId : String}
    (spares : Spares capacity events (.bookmark rv tenantId)) :
    Holds rv floor recorded (WatchCache.pushRing capacity events (.bookmark rv tenantId)) := by
  have same := holds.pushRing spares rfl [] rfl
  rwa [List.append_nil] at same

lemma Holds.mono {later : ℕ} (up : rv ≤ later) :
    Holds later floor recorded events :=
  ⟨holds.sorted, fun e he => Nat.le_trans (holds.below e he) up, holds.kept⟩

lemma Holds.compact {higher : ℕ} (up : floor ≤ higher) :
    Holds rv higher recorded (events.filter (higher < ·.resourceVersion)) := by
  refine ⟨holds.sorted.filter _, fun e he => holds.below e (List.mem_filter.mp he).1, ?_⟩
  rw [List.filter_comm, holds.kept, List.filter_filter]
  refine List.filter_congr fun e _ => ?_
  simp only [Bool.and_eq_left_iff_imp, decide_eq_true_eq]
  omega

end Ring

/-- The bookmark that `push` puts after an event. -/
def WatchCache.emits (s : WatchCache R) (event : WatchCacheEvent R) : Option (WatchCacheEvent R) :=
  if s.bookmarkInterval ≤ s.eventsSinceBookmark + 1 then
    some (.bookmark event.resourceVersion event.tenantId)
  else none

lemma WatchCache.push_eq (s : WatchCache R) (event : WatchCacheEvent R) :
    (s.push event).rv = s.rv ∧ (s.push event).compactedRv = s.compactedRv ∧
      (s.push event).events =
        match s.emits event with
        | some bookmark => pushRing s.capacity (pushRing s.capacity s.events event) bookmark
        | none => pushRing s.capacity s.events event := by
  unfold push pushLocked emits
  by_cases due : s.bookmarkInterval ≤ s.eventsSinceBookmark + 1
  · simp only [due, if_true]
    exact ⟨rfl, rfl, rfl⟩
  · simp only [due, if_false]
    exact ⟨rfl, rfl, rfl⟩

lemma Holds.push {s : WatchCache R} {recorded : List (WatchCacheEvent R)} {event : WatchCacheEvent R}
    (holds : Holds s.rv s.compactedRv recorded s.events) (spares : Spares s.capacity s.events event)
    (marks : ∀ bookmark ∈ s.emits event,
      Spares s.capacity (WatchCache.pushRing s.capacity s.events event) bookmark)
    (now : event.resourceVersion = s.rv)
    (new : [event].filter (·.isChange) = [event].filter fun e => s.compactedRv < e.resourceVersion) :
    Holds s.rv s.compactedRv (recorded ++ [event]) (s.push event).events := by
  have one := holds.pushRing spares now [event] new
  rw [(s.push_eq event).2.2]
  cases emits : s.emits event with
  | none => exact one
  | some bookmark =>
    have spares := marks bookmark emits
    obtain ⟨-, same⟩ := Option.ite_none_right_eq_some.mp emits
    cases same
    rw [now] at spares ⊢
    exact one.mark spares

/-! ## Replays -/

namespace Recording

variable {r r' : Recording R}

/-- A full ring only loses bookmarks, versions are not used up, and no floor is above the current
version. -/
def Sparing (r : Recording R) : WatchCall R → Prop
  | .record change tenantId resource =>
    let event := change.event (r.cache.rv + 1) tenantId resource
    r.cache.rv + 1 < 2 ^ 64 ∧ Spares r.cache.capacity r.cache.events event ∧
      ∀ bookmark ∈ r.cache.emits event,
        Spares r.cache.capacity (WatchCache.pushRing r.cache.capacity r.cache.events event) bookmark
  | .forceBookmark tenantId => Spares r.cache.capacity r.cache.events (.bookmark r.cache.rv tenantId)
  | .compact floor => floor ≤ r.cache.rv

instance (r : Recording R) : (call : WatchCall R) → Decidable (r.Sparing call)
  | .record _ _ _ => inferInstanceAs (Decidable (_ ∧ _ ∧ ∀ bookmark ∈ r.cache.emits _, _))
  | .forceBookmark _ => inferInstanceAs (Decidable (Spares _ _ _))
  | .compact _ => inferInstanceAs (Decidable (_ ≤ _))

/-- The invariant. -/
structure Complete (r : Recording R) : Prop where
  floor : r.cache.compactedRv ≤ r.cache.rv
  holds : Holds r.cache.rv r.cache.compactedRv r.recorded r.cache.events

lemma Complete.record (complete : r.Complete) {change : Change} {tenantId : String} {resource : R}
    (sparing : r.Sparing (.record change tenantId resource))
    (st : r.step (.record change tenantId resource) = some r') : r'.Complete := by
  obtain ⟨fits, spares, marks⟩ := sparing
  have next : (r.cache.rv + 1) % 2 ^ 64 = r.cache.rv + 1 := Nat.mod_eq_of_lt fits
  simp only [step, WatchCache.record, WatchCache.nextRv, next, Option.some.injEq] at st
  subst st
  have floor := complete.floor
  generalize happened : change.event (r.cache.rv + 1) tenantId resource = event at spares marks
  have version : event.resourceVersion = r.cache.rv + 1 := by
    rw [← happened, Change.resourceVersion_event]
  have new : [event].filter (·.isChange) =
      [event].filter fun e => r.cache.compactedRv < e.resourceVersion := by
    have isChange : event.isChange = true := by
      rw [← happened, WatchCacheEvent.isChange, Change.isBookmark_event, Bool.not_false]
    rw [List.filter_singleton, List.filter_singleton, isChange, version]
    simp [Nat.lt_succ_of_le floor]
  obtain ⟨rv, compactedRv, -⟩ := WatchCache.push_eq { r.cache with rv := r.cache.rv + 1 } event
  refine ⟨?_, ?_⟩
  · rw [rv, compactedRv]
    exact Nat.le_succ_of_le floor
  · rw [rv, compactedRv]
    exact Holds.push (s := { r.cache with rv := r.cache.rv + 1 }) (complete.holds.mono (Nat.le_succ _)) spares
      marks version new

lemma Complete.step {call : WatchCall R} (complete : r.Complete) (sparing : r.Sparing call)
    (st : r.step call = some r') : r'.Complete := by
  cases call with
  | record change tenantId resource => exact complete.record sparing st
  | forceBookmark tenantId =>
    cases st
    exact ⟨complete.floor, complete.holds.mark sparing⟩
  | compact floor =>
    cases st
    unfold WatchCache.compact
    split
    · exact complete
    · rename_i up
      exact ⟨sparing, complete.holds.compact (Nat.le_of_not_le up)⟩

/-- **A replay is complete and in order, or refused.** -/
theorem replay_complete {capacity bookmarkInterval : ℕ} {cache : WatchCache R}
    (made : WatchCache.new capacity bookmarkInterval = some cache) {calls : List (WatchCall R)}
    (sparing : Guarded step Sparing ⟨cache, []⟩ calls) (ran : run step ⟨cache, []⟩ calls = some r)
    (tenantId : String) (sinceRv : ℕ) :
    match r.cache.replayForTenantChecked tenantId sinceRv with
    | .events events => events.Pairwise (·.resourceVersion ≤ ·.resourceVersion) ∧
        events.filter (·.isChange) =
          r.recorded.filter fun e => sinceRv < e.resourceVersion && e.tenantId == tenantId
    | .compacted compactedTo => compactedTo = r.cache.compactedRv ∧ sinceRv < compactedTo := by
  obtain ⟨-, e⟩ := Option.ite_none_right_eq_some.mp made
  cases e
  have complete := invariant_of_guarded Complete.step sparing ran ⟨Nat.le_refl _, .nil, nofun, rfl⟩
  unfold WatchCache.replayForTenantChecked
  by_cases below : sinceRv < r.cache.compactedRv
  · simp only [if_pos below]
    exact ⟨trivial, below⟩
  · simp only [if_neg below]
    refine ⟨complete.holds.sorted.filter _, ?_⟩
    rw [WatchCache.replayForTenant, List.filter_comm, complete.holds.kept, List.filter_filter]
    refine List.filter_congr fun e _ => ?_
    rw [Bool.and_eq_left_iff_imp, Bool.and_eq_true, decide_eq_true_eq, decide_eq_true_eq]
    rintro ⟨newer, -⟩
    omega

/-- A ring for three events, with a bookmark after every second one. -/
def ringOfThree : WatchCache ℕ := ⟨3, 2, [], 0, 0, 0, []⟩

theorem replay_complete_after_compaction :
    ∃ r, run step ⟨ringOfThree, []⟩ [.record .added "a" 7, .record .modified "a" 8, .compact 1,
        .record .deleted "a" 8] = some r ∧
      (∃ events, r.cache.replayForTenantChecked "a" 1 = .events events ∧
        events.filter (·.isChange) =
          r.recorded.filter fun e => 1 < e.resourceVersion && e.tenantId == "a") ∧
      r.cache.replayForTenantChecked "a" 0 = .compacted 1 := by
  have made : WatchCache.new 3 2 = some ringOfThree := rfl
  have sparing : Guarded step Sparing ⟨ringOfThree, []⟩ [.record .added "a" 7, .record .modified "a" 8,
    .compact 1, .record .deleted "a" 8] := by decide
  have complete := replay_complete made sparing rfl "a" 1
  exact ⟨_, rfl, ⟨_, rfl, complete.2⟩, rfl⟩

/-- A ring for one event has lost the first of two events, and the replay from the start does not say
so. -/
theorem replay_misses_evicted :
    WatchCache.new 1 10 = some (⟨1, 10, [], 0, 0, 0, []⟩ : WatchCache ℕ) ∧
    ∃ r, run step ⟨⟨1, 10, [], 0, 0, 0, []⟩, []⟩ [.record .added "a" 7, .record .modified "a" 8] = some r ∧
      .added 1 "a" 7 ∈ r.recorded ∧
      r.cache.replayForTenantChecked "a" 0 = .events [.modified 2 "a" 8] :=
  ⟨rfl, _, rfl, by decide, rfl⟩

end Recording

end Apiserver
