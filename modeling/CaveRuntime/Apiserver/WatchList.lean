import Mathlib.Data.List.Sort
import CaveRuntime.Apiserver.WatchCache

/-!
# The apiserver: the initial events of a watch list

Model of `watch_list_initial` of `cave-apiserver/src/watch_cache.rs`, which gives every `Added` event that
is still in the ring, and so the objects as they were added: also those that were deleted or changed since.
What identifies an object in its tenant is a parameter.
-/

namespace Apiserver
open Run

variable {R K : Type*} [DecidableEq K]

/-- `WatchListBatch`; the terminator has the version and the tenant. -/
structure WatchListBatch (R : Type*) where
  initial : List (WatchCacheEvent R)
  terminator : ℕ × String

def WatchCacheEvent.isAdded : WatchCacheEvent R → Bool
  | .added _ _ _ => true
  | _ => false

def WatchCache.watchListInitial (s : WatchCache R) (tenantId : String) : WatchListBatch R :=
  let initial := (s.events.filter fun e => e.tenantId == tenantId).filter (·.isAdded)
  ⟨initial.insertionSort (·.resourceVersion ≤ ·.resourceVersion), (s.rv, tenantId)⟩

section Objects

variable (key : R → K) (tenantId : String) (k : K)

/-- The content of an event that adds the object. -/
def addedContent : WatchCacheEvent R → Option R
  | .added _ t resource => if t = tenantId ∧ key resource = k then some resource else none
  | _ => none

/-- The content of an event that deletes the object. -/
def deletedContent : WatchCacheEvent R → Option R
  | .deleted _ t resource => if t = tenantId ∧ key resource = k then some resource else none
  | _ => none

/-- The content of the object after an event; it has none if it is not live. -/
def nextContent (content : Option R) : WatchCacheEvent R → Option R
  | .added _ t resource | .modified _ t resource =>
    if t = tenantId ∧ key resource = k then some resource else content
  | .deleted _ t resource => if t = tenantId ∧ key resource = k then none else content
  | .bookmark _ _ => content

/-- The content that was recorded last for the object, if it is live. -/
def latest (recorded : List (WatchCacheEvent R)) : Option R :=
  recorded.foldl (nextContent key tenantId k) none

end Objects

namespace Recording

variable {r r' : Recording R} {key : R → K} {tenantId : String}

/-- The call records a change of an object that can have it, and the ring has room for its events. -/
def Regular (key : R → K) (r : Recording R) : WatchCall R → Prop
  | .record change tenantId resource =>
    let event := change.event ((r.cache.rv + 1) % 2 ^ 64) tenantId resource
    (r.cache.events ++ [event] ++ (r.cache.emits event).toList).length ≤ r.cache.capacity ∧
      ((latest key tenantId (key resource) r.recorded).isSome ↔ change ≠ .added)
  | _ => False

instance (key : R → K) (r : Recording R) : (call : WatchCall R) → Decidable (r.Regular key call)
  | .record _ _ _ => inferInstanceAs (Decidable (_ ∧ (_ ↔ _)))
  | .forceBookmark _ | .compact _ => inferInstanceAs (Decidable False)

/-- The ring has every change, and an object was added once more than it was deleted while it is live. -/
structure Kept (key : R → K) (tenantId : String) (r : Recording R) : Prop where
  changes : r.cache.events.filter (·.isChange) = r.recorded
  count : ∀ k, (r.recorded.filterMap (addedContent key tenantId k)).length =
    (r.recorded.filterMap (deletedContent key tenantId k)).length +
      (latest key tenantId k r.recorded).toList.length

omit [DecidableEq K] in
lemma push_events {s : WatchCache R} {event : WatchCacheEvent R}
    (room : (s.events ++ [event] ++ (s.emits event).toList).length ≤ s.capacity) :
    (s.push event).events = s.events ++ [event] ++ (s.emits event).toList := by
  have appends {events : List (WatchCacheEvent R)} {e : WatchCacheEvent R}
      (fits : (events ++ [e]).length ≤ s.capacity) :
      WatchCache.pushRing s.capacity events e = events ++ [e] := if_neg (Nat.not_lt.mpr fits)
  have first : (s.events ++ [event]).length ≤ s.capacity := by
    rw [List.length_append] at room
    omega
  rw [(s.push_eq event).2.2]
  cases emits : s.emits event with
  | none => exact (appends first).trans (List.append_nil _).symm
  | some bookmark =>
    rw [emits] at room
    rw [appends first]
    exact appends room

/-- A regular call keeps every change in the ring. -/
lemma Kept.step {call : WatchCall R} (kept : r.Kept key tenantId) (regular : r.Regular key call)
    (st : r.step call = some r') : r'.Kept key tenantId := by
  cases call with
  | forceBookmark _ => cases regular
  | compact _ => cases regular
  | record change t resource =>
    obtain ⟨room, life⟩ := regular
    cases st
    refine ⟨?_, fun k => ?_⟩
    · have marks : ∀ event : WatchCacheEvent R, (r.cache.emits event).toList.filter (·.isChange) = [] := by
        intro event
        unfold WatchCache.emits
        split <;> rfl
      have pushed := push_events (s := { r.cache with rv := (r.cache.rv + 1) % 2 ^ 64 }) room
      have change : (change.event ((r.cache.rv + 1) % 2 ^ 64) t resource).isChange = true := by
        simp [WatchCacheEvent.isChange]
      simp only [pushed, List.filter_append, kept.changes, List.filter_cons, change, if_true, List.filter_nil]
      exact (congrArg _ (marks _)).trans (List.append_nil _)
    · have count := kept.count k
      simp only [latest, List.filterMap_append, List.length_append, List.foldl_append, List.foldl_cons,
        List.foldl_nil] at count life ⊢
      by_cases mine : t = tenantId ∧ key resource = k
      · obtain ⟨rfl, rfl⟩ := mine
        cases before : r.recorded.foldl (nextContent key t (key resource)) none with
        | none =>
          cases change <;>
            simp_all [List.filterMap_cons, Change.event, addedContent, deletedContent, nextContent]
        | some content =>
          cases change <;>
            simp_all [List.filterMap_cons, Change.event, addedContent, deletedContent, nextContent]
      · cases change <;>
          simp [List.filterMap_cons, Change.event, addedContent, deletedContent, nextContent, mine, count]

lemma Kept.initial (kept : r.Kept key tenantId) (k : K) :
    ((r.cache.watchListInitial tenantId).initial.filterMap (addedContent key tenantId k)).Perm
      (r.recorded.filterMap (addedContent key tenantId k)) := by
  have sorted := (List.perm_insertionSort (·.resourceVersion ≤ ·.resourceVersion)
    ((r.cache.events.filter fun e => e.tenantId == tenantId).filter (·.isAdded))).filterMap
      (addedContent key tenantId k)
  refine sorted.trans ?_
  rw [← kept.changes, List.filterMap_filter, List.filterMap_filter, List.filterMap_filter]
  refine List.Perm.of_eq (List.filterMap_congr fun e _ => ?_)
  cases e with
  | added rv t resource =>
    by_cases mine : t = tenantId <;>
      simp [mine, WatchCacheEvent.isAdded, WatchCacheEvent.tenantId, WatchCacheEvent.isChange,
        WatchCacheEvent.isBookmark, addedContent]
  | modified _ _ _ => simp [WatchCacheEvent.isAdded, addedContent]
  | deleted _ _ _ => simp [WatchCacheEvent.isAdded, addedContent]
  | bookmark _ _ => simp [WatchCacheEvent.isAdded, addedContent]

/-- The initial events add objects of the tenant: one for each that is live, with its latest content, and no
others. -/
def Shows (key : R → K) (tenantId : String) (r : Recording R) : Prop :=
  (∀ e ∈ (r.cache.watchListInitial tenantId).initial, ∃ rv resource, e = .added rv tenantId resource) ∧
    ∀ k, (r.cache.watchListInitial tenantId).initial.filterMap (addedContent key tenantId k) =
      (latest key tenantId k r.recorded).toList

/-- No object of the tenant was deleted, and each has the content that it was added with. -/
def AsAdded (key : R → K) (tenantId : String) (recorded : List (WatchCacheEvent R)) : Prop :=
  ∀ k, recorded.filterMap (deletedContent key tenantId k) = [] ∧
    ∀ content ∈ recorded.filterMap (addedContent key tenantId k),
      latest key tenantId k recorded = some content

omit [DecidableEq K] in
/-- Nothing but `Added` events of the tenant passes the filters. -/
lemma initial_of_tenant (s : WatchCache R) (tenantId : String) :
    ∀ e ∈ (s.watchListInitial tenantId).initial, ∃ rv resource, e = .added rv tenantId resource := by
  intro e mem
  rw [WatchCache.watchListInitial, List.mem_insertionSort, List.mem_filter, List.mem_filter, beq_iff_eq] at mem
  obtain ⟨⟨-, rfl⟩, added⟩ := mem
  cases e with
  | added rv _ resource => exact ⟨rv, resource, rfl⟩
  | modified _ _ _ => cases added
  | deleted _ _ _ => cases added
  | bookmark _ _ => cases added

/-- The Added events show the live objects exactly if none was deleted or changed since. -/
lemma Kept.shows_iff (kept : r.Kept key tenantId) :
    r.Shows key tenantId ↔ AsAdded key tenantId r.recorded := by
  refine (and_iff_right (initial_of_tenant r.cache tenantId)).trans (forall_congr' fun k => ?_)
  have count := kept.count k
  have perm := kept.initial k
  generalize r.recorded.filterMap (addedContent key tenantId k) = added at count perm ⊢
  generalize r.recorded.filterMap (deletedContent key tenantId k) = deleted at count ⊢
  generalize (r.cache.watchListInitial tenantId).initial.filterMap (addedContent key tenantId k) = shown
    at perm ⊢
  generalize latest key tenantId k r.recorded = now at count ⊢
  cases now with
  | none =>
    simp only [Option.toList_none, List.length_nil, Nat.add_zero] at count ⊢
    constructor
    · rintro rfl
      rw [List.nil_perm.mp perm, List.length_nil, eq_comm, List.length_eq_zero_iff] at count
      exact ⟨count, List.nil_perm.mp perm ▸ nofun⟩
    · rintro ⟨rfl, -⟩
      exact List.perm_nil.mp (List.length_eq_zero_iff.mp count ▸ perm)
  | some content =>
    simp only [Option.toList_some, List.length_singleton] at count ⊢
    constructor
    · rintro rfl
      have one := List.singleton_perm.mp perm
      rw [← one, List.length_singleton] at count
      refine ⟨List.length_eq_zero_iff.mp (by omega), fun content' mem => ?_⟩
      rw [← one, List.mem_singleton] at mem
      rw [mem]
    · rintro ⟨rfl, same⟩
      obtain ⟨content', rfl⟩ := List.length_eq_one_iff.mp count
      cases same content' List.mem_cons_self
      exact List.perm_singleton.mp perm

/-- In every run of regular records, the initial events show the live objects exactly if all of them are as
they were added. -/
theorem initial_events_iff {capacity bookmarkInterval : ℕ} {cache : WatchCache R} {calls : List (WatchCall R)}
    (new : WatchCache.new capacity bookmarkInterval = some cache)
    (regular : Guarded step (Regular key) ⟨cache, []⟩ calls) (hr : run step ⟨cache, []⟩ calls = some r)
    (tenantId : String) :
    ((r.cache.watchListInitial tenantId).terminator = (r.cache.rv, tenantId) ∧ r.Shows key tenantId) ↔
      AsAdded key tenantId r.recorded := by
  have start : Kept key tenantId (⟨cache, []⟩ : Recording R) := by
    obtain ⟨-, eq⟩ := Option.ite_none_right_eq_some.mp new
    cases eq
    exact ⟨rfl, fun _ => rfl⟩
  have kept := invariant_of_guarded Kept.step regular hr start
  rw [← kept.shows_iff]
  exact and_iff_right rfl

/-- An empty cache of objects with a number and a content. -/
def emptyCache : Recording (ℕ × ℕ) := ⟨⟨8, 100, [], 0, 0, 0, []⟩, []⟩

/-- Two objects of one tenant are added, and one of another tenant is added and changed. -/
def twoTenants : List (WatchCall (ℕ × ℕ)) :=
  [.record .added "t" (1, 5), .record .added "u" (1, 7), .record .added "t" (2, 6), .record .modified "u" (1, 8)]

theorem initial_events_of_tenants :
    ∃ r, run step emptyCache twoTenants = some r ∧ r.Shows Prod.fst "t" ∧
      (r.cache.watchListInitial "t").initial = [.added 1 "t" (1, 5), .added 3 "t" (2, 6)] ∧
      ¬r.Shows Prod.fst "u" := by
  have regular : Guarded step (Regular Prod.fst) emptyCache twoTenants := by decide
  have new : WatchCache.new 8 100 = some emptyCache.cache := rfl
  have shows_iff := initial_events_iff new regular rfl
  refine ⟨_, rfl, ((shows_iff "t").mpr fun k => ⟨rfl, ?_⟩).2, rfl, fun shows => ?_⟩
  · by_cases one : 1 = k
    · subst one
      decide
    by_cases two : 2 = k
    · subst two
      decide
    · simp [Change.event, addedContent, one, two]
  · have changed := ((shows_iff "u").mp ⟨rfl, shows⟩ 1).2 (1, 7)
    revert changed
    decide

/-- An object that was changed is shown as it was added, and so is one that was deleted. -/
theorem initial_events_outdated :
    let changed : List (WatchCall (ℕ × ℕ)) := [.record .added "t" (1, 5), .record .modified "t" (1, 6)]
    let deleted : List (WatchCall (ℕ × ℕ)) := [.record .added "t" (1, 5), .record .deleted "t" (1, 5)]
    let shown (calls : List (WatchCall (ℕ × ℕ))) := (run step emptyCache calls).map fun r =>
      ((r.cache.watchListInitial "t").initial.filterMap (addedContent Prod.fst "t" 1),
        latest Prod.fst "t" 1 r.recorded)
    Guarded step (Regular Prod.fst) emptyCache changed ∧ shown changed = some ([(1, 5)], some (1, 6)) ∧
      Guarded step (Regular Prod.fst) emptyCache deleted ∧ shown deleted = some ([(1, 5)], none) := by
  decide

end Recording

end Apiserver
