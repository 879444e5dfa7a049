import CaveRuntime.Common.Table
import CaveRuntime.RaftCore.Apply

/-!
# The apiserver: the resource store

Model of `ResourceStore` of `cave-apiserver/src/store.rs`, with what `apply_one` of
`cave-runtime/src/raft_apply.rs` does to it. `create`, `update` and `delete` announce each change on the
watch bus; `upsert`, which applies committed commands, changes the map and announces nothing. A subscriber
that folds the announced events has the contents of the store in every run whose upserts change nothing.

Of a resource the store reads the kind, the namespace and the name. The revision, which nothing reads, is
left out.
-/

namespace Apiserver
open Run

/-- `ResourceKey`: kind, namespace and name. -/
abbrev ResourceKey := String × String × String

/-- `Resource`, with the rest of it as a parameter. -/
structure Resource (P : Type*) where
  kind : String
  namespace_ : String
  name : String
  rest : P
deriving DecidableEq, Repr

/-- `ApiError`, as far as the store returns it. -/
inductive ApiError where
  | notFound (kind name : String)
  | alreadyExists (kind name : String)
deriving DecidableEq, Repr

inductive WatchEventType where
  | added
  | modified
  | deleted
deriving DecidableEq, Repr

variable {P : Type*} {J : Type}

/-- The key of a resource. -/
def Resource.key (r : Resource P) : ResourceKey := (r.kind, r.namespace_, r.name)

structure WatchEvent (P : Type*) where
  eventType : WatchEventType
  resource : Resource P
deriving DecidableEq, Repr

/-- `ResourceStore`. `published` is everything that went to `watch_bus`. -/
structure ResourceStore (P : Type*) where
  resources : Table ResourceKey (Resource P) := ∅
  published : List (WatchEvent P) := []

namespace ResourceStore

variable (s : ResourceStore P)

/-- `watch_bus.publish`. -/
def publish (eventType : WatchEventType) (resource : Resource P) : ResourceStore P :=
  { s with published := s.published ++ [⟨eventType, resource⟩] }

def create (resource : Resource P) : Except ApiError (Resource P) × ResourceStore P :=
  let key := resource.key
  if (s.resources.lookup key).isSome then (.error (.alreadyExists key.1 key.2.2), s)
  else (.ok resource, { s with resources := s.resources.insert key resource }.publish .added resource)

def update (resource : Resource P) : Except ApiError (Resource P) × ResourceStore P :=
  let key := resource.key
  if (s.resources.lookup key).isNone then (.error (.notFound key.1 key.2.2), s)
  else (.ok resource, { s with resources := s.resources.insert key resource }.publish .modified resource)

def delete (kind namespace_ name : String) :
    Except ApiError (Resource P) × ResourceStore P :=
  let key := (kind, namespace_, name)
  match s.resources.lookup key with
  | some r => (.ok r, { s with resources := s.resources.erase key }.publish .deleted r)
  | none => (.error (.notFound kind name), s)

def upsert (resource : Resource P) : ResourceStore P :=
  { s with resources := s.resources.insert resource.key resource }

/-- `list_all`, in the order of the map. -/
def listAll (order : Order (Resource P)) (s : ResourceStore P) : List (Resource P) :=
  order.visit (s.resources.entries.map (·.2))

/-- What `apply_one` does to the store for a command; `fromValue` decodes a resource. -/
def applyOne (fromValue : J → Option (Resource P)) (s : ResourceStore P) :
    RaftCore.RaftCommand J → ResourceStore P
  | .apiserverUpsert resource =>
    match fromValue resource with
    | some resource => s.upsert resource
    | none => s
  | .apiserverDelete kind namespace_ name => (s.delete kind namespace_ name).2
  | .etcdPut _ _ _ | .etcdDelete _ _ | .noOp => s

end ResourceStore

/-- The calls that change a store, and committed commands. -/
inductive StoreCall (P : Type*) (J : Type) where
  | create (resource : Resource P)
  | update (resource : Resource P)
  | delete (kind namespace_ name : String)
  | upsert (resource : Resource P)
  | applyOne (command : RaftCore.RaftCommand J)

/-- One call. -/
def ResourceStore.step (fromValue : J → Option (Resource P)) (s : ResourceStore P) :
    StoreCall P J → Option (ResourceStore P)
  | .create resource => some (s.create resource).2
  | .update resource => some (s.update resource).2
  | .delete kind namespace_ name => some (s.delete kind namespace_ name).2
  | .upsert resource => some (s.upsert resource)
  | .applyOne command => some (s.applyOne fromValue command)

/-! ## The stream -/

/-- What a subscriber does with an event. -/
def WatchEvent.fold (t : Table ResourceKey (Resource P)) (e : WatchEvent P) :
    Table ResourceKey (Resource P) :=
  match e.eventType with
  | .added | .modified => t.insert e.resource.key e.resource
  | .deleted => t.erase e.resource.key

/-- The map of a subscriber that was there from the start. -/
def subscriberMap (events : List (WatchEvent P)) : Table ResourceKey (Resource P) :=
  events.foldl WatchEvent.fold ∅

namespace ResourceStore

variable {fromValue : J → Option (Resource P)} {s s' : ResourceStore P}

/-- The resources are under their keys, and the subscriber has them. -/
structure Mirrored (s : ResourceStore P) : Prop where
  keyed : ∀ key r, s.resources.lookup key = some r → r.key = key
  same : ∀ key, (subscriberMap s.published).lookup key = s.resources.lookup key

/-- The upsert leaves the row as it is. -/
def Unchanged (s : ResourceStore P) (resource : Resource P) : Prop :=
  s.resources.lookup resource.key = some resource

/-- Every upsert is of a row that is there already. -/
def Announced (fromValue : J → Option (Resource P)) (s : ResourceStore P) : StoreCall P J → Prop
  | .upsert resource => s.Unchanged resource
  | .applyOne (.apiserverUpsert value) => ∀ resource ∈ fromValue value, s.Unchanged resource
  | _ => True

lemma Mirrored.insert (mirrored : s.Mirrored) (resource : Resource P) {eventType : WatchEventType}
    (put : ∀ t, WatchEvent.fold t ⟨eventType, resource⟩ = t.insert resource.key resource) :
    ({ s with resources := s.resources.insert resource.key resource }.publish eventType resource).Mirrored := by
  refine ⟨fun key r look => ?_, fun key => ?_⟩
  · simp only [publish, Table.lookup_insert_eq] at look
    split at look
    · rename_i here
      cases look
      exact here.symm
    · exact mirrored.keyed key r look
  · simp only [publish, subscriberMap, List.foldl_append, List.foldl_cons, List.foldl_nil, put,
      Table.lookup_insert_eq]
    split
    · rfl
    · exact mirrored.same key

lemma Mirrored.create (mirrored : s.Mirrored) (resource : Resource P) : (s.create resource).2.Mirrored := by
  unfold ResourceStore.create
  dsimp only
  split
  · exact mirrored
  · exact mirrored.insert resource fun _ => rfl

lemma Mirrored.update (mirrored : s.Mirrored) (resource : Resource P) : (s.update resource).2.Mirrored := by
  unfold ResourceStore.update
  dsimp only
  split
  · exact mirrored
  · exact mirrored.insert resource fun _ => rfl

lemma Mirrored.delete (mirrored : s.Mirrored) (kind namespace_ name : String) :
    (s.delete kind namespace_ name).2.Mirrored := by
  unfold ResourceStore.delete
  dsimp only
  cases look : s.resources.lookup (kind, namespace_, name) with
  | none => exact mirrored
  | some r =>
    have key := mirrored.keyed _ r look
    refine ⟨fun key' r' look' => ?_, fun key' => ?_⟩
    · simp only [publish, Table.lookup_erase_eq] at look'
      split at look'
      · cases look'
      · exact mirrored.keyed key' r' look'
    · simp only [publish, subscriberMap, List.foldl_append, List.foldl_cons, List.foldl_nil, WatchEvent.fold,
        key, Table.lookup_erase_eq]
      split
      · rfl
      · exact mirrored.same key'

lemma Mirrored.upsert (mirrored : s.Mirrored) {resource : Resource P} (same : s.Unchanged resource) :
    (s.upsert resource).Mirrored := by
  have lookup (key : ResourceKey) : (s.upsert resource).resources.lookup key = s.resources.lookup key := by
    simp only [ResourceStore.upsert, Table.lookup_insert_eq]
    split
    · rename_i here
      rw [here]
      exact same.symm
    · rfl
  refine ⟨fun key r look => mirrored.keyed key r (lookup key ▸ look), fun key => ?_⟩
  rw [lookup]
  exact mirrored.same key

lemma Mirrored.step {call : StoreCall P J} (mirrored : s.Mirrored) (announced : s.Announced fromValue call)
    (st : s.step fromValue call = some s') : s'.Mirrored := by
  cases call with
  | create resource => cases st; exact mirrored.create resource
  | update resource => cases st; exact mirrored.update resource
  | delete kind namespace_ name => cases st; exact mirrored.delete kind namespace_ name
  | upsert resource => cases st; exact mirrored.upsert announced
  | applyOne command =>
    cases st
    cases command with
    | apiserverUpsert value =>
      unfold ResourceStore.applyOne
      dsimp only
      cases decoded : fromValue value with
      | none => exact mirrored
      | some resource => exact mirrored.upsert (announced resource decoded)
    | apiserverDelete kind namespace_ name => exact mirrored.delete kind namespace_ name
    | etcdPut _ _ _ => exact mirrored
    | etcdDelete _ _ => exact mirrored
    | noOp => exact mirrored

/-- **A subscriber from the start has what `list_all` returns, if upserts change nothing.** -/
theorem subscriber_has_store {calls : List (StoreCall P J)}
    (announced : Guarded (step fromValue) (Announced fromValue) {} calls)
    (ran : run (step fromValue) {} calls = some s) (order : Order (Resource P)) :
    (∀ key, (subscriberMap s.published).lookup key = s.resources.lookup key) ∧
      ((subscriberMap s.published).entries.map (·.2)).Perm (s.listAll order) := by
  have start : Mirrored ({} : ResourceStore P) := ⟨nofun, fun _ => rfl⟩
  have mirrored := invariant_of_guarded Mirrored.step announced ran start
  refine ⟨mirrored.same, ?_⟩
  have perm := Table.perm_of_lookup_eq mirrored.same
  exact (perm.map _).trans (order.perm _).symm

/-- A config map. -/
def configMap (data : ℕ) : Resource ℕ := ⟨"ConfigMap", "default", "c", data⟩

/-- Commands whose values are the data of the config map. -/
def fromData (data : ℕ) : Option (Resource ℕ) := some (configMap data)

theorem subscriber_has_store_upserted :
    ∃ s, run (step fromData) {} [.create (configMap 1), .update (configMap 2),
        .applyOne (.apiserverUpsert 2)] = some s ∧
      ((subscriberMap s.published).entries.map (·.2)).Perm (s.listAll .asIs) := by
  have announced : Guarded (step fromData) (Announced fromData) {} [.create (configMap 1),
      .update (configMap 2), .applyOne (.apiserverUpsert 2)] := by
    refine ⟨trivial, fun _ e => ?_⟩
    cases e
    refine ⟨trivial, fun _ e => ?_⟩
    cases e
    refine ⟨fun resource decoded => ?_, fun _ _ => trivial⟩
    cases decoded
    rfl
  exact ⟨_, rfl, (subscriber_has_store announced rfl .asIs).2⟩

/-- A committed upsert puts a row into the store that no event announces. -/
theorem upsert_is_not_announced :
    ∃ s, run (step fromData) {} [.applyOne (.apiserverUpsert 1)] = some s ∧
      s.listAll .asIs = [configMap 1] ∧ (subscriberMap s.published).entries.map (·.2) = [] :=
  ⟨_, rfl, rfl, rfl⟩

end ResourceStore

end Apiserver
