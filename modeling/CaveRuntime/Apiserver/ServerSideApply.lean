import CaveRuntime.Common.Run
import CaveRuntime.Common.Table

/-!
# The apiserver: server-side apply

Model of `cave-apiserver/src/server_side_apply.rs`: the managers of the fields of an object. `apply`, unless
it meets a conflict, and `record_update` take the listed fields from all other managers and leave the rest
alone, so that no field ever has two managers. What a call does to the entries of an object is described by
who owns what afterwards (`Owns`).

The readings of the clock are arguments of the calls.
-/

namespace Apiserver
open Run

inductive ManagerOperation where
  | apply
  | update
deriving DecidableEq, Repr

structure ManagedFieldsEntry where
  manager : String
  operation : ManagerOperation
  apiVersion : String
  time : ℤ
  fieldsOwned : List String
deriving DecidableEq, Repr

/-- `ConflictReason`; the third one is never given. -/
inductive ConflictReason where
  | appliedBy
  | updatedBy
deriving DecidableEq, Repr

structure ApplyConflict where
  field : String
  currentManager : String
  reason : ConflictReason
deriving DecidableEq, Repr

inductive ApplyOutcome where
  | applied (manager : String) (fields : List String)
  | conflicts (conflicts : List ApplyConflict)
deriving DecidableEq, Repr

structure OwnershipTransfer where
  field : String
  source : String
  target : String
  time : ℤ
deriving DecidableEq, Repr

structure ObjectKey where
  tenantId : String
  uid : String
deriving DecidableEq, Repr

structure FieldManagerRegistry where
  inner : Table ObjectKey (List ManagedFieldsEntry) := ∅
  transfers : Table ObjectKey (List OwnershipTransfer) := ∅

namespace ManagedFieldsEntry

variable (manager : String) (fields : List String) (entries : List ManagedFieldsEntry)

/-- The first loop of `apply`. -/
def conflicts : List ApplyConflict :=
  fields.filterMap fun f =>
    (entries.find? fun e => e.manager != manager && e.fieldsOwned.contains f).map fun owner =>
      ⟨f, owner.manager, match owner.operation with
        | .apply => .appliedBy
        | .update => .updatedBy⟩

/-- The fields that a forced `apply` takes from other managers. -/
def toRecord : List (String × String) :=
  fields.flatMap fun f =>
    (entries.filter fun e => e.manager != manager && e.fieldsOwned.contains f).map fun e => (f, e.manager)

/-- Other managers lose the fields. -/
def strip : List ManagedFieldsEntry :=
  entries.map fun e =>
    if e.manager ≠ manager then { e with fieldsOwned := e.fieldsOwned.filter (!fields.contains ·) } else e

/-- The first entry with the manager is changed. -/
def editFirst (edit : ManagedFieldsEntry → ManagedFieldsEntry) :
    List ManagedFieldsEntry → Option (List ManagedFieldsEntry)
  | [] => none
  | e :: entries =>
    if e.manager = manager then some (edit e :: entries) else (editFirst edit entries).map (e :: ·)

/-- The entry with the fields that it does not have yet. -/
def addFields (e : ManagedFieldsEntry) : ManagedFieldsEntry :=
  { e with
    fieldsOwned := fields.foldl (fun owned f => if f ∈ owned then owned else owned ++ [f]) e.fieldsOwned }

/-- Empty entries of other managers are dropped, and the manager's entry gets the fields or is added. -/
def upsert (edit : ManagedFieldsEntry → ManagedFieldsEntry) (new : ManagedFieldsEntry) :
    List ManagedFieldsEntry :=
  let entries := entries.filter fun e => !e.fieldsOwned.isEmpty || e.manager == manager
  (editFirst manager (fun e => edit (addFields fields e)) entries).getD (entries ++ [new])

end ManagedFieldsEntry

namespace FieldManagerRegistry
open ManagedFieldsEntry

def entries (s : FieldManagerRegistry) (key : ObjectKey) : List ManagedFieldsEntry :=
  (s.inner.lookup key).getD []

variable (s : FieldManagerRegistry) (key : ObjectKey) (manager apiVersion : String) (fields : List String)

/-- `apply`, with the readings of the clock for the transfers and for the entry. -/
def apply (force : Bool) (transferred time : ℤ) : ApplyOutcome × FieldManagerRegistry :=
  let entries := s.entries key
  let conflicts := conflicts manager fields entries
  if conflicts ≠ [] ∧ force = false then
    (.conflicts conflicts, { s with inner := s.inner.insert key entries })
  else
    let recorded := toRecord manager fields entries
    let transfers :=
      if force ∧ recorded ≠ [] then
        s.transfers.insert key ((s.transfers.lookup key).getD [] ++
          recorded.map fun (field, source) => ⟨field, source, manager, transferred⟩)
      else s.transfers
    let entries :=
      if force then fields.foldl (fun entries f => strip manager [f] entries) entries else entries
    let entries := upsert manager fields entries (fun e => { e with time, apiVersion })
      ⟨manager, .apply, apiVersion, time, fields⟩
    (.applied manager fields, ⟨s.inner.insert key entries, transfers⟩)

def remove : FieldManagerRegistry :=
  match s.inner.lookup key with
  | some entries => { s with inner := s.inner.insert key (entries.filter (·.manager != manager)) }
  | none => s

def recordUpdate (time : ℤ) : FieldManagerRegistry :=
  let entries := upsert manager fields (strip manager fields (s.entries key))
    (fun e => { e with operation := .update, apiVersion, time }) ⟨manager, .update, apiVersion, time, fields⟩
  { s with inner := s.inner.insert key entries }

end FieldManagerRegistry

/-! ## Who owns what -/

/-- The manager owns the field. -/
def Owns (entries : List ManagedFieldsEntry) (manager field : String) : Prop :=
  ∃ e ∈ entries, e.manager = manager ∧ field ∈ e.fieldsOwned

namespace ManagedFieldsEntry

variable {manager : String} {fields : List String} {entries : List ManagedFieldsEntry} {m f : String}

lemma owns_strip :
    Owns (strip manager fields entries) m f ↔ Owns entries m f ∧ (m = manager ∨ f ∉ fields) := by
  constructor
  · rintro ⟨_, here, rfl, has⟩
    obtain ⟨e, mem, rfl⟩ := List.mem_map.mp here
    by_cases other : e.manager ≠ manager
    · rw [if_pos other] at has ⊢
      obtain ⟨has, keeps⟩ := List.mem_filter.mp has
      exact ⟨⟨e, mem, rfl, has⟩, .inr (by simpa using keeps)⟩
    · rw [if_neg other] at has ⊢
      exact ⟨⟨e, mem, rfl, has⟩, .inl (not_not.mp other)⟩
  · rintro ⟨⟨e, mem, rfl, has⟩, keeps⟩
    refine ⟨_, List.mem_map_of_mem mem, ?_⟩
    split
    · rename_i other
      exact ⟨rfl, List.mem_filter.mpr ⟨has, by simpa using keeps.resolve_left other⟩⟩
    · exact ⟨rfl, has⟩

lemma owns_foldl_strip : Owns (fields.foldl (fun entries f => strip manager [f] entries) entries) m f ↔
    Owns entries m f ∧ (m = manager ∨ f ∉ fields) := by
  induction fields generalizing entries with
  | nil => simp
  | cons g fields ih =>
    rw [List.foldl_cons, ih, owns_strip, List.mem_singleton, List.mem_cons]
    tauto

lemma mem_addFields {owned : List String} :
    f ∈ fields.foldl (fun owned f => if f ∈ owned then owned else owned ++ [f]) owned ↔
      f ∈ owned ∨ f ∈ fields := by
  induction fields generalizing owned with
  | nil => simp
  | cons g fields ih =>
    rw [List.foldl_cons, ih]
    split
    · rename_i has
      rw [List.mem_cons]
      constructor
      · tauto
      · rintro (h | rfl | h)
        · exact .inl h
        · exact .inl has
        · exact .inr h
    · rw [List.mem_append, List.mem_singleton, List.mem_cons]
      tauto

/-- An edit that gives the first entry of the manager more fields gives them to the manager. -/
lemma owns_editFirst {edit : ManagedFieldsEntry → ManagedFieldsEntry} {edited : List ManagedFieldsEntry}
    (same : ∀ e, (edit e).manager = e.manager)
    (adds : ∀ e g, g ∈ (edit e).fieldsOwned ↔ g ∈ e.fieldsOwned ∨ g ∈ fields)
    (eq : editFirst manager edit entries = some edited) :
    Owns edited m f ↔ Owns entries m f ∨ m = manager ∧ f ∈ fields := by
  induction entries generalizing edited with
  | nil => cases eq
  | cons e entries ih =>
    unfold editFirst at eq
    split at eq
    · rename_i mine
      cases eq
      simp only [Owns, List.exists_mem_cons_iff, same, adds, mine, @eq_comm _ m manager]
      rw [and_or_left, or_right_comm]
    · obtain ⟨rest, done, rfl⟩ := Option.map_eq_some_iff.mp eq
      have rest := ih done
      unfold Owns at rest ⊢
      rw [List.exists_mem_cons_iff, List.exists_mem_cons_iff, rest, or_assoc]

lemma owns_upsert {edit : ManagedFieldsEntry → ManagedFieldsEntry} {new : ManagedFieldsEntry}
    (same : ∀ e, (edit e).manager = e.manager ∧ (edit e).fieldsOwned = e.fieldsOwned)
    (first : new.manager = manager ∧ new.fieldsOwned = fields) :
    Owns (upsert manager fields entries edit new) m f ↔ Owns entries m f ∨ m = manager ∧ f ∈ fields := by
  have drops : Owns (entries.filter fun e => !e.fieldsOwned.isEmpty || e.manager == manager) m f ↔
      Owns entries m f := by
    constructor
    · rintro ⟨e, mem, rest⟩
      exact ⟨e, (List.mem_filter.mp mem).1, rest⟩
    · rintro ⟨e, mem, eq, has⟩
      have some := List.ne_nil_of_mem has
      exact ⟨e, List.mem_filter.mpr ⟨mem, by simp [some]⟩, eq, has⟩
  unfold upsert
  rw [← drops]
  generalize (entries.filter fun e => !e.fieldsOwned.isEmpty || e.manager == manager) = entries
  dsimp only
  cases eq : editFirst manager _ entries with
  | none =>
    simp only [Option.getD_none, Owns, List.mem_append, List.mem_singleton, or_and_right, exists_or,
      exists_eq_left, first, eq_comm (a := manager)]
  | some edited =>
    refine owns_editFirst (fun e => (same (addFields fields e)).1) (fun e g => ?_) eq
    rw [(same _).2]
    exact mem_addFields

lemma not_owns_of_conflicts (none : conflicts manager fields entries = []) (mem : f ∈ fields)
    (owns : Owns entries m f) : m = manager := by
  obtain ⟨e, here, rfl, has⟩ := owns
  by_contra other
  have free := List.filterMap_eq_nil_iff.mp none f mem
  rw [Option.map_eq_none_iff, List.find?_eq_none] at free
  exact free e here (by simp [other, has])

end ManagedFieldsEntry

namespace FieldManagerRegistry
open ManagedFieldsEntry

variable {s s' : FieldManagerRegistry} {key : ObjectKey} {manager : String} {fields : List String}

/-- The manager has got the fields of the object, and no other ownership has changed. -/
def Takes (s s' : FieldManagerRegistry) (key : ObjectKey) (manager : String) (fields : List String) : Prop :=
  ∀ k m f, Owns (s'.entries k) m f ↔
    if k = key ∧ f ∈ fields then m = manager else Owns (s.entries k) m f

lemma takes_insert {entries : List ManagedFieldsEntry} {transfers : Table ObjectKey (List OwnershipTransfer)}
    (taken : ∀ m f, Owns entries m f ↔ if f ∈ fields then m = manager else Owns (s.entries key) m f) :
    Takes s ⟨s.inner.insert key entries, transfers⟩ key manager fields := by
  intro k m f
  unfold FieldManagerRegistry.entries at taken ⊢
  rw [Table.lookup_insert_eq]
  by_cases here : k = key
  · subst here
    simp [taken]
  · simp [here]

lemma takes_recordUpdate (s : FieldManagerRegistry) (key : ObjectKey) (manager apiVersion : String)
    (fields : List String) (time : ℤ) :
    Takes s (s.recordUpdate key manager apiVersion fields time) key manager fields := by
  refine takes_insert fun m f => ?_
  rw [owns_upsert (by exact fun _ => ⟨rfl, rfl⟩) (by exact ⟨rfl, rfl⟩), owns_strip]
  split <;> tauto

/-- What `apply` does: it answers with conflicts and changes no ownership, or takes the fields. -/
lemma apply_cases (s : FieldManagerRegistry) (key : ObjectKey) (manager apiVersion : String)
    (fields : List String) (force : Bool) (transferred time : ℤ) :
    ((∃ cs, (s.apply key manager apiVersion fields force transferred time).1 = .conflicts cs) ∧
        ∀ k, (s.apply key manager apiVersion fields force transferred time).2.entries k = s.entries k) ∨
      (s.apply key manager apiVersion fields force transferred time).1 = .applied manager fields ∧
        Takes s (s.apply key manager apiVersion fields force transferred time).2 key manager fields := by
  unfold apply
  dsimp only
  split
  · refine .inl ⟨⟨_, rfl⟩, fun k => ?_⟩
    unfold FieldManagerRegistry.entries
    rw [Table.lookup_insert_eq]
    split
    · rename_i here
      rw [here, Option.getD_some]
    · rfl
  · rename_i free
    refine .inr ⟨rfl, takes_insert fun m f => ?_⟩
    rw [owns_upsert (by exact fun _ => ⟨rfl, rfl⟩) (by exact ⟨rfl, rfl⟩)]
    cases force with
    | true =>
      rw [if_pos rfl, owns_foldl_strip]
      split <;> tauto
    | false =>
      have none : conflicts manager fields (s.entries key) = [] := by simpa using free
      rw [if_neg (by decide)]
      split
      · rename_i mem
        have only := not_owns_of_conflicts none mem (m := m)
        tauto
      · tauto

end FieldManagerRegistry

/-- The calls that change the registry. -/
inductive FieldCall where
  | apply (key : ObjectKey) (manager apiVersion : String) (fields : List String) (force : Bool)
      (transferred time : ℤ)
  | recordUpdate (key : ObjectKey) (manager apiVersion : String) (fields : List String) (time : ℤ)
  | remove (key : ObjectKey) (manager : String)

namespace FieldManagerRegistry

/-- The registry after a call. -/
def step (s : FieldManagerRegistry) : FieldCall → Option FieldManagerRegistry
  | .apply key manager apiVersion fields force transferred time =>
    some (s.apply key manager apiVersion fields force transferred time).2
  | .recordUpdate key manager apiVersion fields time =>
    some (s.recordUpdate key manager apiVersion fields time)
  | .remove key manager => some (s.remove key manager)

/-- Every field of an object has at most one manager. -/
def Exclusive (s : FieldManagerRegistry) : Prop :=
  ∀ key f m m', Owns (s.entries key) m f → Owns (s.entries key) m' f → m = m'

variable {s s' : FieldManagerRegistry}

lemma Exclusive.takes {key : ObjectKey} {manager : String} {fields : List String} (ex : s.Exclusive)
    (takes : Takes s s' key manager fields) : s'.Exclusive := by
  intro k f m m' owns owns'
  rw [takes] at owns owns'
  split at owns
  · rename_i mine
    rw [if_pos mine] at owns'
    exact owns.trans owns'.symm
  · rename_i other
    rw [if_neg other] at owns'
    exact ex k f m m' owns owns'

lemma Exclusive.step {call : FieldCall} (ex : s.Exclusive) (st : s.step call = some s') : s'.Exclusive := by
  cases call with
  | apply key manager apiVersion fields force transferred time =>
    cases st
    rcases s.apply_cases key manager apiVersion fields force transferred time with ⟨-, same⟩ | ⟨-, takes⟩
    · intro k f m m' owns owns'
      rw [same] at owns owns'
      exact ex k f m m' owns owns'
    · exact ex.takes takes
  | recordUpdate key manager apiVersion fields time =>
    cases st
    exact ex.takes (takes_recordUpdate s key manager apiVersion fields time)
  | remove key manager =>
    cases st
    have fewer {k : ObjectKey} {m f : String} (owns : Owns ((s.remove key manager).entries k) m f) :
        Owns (s.entries k) m f := by
      unfold remove at owns
      split at owns
      · rename_i entries look
        unfold FieldManagerRegistry.entries at owns ⊢
        rw [Table.lookup_insert_eq] at owns
        split at owns
        · rename_i here
          obtain ⟨e, mem, rest⟩ := owns
          rw [here, look]
          exact ⟨e, (List.mem_filter.mp mem).1, rest⟩
        · exact owns
      · exact owns
    exact fun k f m m' owns owns' => ex k f m m' (fewer owns) (fewer owns')

/-- Server-side apply keeps ownership exclusive: in every state reached no field has two managers, an `apply`
that answers with conflicts changes no ownership, and one that is applied and a `record_update` give the
listed fields to the caller alone and change no other ownership. -/
theorem exclusive_ownership {calls : List FieldCall} (hr : run step {} calls = some s) :
    s.Exclusive ∧
    (∀ key manager apiVersion fields force transferred time,
      let done := s.apply key manager apiVersion fields force transferred time
      (∀ cs, done.1 = .conflicts cs → ∀ k m f, Owns (done.2.entries k) m f ↔ Owns (s.entries k) m f) ∧
        ∀ by_ listed, done.1 = .applied by_ listed → Takes s done.2 key manager fields) ∧
    ∀ key manager apiVersion fields time,
      Takes s (s.recordUpdate key manager apiVersion fields time) key manager fields := by
  have start : Exclusive {} := by
    rintro key f m m' ⟨e, mem, -⟩
    cases mem
  refine ⟨invariant_of_run (fun ex st => Exclusive.step ex st) hr start, ?_, takes_recordUpdate s⟩
  intro key manager apiVersion fields force transferred time
  have cases := s.apply_cases key manager apiVersion fields force transferred time
  rcases cases with ⟨⟨cs, eq⟩, same⟩ | ⟨eq, takes⟩
  · refine ⟨fun _ _ k m f => by rw [same], fun by_ listed done => ?_⟩
    rw [eq] at done
    cases done
  · refine ⟨fun cs done => ?_, fun _ _ _ => takes⟩
    rw [eq] at done
    cases done

/-- One manager applies two fields and another updates one of them; a third manager gets it by force only. -/
theorem exclusive_ownership_update :
    let key : ObjectKey := ⟨"t", "1"⟩
    ∃ s, run step {} [.apply key "a" "v1" ["x", "y"] false 0 0, .recordUpdate key "b" "v1" ["x"] 1] = some s ∧
      s.Exclusive ∧ (∃ cs, (s.apply key "c" "v1" ["x"] false 2 2).1 = .conflicts cs) ∧
      Owns ((s.apply key "c" "v1" ["x"] false 2 2).2.entries key) "b" "x" ∧
      ∀ m, (Owns ((s.apply key "c" "v1" ["x"] true 2 2).2.entries key) m "x" ↔ m = "c") ∧
        (Owns ((s.apply key "c" "v1" ["x"] true 2 2).2.entries key) m "y" ↔ Owns (s.entries key) m "y") := by
  intro key
  obtain ⟨s, hr⟩ : ∃ s, run step {} [.apply key "a" "v1" ["x", "y"] false 0 0,
    .recordUpdate key "b" "v1" ["x"] 1] = some s := ⟨_, rfl⟩
  obtain ⟨exclusive, applies, -⟩ := exclusive_ownership hr
  obtain ⟨cs, refused⟩ : ∃ cs, (s.apply key "c" "v1" ["x"] false 2 2).1 = .conflicts cs := by
    cases hr
    exact ⟨_, rfl⟩
  obtain ⟨by_, listed, applied⟩ : ∃ by_ listed, (s.apply key "c" "v1" ["x"] true 2 2).1 = .applied by_ listed := by
    cases hr
    exact ⟨_, _, rfl⟩
  have owns : Owns (s.entries key) "b" "x" := by
    cases hr
    exact ⟨⟨"b", .update, "v1", 1, ["x"]⟩, by decide, rfl, by decide⟩
  have takes := (applies key "c" "v1" ["x"] true 2 2).2 by_ listed applied
  refine ⟨s, hr, exclusive, ⟨cs, refused⟩, ((applies key "c" "v1" ["x"] false 2 2).1 cs refused _ _ _).mpr owns, ?_⟩
  exact fun m => ⟨takes key m "x", takes key m "y"⟩

end FieldManagerRegistry

end Apiserver
