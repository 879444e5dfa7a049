import CaveRuntime.Common.Search
import CaveRuntime.Common.Table
import CaveRuntime.Common.Utf8

/-!
# The dependency graph of the garbage collector

Model of `cave-controller-manager/src/gc/graph.rs`. A node has the owner references of its object and an index of
the objects that name it as an owner. Removing an object takes its node with the index away and leaves the owner
references of others as they are, so that the index may miss an object (`add_object` of the owner makes it anew
and empty) but never has one that does not name the owner (`Indexed`).
-/

namespace ControllerManager
open Utf8

abbrev ObjectId := Bytes

structure OwnerReference where
  uid : ObjectId
  blockOwnerDeletion : Bool

structure GraphNode where
  owners : List OwnerReference := []
  dependents : List ObjectId := []

abbrev DependencyGraph := Table ObjectId GraphNode

/-- `sort` of a vector of ids. -/
def sorted (l : List ObjectId) : List ObjectId := l.insertionSort (· ≤ ·)

@[simp] lemma mem_sorted {l : List ObjectId} {x : ObjectId} : x ∈ sorted l ↔ x ∈ l := List.mem_insertionSort _

namespace DependencyGraph

/-- `id` is taken out of the index of `owner`, if that has a node. -/
def dropDependent (id : ObjectId) (g : DependencyGraph) (owner : ObjectId) : DependencyGraph :=
  Table.modify owner (fun n => { n with dependents := n.dependents.filter (· ≠ id) }) g

/-- `id` is put into the index of `owner`, which gets a node if it has none. -/
def addDependent (id : ObjectId) (g : DependencyGraph) (owner : ObjectId) : DependencyGraph :=
  let parent := (g.lookup owner).getD {}
  g.insert owner { parent with dependents := parent.dependents.insert id }

def addObject (g : DependencyGraph) (id : ObjectId) (owners : List OwnerReference) : DependencyGraph :=
  let ownerUids := owners.map (·.uid)
  let stale := ((g.lookup id).map fun prev => (prev.owners.map (·.uid)).filter (!ownerUids.contains ·)).getD []
  let g := stale.foldl (dropDependent id) g
  let existing := ((g.lookup id).map (·.dependents)).getD []
  ownerUids.foldl (addDependent id) (g.insert id ⟨owners, existing⟩)

def removeObject (g : DependencyGraph) (id : ObjectId) : DependencyGraph :=
  match g.lookup id with
  | none => g
  | some node => (node.owners.map (·.uid)).foldl (dropDependent id) (g.erase id)

def dependentsOf (g : DependencyGraph) (id : ObjectId) : List ObjectId :=
  sorted (((g.lookup id).map (·.dependents)).getD [])

def ownerRefsOf (g : DependencyGraph) (id : ObjectId) : List OwnerReference :=
  ((g.lookup id).map (·.owners)).getD []

def ownersOf (g : DependencyGraph) (id : ObjectId) : List ObjectId := sorted ((g.ownerRefsOf id).map (·.uid))

/-- The objects that stand in some index. -/
def indexed (g : DependencyGraph) : List ObjectId := g.entries.flatMap (·.2.dependents)

/-- The queue gets no object twice, so that the loop ends after as many rounds as there are objects in indices. -/
def transitiveDependents (g : DependencyGraph) (id : ObjectId) : List ObjectId :=
  Search.bfs g.dependentsOf (g.indexed.length + 1) (.start id)

variable {g : DependencyGraph} {id owner x : ObjectId}

lemma dependentsOf_subset (g : DependencyGraph) (id : ObjectId) : ∀ d ∈ g.dependentsOf id, d ∈ g.indexed := by
  intro d mem
  rw [dependentsOf, mem_sorted] at mem
  cases look : g.lookup id with
  | none =>
    rw [look] at mem
    exact absurd mem List.not_mem_nil
  | some n =>
    rw [look] at mem
    exact List.mem_flatMap.mpr ⟨⟨id, n⟩, Table.mem_entries.mpr look, mem⟩

lemma mem_transitiveDependents :
    x ∈ g.transitiveDependents id ↔ x ≠ id ∧ Search.Reachable g.dependentsOf id x := by
  obtain ⟨nodup, iff⟩ := Search.mem_bfs_iff g.dependentsOf_subset id
  rw [transitiveDependents, iff x]
  constructor
  · exact fun mem => ⟨fun e => (List.nodup_cons.mp nodup).1 (e ▸ mem), .inr mem⟩
  · exact fun h => h.2.resolve_left h.1

lemma nodup_transitiveDependents (g : DependencyGraph) (id : ObjectId) : (g.transitiveDependents id).Nodup :=
  (List.nodup_cons.mp (Search.mem_bfs_iff g.dependentsOf_subset id).1).2

/-! ## The index -/

/-- What stands in the index of an object names it as an owner. -/
def Indexed (g : DependencyGraph) : Prop :=
  ∀ owner d, d ∈ g.dependentsOf owner → owner ∈ g.ownersOf d

lemma mem_ownersOf : owner ∈ g.ownersOf x ↔ ∃ n, g.lookup x = some n ∧ owner ∈ n.owners.map (·.uid) := by
  rw [ownersOf, mem_sorted, ownerRefsOf]
  cases g.lookup x <;> simp

lemma mem_dependentsOf : x ∈ g.dependentsOf owner ↔ ∃ n, g.lookup owner = some n ∧ x ∈ n.dependents := by
  rw [dependentsOf, mem_sorted]
  cases g.lookup owner <;> simp

variable {o : ObjectId} {owners : List ObjectId}

lemma mem_dependentsOf_drop :
    x ∈ (dropDependent id g owner).dependentsOf o ↔ x ∈ g.dependentsOf o ∧ (o = owner → x ≠ id) := by
  rw [mem_dependentsOf, mem_dependentsOf, dropDependent, Table.lookup_modify]
  by_cases same : o = owner
  · subst same
    cases g.lookup o <;> simp
  · simp [same]

lemma mem_ownersOf_drop : o ∈ (dropDependent id g owner).ownersOf x ↔ o ∈ g.ownersOf x := by
  rw [mem_ownersOf, mem_ownersOf, dropDependent, Table.lookup_modify]
  by_cases same : x = owner
  · subst same
    cases g.lookup x <;> simp
  · simp [same]

lemma mem_dependentsOf_drops :
    x ∈ (owners.foldl (dropDependent id) g).dependentsOf o ↔ x ∈ g.dependentsOf o ∧ (o ∈ owners → x ≠ id) := by
  induction owners generalizing g with
  | nil => simp
  | cons p owners ih =>
    rw [List.foldl_cons, ih, mem_dependentsOf_drop, List.mem_cons, and_assoc, or_imp]

lemma mem_dependentsOf_add :
    x ∈ (addDependent id g owner).dependentsOf o ↔ x ∈ g.dependentsOf o ∨ (o = owner ∧ x = id) := by
  rw [mem_dependentsOf, mem_dependentsOf, addDependent, Table.lookup_insert_eq]
  by_cases same : o = owner
  · subst same
    cases g.lookup o <;> simp [or_comm]
  · simp [same]

lemma mem_ownersOf_add : o ∈ (addDependent id g owner).ownersOf x ↔ o ∈ g.ownersOf x := by
  rw [mem_ownersOf, mem_ownersOf, addDependent, Table.lookup_insert_eq]
  by_cases same : x = owner
  · subst same
    cases g.lookup x <;> simp
  · simp [same]

lemma mem_dependentsOf_adds :
    x ∈ (owners.foldl (addDependent id) g).dependentsOf o ↔ x ∈ g.dependentsOf o ∨ (o ∈ owners ∧ x = id) := by
  induction owners generalizing g with
  | nil => simp
  | cons p owners ih =>
    rw [List.foldl_cons, ih, mem_dependentsOf_add, List.mem_cons, or_assoc, or_and_right]

lemma mem_ownersOf_foldl {f : DependencyGraph → ObjectId → DependencyGraph}
    (same : ∀ {g p}, o ∈ (f g p).ownersOf x ↔ o ∈ g.ownersOf x) :
    o ∈ (owners.foldl f g).ownersOf x ↔ o ∈ g.ownersOf x := by
  induction owners generalizing g with
  | nil => exact Iff.rfl
  | cons p owners ih => rw [List.foldl_cons, ih, same]

/-- What no longer names an owner is taken out of its index. -/
lemma Indexed.addObject (ok : g.Indexed) (id : ObjectId) (owners : List OwnerReference) :
    (g.addObject id owners).Indexed := by
  intro o d mem
  simp only [DependencyGraph.addObject] at mem ⊢
  rw [mem_ownersOf_foldl mem_ownersOf_add, mem_ownersOf, Table.lookup_insert_eq]
  rw [mem_dependentsOf_adds, mem_dependentsOf, Table.lookup_insert_eq] at mem
  rcases mem with kept | ⟨new, rfl⟩
  · -- the index of the object itself is kept with its node
    have kept : d ∈ ((((g.lookup id).map fun prev => (prev.owners.map (·.uid)).filter
        (!(owners.map (·.uid)).contains ·)).getD []).foldl (dropDependent id) g).dependentsOf o := by
      by_cases same : o = id
      · subst same
        rw [if_pos rfl] at kept
        obtain ⟨n, eq, mem⟩ := kept
        cases eq
        rw [dependentsOf, mem_sorted]
        exact mem
      · rw [if_neg same] at kept
        exact mem_dependentsOf.mpr kept
    obtain ⟨before, scrubbed⟩ := mem_dependentsOf_drops.mp kept
    have named := ok o d before
    by_cases same : d = id
    · subst same
      rw [if_pos rfl]
      refine ⟨_, rfl, ?_⟩
      obtain ⟨n, look, mem⟩ := mem_ownersOf.mp named
      by_contra out
      refine scrubbed ?_ rfl
      rw [look]
      refine List.mem_filter.mpr ⟨mem, ?_⟩
      rw [Bool.not_eq_true', ← Bool.not_eq_true, List.contains_iff_mem]
      exact out
    · rw [if_neg same, ← mem_ownersOf, mem_ownersOf_foldl mem_ownersOf_drop]
      exact named
  · rw [if_pos rfl]
    exact ⟨_, rfl, new⟩

lemma Indexed.removeObject (ok : g.Indexed) (id : ObjectId) : (g.removeObject id).Indexed := by
  unfold DependencyGraph.removeObject
  cases look : g.lookup id with
  | none => exact ok
  | some node =>
    intro o d mem
    dsimp only at mem ⊢
    rw [mem_ownersOf_foldl mem_ownersOf_drop, mem_ownersOf, Table.lookup_erase_eq]
    obtain ⟨mem, scrubbed⟩ := mem_dependentsOf_drops.mp mem
    rw [mem_dependentsOf, Table.lookup_erase_eq] at mem
    by_cases same : o = id
    · rw [if_pos same] at mem
      obtain ⟨n, eq, -⟩ := mem
      cases eq
    rw [if_neg same, ← mem_dependentsOf] at mem
    obtain ⟨n, look', named⟩ := mem_ownersOf.mp (ok o d mem)
    have other : d ≠ id := by
      intro e
      subst e
      rw [look] at look'
      cases look'
      exact scrubbed named rfl
    rw [if_neg other]
    exact ⟨n, look', named⟩

/-! ## Graphs that are built -/

inductive GraphOp
  | addObject (id : ObjectId) (owners : List OwnerReference)
  | removeObject (id : ObjectId)

def apply (g : DependencyGraph) : GraphOp → DependencyGraph
  | .addObject id owners => g.addObject id owners
  | .removeObject id => g.removeObject id

def build (ops : List GraphOp) : DependencyGraph := ops.foldl apply ∅

lemma Indexed.foldl {ops : List GraphOp} (ok : g.Indexed) : (ops.foldl apply g).Indexed := by
  refine List.foldlRecOn ops apply ok fun g ok op _ => ?_
  cases op with
  | addObject id owners => exact ok.addObject id owners
  | removeObject id => exact ok.removeObject id

theorem indexed_build (ops : List GraphOp) : (build ops).Indexed := by
  refine Indexed.foldl fun owner d mem => ?_
  obtain ⟨n, look, -⟩ := mem_dependentsOf.mp mem
  cases look

end DependencyGraph

end ControllerManager
