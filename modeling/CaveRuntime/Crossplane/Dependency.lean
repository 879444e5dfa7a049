import CaveRuntime.Common.Kahn
import CaveRuntime.Common.Utf8

/-!
# The install order of packages

Model of `cave-crossplane/src/xpkg/dependency.rs`. A package is installed after those it depends on. Ordered sets
are lists without duplicates, sorted where they are visited. What `add_node` and `add_edge` do is said once
(`mem_nodes_after`, `mem_deps_after`); the nodes and dependencies of a graph are then read off its calls
(`mem_nodes_built`, `mem_deps_built`), and the counts of `topo_sort` start the loop of `Common.Kahn`.
-/

namespace Crossplane
open Kahn Relation Utf8

inductive ResolveError
  | cycle (names : List Bytes)
  | unknownNode (name : Bytes)

structure DependencyGraph where
  nodes : List Bytes := []
  edges : Table Bytes (List Bytes) := ∅

def sorted (l : List Bytes) : List Bytes := l.insertionSort (· ≤ ·)

lemma sorted_perm (l : List Bytes) : (sorted l).Perm l := List.perm_insertionSort _ l

namespace DependencyGraph

variable (g : DependencyGraph)

def addNode (name : Bytes) : DependencyGraph where
  nodes := g.nodes.insert name
  edges := if (g.edges.lookup name).isSome then g.edges else g.edges.insert name []

def addEdge (src dst : Bytes) : Except ResolveError DependencyGraph :=
  if !g.nodes.contains src then .error (.unknownNode src)
  else if !g.nodes.contains dst then .error (.unknownNode dst)
  else .ok { g with edges := g.edges.insert src (((g.edges.lookup src).getD []).insert dst) }

/-- What a node depends on. -/
def deps (a : Bytes) : List Bytes := (g.edges.lookup a).getD []

/-- The edges in the order in which both loops visit them. -/
def arcs : List (Bytes × Bytes) :=
  (sorted g.edges.keys).flatMap fun src => (sorted (g.deps src)).map fun dst => (src, dst)

/-- `*entry(k).or_default() += n`. -/
def bump (n : ℕ) (t : Table Bytes ℕ) (k : Bytes) : Table Bytes ℕ := t.insert k (deg t k + n)

/-- The counts before the edges are counted. -/
def zeroDegree : Table Bytes ℕ :=
  g.arcs.foldl (fun t arc => bump 0 (bump 0 t arc.1) arc.2) ((sorted g.nodes).foldl (fun t n => t.insert n 0) ∅)

/-- The loop that counts the edges and turns them round. -/
def count (st : Table Bytes (List Bytes) × Table Bytes ℕ) (arc : Bytes × Bytes) :
    Table Bytes (List Bytes) × Table Bytes ℕ :=
  (st.1.insert arc.2 (((st.1.lookup arc.2).getD []).insert arc.1), bump 1 st.2 arc.1)

/-- The names whose count satisfies a condition, in order. -/
def names (t : Table Bytes ℕ) (p : ℕ → Bool) : List Bytes := (sorted t.keys).filter fun n => p (deg t n)

/-- `topo_sort`; the number of nodes is fuel enough for the loop. -/
def topoSort : Option (Except ResolveError (List Bytes)) := do
  let (reverse, inDegree) := g.arcs.foldl count (∅, g.zeroDegree)
  let ready := sorted (names inDegree (· == 0))
  let (order, inDegree) ←
    loop sorted (fun n => sorted ((reverse.lookup n).getD [])) g.nodes.length ready [] inDegree
  if order.length ≠ g.nodes.length then some (.error (.cycle (names inDegree (0 < ·)))) else some (.ok order)

end DependencyGraph

/-! ## Graphs that are built -/

inductive GraphCall
  | addNode (name : Bytes)
  | addEdge (src dst : Bytes)

/-- A call that fails leaves the graph as it is. -/
def DependencyGraph.after (g : DependencyGraph) : GraphCall → DependencyGraph
  | .addNode name => g.addNode name
  | .addEdge src dst =>
    match g.addEdge src dst with
    | .ok g' => g'
    | .error _ => g

def DependencyGraph.built (calls : List GraphCall) : DependencyGraph := calls.foldl DependencyGraph.after {}

/-- Edges join nodes, and nothing is listed twice. -/
structure DependencyGraph.Inv (g : DependencyGraph) : Prop where
  nodup : g.nodes.Nodup
  nodupDeps : ∀ a, (g.deps a).Nodup
  source : ∀ a b, b ∈ g.deps a → a ∈ g.nodes
  target : ∀ a b, b ∈ g.deps a → b ∈ g.nodes

namespace DependencyGraph

variable {g : DependencyGraph}

lemma deps_addNode (name a : Bytes) : (g.addNode name).deps a = g.deps a := by
  unfold deps addNode
  dsimp only
  split
  · rfl
  · rename_i absent
    rw [Table.lookup_insert_eq]
    split
    · rename_i eq
      rw [eq, Option.not_isSome_iff_eq_none.mp absent]
      rfl
    · rfl

/-- An edge that is accepted joins nodes and adds one dependency. -/
lemma addEdge_ok_iff {src dst : Bytes} {g' : DependencyGraph} :
    g.addEdge src dst = .ok g' ↔ src ∈ g.nodes ∧ dst ∈ g.nodes ∧
      g' = { g with edges := g.edges.insert src ((g.deps src).insert dst) } := by
  unfold addEdge
  by_cases from' : src ∈ g.nodes
  · by_cases to' : dst ∈ g.nodes
    · simp [from', to', deps, eq_comm]
    · simp [from', to']
  · simp [from']

lemma deps_insert (src a : Bytes) (l : List Bytes) :
    deps { g with edges := g.edges.insert src l } a = if a = src then l else g.deps a := by
  rw [deps, Table.lookup_insert_eq]
  split
  · rfl
  · rfl

lemma nodes_after_addEdge (g : DependencyGraph) (src dst : Bytes) :
    (g.after (.addEdge src dst)).nodes = g.nodes := by
  rw [after]
  split
  · rename_i added
    rw [(addEdge_ok_iff.mp added).2.2]
  · rfl

/-- The nodes after a call are those before it and the one that is added. -/
lemma mem_nodes_after (g : DependencyGraph) (call : GraphCall) (a : Bytes) :
    a ∈ (g.after call).nodes ↔ a ∈ g.nodes ∨ call = .addNode a := by
  cases call with
  | addNode name =>
    rw [after, addNode, List.mem_insert_iff, GraphCall.addNode.injEq, or_comm, eq_comm]
  | addEdge src dst =>
    rw [nodes_after_addEdge]
    exact (or_iff_left nofun).symm

/-- The dependencies after a call are those before it and, between nodes, the edge that is added. -/
lemma mem_deps_after (g : DependencyGraph) (call : GraphCall) (a b : Bytes) :
    b ∈ (g.after call).deps a ↔ b ∈ g.deps a ∨ call = .addEdge a b ∧ a ∈ g.nodes ∧ b ∈ g.nodes := by
  cases call with
  | addNode name =>
    rw [after, deps_addNode]
    exact (or_iff_left fun other => nomatch other.1).symm
  | addEdge src dst =>
    rw [after, GraphCall.addEdge.injEq]
    split
    · rename_i added
      obtain ⟨from', to', rfl⟩ := addEdge_ok_iff.mp added
      rw [deps_insert]
      split
      · rename_i eq
        subst eq
        rw [List.mem_insert_iff, or_comm]
        exact or_congr_right ⟨fun eq => ⟨⟨rfl, eq.symm⟩, from', eq ▸ to'⟩, fun edge => edge.1.2.symm⟩
      · rename_i ne
        exact (or_iff_left fun edge => ne edge.1.1.symm).symm
    · rename_i refused
      refine (or_iff_left ?_).symm
      rintro ⟨⟨rfl, rfl⟩, from', to'⟩
      cases (addEdge_ok_iff.mpr ⟨from', to', rfl⟩).symm.trans refused

lemma nodup_deps_after {call : GraphCall} (nodup : ∀ a, (g.deps a).Nodup) (a : Bytes) :
    ((g.after call).deps a).Nodup := by
  cases call with
  | addNode name => exact deps_addNode (g := g) name a ▸ nodup a
  | addEdge src dst =>
    rw [after]
    split
    · rename_i added
      rw [(addEdge_ok_iff.mp added).2.2, deps_insert]
      split
      · exact (nodup src).insert
      · exact nodup a
    · exact nodup a

lemma Inv.after (inv : g.Inv) (call : GraphCall) : (g.after call).Inv := by
  refine ⟨?_, nodup_deps_after inv.nodupDeps, fun a b mem => ?_, fun a b mem => ?_⟩
  · cases call with
    | addNode name => exact inv.nodup.insert
    | addEdge src dst => exact nodes_after_addEdge g src dst ▸ inv.nodup
  · refine (mem_nodes_after g call a).mpr (.inl ?_)
    rcases (mem_deps_after g call a b).mp mem with old | ⟨-, from', -⟩
    · exact inv.source a b old
    · exact from'
  · refine (mem_nodes_after g call b).mpr (.inl ?_)
    rcases (mem_deps_after g call a b).mp mem with old | ⟨-, -, to'⟩
    · exact inv.target a b old
    · exact to'

lemma Inv.built (calls : List GraphCall) : (built calls).Inv := by
  refine List.foldlRecOn calls DependencyGraph.after ⟨List.nodup_nil, ?_, ?_, ?_⟩ fun g inv call _ => inv.after call
  · exact fun a => List.nodup_nil
  · exact fun a b mem => absurd mem List.not_mem_nil
  · exact fun a b mem => absurd mem List.not_mem_nil

lemma built_append (calls : List GraphCall) (call : GraphCall) :
    built (calls ++ [call]) = (built calls).after call := by
  rw [built, List.foldl_append]
  rfl

/-- The nodes of a graph are those that calls add. -/
lemma mem_nodes_built (calls : List GraphCall) (a : Bytes) : a ∈ (built calls).nodes ↔ .addNode a ∈ calls := by
  induction calls using List.reverseRecOn with
  | nil => exact iff_of_false List.not_mem_nil List.not_mem_nil
  | append_singleton calls call ih =>
    rw [built_append, mem_nodes_after, ih, List.mem_append, List.mem_singleton, eq_comm (a := call)]

/-- A dependency is an edge that a call adds after its two nodes. -/
lemma mem_deps_built (calls : List GraphCall) (a b : Bytes) :
    b ∈ (built calls).deps a ↔ ∃ before behind, calls = before ++ .addEdge a b :: behind ∧
      .addNode a ∈ before ∧ .addNode b ∈ before := by
  induction calls using List.reverseRecOn with
  | nil => exact iff_of_false List.not_mem_nil fun ⟨before, _, eq, _⟩ => by cases before <;> cases eq
  | append_singleton calls call ih =>
    rw [built_append, mem_deps_after, ih, mem_nodes_built, mem_nodes_built]
    constructor
    · rintro (⟨before, behind, rfl, nodes⟩ | ⟨rfl, nodes⟩)
      · exact ⟨before, behind ++ [call], by simp, nodes⟩
      · exact ⟨calls, [], rfl, nodes⟩
    · rintro ⟨before, behind, eq, nodes⟩
      rcases List.eq_nil_or_concat behind with rfl | ⟨behind, last, rfl⟩
      · obtain ⟨rfl, last⟩ := List.append_inj' eq rfl
        cases last
        exact .inr ⟨rfl, nodes⟩
      · rw [List.concat_eq_append, ← List.cons_append, ← List.append_assoc] at eq
        obtain ⟨rfl, -⟩ := List.append_inj' eq rfl
        exact .inl ⟨before, behind, rfl, nodes⟩

end DependencyGraph

/-! ## The counts -/

namespace DependencyGraph

variable {g : DependencyGraph}

lemma mem_arcs {a b : Bytes} : (a, b) ∈ g.arcs ↔ b ∈ g.deps a := by
  simp only [arcs, List.mem_flatMap, List.mem_map, Prod.mk.injEq, (sorted_perm _).mem_iff]
  constructor
  · rintro ⟨_, -, _, mem, rfl, rfl⟩
    exact mem
  · intro mem
    -- a node without an entry depends on nothing
    refine ⟨a, ?_, b, mem, rfl, rfl⟩
    rw [← Table.lookup_isSome]
    cases look : g.edges.lookup a with
    | none =>
      rw [deps, look] at mem
      exact absurd mem List.not_mem_nil
    | some l => rfl

lemma countP_arcs (a : Bytes) : g.arcs.countP (·.1 = a) = (g.deps a).length := by
  have rows (ks : List Bytes) (nodup : ks.Nodup) :
      (ks.flatMap fun src => (sorted (g.deps src)).map fun dst => (src, dst)).countP (·.1 = a) =
        if a ∈ ks then (g.deps a).length else 0 := by
    induction ks with
    | nil => rfl
    | cons k ks ih =>
      obtain ⟨out, nodup⟩ := List.nodup_cons.mp nodup
      rw [List.flatMap_cons, List.countP_append, ih nodup, List.countP_map]
      by_cases same : a = k
      · subst same
        simp [out, Function.comp_def, (sorted_perm _).length_eq]
      · simp [same, Function.comp_def, Ne.symm same]
  rw [arcs, rows _ ((sorted_perm _).nodup_iff.mpr (AList.keys_nodup _))]
  split
  · rfl
  · rename_i out
    rw [(sorted_perm _).mem_iff, ← Table.lookup_isSome, Option.not_isSome_iff_eq_none] at out
    rw [deps, out]
    rfl

lemma deg_bump (n : ℕ) (t : Table Bytes ℕ) (k a : Bytes) :
    deg (bump n t k) a = deg t a + if a = k then n else 0 := by
  rw [bump, deg_insert]
  split
  · rename_i eq
    rw [eq]
  · rfl

lemma isSome_bump (n : ℕ) (t : Table Bytes ℕ) (k a : Bytes) :
    ((bump n t k).lookup a).isSome = true ↔ (t.lookup a).isSome ∨ a = k := by
  rw [bump, Table.lookup_insert_eq]
  split
  · rename_i eq
    simp [eq]
  · rename_i ne
    simp [ne]

/-- Before the count every node is known, with 0 edges. -/
lemma zeroDegree_spec (inv : g.Inv) (a : Bytes) :
    deg g.zeroDegree a = 0 ∧ ((g.zeroDegree.lookup a).isSome = true ↔ a ∈ g.nodes) := by
  have nodes (l : List Bytes) : ∀ t : Table Bytes ℕ, deg t a = 0 →
      deg (l.foldl (fun t n => t.insert n 0) t) a = 0 ∧
        (((l.foldl (fun t n => t.insert n 0) t).lookup a).isSome = true ↔ (t.lookup a).isSome = true ∨ a ∈ l) := by
    induction l with
    | nil => exact fun t zero => ⟨zero, by simp⟩
    | cons n l ih =>
      intro t zero
      obtain ⟨count, known⟩ := ih (t.insert n 0) (by rw [deg_insert]; split <;> trivial)
      refine ⟨count, known.trans ?_⟩
      rw [Table.lookup_insert_eq]
      by_cases same : a = n
      · simp [same]
      · simp [same]
  obtain ⟨zero, known⟩ := nodes (sorted g.nodes) ∅ rfl
  refine List.foldlRecOn g.arcs _ (motive := fun t => deg t a = 0 ∧ ((t.lookup a).isSome = true ↔ a ∈ g.nodes))
    ⟨zero, ?_⟩ ?_
  · rw [known, (sorted_perm _).mem_iff]
    simp
  · rintro t ⟨zero, known⟩ arc mem
    refine ⟨?_, ?_⟩
    · rw [deg_bump, deg_bump, zero]
      simp
    · rw [isSome_bump, isSome_bump, known]
      constructor
      · rintro ((node | rfl) | rfl)
        · exact node
        · exact inv.source _ _ (mem_arcs.mp mem)
        · exact inv.target _ _ (mem_arcs.mp mem)
      · exact fun node => .inl (.inl node)

/-- The loop counts the edges of each node and turns them round. -/
lemma foldl_count (l : List (Bytes × Bytes)) (st : Table Bytes (List Bytes) × Table Bytes ℕ)
    (nodup : ∀ b, ((st.1.lookup b).getD []).Nodup) :
    (∀ a, deg (l.foldl count st).2 a = deg st.2 a + l.countP (·.1 = a)) ∧
    (∀ a, ((l.foldl count st).2.lookup a).isSome = true ↔ (st.2.lookup a).isSome ∨ a ∈ l.map Prod.fst) ∧
    (∀ b, (((l.foldl count st).1.lookup b).getD []).Nodup) ∧
    ∀ a b, a ∈ ((l.foldl count st).1.lookup b).getD [] ↔ a ∈ (st.1.lookup b).getD [] ∨ (a, b) ∈ l := by
  induction l generalizing st with
  | nil => exact ⟨fun a => rfl, fun a => by simp, nodup, fun a b => by simp⟩
  | cons arc l ih =>
    have list (b : Bytes) : ((count st arc).1.lookup b).getD [] =
        if b = arc.2 then ((st.1.lookup arc.2).getD []).insert arc.1 else (st.1.lookup b).getD [] := by
      rw [count, Table.lookup_insert_eq]
      split
      · rfl
      · rfl
    obtain ⟨degs, known, nodups, mems⟩ := ih (count st arc) fun b => by
      rw [list]
      split
      · exact (nodup _).insert
      · exact nodup b
    refine ⟨fun a => ?_, fun a => ?_, nodups, fun a b => ?_⟩
    · rw [List.foldl_cons, degs, count, deg_bump, List.countP_cons, Nat.add_assoc,
        Nat.add_comm (List.countP _ _)]
      simp only [decide_eq_true_eq, @eq_comm _ arc.1 a]
    · rw [List.foldl_cons, known, count, isSome_bump, List.map_cons, List.mem_cons, or_assoc]
    · rw [List.foldl_cons, mems, list, List.mem_cons, Prod.ext_iff]
      by_cases same : b = arc.2
      · rw [if_pos same, List.mem_insert_iff, same]
        simp only [and_true]
        tauto
      · rw [if_neg same]
        simp only [same, and_false, false_or]

/-- What the loop starts with. -/
structure Started (g : DependencyGraph) (reverse : Table Bytes (List Bytes)) (inDegree : Table Bytes ℕ) : Prop where
  graph : Graph g.nodes g.deps fun n => sorted ((reverse.lookup n).getD [])
  start : Kahn.Inv g.nodes g.deps (sorted (names inDegree (· == 0))) [] inDegree

lemma started (inv : g.Inv) :
    Started g (g.arcs.foldl count (∅, g.zeroDegree)).1 (g.arcs.foldl count (∅, g.zeroDegree)).2 := by
  obtain ⟨degs, known, nodups, mems⟩ := foldl_count g.arcs (∅, g.zeroDegree) fun b => List.nodup_nil
  have mem_keys (a : Bytes) : a ∈ (g.arcs.foldl count (∅, g.zeroDegree)).2.keys ↔ a ∈ g.nodes := by
    rw [← Table.lookup_isSome, known, (zeroDegree_spec inv a).2]
    refine or_iff_left_of_imp fun mem => ?_
    obtain ⟨arc, there, rfl⟩ := List.mem_map.mp mem
    exact inv.source arc.1 arc.2 (mem_arcs.mp there)
  refine ⟨⟨inv.nodup, inv.nodupDeps, ?_, ?_, inv.source, inv.target⟩, ⟨?_, ?_, ?_, ?_⟩⟩
  · exact fun a => (sorted_perm _).nodup_iff.mpr (nodups a)
  · intro a d
    rw [(sorted_perm _).mem_iff, mems, mem_arcs]
    exact or_iff_right List.not_mem_nil
  · rw [List.append_nil, (sorted_perm _).nodup_iff]
    exact ((sorted_perm _).nodup_iff.mpr (AList.keys_nodup _)).filter _
  · intro a
    rw [degs, (zeroDegree_spec inv a).1, countP_arcs]
    simp
  · intro a
    simp only [List.not_mem_nil, or_false, (sorted_perm _).mem_iff, names, List.mem_filter, mem_keys, beq_iff_eq]
  · intro before a behind eq
    exact absurd (congrArg List.length eq) (by simp)

/-- `a` depends on `b`. -/
def DependsOn (g : DependencyGraph) (a b : Bytes) : Prop := b ∈ g.deps a

/-- For every graph that is built, sorting ends; it gives an order exactly if there is no cycle, the order has
every node once and behind all nodes it depends on, and otherwise all nodes on cycles are reported. -/
theorem topoSort_correct (calls : List GraphCall) :
    ∃ r, (built calls).topoSort = some r ∧
      ((∃ order, r = .ok order) ↔ ∀ a, ¬ TransGen (DependsOn (built calls)) a a) ∧
      (∀ order, r = .ok order → order.Nodup ∧ (∀ a, a ∈ order ↔ a ∈ (built calls).nodes) ∧
        ∀ before a behind, order = before ++ a :: behind →
          ∀ b, DependsOn (built calls) a b → b ∈ before) ∧
      ∀ e, r = .error e → ∃ report, e = .cycle report ∧
        ∀ a, TransGen (DependsOn (built calls)) a a → a ∈ report := by
  have inv := Inv.built calls
  obtain ⟨graph, start⟩ := started inv
  obtain ⟨order, t, ended, done⟩ := exists_loop sorted_perm graph start (Nat.le_add_right _ _)
  have sort : (built calls).topoSort =
      if order.length ≠ (built calls).nodes.length then
        some (.error (.cycle (names t (0 < ·)))) else some (.ok order) := by
    unfold topoSort
    dsimp only
    rw [ended]
    rfl
  by_cases all : order.length = (built calls).nodes.length
  · refine ⟨.ok order, by rw [sort, if_neg (not_not.mpr all)], ?_, ?_, nofun⟩
    · refine iff_of_true ⟨order, rfl⟩ fun a cycle => done.not_mem_of_cycle cycle ?_
      obtain ⟨b, dep, -⟩ := TransGen.head'_iff.mp cycle
      exact (done.mem_of_length all a).mpr (inv.source a b dep)
    · rintro _ ⟨⟩
      exact ⟨done.nodup, done.mem_of_length all, done.after⟩
  · refine ⟨.error (.cycle (names t (0 < ·))), by rw [sort, if_pos all], ?_, nofun, ?_⟩
    · refine iff_of_false nofun fun acyclic => all (done.length_of_acyclic graph acyclic)
    · rintro _ ⟨⟩
      refine ⟨_, rfl, fun a cycle => ?_⟩
      obtain ⟨b, dep, -⟩ := TransGen.head'_iff.mp cycle
      have left : deg t a ≠ 0 := fun zero =>
        done.not_mem_of_cycle cycle (((done.zero a).mpr ⟨inv.source a b dep, zero⟩).resolve_left List.not_mem_nil)
      refine List.mem_filter.mpr ⟨?_, decide_eq_true (Nat.pos_of_ne_zero left)⟩
      rw [(sorted_perm _).mem_iff, ← Table.lookup_isSome]
      cases look : t.lookup a with
      | none => exact absurd (by rw [deg, look]; rfl) left
      | some n => rfl

end DependencyGraph

end Crossplane
