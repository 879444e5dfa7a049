import CaveRuntime.Common.Table
import Mathlib.Data.List.Nodup
import Mathlib.Data.Set.Finite.List
import Mathlib.Logic.Relation
import Mathlib.Order.WellFounded

/-!
# Topological sorting by counting

Nodes whose count of dependencies that are still to come is zero are ready; one of them is put into the order, and
the counts of its dependents go down by one. The invariant says what the counts are and which nodes are ready or
done; it holds until nothing is ready. What is left then depends on something that is left, and what is done
depends on what was done before.
-/

namespace Kahn

variable {α : Type*} [DecidableEq α]

/-- The count of a node. -/
def deg (t : Table α ℕ) (a : α) : ℕ := (t.lookup a).getD 0

/-- One dependent of a node that is done. -/
def release (sort : List α → List α) (st : List α × Table α ℕ) (d : α) : List α × Table α ℕ :=
  let entry := deg st.2 d
  if entry > 0 then
    (if entry - 1 = 0 then sort (st.1 ++ [d]) else st.1, st.2.insert d (entry - 1))
  else (st.1, st.2.insert d entry)

/-- The loop, which takes from the end of the list of ready nodes. -/
def loop (sort : List α → List α) (dependents : α → List α) :
    ℕ → List α → List α → Table α ℕ → Option (List α × Table α ℕ)
  | fuel, ready, order, t =>
    match ready.getLast? with
    | none => some (order, t)
    | some n =>
      match fuel with
      | 0 => none
      | fuel + 1 =>
        let st := (dependents n).foldl (release sort) (ready.dropLast, t)
        loop sort dependents fuel st.1 (order ++ [n]) st.2

lemma deg_insert (t : Table α ℕ) (a b : α) (n : ℕ) : deg (t.insert a n) b = if b = a then n else deg t b := by
  rw [deg, Table.lookup_insert_eq]
  split
  · rfl
  · rfl

/-- The loop over the dependents lowers their counts; those at 1 become ready. -/
lemma foldl_release {sort : List α → List α} (perm : ∀ l, (sort l).Perm l) {ds : List α} (nodup : ds.Nodup)
    {ready : List α} {t : Table α ℕ} (pos : ∀ d ∈ ds, 0 < deg t d) :
    (ds.foldl (release sort) (ready, t)).1.Perm (ready ++ ds.filter fun d => deg t d = 1) ∧
      ∀ a, deg (ds.foldl (release sort) (ready, t)).2 a = if a ∈ ds then deg t a - 1 else deg t a := by
  induction ds generalizing ready t with
  | nil => exact ⟨by simp, fun a => by simp⟩
  | cons d ds ih =>
    obtain ⟨out, nodup⟩ := List.nodup_cons.mp nodup
    have first := pos d List.mem_cons_self
    have other : ∀ a ∈ ds, deg (t.insert d (deg t d - 1)) a = deg t a := by
      intro a mem
      rw [deg_insert, if_neg fun eq : a = d => out (eq ▸ mem)]
    rw [List.foldl_cons, release, if_pos first]
    obtain ⟨list, counts⟩ := @ih nodup (if deg t d - 1 = 0 then sort (ready ++ [d]) else ready)
      (t.insert d (deg t d - 1)) fun a mem => (other a mem).symm ▸ pos a (List.mem_cons_of_mem _ mem)
    refine ⟨list.trans ?_, fun a => ?_⟩
    · rw [List.filter_congr fun a mem => by rw [other a mem]]
      by_cases last : deg t d = 1
      · rw [if_pos (by omega), List.filter_cons, if_pos (decide_eq_true last)]
        refine ((perm _).append_right _).trans ?_
        rw [List.append_assoc, List.singleton_append]
      · rw [if_neg (by omega), List.filter_cons, if_neg (by simpa using last)]
    · rw [counts a, deg_insert]
      by_cases same : a = d
      · subst same
        simp [out]
      · simp [same]

section Graph

variable (nodes : List α) (deps dependents : α → List α)

/-- The nodes with what they depend on, and the same the other way round. -/
structure Graph : Prop where
  nodup : nodes.Nodup
  nodupDeps : ∀ a, (deps a).Nodup
  nodupDependents : ∀ a, (dependents a).Nodup
  mem_dependents : ∀ a d, d ∈ dependents a ↔ a ∈ deps d
  source : ∀ a b, b ∈ deps a → a ∈ nodes
  target : ∀ a b, b ∈ deps a → b ∈ nodes

/-- What a node depends on over any number of steps. -/
def Depends : α → α → Prop := Relation.TransGen fun a b => b ∈ deps a

/-- What holds between two steps. -/
structure Inv (ready order : List α) (t : Table α ℕ) : Prop where
  nodup : (ready ++ order).Nodup
  count : ∀ a, deg t a = ((deps a).filter (· ∉ order)).length
  zero : ∀ a, a ∈ ready ∨ a ∈ order ↔ a ∈ nodes ∧ deg t a = 0
  after : ∀ before a behind, order = before ++ a :: behind → ∀ b ∈ deps a, b ∈ before

variable {nodes deps dependents} {ready order : List α} {t : Table α ℕ} {n : α}

lemma count_append (graph : Graph nodes deps dependents) (new : n ∉ order) (a : α) :
    ((deps a).filter (· ∉ order ++ [n])).length =
      if n ∈ deps a then ((deps a).filter (· ∉ order)).length - 1 else ((deps a).filter (· ∉ order)).length := by
  have split : (deps a).filter (· ∉ order ++ [n]) = ((deps a).filter (· ∉ order)).filter (· ≠ n) := by
    rw [List.filter_filter]
    refine List.filter_congr fun b _ => ?_
    simp only [List.mem_append, List.mem_singleton, not_or, ← Bool.decide_and, decide_eq_decide]
    exact and_comm
  rw [split]
  split
  · rename_i mem
    have inside : n ∈ (deps a).filter (· ∉ order) := List.mem_filter.mpr ⟨mem, decide_eq_true new⟩
    rw [← List.length_erase_of_mem inside, ((graph.nodupDeps a).filter _).erase_eq_filter]
    congr 1
    refine List.filter_congr fun b _ => ?_
    by_cases same : b = n
    · simp [same]
    · simp [same]
  · rename_i out
    congr 1
    rw [List.filter_eq_self]
    intro b mem
    exact decide_eq_true fun eq => out (eq ▸ (List.mem_filter.mp mem).1)

lemma Inv.waits (graph : Graph nodes deps dependents) (inv : Inv nodes deps ready order t) (todo : n ∉ order) :
    ∀ d ∈ dependents n, 0 < deg t d := by
  intro d mem
  rw [inv.count]
  exact List.length_pos_of_mem (List.mem_filter.mpr ⟨(graph.mem_dependents n d).mp mem, decide_eq_true todo⟩)

/-- A node is taken out and the counts of its dependents go down. -/
lemma Inv.step {sort : List α → List α} (perm : ∀ l, (sort l).Perm l) (graph : Graph nodes deps dependents)
    (inv : Inv nodes deps (ready ++ [n]) order t) :
    Inv nodes deps ((dependents n).foldl (release sort) (ready, t)).1 (order ++ [n])
      ((dependents n).foldl (release sort) (ready, t)).2 := by
  have todo : n ∉ order := fun mem => (List.nodup_append'.mp inv.nodup).2.2 List.mem_concat_self mem
  have waits := inv.waits graph todo
  obtain ⟨list, counts⟩ := @foldl_release α _ sort perm _ (graph.nodupDependents n) ready t waits
  refine ⟨?_, ?_, ?_, ?_⟩
  · have all : (((dependents n).foldl (release sort) (ready, t)).1 ++ (order ++ [n])).Perm
        (ready ++ [n] ++ order ++ (dependents n).filter fun d => deg t d = 1) := by
      refine (list.append_right _).trans (List.perm_iff_count.mpr fun a => ?_)
      simp only [List.count_append]
      omega
    rw [all.nodup_iff, List.nodup_append']
    -- what is ready or done has the count zero, what is released now had one
    refine ⟨inv.nodup, (graph.nodupDependents n).filter _, fun d mem released => ?_⟩
    have one := of_decide_eq_true (List.mem_filter.mp released).2
    have zero := ((inv.zero d).mp (List.mem_append.mp mem)).2
    omega
  · intro a
    rw [counts, count_append graph todo, ← inv.count]
    simp only [graph.mem_dependents]
  · intro a
    rw [counts, list.mem_iff]
    have zero := inv.zero a
    simp only [List.mem_append, List.mem_singleton, List.mem_filter, decide_eq_true_eq] at zero ⊢
    by_cases mem : a ∈ dependents n
    · have known := graph.source a n ((graph.mem_dependents n a).mp mem)
      have pos := waits a mem
      have apart : ¬ ((a ∈ ready ∨ a = n) ∨ a ∈ order) := fun there => pos.ne' (zero.mp there).2
      obtain ⟨⟨r, ne⟩, o⟩ := not_or.mp apart |>.imp_left not_or.mp
      simp only [mem, if_true, r, o, ne, known, true_and, false_or, or_false]
      omega
    · simp only [mem, if_false, false_and, or_false]
      rw [← zero]
      tauto
  · intro before a behind eq b mem
    rcases List.eq_nil_or_concat behind with rfl | ⟨behind, last, rfl⟩
    · obtain ⟨rfl, single⟩ := List.append_inj' eq rfl
      cases single
      by_contra out
      have pos : 0 < deg t n := by
        rw [inv.count]
        exact List.length_pos_of_mem (List.mem_filter.mpr ⟨mem, decide_eq_true out⟩)
      exact pos.ne' ((inv.zero n).mp (.inl List.mem_concat_self)).2
    · rw [List.concat_eq_append, ← List.cons_append, ← List.append_assoc] at eq
      exact inv.after before a behind (List.append_inj_left' eq rfl) b mem

lemma Inv.length_le (inv : Inv nodes deps ready order t) :
    ready.length + order.length ≤ nodes.length := by
  rw [← List.length_append]
  refine (List.subperm_of_subset inv.nodup fun a mem => ?_).length_le
  exact ((inv.zero a).mp (List.mem_append.mp mem)).1

/-- With fuel for all nodes the loop ends, and then nothing is ready. -/
theorem exists_loop {sort : List α → List α} (perm : ∀ l, (sort l).Perm l) (graph : Graph nodes deps dependents)
    {fuel : ℕ} (inv : Inv nodes deps ready order t) (enough : nodes.length ≤ fuel + order.length) :
    ∃ order' t', loop sort dependents fuel ready order t = some (order', t') ∧ Inv nodes deps [] order' t' := by
  induction fuel generalizing ready order t with
  | zero =>
    have none : ready = [] := List.eq_nil_of_length_eq_zero (by have := inv.length_le; omega)
    subst none
    exact ⟨order, t, rfl, inv⟩
  | succ fuel ih =>
    rcases List.eq_nil_or_concat ready with rfl | ⟨ready, n, rfl⟩
    · exact ⟨order, t, rfl, inv⟩
    · rw [List.concat_eq_append] at inv ⊢
      obtain ⟨order', t', eq, inv'⟩ := ih (inv.step perm graph)
        (by rw [List.length_append, List.length_singleton]; omega)
      refine ⟨order', t', ?_, inv'⟩
      rw [loop, List.getLast?_concat]
      simpa using eq

/-! ## When nothing is ready -/

/-- What a node in the order depends on, over any number of steps, stands before it. -/
lemma Inv.idxOf_lt (inv : Inv nodes deps ready order t) {a b : α}
    (depends : Depends deps a b) (mem : a ∈ order) :
    b ∈ order ∧ order.idxOf b < order.idxOf a := by
  have step {a b : α} (dep : b ∈ deps a) (mem : a ∈ order) : b ∈ order ∧ order.idxOf b < order.idxOf a := by
    obtain ⟨before, behind, rfl⟩ := List.append_of_mem mem
    have there := inv.after before a behind rfl b dep
    have out : a ∉ before := fun twice =>
      (List.nodup_append'.mp (List.nodup_append'.mp inv.nodup).2.1).2.2 twice List.mem_cons_self
    refine ⟨List.mem_append_left _ there, ?_⟩
    rw [List.idxOf_append_of_mem there, List.idxOf_append_of_notMem out, List.idxOf_cons_self]
    exact List.idxOf_lt_length_iff.mpr there
  induction depends with
  | single dep => exact step dep mem
  | tail _ dep ih =>
    have next := step dep ih.1
    exact ⟨next.1, next.2.trans ih.2⟩

lemma Inv.not_mem_of_cycle (inv : Inv nodes deps ready order t) {a : α}
    (cycle : Depends deps a a) : a ∉ order :=
  fun mem => lt_irrefl _ (inv.idxOf_lt cycle mem).2

/-- Each node that is left depends on one that is left, so that a cycle is left. -/
lemma Inv.exists_cycle (graph : Graph nodes deps dependents) (inv : Inv nodes deps [] order t) {a : α}
    (known : a ∈ nodes) (left : a ∉ order) : ∃ c, Depends deps c c := by
  by_contra acyclic
  let S : Set α := {x | x ∈ nodes ∧ x ∉ order}
  have finite : Finite S := Set.Finite.to_subtype ((List.finite_toSet nodes).subset fun x mem => mem.1)
  have trans : IsTrans S fun x y => Depends deps y.1 x.1 :=
    ⟨fun x y z xy yz => yz.trans xy⟩
  have irrefl : Std.Irrefl fun x y : S => Depends deps y.1 x.1 :=
    ⟨fun x cycle => acyclic ⟨x.1, cycle⟩⟩
  have wf := Finite.wellFounded_of_trans_of_irrefl
    fun x y : S => Depends deps y.1 x.1
  obtain ⟨m, -, least⟩ := wf.has_min Set.univ ⟨⟨a, known, left⟩, trivial⟩
  have waits : deg t m.1 ≠ 0 := fun zero =>
    m.2.2 (((inv.zero m.1).mpr ⟨m.2.1, zero⟩).resolve_left List.not_mem_nil)
  rw [inv.count] at waits
  obtain ⟨b, mem⟩ := List.exists_mem_of_length_pos (Nat.pos_of_ne_zero waits)
  obtain ⟨dep, out⟩ := List.mem_filter.mp mem
  exact least ⟨b, graph.target m.1 b dep, of_decide_eq_true out⟩ trivial (.single dep)

lemma Inv.mem_of_length (inv : Inv nodes deps [] order t)
    (all : order.length = nodes.length) (a : α) : a ∈ order ↔ a ∈ nodes := by
  have sub : order ⊆ nodes := fun a mem => ((inv.zero a).mp (.inr mem)).1
  have perm : order.Perm nodes := (List.subperm_of_subset inv.nodup sub).perm_of_length_le all.ge
  exact perm.mem_iff

lemma Inv.length_of_acyclic (graph : Graph nodes deps dependents) (inv : Inv nodes deps [] order t)
    (acyclic : ∀ a, ¬ Depends deps a a) : order.length = nodes.length := by
  apply le_antisymm
  · simpa using inv.length_le
  · refine (List.subperm_of_subset graph.nodup fun a mem => ?_).length_le
    by_contra left
    obtain ⟨c, cycle⟩ := inv.exists_cycle graph mem left
    exact acyclic c cycle

end Graph

end Kahn
