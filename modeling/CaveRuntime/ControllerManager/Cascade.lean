import CaveRuntime.ControllerManager.Graph
import Mathlib.Data.Set.Finite.Basic

/-!
# Cascade plans

Model of `cave-controller-manager/src/gc/cascade.rs`. In the background everything goes whose owners all go
(`Doomed`); in the foreground the root waits for the objects that block it, and these for the ones that block
them. The recursion in the foreground keeps no account of what it has visited: it is given with a bound on its
depth, and `none` stands for a recursion that is deeper.
-/

namespace ControllerManager
open DependencyGraph Relation

inductive DeletionPropagation
  | foreground
  | background
  | orphan

structure CascadePlan where
  delete : List ObjectId := []
  orphan : List ObjectId := []
  setOrphanFinalizer : List ObjectId := []
  waitFor : List ObjectId := []

variable (g : DependencyGraph)

/-- The loop of `background` ends after a round for each descendant and one more. -/
def deleteSet (root : ObjectId) : List ObjectId :=
  let descendants := g.transitiveDependents root
  Search.grow (fun set d => !(g.ownersOf d).isEmpty && (g.ownersOf d).all set.contains) descendants
    (descendants.length + 1) [root]

def background (root : ObjectId) : CascadePlan :=
  let descendants := g.transitiveDependents root
  { delete := (sorted (descendants.filter (deleteSet g root).contains)).reverse ++ [root]
    orphan := sorted (descendants.filter fun d => !(deleteSet g root).contains d) }

def dependentBlocks (dep owner : ObjectId) : Bool :=
  (g.ownerRefsOf dep).any fun r => r.uid = owner && r.blockOwnerDeletion

/-- Elements are appended unless they are there. -/
def pushNew (l xs : List ObjectId) : List ObjectId := xs.foldl (fun l x => if l.contains x then l else l ++ [x]) l

/-- The plan for a blocking dependent `d` and `d` itself are taken over. -/
def CascadePlan.take (d : ObjectId) (plan sub : CascadePlan) : CascadePlan :=
  { plan with
    delete := pushNew (pushNew plan.delete sub.delete) [d]
    waitFor := pushNew (pushNew plan.waitFor sub.waitFor) [d]
    setOrphanFinalizer := pushNew plan.setOrphanFinalizer sub.setOrphanFinalizer }

def CascadePlan.sort (plan : CascadePlan) : CascadePlan :=
  { plan with
    delete := sorted plan.delete
    waitFor := sorted plan.waitFor
    setOrphanFinalizer := sorted plan.setOrphanFinalizer }

def foreground (g : DependencyGraph) : ℕ → ObjectId → Option CascadePlan
  | 0, _ => none
  | depth + 1, root =>
    ((g.dependentsOf root).foldlM (fun plan d =>
      if dependentBlocks g d root then (foreground g depth d).map (plan.take d) else some plan)
      { setOrphanFinalizer := [root] }).map CascadePlan.sort

def orphan (g : DependencyGraph) (root : ObjectId) : CascadePlan :=
  { delete := [root], orphan := g.dependentsOf root }

def computeCascadePlan (depth : ℕ) (root : ObjectId) :
    DeletionPropagation → Option CascadePlan
  | .background => some (background g root)
  | .foreground => foreground g depth root
  | .orphan => some (orphan g root)

/-! ## In the background -/

/-- The least set with the root and every descendant that has owners, all of them in the set. -/
inductive Doomed (g : DependencyGraph) (root : ObjectId) : ObjectId → Prop
  | root : Doomed g root root
  | dependent {d : ObjectId} (reach : Search.Reachable g.dependentsOf root d) (owned : g.ownersOf d ≠ [])
      (all : ∀ o ∈ g.ownersOf d, Doomed g root o) : Doomed g root d

/-- `b` is an owner of `a`, and both go. -/
def DoomedOwner (root a b : ObjectId) : Prop :=
  Doomed g root a ∧ Doomed g root b ∧ b ∈ g.ownersOf a

def Acyclic (root : ObjectId) : Prop := ∀ x, ¬TransGen (DoomedOwner g root) x x

structure BackgroundPlan (g : DependencyGraph) (root : ObjectId) (plan : CascadePlan) : Prop where
  delete : ∀ x, x ∈ plan.delete ↔ Doomed g root x
  once : plan.delete.Nodup
  order : Acyclic g root → ∀ x y, DoomedOwner g root x y → plan.delete.idxOf x < plan.delete.idxOf y
  orphan : ∀ x, x ∈ plan.orphan ↔ x ∈ g ∧ ¬Doomed g root x ∧ ∃ o ∈ g.ownersOf x, Doomed g root o

section
variable {g : DependencyGraph} {root x y : ObjectId}

lemma Doomed.reachable (doomed : Doomed g root x) : Search.Reachable g.dependentsOf root x := by
  cases doomed with
  | root => exact .refl
  | dependent reach _ _ => exact reach

/-- The loop finds what is doomed. -/
lemma mem_deleteSet : x ∈ deleteSet g root ↔ Doomed g root x := by
  constructor
  · refine Search.grow_sound (P := fun set => ∀ x ∈ set, Doomed g root x) ?_ ?_ _ x
    · intro set d mem all out ok x mem'
      rw [Bool.and_eq_true, List.all_eq_true] at ok
      rcases List.mem_cons.mp mem' with rfl | mem'
      · refine .dependent (mem_transitiveDependents.mp mem).2 (fun e => ?_) fun o owner => ?_
        · rw [e] at ok
          cases ok.1
        · exact all o (List.contains_iff_mem.mp (ok.2 o owner))
      · exact all x mem'
    · intro x mem
      cases List.mem_singleton.mp mem
      exact .root
  · -- along the derivation: the owners of an object are in the set, so a last round would take it
    intro doomed
    induction doomed with
    | root =>
      exact Search.grow_sound (P := (root ∈ ·)) (fun set d _ mem _ _ => List.mem_cons_of_mem _ mem)
        (List.mem_singleton_self root) _
    | @dependent d reach owned _ ih =>
      by_cases same : d = root
      · subst same
        exact Search.grow_sound (P := (d ∈ ·)) (fun set x _ mem _ _ => List.mem_cons_of_mem _ mem)
          (List.mem_singleton_self d) _
      · refine Search.closed_grow root d (mem_transitiveDependents.mpr ⟨same, reach⟩) ?_
        rw [Bool.and_eq_true, List.all_eq_true]
        refine ⟨?_, fun o mem => List.contains_iff_mem.mpr (ih o mem)⟩
        simpa using owned

lemma Doomed.toRoot (doomed : Doomed g root x) : x = root ∨ TransGen (DoomedOwner g root) x root := by
  induction doomed with
  | root => exact .inl rfl
  | @dependent d reach owned all ih =>
    obtain ⟨o, mem⟩ := List.exists_mem_of_ne_nil _ owned
    have step : DoomedOwner g root d o := ⟨.dependent reach owned all, all o mem, mem⟩
    rcases ih o mem with rfl | path
    · exact .inr (.single step)
    · exact .inr (.head step path)

lemma Acyclic.ne_root (acyclic : Acyclic g root) (step : DoomedOwner g root x y) : x ≠ root := by
  intro e
  subst e
  rcases step.2.1.toRoot with rfl | path
  · exact acyclic _ (.single step)
  · exact acyclic _ (.head step path)

lemma Acyclic.ne (acyclic : Acyclic g root) (step : DoomedOwner g root x y) : x ≠ y := by
  intro e
  subst e
  exact acyclic _ (.single step)

/-- The descendants that go, in the order of the plan. -/
def deletedFirst (g : DependencyGraph) (root : ObjectId) : List ObjectId :=
  (sorted ((g.transitiveDependents root).filter (deleteSet g root).contains)).reverse

lemma mem_deletedFirst : x ∈ deletedFirst g root ↔ x ≠ root ∧ Doomed g root x := by
  rw [deletedFirst, List.mem_reverse, mem_sorted, List.mem_filter, mem_transitiveDependents,
    List.contains_iff_mem, mem_deleteSet]
  exact ⟨fun h => ⟨h.1.1, h.2⟩, fun h => ⟨⟨h.1, h.2.reachable⟩, h.2⟩⟩

lemma nodup_deletedFirst : (deletedFirst g root).Nodup :=
  List.nodup_reverse.mpr ((List.perm_insertionSort _ _).nodup_iff.mpr
    ((nodup_transitiveDependents g root).filter _))

lemma idxOf_deletedFirst_lt_iff (mem : x ∈ deletedFirst g root) (mem' : y ∈ deletedFirst g root) (ne : x ≠ y) :
    (deletedFirst g root).idxOf x < (deletedFirst g root).idxOf y ↔ y ≤ x := by
  have : Std.Total (fun a b : ObjectId => a ≤ b) := ⟨fun a b => List.le_total a b⟩
  have : IsTrans ObjectId (fun a b => a ≤ b) := ⟨fun a b c => List.le_trans⟩
  have falling : (deletedFirst g root).Pairwise fun a b => b ≤ a :=
    List.pairwise_reverse.mpr (List.pairwise_insertionSort _ _)
  have ordered {a b : ObjectId} (mem : a ∈ deletedFirst g root) (mem' : b ∈ deletedFirst g root)
      (lt : (deletedFirst g root).idxOf a < (deletedFirst g root).idxOf b) : b ≤ a := by
    have le := List.pairwise_iff_getElem.mp falling _ _ (List.idxOf_lt_length_of_mem mem)
      (List.idxOf_lt_length_of_mem mem') lt
    rwa [List.getElem_idxOf, List.getElem_idxOf] at le
  refine ⟨ordered mem mem', fun le => ?_⟩
  by_contra not
  rcases Nat.lt_or_eq_of_le (Nat.le_of_not_lt not) with lt | eq
  · exact ne (List.le_antisymm (ordered mem' mem lt) le)
  · exact ne ((List.idxOf_inj mem).mp eq.symm)

lemma order_iff (acyclic : Acyclic g root) : (∀ x y, DoomedOwner g root x y →
      (background g root).delete.idxOf x < (background g root).delete.idxOf y) ↔
    ∀ x y, DoomedOwner g root x y → y ≠ root → y ≤ x := by
  have delete : (background g root).delete = deletedFirst g root ++ [root] := rfl
  have first (x y : ObjectId) (step : DoomedOwner g root x y) : x ∈ deletedFirst g root :=
    mem_deletedFirst.mpr ⟨acyclic.ne_root step, step.1⟩
  rw [delete]
  refine forall₂_congr fun x y => forall_congr' fun step => ?_
  rw [List.idxOf_append_of_mem (first x y step)]
  by_cases last : y = root
  · subst last
    rw [List.idxOf_append_of_notMem fun mem => (mem_deletedFirst.mp mem).1 rfl]
    refine iff_of_true ?_ fun ne => absurd rfl ne
    exact Nat.lt_of_lt_of_le (List.idxOf_lt_length_of_mem (first x y step)) (Nat.le_add_right _ _)
  · have mem : y ∈ deletedFirst g root := mem_deletedFirst.mpr ⟨last, step.2.1⟩
    rw [List.idxOf_append_of_mem mem, idxOf_deletedFirst_lt_iff (first x y step) mem (acyclic.ne step)]
    exact ⟨fun le _ => le, fun le => le last⟩

lemma mem_delete : x ∈ (background g root).delete ↔ Doomed g root x := by
  have delete : (background g root).delete = deletedFirst g root ++ [root] := rfl
  rw [delete, List.mem_append, mem_deletedFirst, List.mem_singleton]
  constructor
  · rintro (h | rfl)
    · exact h.2
    · exact .root
  · intro doomed
    by_cases same : x = root
    · exact .inr same
    · exact .inl ⟨same, doomed⟩

lemma nodup_delete : (background g root).delete.Nodup := by
  refine List.nodup_append.mpr ⟨nodup_deletedFirst, List.nodup_singleton root, fun a mem b mem' same => ?_⟩
  cases List.mem_singleton.mp mem'
  exact (mem_deletedFirst.mp mem).1 same

lemma mem_orphan : x ∈ (background g root).orphan ↔ Search.Reachable g.dependentsOf root x ∧
    ¬Doomed g root x := by
  change x ∈ sorted ((g.transitiveDependents root).filter fun d => !(deleteSet g root).contains d) ↔ _
  rw [mem_sorted, List.mem_filter, mem_transitiveDependents, Bool.not_eq_true', ← Bool.not_eq_true,
    List.contains_iff_mem, mem_deleteSet]
  exact ⟨fun h => ⟨h.1.2, h.2⟩, fun h => ⟨⟨fun e => h.2 (e ▸ .root), h.1⟩, h.2⟩⟩

end

/-- **The plan in the background** is right exactly if no object that goes has an owner with a greater id that
goes too (or some go in a cycle), and the survivors below the root are those that lose an owner. -/
theorem background_plan_iff (ops : List GraphOp) (depth : ℕ) (root : ObjectId) :
    (∃ plan, computeCascadePlan (build ops) depth root .background = some plan ∧
        BackgroundPlan (build ops) root plan) ↔
      (Acyclic (build ops) root → ∀ x y, DoomedOwner (build ops) root x y → y ≠ root → y ≤ x) ∧
        ∀ x, ¬Doomed (build ops) root x →
          (Search.Reachable (build ops).dependentsOf root x ↔
            ∃ o ∈ (build ops).ownersOf x, Doomed (build ops) root o) := by
  have plan : computeCascadePlan (build ops) depth root .background = some (background (build ops) root) := rfl
  constructor
  · rintro ⟨p, eq, ok⟩
    cases plan.symm.trans eq
    refine ⟨fun acyclic => (order_iff acyclic).mp (ok.order acyclic), fun x survives => ?_⟩
    have orphan := ok.orphan x
    rw [mem_orphan] at orphan
    constructor
    · exact fun reach => (orphan.mp ⟨reach, survives⟩).2.2
    · rintro ⟨o, mem, doomed⟩
      refine (orphan.mpr ⟨?_, survives, o, mem, doomed⟩).1
      obtain ⟨n, look, -⟩ := mem_ownersOf.mp mem
      exact AList.lookup_isSome.mp (look ▸ rfl)
  · rintro ⟨order, orphan⟩
    refine ⟨_, plan, fun x => mem_delete, nodup_delete, fun acyclic => (order_iff acyclic).mpr (order acyclic),
      fun x => ?_⟩
    rw [mem_orphan]
    constructor
    · rintro ⟨reach, survives⟩
      obtain ⟨o, mem, doomed⟩ := (orphan x survives).mp reach
      obtain ⟨n, look, -⟩ := mem_ownersOf.mp mem
      exact ⟨AList.lookup_isSome.mp (look ▸ rfl), survives, o, mem, doomed⟩
    · exact fun h => ⟨(orphan x h.2.1).mpr h.2.2, h.2.1⟩

/-- `b` belongs to `a`, which survives with its other owner `o`: yet `b` is in the list of orphans. -/
theorem background_plan_wrong :
    ¬∃ plan, computeCascadePlan (build [.addObject [97] [⟨[114], false⟩, ⟨[111], false⟩],
        .addObject [98] [⟨[97], false⟩]]) 0 [114] .background = some plan ∧
      BackgroundPlan (build [.addObject [97] [⟨[114], false⟩, ⟨[111], false⟩],
        .addObject [98] [⟨[97], false⟩]]) [114] plan := by
  rintro ⟨plan, eq, ok⟩
  cases eq
  obtain ⟨-, -, o, mem, doomed⟩ := (ok.orphan [98]).mp (by decide)
  cases List.mem_singleton.mp (show o ∈ [[97]] from mem)
  exact absurd (mem_deleteSet.mpr doomed) (by decide)

/-! ## In the foreground -/

/-- `d` is a dependent of `owner` and blocks its deletion. -/
def Blocks (owner d : ObjectId) : Prop :=
  d ∈ g.dependentsOf owner ∧ ∃ r ∈ g.ownerRefsOf d, r.uid = owner ∧ r.blockOwnerDeletion = true

section
variable {g : DependencyGraph} {root x y : ObjectId}

lemma mem_pushNew {l xs : List ObjectId} : x ∈ pushNew l xs ↔ x ∈ l ∨ x ∈ xs := by
  unfold pushNew
  induction xs generalizing l with
  | nil => simp
  | cons a xs ih =>
    rw [List.foldl_cons, ih, List.mem_cons]
    split
    · rename_i there
      constructor
      · exact fun h => h.imp_right .inr
      · rintro (h | rfl | h)
        · exact .inl h
        · exact .inl (List.contains_iff_mem.mp there)
        · exact .inr h
    · rw [List.mem_append, List.mem_singleton, or_assoc]

lemma dependentBlocks_iff {d : ObjectId} :
    dependentBlocks g d root = true ↔ ∃ r ∈ g.ownerRefsOf d, r.uid = root ∧ r.blockOwnerDeletion = true := by
  simp [dependentBlocks]

/-- The loop over the dependents: it ends if the plan of every blocking one does, and waits for these. -/
lemma foldlM_take (blocking : ObjectId → Bool) (sub : ObjectId → Option CascadePlan) (l : List ObjectId)
    (plan : CascadePlan) :
    ((l.foldlM (fun plan d => if blocking d then (sub d).map (plan.take d) else some plan) plan).isSome ↔
        ∀ d ∈ l, blocking d = true → (sub d).isSome) ∧
      ∀ plan', l.foldlM (fun plan d => if blocking d then (sub d).map (plan.take d) else some plan) plan =
          some plan' → ∀ x, x ∈ plan'.waitFor ↔ x ∈ plan.waitFor ∨
            ∃ d ∈ l, blocking d = true ∧ (x = d ∨ ∃ p, sub d = some p ∧ x ∈ p.waitFor) := by
  induction l generalizing plan with
  | nil =>
    refine ⟨by simp, fun plan' eq x => ?_⟩
    cases eq
    simp
  | cons d l ih =>
    rw [List.foldlM_cons]
    simp only [List.forall_mem_cons, List.exists_mem_cons_iff]
    cases b : blocking d with
    | false => simpa using ih plan
    | true =>
      cases s : sub d with
      | none => simp
      | some p =>
        obtain ⟨ends, waits⟩ := ih (plan.take d p)
        refine ⟨by simpa using ends, fun plan' eq x => ?_⟩
        rw [waits plan' eq x, CascadePlan.take, mem_pushNew, mem_pushNew, List.mem_singleton]
        simp only [Option.some.injEq, exists_eq_left', true_and]
        rw [or_assoc, or_assoc, or_left_comm (a := x ∈ p.waitFor), or_assoc]

lemma isSome_foreground_iff {depth : ℕ} : (foreground g (depth + 1) root).isSome ↔
    ∀ d, Blocks g root d → (foreground g depth d).isSome := by
  rw [foreground, Option.isSome_map, (foldlM_take _ _ _ _).1]
  constructor
  · exact fun all d h => all d h.1 (dependentBlocks_iff.mpr h.2)
  · exact fun all d mem blocks => all d ⟨mem, dependentBlocks_iff.mp blocks⟩

lemma isSome_foreground_mono {depth depth' : ℕ} (le : depth ≤ depth') (ends : (foreground g depth root).isSome) :
    (foreground g depth' root).isSome := by
  induction depth generalizing depth' root with
  | zero => cases ends
  | succ depth ih =>
    cases depth' with
    | zero => exact absurd le (Nat.not_succ_le_zero depth)
    | succ depth' =>
      rw [isSome_foreground_iff] at ends ⊢
      exact fun d blocks => ih (Nat.le_of_succ_le_succ le) (ends d blocks)

lemma acc_of_foreground {depth : ℕ} (ends : (foreground g depth root).isSome) :
    Acc (fun a b => Blocks g b a) root := by
  induction depth generalizing root with
  | zero => cases ends
  | succ depth ih => exact .intro root fun d blocks => ih (isSome_foreground_iff.mp ends d blocks)

lemma foreground_of_acc (acc : Acc (fun a b => Blocks g b a) root) : ∃ depth,
    (foreground g depth root).isSome := by
  induction acc with
  | intro root _ ih =>
    have bound (l : List ObjectId) :
        ∃ depth, ∀ d ∈ l, Blocks g root d → (foreground g depth d).isSome := by
      induction l with
      | nil => exact ⟨0, fun d mem => absurd mem List.not_mem_nil⟩
      | cons a l ihl =>
        obtain ⟨m, rest⟩ := ihl
        by_cases blocks : Blocks g root a
        · obtain ⟨n, first⟩ := ih a blocks
          refine ⟨max m n, fun d mem blocks => ?_⟩
          rcases List.mem_cons.mp mem with rfl | mem
          · exact isSome_foreground_mono (Nat.le_max_right m n) first
          · exact isSome_foreground_mono (Nat.le_max_left m n) (rest d mem blocks)
        · refine ⟨m, fun d mem blocks' => ?_⟩
          rcases List.mem_cons.mp mem with rfl | mem
          · exact absurd blocks' blocks
          · exact rest d mem blocks'
    obtain ⟨depth, all⟩ := bound (g.dependentsOf root)
    exact ⟨depth + 1, isSome_foreground_iff.mpr fun d blocks => all d blocks.1 blocks⟩

/-- Among the finitely many objects of the graph, descent ends where there is no cycle. -/
lemma acc_of_acyclic (acyclic : ∀ x, ReflTransGen (Blocks g) root x → ¬TransGen (Blocks g) x x) :
    Acc (fun a b => Blocks g b a) root := by
  have known {a b : ObjectId} (blocks : Blocks g a b) : b ∈ g.keys := by
    obtain ⟨r, mem, -⟩ := blocks.2
    rw [ownerRefsOf] at mem
    cases look : g.lookup b with
    | none =>
      rw [look] at mem
      exact absurd mem List.not_mem_nil
    | some n => exact AList.mem_keys.mp (AList.lookup_isSome.mp (look ▸ rfl))
  let S : Set ObjectId := {x | ReflTransGen (Blocks g) root x ∧ x ∈ root :: g.keys}
  have finite : Finite S :=
    Set.Finite.to_subtype ((List.finite_toSet (root :: g.keys)).subset fun x mem => mem.2)
  have trans : IsTrans S fun a b => TransGen (Blocks g) b.1 a.1 := ⟨fun a b c ab bc => bc.trans ab⟩
  have irrefl : Std.Irrefl fun a b : S => TransGen (Blocks g) b.1 a.1 := ⟨fun a => acyclic a.1 a.2.1⟩
  have wf := Finite.wellFounded_of_trans_of_irrefl fun a b : S => TransGen (Blocks g) b.1 a.1
  have lift (a : S) : Acc (fun a b => Blocks g b a) a.1 := by
    induction a using wf.induction with
    | _ a ih =>
      refine .intro a.1 fun b blocks => ?_
      exact ih ⟨b, a.2.1.tail blocks, List.mem_cons_of_mem _ (known blocks)⟩ (.single blocks)
  exact lift ⟨root, .refl, List.mem_cons_self⟩

lemma not_transGen_of_acc (acc : Acc (fun a b => Blocks g b a) x) : ¬TransGen (Blocks g) x x := by
  intro cycle
  have descent := acc.transGen
  clear acc
  induction descent with
  | intro x _ ih => exact ih x (transGen_swap.mpr cycle) cycle

lemma acc_of_reachable (acc : Acc (fun a b => Blocks g b a) root) (reach : ReflTransGen (Blocks g) root x) :
    Acc (fun a b => Blocks g b a) x := by
  induction reach with
  | refl => exact acc
  | tail _ step ih => exact ih.inv step

lemma mem_waitFor {depth : ℕ} {plan : CascadePlan} (eq : foreground g depth root = some plan) :
    x ∈ plan.waitFor ↔ TransGen (Blocks g) root x := by
  induction depth generalizing root plan x with
  | zero => cases eq
  | succ depth ih =>
    rw [foreground, Option.map_eq_some_iff] at eq
    obtain ⟨plan', eq, rfl⟩ := eq
    change x ∈ sorted plan'.waitFor ↔ _
    rw [mem_sorted, (foldlM_take _ _ _ _).2 plan' eq x]
    constructor
    · rintro (none | ⟨d, mem, blocks, rfl | ⟨p, sub, wait⟩⟩)
      · exact absurd none List.not_mem_nil
      · exact .single ⟨mem, dependentBlocks_iff.mp blocks⟩
      · exact .head ⟨mem, dependentBlocks_iff.mp blocks⟩ ((ih sub).mp wait)
    · intro path
      obtain ⟨d, step, rest⟩ := TransGen.head'_iff.mp path
      refine .inr ⟨d, step.1, dependentBlocks_iff.mpr step.2, ?_⟩
      rcases reflTransGen_iff_eq_or_transGen.mp rest with rfl | rest
      · exact .inl rfl
      · have ends := (foldlM_take _ _ _ _).1.mp (Option.isSome_iff_exists.mpr ⟨plan', eq⟩) d step.1
          (dependentBlocks_iff.mpr step.2)
        obtain ⟨p, sub⟩ := Option.isSome_iff_exists.mp ends
        exact .inr ⟨p, sub, (ih sub).mpr rest⟩

end

/-- **The plan in the foreground** is returned, with what the root has to wait for, exactly if no cycle of
blocking references is reached from the root. -/
theorem foreground_plan_iff (g : DependencyGraph) (root : ObjectId) :
    (∃ depth plan, computeCascadePlan g depth root .foreground = some plan ∧
        ∀ x, x ∈ plan.waitFor ↔ x ≠ root ∧ ReflTransGen (Blocks g) root x) ↔
      ∀ x, ReflTransGen (Blocks g) root x → ¬TransGen (Blocks g) x x := by
  constructor
  · rintro ⟨depth, plan, eq, -⟩ x reach
    have ends : (foreground g depth root).isSome := Option.isSome_iff_exists.mpr ⟨plan, eq⟩
    exact not_transGen_of_acc (acc_of_reachable (acc_of_foreground ends) reach)
  · intro acyclic
    obtain ⟨depth, ends⟩ := foreground_of_acc (acc_of_acyclic acyclic)
    obtain ⟨plan, eq⟩ := Option.isSome_iff_exists.mp ends
    refine ⟨depth, plan, eq, fun x => ?_⟩
    rw [mem_waitFor eq, reflTransGen_iff_eq_or_transGen]
    constructor
    · exact fun path => ⟨fun e => acyclic root .refl (e ▸ path), .inr path⟩
    · exact fun h => h.2.resolve_left h.1

/-- Two objects that own and block each other: the recursion has no end. -/
theorem foreground_plan_endless :
    ¬∃ depth plan, computeCascadePlan (build [.addObject [97] [⟨[98], true⟩], .addObject [98] [⟨[97], true⟩]])
      depth [97] .foreground = some plan := by
  rintro ⟨depth, plan, eq⟩
  have ab : Blocks (build [.addObject [97] [⟨[98], true⟩], .addObject [98] [⟨[97], true⟩]]) [97] [98] :=
    ⟨by decide, ⟨[97], true⟩, List.mem_singleton_self _, rfl, rfl⟩
  have ba : Blocks (build [.addObject [97] [⟨[98], true⟩], .addObject [98] [⟨[97], true⟩]]) [98] [97] :=
    ⟨by decide, ⟨[98], true⟩, List.mem_singleton_self _, rfl, rfl⟩
  have acc := acc_of_foreground (Option.isSome_iff_exists.mpr ⟨plan, eq⟩)
  exact not_transGen_of_acc acc (.head ab (.single ba))

end ControllerManager
