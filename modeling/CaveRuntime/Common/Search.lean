import Mathlib.Data.List.Nodup
import Mathlib.Data.List.Perm.Subperm
import Mathlib.Logic.Relation

/-!
# Searches with a bound

Two loops that grow a collection until nothing is left to add: a search in breadth with a queue, which finds
what can be reached (`mem_bfs_iff`), and rounds over a list of candidates, which find the least set that is
closed under a rule of admission (`closed_grow`, `grow_sound`). Each runs with a bound on its rounds, and enough
of them is enough for the result.
-/

namespace Search

variable {α : Type*} [DecidableEq α]

/-! ## In breadth -/

structure State (α : Type*) where
  seen : List α
  out : List α
  queue : List α

def visit (s : State α) (d : α) : State α :=
  if d ∈ s.seen then s else ⟨d :: s.seen, s.out ++ [d], s.queue ++ [d]⟩

/-- What is found from the elements of the queue. -/
def bfs (next : α → List α) : ℕ → State α → List α
  | 0, s => s.out
  | fuel + 1, s =>
    match s.queue with
    | [] => s.out
    | curr :: queue => bfs next fuel ((next curr).foldl visit { s with queue := queue })

/-- The search at its start. -/
def State.start (root : α) : State α := ⟨[root], [], [root]⟩

/-- `b` can be reached from `a`. -/
def Reachable (next : α → List α) : α → α → Prop := Relation.ReflTransGen fun a b => b ∈ next a

/-- What has been seen can be reached, and unless it is in the queue (or is `busy`) what follows it has been
seen. -/
structure Inv (next : α → List α) (root : α) (busy : Option α) (s : State α) : Prop where
  sound : ∀ x ∈ s.seen, Reachable next root x
  closed : ∀ x ∈ s.seen, x ∉ s.queue → some x ≠ busy → ∀ y ∈ next x, y ∈ s.seen
  queued : ∀ x ∈ s.queue, x ∈ s.seen
  out : ∀ x, x ∈ s.seen ↔ x = root ∨ x ∈ s.out
  nodup : (root :: s.out).Nodup

section
variable {next : α → List α} {root : α} {busy : Option α} {s : State α} {d : α}

lemma mem_seen_visit {x : α} : x ∈ (visit s d).seen ↔ x = d ∨ x ∈ s.seen := by
  unfold visit
  split
  · rename_i seen
    exact ⟨.inr, fun h => h.elim (· ▸ seen) id⟩
  · exact List.mem_cons

lemma Inv.visit (inv : Inv next root busy s) (reach : Reachable next root d) : Inv next root busy
    (visit s d) := by
  by_cases seen : d ∈ s.seen
  · rw [Search.visit, if_pos seen]
    exact inv
  rw [Search.visit, if_neg seen]
  have fresh := fun h => seen ((inv.out d).mpr h)
  constructor
  · intro x mem
    rcases List.mem_cons.mp mem with rfl | mem
    · exact reach
    · exact inv.sound x mem
  · intro x mem out free y step
    have unqueued := fun h => out (List.mem_append.mpr h)
    rcases List.mem_cons.mp mem with rfl | mem
    · exact absurd (.inr (List.mem_singleton_self x)) unqueued
    · exact List.mem_cons_of_mem _ (inv.closed x mem (fun h => unqueued (.inl h)) free y step)
  · intro x mem
    rcases List.mem_append.mp mem with mem | mem
    · exact List.mem_cons_of_mem _ (inv.queued x mem)
    · exact List.mem_singleton.mp mem ▸ List.mem_cons_self
  · intro x
    rw [List.mem_cons, inv.out x, List.mem_append, List.mem_singleton]
    tauto
  · rw [← List.cons_append]
    refine List.nodup_append.mpr ⟨inv.nodup, List.nodup_singleton d, fun x mem y mem' same => ?_⟩
    cases List.mem_singleton.mp mem'
    subst same
    exact fresh (List.mem_cons.mp mem)

lemma Inv.foldl {l : List α} (inv : Inv next root busy s) (reach : ∀ d ∈ l, Reachable next root d) :
    Inv next root busy (l.foldl Search.visit s) ∧ (∀ x ∈ s.seen, x ∈ (l.foldl Search.visit s).seen) ∧
      ∀ d ∈ l, d ∈ (l.foldl Search.visit s).seen := by
  induction l generalizing s with
  | nil => exact ⟨inv, fun _ mem => mem, fun d mem => absurd mem List.not_mem_nil⟩
  | cons d l ih =>
    obtain ⟨inv', kept, found⟩ := ih (inv.visit (reach d List.mem_cons_self))
      fun d mem => reach d (List.mem_cons_of_mem _ mem)
    refine ⟨inv', fun x mem => kept x (mem_seen_visit.mpr (.inr mem)), fun x mem => ?_⟩
    rcases List.mem_cons.mp mem with rfl | mem
    · exact kept x (mem_seen_visit.mpr (.inl rfl))
    · exact found x mem

lemma Inv.round {curr : α} {queue : List α} (inv : Inv next root none s) (first : s.queue = curr :: queue) :
    Inv next root none ((next curr).foldl Search.visit { s with queue := queue }) := by
  have seen : curr ∈ s.seen := inv.queued curr (first ▸ List.mem_cons_self)
  have begun : Inv next root (some curr) { s with queue := queue } := by
    refine ⟨inv.sound, fun x mem out free => ?_, fun x mem => ?_, inv.out, inv.nodup⟩
    · refine inv.closed x mem ?_ (Option.some_ne_none x)
      rw [first, List.mem_cons]
      exact fun h => h.elim (fun e => free (congrArg some e)) out
    · exact inv.queued x (first ▸ List.mem_cons_of_mem _ mem)
  obtain ⟨inv', kept, found⟩ := begun.foldl fun d mem => (inv.sound curr seen).tail mem
  refine ⟨inv'.sound, fun x mem out _ y step => ?_, inv'.queued, inv'.out, inv'.nodup⟩
  by_cases same : x = curr
  · exact found y (same ▸ step)
  · exact inv'.closed x mem out (fun e => same (Option.some.inj e)) y step

/-- What is left to do, if everything that is found is in `all`. -/
def todo (all : List α) (s : State α) : ℕ := (all.filter (· ∉ s.seen)).length + s.queue.length

lemma todo_visit_le {all : List α} (mem : d ∈ all) : todo all (visit s d) ≤ todo all s := by
  unfold visit
  split
  · exact Nat.le_refl _
  · rename_i fresh
    unfold todo
    have less : (all.filter (· ∉ d :: s.seen)).length < (all.filter (· ∉ s.seen)).length := by
      have split : all.filter (· ∉ d :: s.seen) = (all.filter (· ∉ s.seen)).filter (· ≠ d) := by
        rw [List.filter_filter]
        refine List.filter_congr fun x _ => ?_
        simp [not_or]
      rw [split]
      exact List.length_filter_lt_length_iff_exists.mpr
        ⟨d, List.mem_filter.mpr ⟨mem, decide_eq_true fresh⟩, by simp⟩
    rw [List.length_append, List.length_singleton]
    dsimp only
    omega

lemma todo_foldl_le {all l : List α} (sub : ∀ d ∈ l, d ∈ all) : todo all (l.foldl visit s) ≤ todo all s := by
  induction l generalizing s with
  | nil => exact Nat.le_refl _
  | cons d l ih =>
    exact Nat.le_trans (ih fun d mem => sub d (List.mem_cons_of_mem _ mem))
      (todo_visit_le (sub d List.mem_cons_self))

/-- With enough fuel the search finds what is reachable, once each. -/
lemma bfs_spec {all : List α} (sub : ∀ a, ∀ d ∈ next a, d ∈ all) {fuel : ℕ} (inv : Inv next root none s)
    (enough : todo all s ≤ fuel) :
    (root :: bfs next fuel s).Nodup ∧ ∀ x, Reachable next root x ↔ x = root ∨ x ∈ bfs next fuel s := by
  have done {s : State α} (inv : Inv next root none s) (empty : s.queue = []) :
      (root :: s.out).Nodup ∧ ∀ x, Reachable next root x ↔ x = root ∨ x ∈ s.out := by
    refine ⟨inv.nodup, fun x => ⟨fun reach => ?_, fun h => inv.sound x ((inv.out x).mpr h)⟩⟩
    refine (inv.out x).mp ?_
    induction reach with
    | refl => exact (inv.out root).mpr (.inl rfl)
    | tail _ step ih =>
      exact inv.closed _ ih (empty ▸ List.not_mem_nil) (Option.some_ne_none _) _ step
  induction fuel generalizing s with
  | zero =>
    have empty : s.queue = [] := List.eq_nil_of_length_eq_zero (by
      unfold todo at enough
      omega)
    exact done inv empty
  | succ fuel ih =>
    rw [bfs]
    split
    · rename_i empty
      exact done inv empty
    · rename_i curr queue first
      refine ih (inv.round first) ?_
      have le : todo all ((next curr).foldl visit { s with queue := queue }) ≤ todo all { s with queue :=
        queue } :=
        todo_foldl_le (sub curr)
      unfold todo at le enough ⊢
      rw [first, List.length_cons] at enough
      dsimp only at le
      omega

/-- With a round for everything that can be found, the search finds what can be reached, each element once. -/
theorem mem_bfs_iff {all : List α} (sub : ∀ a, ∀ d ∈ next a, d ∈ all) (root : α) :
    (root :: bfs next (all.length + 1) (State.start root)).Nodup ∧
      ∀ x, Reachable next root x ↔ x = root ∨ x ∈ bfs next (all.length + 1) (State.start root) := by
  refine bfs_spec sub ⟨?_, ?_, ?_, ?_, List.nodup_singleton root⟩ ?_
  · intro x mem
    exact List.mem_singleton.mp mem ▸ .refl
  · exact fun x mem out => absurd mem out
  · exact fun x mem => mem
  · exact fun x => by simp [State.start]
  · exact Nat.add_le_add (List.length_filter_le ..) (Nat.le_refl 1)

end

/-! ## In rounds -/

section
variable (admits : List α → α → Bool) (candidates : List α)

def consider (set : List α) (d : α) : List α := if d ∈ set then set else if admits set d then d :: set else set

/-- One round over the candidates, each with what has been admitted before it. -/
def pass (set : List α) : List α := candidates.foldl (consider admits) set

/-- Rounds until one admits nothing. -/
def grow : ℕ → List α → List α
  | 0, set => set
  | fuel + 1, set =>
    if (pass admits candidates set).length = set.length then pass admits candidates set
    else grow fuel (pass admits candidates set)

variable {admits candidates} {set : List α}

lemma suffix_consider (set : List α) (d : α) : set <:+ consider admits set d := by
  unfold consider
  split
  · exact List.suffix_refl set
  split
  · exact List.suffix_cons d set
  · exact List.suffix_refl set

lemma suffix_pass (set : List α) : set <:+ pass admits candidates set := by
  unfold pass
  induction candidates generalizing set with
  | nil => exact List.suffix_refl set
  | cons d l ih => exact (suffix_consider set d).trans (ih _)

lemma closed_of_pass (same : (pass admits candidates set).length = set.length) :
    pass admits candidates set = set ∧ ∀ d ∈ candidates, admits set d = true → d ∈ set := by
  have eq : pass admits candidates set = set := ((suffix_pass set).eq_of_length same.symm).symm
  refine ⟨eq, fun d mem ok => ?_⟩
  unfold pass at eq
  induction candidates with
  | nil => exact absurd mem List.not_mem_nil
  | cons c l ih =>
    rw [List.foldl_cons] at eq
    have first : consider admits set c = set := by
      refine ((suffix_consider set c).eq_of_length_le ?_).symm
      have le : (consider admits set c).length ≤ (pass admits l (consider admits set c)).length :=
        (suffix_pass _).length_le
      rw [pass, eq] at le
      exact le
    rw [first] at eq
    rcases List.mem_cons.mp mem with rfl | mem
    · by_contra out
      rw [consider, if_neg out, if_pos ok] at first
      exact List.cons_ne_self _ _ first
    · exact ih (by rw [pass, eq]) eq mem

lemma pass_induction {P : List α → Prop}
    (step : ∀ set, ∀ d ∈ candidates, P set → d ∉ set → admits set d = true → P (d :: set)) (base : P set) :
      P (pass admits candidates set) := by
  unfold pass
  induction candidates generalizing set with
  | nil => exact base
  | cons d l ih =>
    refine ih (fun set d mem => step set d (List.mem_cons_of_mem _ mem)) ?_
    unfold consider
    split
    · exact base
    · rename_i out
      split
      · rename_i ok
        exact step set d List.mem_cons_self base out ok
      · exact base

/-- Anything that each admission keeps is kept. -/
theorem grow_sound {P : List α → Prop}
    (step : ∀ set, ∀ d ∈ candidates, P set → d ∉ set → admits set d = true → P (d :: set)) (base : P set)
      (fuel : ℕ) : P (grow admits candidates fuel set) := by
  induction fuel generalizing set with
  | zero => exact base
  | succ fuel ih =>
    rw [grow]
    split
    · exact pass_induction step base
    · exact ih (pass_induction step base)

/-- A set of candidates and one more element has no room for more rounds than there are candidates. -/
lemma closed_grow_of (root : α) {fuel : ℕ} (nodup : set.Nodup) (sub : set ⊆ root :: candidates)
    (enough : candidates.length + 2 ≤ set.length + fuel) :
    ∀ d ∈ candidates, admits (grow admits candidates fuel set) d = true →
      d ∈ grow admits candidates fuel set := by
  induction fuel generalizing set with
  | zero =>
    have := (List.subperm_of_subset nodup sub).length_le
    rw [List.length_cons] at this
    omega
  | succ fuel ih =>
    rw [grow]
    split
    · rename_i same
      rw [(closed_of_pass same).1]
      exact (closed_of_pass same).2
    · rename_i more
      have longer : set.length ≤ (pass admits candidates set).length := (suffix_pass set).length_le
      refine ih ?_ ?_ (by omega)
      · exact pass_induction (P := List.Nodup) (fun set d _ nodup out _ => List.nodup_cons.mpr ⟨out, nodup⟩) nodup
      · exact pass_induction (P := (· ⊆ root :: candidates))
          (fun set d mem sub _ _ => List.cons_subset.mpr ⟨List.mem_cons_of_mem _ mem, sub⟩) sub

/-- The rounds from one element on end with a set that is closed under admission. -/
theorem closed_grow (root : α) :
    ∀ d ∈ candidates, admits (grow admits candidates (candidates.length + 1) [root]) d = true →
      d ∈ grow admits candidates (candidates.length + 1) [root] := by
  refine closed_grow_of root (List.nodup_singleton root) ?_ (by
    rw [List.length_singleton]
    omega)
  exact List.cons_subset.mpr ⟨List.mem_cons_self, List.nil_subset _⟩

end

end Search
