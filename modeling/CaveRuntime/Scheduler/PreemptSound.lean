import CaveRuntime.Scheduler.Preempt
import Mathlib.Algebra.Ring.Nat
import Mathlib.Data.Int.ConditionallyCompleteOrder

/-!
# Preemption: when the victims are enough and not too many

On each node the victims are those pods of a shortest initial segment of the candidates that no budget protects
alone. They have lower priority and the preemptor's tenant. But the budgets are asked for one victim at a time,
so that together the victims can take too many pods of one budget; the pod slot is not looked at; and a node
that is over-allocated counts as just full, so that the victims need not make up for the rest.
-/

namespace Scheduler
open FirstBest Utf8

/-- The pods that go: no budget is violated by the eviction of one of them. -/
def evicted (pdbs : List PodDisruptionBudget) (seg : List Pod) : List Pod := seg.filter fun v => !violates pdbs v

/-- The pods that stay. -/
def spared (pdbs : List PodDisruptionBudget) (seg : List Pod) : List Pod := seg.filter (violates pdbs)

/-- The CPU of some pods. -/
def cpuOf (pods : List Pod) : ℕ := (pods.map (·.resources.cpuMillicores)).sum

/-- The memory of some pods. -/
def memoryOf (pods : List Pod) : ℕ := (pods.map (·.resources.memoryBytes)).sum

section Segments

variable {preemptor : Pod} {snapshot : ClusterSnapshot} {pdbs : List PodDisruptionBudget} {node : Node}

/-- The preemptor fits once the pods of a segment are gone. -/
def Suffices (preemptor : Pod) (pdbs : List PodDisruptionBudget) (node : Node) (seg : List Pod) : Prop :=
  fits preemptor node (cpuOf (evicted pdbs seg)) (memoryOf (evicted pdbs seg)) = true

/-- A shortest initial segment of the candidates that suffices. -/
structure Segment (preemptor : Pod) (snapshot : ClusterSnapshot) (pdbs : List PodDisruptionBudget) (node : Node)
    (seg : List Pod) : Prop where
  initial : seg <+: candidates preemptor snapshot node
  enough : Suffices preemptor pdbs node seg
  shortest : ∀ seg', seg' <+: seg → Suffices preemptor pdbs node seg' → seg' = seg

/-- What the loop over the candidates makes of a segment. -/
structure Selected (preemptor : Pod) (pdbs : List PodDisruptionBudget) (node : Node) (cpu memory : ℕ)
    (seg rest : List Pod) (selected : List Pod × ℕ × ℕ × ℕ) : Prop where
  result : selected = (evicted pdbs seg, (spared pdbs seg).length, cpu + cpuOf (evicted pdbs seg),
    memory + memoryOf (evicted pdbs seg))
  needed : ∀ seg', seg' <+: seg → seg' ≠ seg →
    ¬ fits preemptor node (cpu + cpuOf (evicted pdbs seg')) (memory + memoryOf (evicted pdbs seg'))
  done : rest ≠ [] → fits preemptor node (cpu + cpuOf (evicted pdbs seg)) (memory + memoryOf (evicted pdbs seg))

lemma evicted_cons_of_violates {v : Pod} (protected' : violates pdbs v = true) (seg : List Pod) :
    evicted pdbs (v :: seg) = evicted pdbs seg := by
  simp [evicted, protected']

lemma evicted_cons {v : Pod} (free : violates pdbs v = false) (seg : List Pod) :
    evicted pdbs (v :: seg) = v :: evicted pdbs seg := by
  simp [evicted, free]

lemma Selected.cons {v : Pod} {c m cpu memory : ℕ} {seg rest : List Pod} {selected selected' : List Pod × ℕ × ℕ × ℕ}
    (sel : Selected preemptor pdbs node (cpu + c) (memory + m) seg rest selected)
    (short : ¬ fits preemptor node cpu memory)
    (frees : ∀ s, cpuOf (evicted pdbs (v :: s)) = c + cpuOf (evicted pdbs s) ∧
      memoryOf (evicted pdbs (v :: s)) = m + memoryOf (evicted pdbs s))
    (victims : selected'.1 = evicted pdbs (v :: seg)) (violations : selected'.2.1 = (spared pdbs (v :: seg)).length)
    (freed : selected'.2.2 = selected.2.2) :
    Selected preemptor pdbs node cpu memory (v :: seg) rest selected' where
  result := by
    rw [sel.result] at freed
    rw [(frees seg).1, (frees seg).2, ← Nat.add_assoc, ← Nat.add_assoc, ← victims, ← violations]
    exact Prod.ext rfl (Prod.ext rfl freed)
  needed := by
    intro seg' initial ne
    cases seg' with
    | nil => exact short
    | cons w seg' =>
      obtain ⟨rfl, shorter⟩ := List.cons_prefix_cons.mp initial
      rw [(frees seg').1, (frees seg').2, ← Nat.add_assoc, ← Nat.add_assoc]
      exact sel.needed seg' shorter fun eq => ne (congrArg _ eq)
  done more := by
    rw [(frees seg).1, (frees seg).2, ← Nat.add_assoc, ← Nat.add_assoc]
    exact sel.done more

/-- The loop stops behind a first segment of the candidates. -/
lemma selected_selectVictims (l : List Pod) (cpu memory : ℕ) :
    ∃ seg rest, l = seg ++ rest ∧
      Selected preemptor pdbs node cpu memory seg rest (selectVictims preemptor pdbs node l cpu memory) := by
  induction l generalizing cpu memory with
  | nil =>
    refine ⟨[], [], rfl, rfl, ?_, fun ne => absurd rfl ne⟩
    intro seg' initial ne
    exact absurd (List.prefix_nil.mp initial) ne
  | cons v l ih =>
    unfold selectVictims
    split
    · rename_i fit
      refine ⟨[], v :: l, rfl, rfl, ?_, fun _ => fit⟩
      intro seg' initial ne
      exact absurd (List.prefix_nil.mp initial) ne
    rename_i short
    cases kept : violates pdbs v with
    | true =>
      obtain ⟨seg, rest, rfl, sel⟩ := ih (cpu + 0) (memory + 0)
      refine ⟨v :: seg, rest, rfl, sel.cons short (fun s => ?_) ?_ ?_ rfl⟩
      · rw [evicted_cons_of_violates kept, Nat.zero_add, Nat.zero_add]
        exact ⟨rfl, rfl⟩
      · rw [evicted_cons_of_violates kept]
        exact congrArg Prod.fst sel.result
      · have count := congrArg (fun r => r.2.1 + 1) sel.result
        simpa [spared, kept] using count
    | false =>
      obtain ⟨seg, rest, rfl, sel⟩ := ih (cpu + v.resources.cpuMillicores) (memory + v.resources.memoryBytes)
      refine ⟨v :: seg, rest, rfl, sel.cons short (fun s => ?_) ?_ ?_ rfl⟩
      · rw [evicted_cons kept]
        exact ⟨rfl, rfl⟩
      · rw [evicted_cons kept]
        exact congrArg (fun r => v :: r.1) sel.result
      · have count := congrArg (fun r => r.2.1) sel.result
        simpa [spared, kept] using count

/-- The result for a segment. -/
def resultOf (pdbs : List PodDisruptionBudget) (node : Node) (seg : List Pod) : PreemptionResult :=
  ⟨node.name, evicted pdbs seg, (spared pdbs seg).length⟩

/-- What a node offers is its shortest segment that suffices. -/
lemma preemptOn_iff {r : PreemptionResult} :
    preemptOn preemptor snapshot pdbs node = some r ↔
      ∃ seg, Segment preemptor snapshot pdbs node seg ∧ r = resultOf pdbs node seg := by
  obtain ⟨seg, rest, split, sel⟩ :=
    @selected_selectVictims preemptor pdbs node (candidates preemptor snapshot node) 0 0
  have needed := sel.needed
  have done := sel.done
  simp only [Nat.zero_add] at needed done
  unfold preemptOn
  rw [sel.result]
  simp only [Nat.zero_add]
  have initial : seg <+: candidates preemptor snapshot node := ⟨rest, split.symm⟩
  constructor
  · intro offered
    split at offered
    · rename_i fit
      cases offered
      refine ⟨seg, ⟨initial, fit, ?_⟩, rfl⟩
      intro seg' initial' enough
      by_contra ne
      exact needed seg' initial' ne enough
    · cases offered
  · rintro ⟨seg', ⟨initial', enough, shortest⟩, rfl⟩
    have same : seg' = seg := by
      rcases List.prefix_or_prefix_of_prefix initial initial' with shorter | longer
      · by_cases all : rest = []
        · rw [split, all, List.append_nil] at initial'
          exact (shorter.eq_of_length_le initial'.length_le).symm
        · exact (shortest seg shorter (done all)).symm
      · by_contra ne
        exact needed seg' longer ne enough
    rw [same] at enough ⊢
    exact if_pos enough

/-- A node with its segment is chosen: of the offers of the nodes by name, it is the first of those with the
fewest victims and then the fewest spared pods. -/
structure Chosen (preemptor : Pod) (snapshot : ClusterSnapshot) (pdbs : List PodDisruptionBudget) (node : Node)
    (seg : List Pod) : Prop where
  segment : Segment preemptor snapshot pdbs node seg
  first : ∃ before after, byName snapshot.nodes = before ++ node :: after ∧
    (∀ m ∈ before, ∀ seg', Segment preemptor snapshot pdbs m seg' →
      (resultOf pdbs node seg).cost < (resultOf pdbs m seg').cost) ∧
    ∀ m ∈ after, ∀ seg', Segment preemptor snapshot pdbs m seg' →
      (resultOf pdbs node seg).cost ≤ (resultOf pdbs m seg').cost

lemma nominate_iff {r : PreemptionResult} :
    nominate preemptor snapshot pdbs = some (node, r) ↔
      ∃ seg, Chosen preemptor snapshot pdbs node seg ∧ r = resultOf pdbs node seg := by
  constructor
  · intro found
    obtain ⟨before, after, split, isFirst⟩ := isFirst_of_first found
    obtain ⟨seg, segment, rfl⟩ := preemptOn_iff.mp isFirst.offered
    refine ⟨seg, ⟨segment, before, after, split, ?_, ?_⟩, rfl⟩
    · intro m mem seg' segment'
      exact isFirst.before m mem _ (preemptOn_iff.mpr ⟨seg', segment', rfl⟩)
    · intro m mem seg' segment'
      exact isFirst.after m mem _ (preemptOn_iff.mpr ⟨seg', segment', rfl⟩)
  · rintro ⟨seg, ⟨segment, before, after, split, dearer, notCheaper⟩, rfl⟩
    unfold nominate
    rw [split]
    refine first_of_isFirst ⟨preemptOn_iff.mpr ⟨seg, segment, rfl⟩, ?_, ?_⟩
    · intro m mem y offered
      obtain ⟨seg', segment', rfl⟩ := preemptOn_iff.mp offered
      exact dearer m mem seg' segment'
    · intro m mem y offered
      obtain ⟨seg', segment', rfl⟩ := preemptOn_iff.mp offered
      exact notCheaper m mem seg' segment'

lemma Chosen.listed {seg : List Pod}
    (chosen : Chosen preemptor snapshot pdbs node seg) : node ∈ snapshot.nodes := by
  obtain ⟨before, after, split, -⟩ := chosen.first
  have mem : node ∈ byName snapshot.nodes := by
    rw [split]
    exact List.mem_append_cons_self
  rwa [byName, List.mem_insertionSort] at mem

/-! ## Soundness -/

/-- What a result promises: the victims are pods of the node with lower priority and the same tenant, the node
then has the CPU, the memory and a slot for the preemptor, and no budget loses more pods than it can. -/
structure Sound (preemptor : Pod) (snapshot : ClusterSnapshot) (pdbs : List PodDisruptionBudget) (node : Node)
    (r : PreemptionResult) : Prop where
  nominated : node ∈ snapshot.nodes ∧ r.nominatedNodeName = node.name
  victims : ∀ v ∈ r.victims, v ∈ snapshot.podsOn r.nominatedNodeName ∧ v.priority < preemptor.priority ∧
    v.tenantId = preemptor.tenantId
  cpu : (preemptor.resources.cpuMillicores : ℤ) ≤
    node.allocatable.cpuMillicores - node.allocated.cpuMillicores + cpuOf r.victims
  memory : (preemptor.resources.memoryBytes : ℤ) ≤
    node.allocatable.memoryBytes - node.allocated.memoryBytes + memoryOf r.victims
  slot : (1 : ℤ) ≤ node.allocatable.pods - node.allocated.pods + r.victims.length
  budgets : ∀ b ∈ pdbs, (∃ v ∈ r.victims, b.matches v) →
    (b.minAvailable : ℤ) ≤ b.currentHealthy - r.victims.countP b.matches

/-- What is over-allocated is also freed, the pods leave a slot, and a budget that loses pods loses one of its
healthy pods or can do without all of them. -/
structure Harmless (preemptor : Pod) (pdbs : List PodDisruptionBudget) (node : Node) (seg : List Pod) : Prop where
  cpu : node.allocated.cpuMillicores ≤ node.allocatable.cpuMillicores ∨
    preemptor.resources.cpuMillicores + (node.allocated.cpuMillicores - node.allocatable.cpuMillicores) ≤
      cpuOf (evicted pdbs seg)
  memory : node.allocated.memoryBytes ≤ node.allocatable.memoryBytes ∨
    preemptor.resources.memoryBytes + (node.allocated.memoryBytes - node.allocatable.memoryBytes) ≤
      memoryOf (evicted pdbs seg)
  slot : node.allocated.pods < node.allocatable.pods + (evicted pdbs seg).length
  budgets : ∀ b ∈ pdbs, (evicted pdbs seg).countP b.matches = 0 ∨
    (evicted pdbs seg).countP b.matches = 1 ∧ 0 < b.currentHealthy ∨
    b.minAvailable + (evicted pdbs seg).countP b.matches ≤ b.currentHealthy

variable {seg : List Pod}

lemma Segment.victims (segment : Segment preemptor snapshot pdbs node seg) {v : Pod} (mem : v ∈ evicted pdbs seg) :
    v ∈ snapshot.podsOn node.name ∧ v.priority < preemptor.priority ∧ v.tenantId = preemptor.tenantId := by
  have mem := segment.initial.subset (List.mem_filter.mp mem).1
  rw [candidates, List.mem_insertionSort, List.mem_filter, decide_eq_true_eq] at mem
  exact mem

lemma afford_one {b : PodDisruptionBudget} (mem : b ∈ pdbs) {v : Pod} (victim : v ∈ evicted pdbs seg)
    (matched : b.matches v = true) : b.minAvailable ≤ b.currentHealthy - 1 := by
  have free := (List.mem_filter.mp victim).2
  rw [Bool.not_eq_true', violates, List.any_eq_false] at free
  have allowed := free b (List.mem_filter.mpr ⟨mem, matched⟩)
  rw [PodDisruptionBudget.wouldViolate, decide_eq_true_eq, not_lt] at allowed
  exact allowed

lemma budget_iff {b : PodDisruptionBudget} (mem : b ∈ pdbs) :
    ((∃ v ∈ evicted pdbs seg, b.matches v) →
      (b.minAvailable : ℤ) ≤ b.currentHealthy - (evicted pdbs seg).countP b.matches) ↔
    ((evicted pdbs seg).countP b.matches = 0 ∨
      (evicted pdbs seg).countP b.matches = 1 ∧ 0 < b.currentHealthy ∨
      b.minAvailable + (evicted pdbs seg).countP b.matches ≤ b.currentHealthy) := by
  by_cases some : ∃ v ∈ evicted pdbs seg, b.matches v
  · obtain ⟨v, victim, matched⟩ := some
    have one := afford_one mem victim matched
    have positive : 0 < (evicted pdbs seg).countP b.matches := List.countP_pos_iff.mpr ⟨v, victim, matched⟩
    constructor
    · intro enough
      have enough := enough ⟨v, victim, matched⟩
      omega
    · intro harmless _
      omega
  · refine iff_of_true (fun there => absurd there some) (.inl ?_)
    rw [List.countP_eq_zero]
    intro v victim matched
    exact some ⟨v, victim, matched⟩

lemma sound_iff (segment : Segment preemptor snapshot pdbs node seg) (mem : node ∈ snapshot.nodes) :
    Sound preemptor snapshot pdbs node (resultOf pdbs node seg) ↔ Harmless preemptor pdbs node seg := by
  have fit := segment.enough
  unfold Suffices fits avail at fit
  rw [Bool.and_eq_true, decide_eq_true_eq, decide_eq_true_eq] at fit
  dsimp only at fit
  constructor
  · rintro ⟨-, -, cpu, memory, slot, budgets⟩
    dsimp only [resultOf] at cpu memory slot budgets
    exact ⟨by omega, by omega, by omega, fun b mem => (budget_iff mem).mp (budgets b mem)⟩
  · rintro ⟨cpu, memory, slot, budgets⟩
    refine ⟨⟨mem, rfl⟩, fun v victim => segment.victims victim, ?_, ?_, ?_, ?_⟩
    · dsimp only [resultOf]
      omega
    · dsimp only [resultOf]
      omega
    · dsimp only [resultOf]
      omega
    · intro b mem
      exact (budget_iff mem).mpr (budgets b mem)

/-- The result of `preempt` is sound exactly if the chosen victims are harmless. -/
theorem preempt_sound_iff (preemptor : Pod) (snapshot : ClusterSnapshot) (pdbs : List PodDisruptionBudget) :
    (∀ r, preempt preemptor snapshot pdbs = some r →
      ∃ node, nominate preemptor snapshot pdbs = some (node, r) ∧ Sound preemptor snapshot pdbs node r) ↔
    ∀ node seg, Chosen preemptor snapshot pdbs node seg → Harmless preemptor pdbs node seg := by
  constructor
  · intro sound node seg chosen
    have found : nominate preemptor snapshot pdbs = some (node, resultOf pdbs node seg) :=
      nominate_iff.mpr ⟨seg, chosen, rfl⟩
    obtain ⟨node', found', sound⟩ := sound (resultOf pdbs node seg) (by rw [preempt, found]; rfl)
    rw [found] at found'
    cases found'
    exact (sound_iff chosen.segment chosen.listed).mp sound
  · intro harmless r returned
    obtain ⟨⟨node, r'⟩, found, rfl⟩ := Option.map_eq_some_iff.mp returned
    obtain ⟨seg, chosen, rfl⟩ := nominate_iff.mp found
    exact ⟨node, found, (sound_iff chosen.segment chosen.listed).mpr (harmless node seg chosen)⟩

/-- A pod that asks for CPU only. -/
def podWith (name : Bytes) (priority : ℤ) (cpu : ℕ) : Pod := ⟨name, [], [], ⟨cpu, 0⟩, ∅, priority⟩

/-- A node with CPU and slots, all of which or more are taken. -/
def nodeWith (cpu allocatedCpu pods allocatedPods : ℕ) : Node :=
  ⟨[1], ⟨cpu, 0, pods⟩, ⟨allocatedCpu, 0, allocatedPods⟩⟩

/-- Two victims together violate a budget that each of them alone does not; a pod is nominated to a node without
a free slot; a pod is nominated to a node that stays over-allocated. -/
theorem preempt_unsound :
    (∃ node r, nominate (podWith [9] 1 4)
        ⟨[nodeWith 4 4 10 2], AList.insert [1] [podWith [2] 0 2, podWith [3] 0 2] ∅⟩ [⟨[], [], ∅, 1, 2⟩] =
          some (node, r) ∧
      r.victims.length = 2 ∧ ¬ Sound (podWith [9] 1 4)
        ⟨[nodeWith 4 4 10 2], AList.insert [1] [podWith [2] 0 2, podWith [3] 0 2] ∅⟩ [⟨[], [], ∅, 1, 2⟩] node r) ∧
    (∃ node r, nominate (podWith [9] 1 4) ⟨[nodeWith 4 0 1 1], ∅⟩ [] = some (node, r) ∧
      r.victims = [] ∧ ¬ Sound (podWith [9] 1 4) ⟨[nodeWith 4 0 1 1], ∅⟩ [] node r) ∧
    ∃ node r, nominate (podWith [9] 1 2) ⟨[nodeWith 4 6 10 1], AList.insert [1] [podWith [2] 0 2] ∅⟩ [] =
          some (node, r) ∧
      r.victims.length = 1 ∧ ¬ Sound (podWith [9] 1 2)
        ⟨[nodeWith 4 6 10 1], AList.insert [1] [podWith [2] 0 2] ∅⟩ [] node r := by
  refine ⟨⟨_, _, rfl, rfl, fun sound => ?_⟩, ⟨_, _, rfl, rfl, fun sound => ?_⟩, ⟨_, _, rfl, rfl, fun sound => ?_⟩⟩
  · have kept := sound.budgets _ List.mem_cons_self ⟨podWith [2] 0 2, List.mem_cons_self, rfl⟩
    exact absurd kept (by decide)
  · exact absurd sound.slot (by decide)
  · exact absurd sound.cpu (by decide)

end Segments

end Scheduler
