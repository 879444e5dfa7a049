import CaveRuntime.Common.MachineInt
import CaveRuntime.Scheduler.PreemptSound
import Mathlib.Algebra.Order.BigOperators.Group.List
import Mathlib.Algebra.Order.Group.Nat

/-!
# Preemption: when the victims are the fewest

The candidates are taken by priority until the preemptor fits, so that small pods of low priority are evicted
before a larger one that would have been enough alone. The victims are the fewest that would do exactly if no set
of pods of any node that frees enough is smaller than all initial segments of candidates that do.

The sums of `preempt` are sums of `u64`. `Machine.preempt` has them as the machine does, with and without
overflow checks; where no sum overflows it is the `preempt` of the model before, which adds natural numbers. Where
one does, it may find no victims although there are some.
-/

namespace Scheduler
open FirstBest MachineInt Utf8

/-! ## Sums of the machine -/

namespace Machine

variable (checks : Bool) (preemptor : Pod) (snapshot : ClusterSnapshot) (pdbs : List PodDisruptionBudget)

/-- Whether the preemptor fits once so much is freed; the memory is looked at if the CPU suffices. -/
def fits (node : Node) (freedCpu freedMem : ℕ) : Option Bool := do
  let cpu ← addU64 checks (avail node).cpuMillicores freedCpu
  if preemptor.resources.cpuMillicores ≤ cpu then
    let memory ← addU64 checks (avail node).memoryBytes freedMem
    some (preemptor.resources.memoryBytes ≤ memory)
  else some false

/-- The loop over the candidates. -/
def selectVictims (node : Node) : List Pod → ℕ → ℕ → Option (List Pod × ℕ × ℕ × ℕ)
  | [], freedCpu, freedMem => some ([], 0, freedCpu, freedMem)
  | v :: rest, freedCpu, freedMem => do
    let done ← fits checks preemptor node freedCpu freedMem
    if done then some ([], 0, freedCpu, freedMem)
    else if violates pdbs v then
      let (victims, pdbViolations, freed) ← selectVictims node rest freedCpu freedMem
      some (victims, pdbViolations + 1, freed)
    else
      let freedCpu ← addU64 checks freedCpu v.resources.cpuMillicores
      let freedMem ← addU64 checks freedMem v.resources.memoryBytes
      let (victims, pdbViolations, freed) ← selectVictims node rest freedCpu freedMem
      some (v :: victims, pdbViolations, freed)

/-- The body of the loop over the nodes. -/
def preemptOn (node : Node) : Option (Option PreemptionResult) := do
  let (victims, pdbViolations, freedCpu, freedMem) ←
    selectVictims checks preemptor pdbs node (candidates preemptor snapshot node) 0 0
  let fitsAfter ← fits checks preemptor node freedCpu freedMem
  some (if fitsAfter then some ⟨node.name, victims, pdbViolations⟩ else none)

/-- `preempt`, which looks at every node; `none` is a panic. -/
def preempt : Option (Option PreemptionResult) :=
  if ∀ node ∈ snapshot.nodes, (preemptOn checks preemptor snapshot pdbs node).isSome then
    some ((first PreemptionResult.cost (fun node => (preemptOn checks preemptor snapshot pdbs node).join)
      (byName snapshot.nodes)).map Prod.snd)
  else none

variable {checks preemptor snapshot pdbs} {node : Node}

end Machine

/-! ## The fewest victims -/

section Smallest

variable {preemptor : Pod} {snapshot : ClusterSnapshot} {pdbs : List PodDisruptionBudget} {node : Node}

/-- The chosen segment has no more victims than the shortest segment of any node. -/
lemma Chosen.length_le {seg seg' : List Pod} {m : Node} (chosen : Chosen preemptor snapshot pdbs node seg)
    (mem : m ∈ snapshot.nodes) (segment : Segment preemptor snapshot pdbs m seg') :
    (evicted pdbs seg).length ≤ (evicted pdbs seg').length := by
  obtain ⟨before, after, split, dearer, notCheaper⟩ := chosen.first
  have listed : m ∈ byName snapshot.nodes := by
    rw [byName, List.mem_insertionSort]
    exact mem
  rw [split, List.mem_append, List.mem_cons] at listed
  have bound : (resultOf pdbs node seg).cost ≤ (resultOf pdbs m seg').cost := by
    rcases listed with earlier | rfl | later
    · exact (dearer m earlier seg' segment).le
    · -- a node has one offer only
      have one := preemptOn_iff.mpr ⟨seg, chosen.segment, rfl⟩
      rw [preemptOn_iff.mpr ⟨seg', segment, rfl⟩] at one
      exact (congrArg PreemptionResult.cost (Option.some.inj one)).ge
    · exact notCheaper m later seg' segment
  exact Prod.Lex.monotone_fst _ _ bound

end Smallest

end Scheduler
