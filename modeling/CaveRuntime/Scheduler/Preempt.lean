import CaveRuntime.Common.FirstBest
import CaveRuntime.Common.Table
import CaveRuntime.Common.Utf8
import Mathlib.Data.Prod.Lex

/-!
# Preemption

Model of `cave-scheduler/src/preempt.rs`: for each node, pods of lower priority are taken as victims until the
preemptor fits, and the node with the fewest victims is nominated. Sums of resources are taken not to overflow;
`PreemptSmallest` has them as sums of `u64`.
Of pods and nodes it has what the function reads. The nominated node is carried along with the result, which
has only its name.
-/

namespace Scheduler
open Utf8

structure ResourceRequest where
  cpuMillicores : ℕ
  memoryBytes : ℕ

structure ResourceCapacity where
  cpuMillicores : ℕ
  memoryBytes : ℕ
  pods : ℕ

structure Pod where
  name : Bytes
  namespaceName : Bytes
  tenantId : Bytes
  resources : ResourceRequest
  nodeSelector : Table Bytes Bytes := ∅
  priority : ℤ

structure Node where
  name : Bytes
  allocatable : ResourceCapacity
  allocated : ResourceCapacity

structure ClusterSnapshot where
  nodes : List Node
  podsByNode : Table Bytes (List Pod)

def ClusterSnapshot.podsOn (snapshot : ClusterSnapshot) (nodeName : Bytes) : List Pod :=
  (snapshot.podsByNode.lookup nodeName).getD []

structure PodDisruptionBudget where
  namespaceName : Bytes
  tenantId : Bytes
  selector : Table Bytes Bytes := ∅
  minAvailable : ℕ
  currentHealthy : ℕ

def PodDisruptionBudget.wouldViolate (b : PodDisruptionBudget) (victimsToEvict : ℕ) : Bool :=
  b.currentHealthy - victimsToEvict < b.minAvailable

def PodDisruptionBudget.matches (b : PodDisruptionBudget) (pod : Pod) : Bool :=
  if pod.namespaceName ≠ b.namespaceName ∨ pod.tenantId ≠ b.tenantId then false
  else b.selector.entries.all fun e => pod.nodeSelector.lookup e.1 == some e.2

structure PreemptionResult where
  nominatedNodeName : Bytes
  victims : List Pod
  pdbViolations : ℕ

section Preempt

variable (preemptor : Pod) (snapshot : ClusterSnapshot) (pdbs : List PodDisruptionBudget)

/-- The order of the candidates: lowest priority first, then the larger request for CPU. -/
def evictFirst (a b : Pod) : Prop :=
  a.priority < b.priority ∨ a.priority = b.priority ∧ b.resources.cpuMillicores ≤ a.resources.cpuMillicores

instance : DecidableRel evictFirst := fun _ _ => inferInstanceAs (Decidable (_ ∨ _))

/-- The candidates of a node, in the order in which they are looked at. -/
def candidates (node : Node) : List Pod :=
  ((snapshot.podsOn node.name).filter fun p =>
    p.priority < preemptor.priority ∧ p.tenantId = preemptor.tenantId).insertionSort evictFirst

/-- What is left on a node. -/
def avail (node : Node) : ResourceCapacity where
  cpuMillicores := node.allocatable.cpuMillicores - node.allocated.cpuMillicores
  memoryBytes := node.allocatable.memoryBytes - node.allocated.memoryBytes
  pods := node.allocatable.pods - node.allocated.pods

/-- Whether the preemptor fits once so much is freed. -/
def fits (node : Node) (freedCpu freedMem : ℕ) : Bool :=
  preemptor.resources.cpuMillicores ≤ (avail node).cpuMillicores + freedCpu &&
    preemptor.resources.memoryBytes ≤ (avail node).memoryBytes + freedMem

/-- Whether the eviction of one pod violates a budget. -/
def violates (v : Pod) : Bool := (pdbs.filter (·.matches v)).any (·.wouldViolate 1)

/-- The loop over the candidates: the victims, how often a budget was violated, and what is freed. -/
def selectVictims (node : Node) : List Pod → ℕ → ℕ → List Pod × ℕ × ℕ × ℕ
  | [], freedCpu, freedMem => ([], 0, freedCpu, freedMem)
  | v :: rest, freedCpu, freedMem =>
    if fits preemptor node freedCpu freedMem then ([], 0, freedCpu, freedMem)
    else if violates pdbs v then
      let (victims, pdbViolations, freed) := selectVictims node rest freedCpu freedMem
      (victims, pdbViolations + 1, freed)
    else
      let (victims, pdbViolations, freed) := selectVictims node rest (freedCpu + v.resources.cpuMillicores)
        (freedMem + v.resources.memoryBytes)
      (v :: victims, pdbViolations, freed)

/-- The body of the loop over the nodes: what a node has to offer. -/
def preemptOn (node : Node) : Option PreemptionResult :=
  let (victims, pdbViolations, freedCpu, freedMem) :=
    selectVictims preemptor pdbs node (candidates preemptor snapshot node) 0 0
  if fits preemptor node freedCpu freedMem then some ⟨node.name, victims, pdbViolations⟩ else none

/-- What results are compared by. -/
def PreemptionResult.cost (r : PreemptionResult) : ℕ ×ₗ ℕ := toLex (r.victims.length, r.pdbViolations)

/-- The nodes by name. -/
def byName (nodes : List Node) : List Node := nodes.insertionSort fun a b => a.name ≤ b.name

/-- The nominated node, with the result. -/
def nominate : Option (Node × PreemptionResult) :=
  FirstBest.first PreemptionResult.cost (preemptOn preemptor snapshot pdbs) (byName snapshot.nodes)

def preempt : Option PreemptionResult := (nominate preemptor snapshot pdbs).map Prod.snd

end Preempt

end Scheduler
