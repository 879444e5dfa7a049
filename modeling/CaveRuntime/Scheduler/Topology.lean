import CaveRuntime.Common.MachineInt
import CaveRuntime.Common.Table
import CaveRuntime.Common.Text
import Mathlib.Algebra.BigOperators.Group.List.Basic

/-!
# Spreading pods over domains

Model of `PodTopologySpread` of `cave-scheduler/src/topology.rs`. A constraint counts the pods that match its
selector in each domain, that is, on the eligible nodes with one value of the topology key. The filter places the
pod in the domain of the node and compares the fullest domain with the emptiest, where the definition compares the
domain of the node with the emptiest. So once the domains are out of balance it may refuse even the emptiest one.
-/

namespace Scheduler.Topology
open MachineInt Text Utf8

inductive NodeSelectorOp
  | isIn
  | notIn
  | exists
  | doesNotExist
  | gt
  | lt

structure NodeSelectorRequirement where
  key : Bytes
  operator : NodeSelectorOp
  values : List Bytes

inductive TaintEffect
  | noSchedule
  | preferNoSchedule
  | noExecute
deriving DecidableEq

structure Taint where
  key : Bytes
  value : Option Bytes
  effect : TaintEffect

structure Toleration where
  key : Option Bytes
  operator : Bytes
  value : Option Bytes
  effect : Option TaintEffect

inductive NodeStatus
  | ready
  | notReady
  | cordoned
  | draining
deriving DecidableEq

structure Node where
  name : Bytes
  status : NodeStatus
  labels : Table Bytes Bytes
  taints : List Taint := []

inductive NodeInclusionPolicy
  | honor
  | ignore
deriving DecidableEq

inductive UnsatisfiableAction
  | doNotSchedule
  | scheduleAnyway
deriving DecidableEq

structure TopologySpreadConstraint where
  maxSkew : ℤ
  topologyKey : Bytes
  whenUnsatisfiable : UnsatisfiableAction := .doNotSchedule
  labelSelector : Table Bytes Bytes := ∅
  minDomains : Option ℤ := none
  matchLabelKeys : List Bytes := []
  nodeAffinityPolicy : NodeInclusionPolicy := .honor
  nodeTaintsPolicy : NodeInclusionPolicy := .ignore

/-- What the plugin reads of a pod; `nodeSelector` has its labels, and `required` the terms of its node affinity. -/
structure Pod where
  namespaceName : Bytes
  nodeSelector : Table Bytes Bytes := ∅
  tolerations : List Toleration := []
  required : Option (List (List NodeSelectorRequirement)) := none
  topologySpread : List TopologySpreadConstraint := []

structure ClusterSnapshot where
  nodes : List Node
  podsByNode : Table Bytes (List Pod)

def ClusterSnapshot.podsOn (snapshot : ClusterSnapshot) (nodeName : Bytes) : List Pod :=
  (snapshot.podsByNode.lookup nodeName).getD []

inductive Status
  | success
  | unschedulable (reason : Bytes)

/-! ## Eligible nodes -/

/-- Both numbers, if both can be read. -/
def readBoth (label : Option Bytes) (values : List Bytes) : Option (ℤ × ℤ) := do
  let a ← label.bind parseI64
  let b ← values.head?.bind parseI64
  some (a, b)

def NodeSelectorRequirement.holds (req : NodeSelectorRequirement) (label : Option Bytes) : Bool :=
  match req.operator with
  | .isIn => label.elim false fun v => req.values.any (· == v)
  | .notIn => label.elim true fun v => !req.values.any (· == v)
  | .exists => label.isSome
  | .doesNotExist => label.isNone
  | .gt => (readBoth label req.values).elim false fun ab => ab.2 < ab.1
  | .lt => (readBoth label req.values).elim false fun ab => ab.1 < ab.2

def termMatches (term : List NodeSelectorRequirement) (node : Node) : Bool :=
  term.all fun req => req.holds (node.labels.lookup req.key)

def Toleration.tolerates (t : Toleration) (taint : Taint) : Bool :=
  (if t.operator = word "Exists" then t.key.elim true (· == taint.key)
    else if t.operator = word "Equal" then t.key.elim false fun k => k == taint.key && t.value == taint.value
    else false) &&
    (t.effect.isNone || t.effect == some taint.effect)

def nodeEligible (c : TopologySpreadConstraint) (pod : Pod) (node : Node) : Bool :=
  (c.nodeAffinityPolicy ≠ .honor ||
    (match pod.required with
    | none => true
    | some terms => terms.isEmpty || terms.any (termMatches · node))) &&
  (c.nodeTaintsPolicy ≠ .honor ||
    node.taints.all fun taint => taint.effect = .preferNoSchedule || pod.tolerations.any (·.tolerates taint))

/-! ## The filter -/

def effectiveSelector (c : TopologySpreadConstraint) (pod : Pod) : Table Bytes Bytes :=
  c.matchLabelKeys.foldl (fun sel k => (pod.nodeSelector.lookup k).elim sel fun v => sel.insert k v) c.labelSelector

/-- Whether a pod counts: it has the namespace of the pod to place and the labels of the selector. -/
def counts (sel : Table Bytes Bytes) (pod p : Pod) : Bool :=
  p.namespaceName = pod.namespaceName && sel.entries.all fun e => p.nodeSelector.lookup e.1 == some e.2

section Counts

variable (c : TopologySpreadConstraint) (snapshot : ClusterSnapshot) (pod : Pod)

/-- The pods on a node that count. -/
def countOn (n : Node) : ℕ := (snapshot.podsOn n.name).countP (counts (effectiveSelector c pod) pod)

/-- The first pass: the domains of the nodes that are ready. -/
def enter (t : Table Bytes ℕ) (n : Node) : Table Bytes ℕ :=
  if !nodeEligible c pod n then t
  else if n.status = .notReady then t
  else
    match n.labels.lookup c.topologyKey with
    | some v => if (t.lookup v).isSome then t else t.insert v 0
    | none => t

/-- The second pass: the pods. -/
def tally (t : Table Bytes ℕ) (n : Node) : Table Bytes ℕ :=
  if !nodeEligible c pod n then t
  else
    match n.labels.lookup c.topologyKey with
    | none => t
    | some v => t.insert v ((t.lookup v).getD 0 + countOn c snapshot pod n)

def domainCounts : Table Bytes ℕ :=
  snapshot.nodes.foldl (tally c snapshot pod) (snapshot.nodes.foldl (enter c pod) ∅)

end Counts

def effectiveCounts (raw : Table Bytes ℕ) (minDomains : Option ℤ) : List ℕ :=
  let vals := raw.entries.map (·.2)
  match minDomains with
  | none => vals
  | some minD => vals ++ List.replicate (asU64 minD - vals.length) 0

/-- `projected_skew`; the difference is cut to `i32`. -/
def projectedSkew (raw : Table Bytes ℕ) (minDomains : Option ℤ) (target : Bytes) : ℤ :=
  let projected := raw.insert target ((raw.lookup target).getD 0 + 1)
  let vals := effectiveCounts projected minDomains
  match vals.max?, vals.min? with
  | some max, some min => wrap i32Max (max - min : ℕ)
  | _, _ => 0

/-- The loop of `filter` over the constraints. -/
def filterOn (pod : Pod) (node : Node) (snapshot : ClusterSnapshot) : List TopologySpreadConstraint → Status
  | [] => .success
  | c :: rest =>
    if c.whenUnsatisfiable ≠ .doNotSchedule then filterOn pod node snapshot rest
    else
      match node.labels.lookup c.topologyKey with
      | none => .unschedulable (word "node lacks topology key " ++ c.topologyKey)
      | some target =>
        let skew := projectedSkew (domainCounts c snapshot pod) c.minDomains target
        if c.maxSkew < skew then
          .unschedulable (word "placing on " ++ c.topologyKey ++ word "=" ++ target ++ word " yields skew " ++
            decimalInt skew ++ word " > maxSkew " ++ decimalInt c.maxSkew)
        else filterOn pod node snapshot rest

def filter (pod : Pod) (node : Node) (snapshot : ClusterSnapshot) : Status :=
  filterOn pod node snapshot pod.topologySpread

/-! ## Domains -/

section Domains

variable (c : TopologySpreadConstraint) (snapshot : ClusterSnapshot) (pod : Pod)

/-- The domain of a node, if the node is eligible. -/
def domainOf (n : Node) : Option Bytes := if nodeEligible c pod n then n.labels.lookup c.topologyKey else none

/-- A domain of an eligible node. -/
def IsDomain (d : Bytes) : Prop := ∃ n ∈ snapshot.nodes, domainOf c pod n = some d

/-- The number of matching pods in a domain. -/
def domainCount (d : Bytes) : ℕ :=
  (snapshot.nodes.map fun n => if domainOf c pod n = some d then countOn c snapshot pod n else 0).sum

/-- The number of matching pods once the pod is placed in `target`. -/
def placedCount (target d : Bytes) : ℕ := domainCount c snapshot pod d + if d = target then 1 else 0

/-- The definition: with the pod the domain has at most `maxSkew` pods more than any domain has now. -/
def Allowed (target : Bytes) : Prop :=
  ∀ d, IsDomain c snapshot pod d →
    (domainCount c snapshot pod target : ℤ) + 1 - domainCount c snapshot pod d ≤ c.maxSkew

/-- By how much one domain is then ahead of another. -/
def lead (target d e : Bytes) : ℤ := placedCount c snapshot pod target d - placedCount c snapshot pod target e

/-- Once the pod is placed, no domain has more than `k` pods more than another. -/
def Spread (target : Bytes) (k : ℤ) : Prop :=
  ∀ d e, IsDomain c snapshot pod d → IsDomain c snapshot pod e → lead c snapshot pod target d e ≤ k

/-- The fullest and the emptiest domain once the pod is placed. -/
structure Extremes (target d e : Bytes) : Prop where
  domains : IsDomain c snapshot pod d ∧ IsDomain c snapshot pod e
  most : ∀ x, IsDomain c snapshot pod x → 0 ≤ lead c snapshot pod target d x
  least : ∀ x, IsDomain c snapshot pod x → 0 ≤ lead c snapshot pod target x e

variable {c snapshot pod} {target : Bytes}

lemma lookup_foldl_enter (d : Bytes) :
    (∀ k, (snapshot.nodes.foldl (enter c pod) ∅).lookup d = some k → k = 0) ∧
      (((snapshot.nodes.foldl (enter c pod) ∅).lookup d).isSome → IsDomain c snapshot pod d) := by
  refine List.foldlRecOn snapshot.nodes _ (motive := fun t : Table Bytes ℕ =>
    (∀ k, t.lookup d = some k → k = 0) ∧ ((t.lookup d).isSome → IsDomain c snapshot pod d)) ⟨nofun, nofun⟩ ?_
  rintro t ⟨zero, known⟩ n mem
  unfold enter
  split
  · exact ⟨zero, known⟩
  rename_i eligible
  split
  · exact ⟨zero, known⟩
  split
  · rename_i v label
    split
    · exact ⟨zero, known⟩
    · rw [Table.lookup_insert_eq]
      split
      · rename_i eq
        refine ⟨fun k some => (Option.some.inj some).symm, fun _ => ⟨n, mem, ?_⟩⟩
        rw [domainOf, if_pos (by simpa using eligible), label, eq]
      · exact ⟨zero, known⟩
  · exact ⟨zero, known⟩

lemma lookup_tally (t : Table Bytes ℕ) (n : Node) (d : Bytes) :
    (tally c snapshot pod t n).lookup d =
      if domainOf c pod n = some d then some ((t.lookup d).getD 0 + countOn c snapshot pod n) else t.lookup d := by
  unfold tally domainOf
  cases eligible : nodeEligible c pod n with
  | false => simp
  | true =>
    cases label : n.labels.lookup c.topologyKey with
    | none => simp
    | some v =>
      simp only [Bool.not_true, Bool.false_eq_true, if_false, if_true, Option.some_inj]
      rw [Table.lookup_insert_eq]
      by_cases same : v = d
      · subst same
        simp
      · simp [same, Ne.symm same]

lemma lookup_foldl_tally (l : List Node) (t : Table Bytes ℕ) (d : Bytes) :
    (l.foldl (tally c snapshot pod) t).lookup d =
      if ∃ n ∈ l, domainOf c pod n = some d then
        some ((t.lookup d).getD 0 +
          (l.map fun n => if domainOf c pod n = some d then countOn c snapshot pod n else 0).sum)
      else t.lookup d := by
  classical
  induction l generalizing t with
  | nil => simp
  | cons n l ih =>
    rw [List.foldl_cons, ih, lookup_tally, List.map_cons, List.sum_cons]
    by_cases here : domainOf c pod n = some d
    · by_cases there : ∃ n ∈ l, domainOf c pod n = some d
      · rw [if_pos there, if_pos here, if_pos here, if_pos ⟨n, List.mem_cons_self, here⟩, Option.getD_some,
          Nat.add_assoc]
      · have none : (l.map fun n => if domainOf c pod n = some d then countOn c snapshot pod n else 0).sum = 0 := by
          rw [List.sum_eq_zero]
          intro x mem
          obtain ⟨n', mem', rfl⟩ := List.mem_map.mp mem
          exact if_neg fun eq => there ⟨n', mem', eq⟩
        rw [if_neg there, if_pos here, if_pos here, if_pos ⟨n, List.mem_cons_self, here⟩, none, Nat.add_zero]
    · rw [if_neg here, if_neg here, Nat.zero_add]
      simp only [List.mem_cons, exists_eq_or_imp, here, false_or]

lemma lookup_domainCounts (d : Bytes) (k : ℕ) : (domainCounts c snapshot pod).lookup d = some k ↔
    IsDomain c snapshot pod d ∧ k = domainCount c snapshot pod d := by
  classical
  obtain ⟨zero, known⟩ := @lookup_foldl_enter c snapshot pod d
  rw [domainCounts, lookup_foldl_tally]
  by_cases domain : ∃ n ∈ snapshot.nodes, domainOf c pod n = some d
  · have start : ((snapshot.nodes.foldl (enter c pod) ∅).lookup d).getD 0 = 0 := by
      cases look : (snapshot.nodes.foldl (enter c pod) ∅).lookup d with
      | none => rfl
      | some k => exact zero k look
    rw [if_pos domain, start, Nat.zero_add, Option.some_inj]
    exact ⟨fun eq => ⟨domain, eq.symm⟩, fun eq => eq.2.symm⟩
  · rw [if_neg domain]
    exact iff_of_false (fun look => domain (known (look ▸ rfl))) fun is => domain is.1

/-- The numbers that are compared are those of the domains once the pod is placed. -/
lemma mem_effectiveCounts (here : IsDomain c snapshot pod target) (x : ℕ) :
    x ∈ effectiveCounts ((domainCounts c snapshot pod).insert target
      (((domainCounts c snapshot pod).lookup target).getD 0 + 1)) none ↔
        ∃ d, IsDomain c snapshot pod d ∧ placedCount c snapshot pod target d = x := by
  have own := (lookup_domainCounts target _).mpr ⟨here, rfl⟩
  rw [effectiveCounts, List.mem_map]
  constructor
  · rintro ⟨⟨d, k⟩, mem, rfl⟩
    rw [Table.mem_entries, Table.lookup_insert_eq] at mem
    split at mem
    · rename_i eq
      subst eq
      rw [own, Option.getD_some, Option.some_inj] at mem
      exact ⟨d, here, (congrArg _ (if_pos rfl)).trans mem⟩
    · rename_i ne
      obtain ⟨domain, eq⟩ := (lookup_domainCounts d k).mp mem
      exact ⟨d, domain, by rw [placedCount, if_neg ne, Nat.add_zero, eq]⟩
  · rintro ⟨d, domain, rfl⟩
    refine ⟨⟨d, placedCount c snapshot pod target d⟩, Table.mem_entries.mpr ?_, rfl⟩
    rw [Table.lookup_insert_eq, placedCount]
    split
    · rename_i eq
      rw [own, eq, Option.getD_some]
    · exact (lookup_domainCounts d _).mpr ⟨domain, rfl⟩

lemma projectedSkew_eq (here : IsDomain c snapshot pod target) :
    ∃ d e, Extremes c snapshot pod target d e ∧
      projectedSkew (domainCounts c snapshot pod) none target = wrap i32Max (lead c snapshot pod target d e) := by
  have vals := mem_effectiveCounts here
  unfold projectedSkew
  dsimp only
  generalize effectiveCounts _ none = l at vals ⊢
  have some_ : l ≠ [] := List.ne_nil_of_mem ((vals _).mpr ⟨target, here, rfl⟩)
  obtain ⟨most, eqMost⟩ := Option.isSome_iff_exists.mp (List.isSome_max?_of_ne_nil some_)
  obtain ⟨least, eqLeast⟩ := Option.isSome_iff_exists.mp (List.isSome_min?_of_ne_nil some_)
  obtain ⟨memMost, bound⟩ := List.max?_eq_some_iff.mp eqMost
  obtain ⟨memLeast, bound'⟩ := List.min?_eq_some_iff.mp eqLeast
  obtain ⟨d, domain, rfl⟩ := (vals most).mp memMost
  obtain ⟨e, domain', rfl⟩ := (vals least).mp memLeast
  refine ⟨d, e, ⟨⟨domain, domain'⟩, ?_, ?_⟩, ?_⟩
  · exact fun x is => Int.sub_nonneg_of_le (Int.ofNat_le.mpr (bound _ ((vals _).mpr ⟨x, is, rfl⟩)))
  · exact fun x is => Int.sub_nonneg_of_le (Int.ofNat_le.mpr (bound' _ ((vals _).mpr ⟨x, is, rfl⟩)))
  · rw [eqMost, eqLeast, lead, ← Int.ofNat_sub (bound _ memLeast)]

lemma Extremes.spread_iff {d e : Bytes} (ends : Extremes c snapshot pod target d e) (k : ℤ) :
    Spread c snapshot pod target k ↔ lead c snapshot pod target d e ≤ k := by
  constructor
  · exact fun spread => spread d e ends.domains.1 ends.domains.2
  · intro le x y isX isY
    have high := ends.most x isX
    have low := ends.least y isY
    unfold lead at *
    omega

/-- Where all domains end up close together, the domain of the node is close to the emptiest. -/
lemma allowed_of_spread (positive : 1 ≤ c.maxSkew) (here : IsDomain c snapshot pod target)
    (spread : Spread c snapshot pod target c.maxSkew) : Allowed c snapshot pod target := by
  intro d is
  by_cases same : d = target
  · rw [same]
    omega
  · have le := spread target d here is
    rw [lead, placedCount, if_pos rfl, placedCount, if_neg same] at le
    push_cast at le
    omega

/-- With one hard constraint the filter looks at its skew alone. -/
lemma filter_iff {node : Node} (one : pod.topologySpread.filter (·.whenUnsatisfiable = .doNotSchedule) = [c])
    (label : node.labels.lookup c.topologyKey = some target) :
    filter pod node snapshot = .success ↔
      projectedSkew (domainCounts c snapshot pod) c.minDomains target ≤ c.maxSkew := by
  unfold filter
  have loop (l : List TopologySpreadConstraint) (rest : List TopologySpreadConstraint)
      (eq : l.filter (·.whenUnsatisfiable = .doNotSchedule) = rest) (shape : rest = [] ∨ rest = [c]) :
      filterOn pod node snapshot l = .success ↔
        (rest = [c] → projectedSkew (domainCounts c snapshot pod) c.minDomains target ≤ c.maxSkew) := by
    induction l generalizing rest with
    | nil =>
      subst eq
      exact iff_of_true rfl nofun
    | cons a l ih =>
      rw [filterOn]
      by_cases must : a.whenUnsatisfiable = .doNotSchedule
      · rw [List.filter_cons, if_pos (decide_eq_true must)] at eq
        subst eq
        obtain none | single := shape
        · cases none
        obtain ⟨rfl, none⟩ := List.cons.inj single
        rw [if_neg (not_not.mpr must), label]
        dsimp only
        rw [none]
        split
        · rename_i more
          exact iff_of_false nofun fun le => absurd (le rfl) (not_le.mpr more)
        · rename_i le
          have rest := ih [] none (.inl rfl)
          exact iff_of_true (rest.mpr nofun) fun _ => not_lt.mp le
      · rw [List.filter_cons, if_neg (by simpa using must)] at eq
        rw [if_pos must]
        exact ih rest eq shape
  rw [loop _ [c] one (.inr rfl)]
  exact ⟨fun le => le rfl, fun le _ => le⟩

end Domains

/-- What an `i32` makes of a difference is at most `k` if the difference is, up to a multiple of 2^32. -/
lemma wrap_le_iff {x : ℤ} (nonneg : 0 ≤ x) (k : ℤ) :
    wrap i32Max x ≤ k ↔ ∃ turns : ℕ, x ≤ turns * 2 ^ 32 + k ∧ ¬ x ≤ turns * 2 ^ 32 - 2 ^ 31 - 1 := by
  unfold wrap i32Max
  constructor
  · intro le
    refine ⟨((x + 2 ^ 31) / 2 ^ 32).toNat, ?_⟩
    omega
  · rintro ⟨turns, low, high⟩
    omega

/-- For a pod with one constraint that must hold, without a number of domains, the filter follows the definition on
an eligible node exactly if all domains end up within `maxSkew` of each other, or the definition refuses the node as
the filter then does. Where two domains are 2^31 pods apart or more, the difference is cut to an `i32`, and the
filter accepts the node if all domains are within a multiple of 2^32 and `maxSkew` of each other and two of them are
2^31 less than that multiple apart. -/
theorem filter_follows_iff {pod : Pod} {c : TopologySpreadConstraint} {snapshot : ClusterSnapshot} {node : Node}
    {target : Bytes} (one : pod.topologySpread.filter (·.whenUnsatisfiable = .doNotSchedule) = [c])
    (positive : 1 ≤ c.maxSkew) (noMin : c.minDomains = none) (mem : node ∈ snapshot.nodes)
    (eligible : nodeEligible c pod node = true) (label : node.labels.lookup c.topologyKey = some target) :
    (filter pod node snapshot = .success ↔ Allowed c snapshot pod target) ↔
      Spread c snapshot pod target c.maxSkew ∨
      (Allowed c snapshot pod target ↔ ∃ turns : ℕ, 1 ≤ turns ∧
        Spread c snapshot pod target (turns * 2 ^ 32 + c.maxSkew) ∧
          ¬ Spread c snapshot pod target (turns * 2 ^ 32 - 2 ^ 31 - 1)) := by
  have here : IsDomain c snapshot pod target := ⟨node, mem, by rw [domainOf, if_pos eligible, label]⟩
  obtain ⟨d, e, ends, skew⟩ := projectedSkew_eq here
  have above := ends.least d ends.domains.1
  rw [filter_iff one label, noMin, skew, wrap_le_iff above]
  simp only [← ends.spread_iff]
  by_cases spread : Spread c snapshot pod target c.maxSkew
  · refine iff_of_true (iff_of_true ⟨0, ?_, ?_⟩ (allowed_of_spread positive here spread)) (.inl spread)
    · simpa using spread
    · rw [ends.spread_iff]
      omega
  · -- then the node is accepted by a later turn or not at all
    rw [or_iff_right spread, @Iff.comm (Allowed c snapshot pod target)]
    refine iff_congr (exists_congr fun turns => ?_) Iff.rfl
    rw [iff_and_self]
    rintro ⟨within, -⟩
    refine Nat.one_le_iff_ne_zero.mpr fun zero => spread ?_
    simpa [zero] using within

/-- A node of the zone `zone`. -/
def nodeIn (name zone : Bytes) : Node := ⟨name, .ready, AList.insert [122] zone ∅, []⟩

/-- A constraint on zones. -/
def overZones : TopologySpreadConstraint := { maxSkew := 1, topologyKey := [122] }

/-- A pod without labels that is spread over zones. -/
def spreadPod : Pod := { namespaceName := [], topologySpread := [overZones] }

/-- Two zones with one pod and with two. -/
def twoZones : ClusterSnapshot where
  nodes := [nodeIn [110] [97], nodeIn [109] [98]]
  podsByNode := AList.insert [109] (List.replicate 2 spreadPod) (AList.insert [110] [spreadPod] ∅)

/-- The pod may be placed in the zone with one pod. -/
theorem filter_follows_two_zones :
    domainCount overZones twoZones spreadPod [97] = 1 ∧ domainCount overZones twoZones spreadPod [98] = 2 ∧
      filter spreadPod (nodeIn [110] [97]) twoZones = .success ∧
      (filter spreadPod (nodeIn [110] [97]) twoZones = .success ↔ Allowed overZones twoZones spreadPod [97]) := by
  refine ⟨rfl, rfl, (filter_iff rfl rfl).mpr (by decide), ?_⟩
  refine (filter_follows_iff rfl (by decide) rfl List.mem_cons_self rfl rfl).mpr (.inl ?_)
  have zones : ∀ d, IsDomain overZones twoZones spreadPod d → d = [97] ∨ d = [98] := by
    rintro d ⟨n, mem, eq⟩
    rcases List.mem_pair.mp mem with rfl | rfl
    · exact .inl (Option.some.inj eq).symm
    · exact .inr (Option.some.inj eq).symm
  intro d e isD isE
  rcases zones d isD with rfl | rfl <;> rcases zones e isE with rfl | rfl <;> decide

/-- Two zones with no pod and with three. -/
def unbalanced : ClusterSnapshot where
  nodes := [nodeIn [110] [97], nodeIn [109] [98]]
  podsByNode := AList.insert [109] (List.replicate 3 spreadPod) ∅

/-- The empty zone is refused, though the definition allows it. -/
theorem filter_refuses_emptiest :
    filter spreadPod (nodeIn [110] [97]) unbalanced ≠ .success ∧ Allowed overZones unbalanced spreadPod [97] := by
  refine ⟨fun accepted => ?_, fun d _ => ?_⟩
  · have le := (filter_iff rfl rfl).mp accepted
    exact absurd le (by decide)
  · have empty : domainCount overZones unbalanced spreadPod [97] = 0 := rfl
    have one : overZones.maxSkew = 1 := rfl
    rw [empty, one]
    omega

end Scheduler.Topology
