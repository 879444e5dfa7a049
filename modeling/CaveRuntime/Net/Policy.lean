import CaveRuntime.Common.LastWrite
import CaveRuntime.Net.Selector
import Mathlib.Data.List.Destutter

/-!
# Network policies

Model of the distillery of `cave-net/src/cilium/policy.rs`. The rules that apply to an endpoint write into one map
from peers, ports and protocols to verdicts. All verdicts are to allow, but the redirect port is that of the last
rule which writes to a key; so the order of the rules does not matter exactly if no two of them end with different
redirect ports for one key.
-/

namespace Net
open LastWrite Utf8

inductive Entity
  | all
  | world
  | worldIPv4
  | worldIPv6
  | host
  | remoteNode
  | cluster
  | init
  | unmanaged
  | health
  | kubeApiServer
  | ingress

def idAll : ℕ := 0

def idWorld : ℕ := 2

def Entity.toIdentity : Entity → Option ℕ
  | .all => some idAll
  | .world => some idWorld
  | .worldIPv4 => some 9
  | .worldIPv6 => some 10
  | .host => some 1
  | .remoteNode => some 6
  | .init => some 5
  | .unmanaged => some 3
  | .health => some 4
  | .kubeApiServer => some 7
  | .ingress => some 8
  | .cluster => none

structure CidrRule where
  cidr : Bytes
  except : List Bytes

inductive L4Protocol
  | tcp
  | udp
  | sctp
  | icmp
  | any
deriving DecidableEq

structure PortProtocol where
  port : ℕ
  protocol : L4Protocol

structure IcmpRule where
  icmpType : ℕ

structure PortRule where
  ports : List PortProtocol := []
  l7RedirectPort : Option ℕ := none

/-- `IngressRule` and `EgressRule` have the same fields, for the peers that packets come from or go to. -/
structure PeerRule where
  endpoints : List EndpointSelector := []
  cidr : List CidrRule := []
  entities : List Entity := []
  requires : List EndpointSelector := []
  toPorts : List PortRule := []
  icmps : List IcmpRule := []

structure Rule where
  tenant : Bytes
  endpointSelector : EndpointSelector := {}
  ingress : List PeerRule := []
  egress : List PeerRule := []

def Rule.appliesTo (rule : Rule) (labels : LabelSet) : Bool := rule.endpointSelector.matches labels

inductive PolicyEnforcementMode
  | default
  | always
  | never
deriving DecidableEq

inductive Direction
  | ingress
  | egress
deriving DecidableEq

structure PolicyKey where
  peerIdentity : ℕ
  port : ℕ
  protocol : L4Protocol
  direction : Direction
deriving DecidableEq

inductive Verdict
  | allow
  | deny
deriving DecidableEq

structure PolicyEntry where
  verdict : Verdict
  l7RedirectPort : Option ℕ
  audit : Bool
deriving DecidableEq

structure PolicyMap where
  ingressEnforced : Bool := false
  egressEnforced : Bool := false
  entries : Table PolicyKey PolicyEntry := ∅

inductive PolicyError
  | tenantDenied (tenant : Bytes)

/-- The entry that `allow` writes. -/
def allowed (l7 : Option ℕ) : PolicyEntry := ⟨.allow, l7, false⟩

namespace PolicyMap

variable (map : PolicyMap)

def allow (key : PolicyKey) (l7 : Option ℕ) : PolicyMap := { map with entries := map.entries.insert key (allowed l7) }

def lookup (peer port : ℕ) (proto : L4Protocol) (dir : Direction) : PolicyEntry :=
  let default : PolicyEntry :=
    ⟨if (match dir with | .ingress => map.ingressEnforced | .egress => map.egressEnforced) then .deny else .allow,
      none, false⟩
  (map.entries.lookup ⟨peer, port, proto, dir⟩).getD <|
  (map.entries.lookup ⟨peer, 0, proto, dir⟩).getD <|
  (map.entries.lookup ⟨peer, port, .any, dir⟩).getD <|
  (map.entries.lookup ⟨peer, 0, .any, dir⟩).getD <|
  (map.entries.lookup ⟨idAll, 0, .any, dir⟩).getD default

end PolicyMap

structure IdentityResolver where
  labelsFor : ℕ → Option LabelSet
  allIdentities : List ℕ

section Distill

variable (resolver : IdentityResolver)

def expandEntities (entities : List Entity) : List ℕ :=
  entities.flatMap fun e =>
    match e with
    | .cluster => resolver.allIdentities
    | other => other.toIdentity.toList

def expandEndpointSelectors (selectors requires : List EndpointSelector) : List ℕ :=
  if selectors.isEmpty then []
  else
    resolver.allIdentities.filter fun id =>
      match resolver.labelsFor id with
      | none => false
      | some labels => selectors.any (·.matches labels) && requires.all (·.matches labels)

/-- `collect_peers_ingress` and `collect_peers_egress`. -/
def collectPeers (rule : PeerRule) : List ℕ :=
  let peers := expandEntities resolver rule.entities ++
    expandEndpointSelectors resolver rule.endpoints rule.requires ++ if rule.cidr.isEmpty then [] else [idWorld]
  (peers.insertionSort (· ≤ ·)).destutter (· ≠ ·)

/-- The keys that `write_port_entries` writes to, one after the other, each with its redirect port. -/
def portEntries (peers : List ℕ) (toPorts : List PortRule) (icmps : List IcmpRule) (dir : Direction) :
    List (PolicyKey × Option ℕ) :=
  if toPorts.isEmpty && icmps.isEmpty then peers.map fun peer => (⟨peer, 0, .any, dir⟩, none)
  else
    (toPorts.flatMap fun pr =>
      if pr.ports.isEmpty then peers.map fun peer => (⟨peer, 0, .any, dir⟩, pr.l7RedirectPort)
      else pr.ports.flatMap fun pp =>
        peers.map fun peer => (⟨peer, pp.port, pp.protocol, dir⟩, pr.l7RedirectPort)) ++
    icmps.flatMap fun ic => peers.map fun peer => (⟨peer, ic.icmpType, .icmp, dir⟩, none)

def writePortEntries (peers : List ℕ) (toPorts : List PortRule) (icmps : List IcmpRule) (dir : Direction)
    (map : PolicyMap) : PolicyMap :=
  (portEntries peers toPorts icmps dir).foldl (fun map w => map.allow w.1 w.2) map

/-- `distill_ingress` and `distill_egress`. -/
def distillPeers (dir : Direction) (map : PolicyMap) (rule : PeerRule) : PolicyMap :=
  writePortEntries (collectPeers resolver rule) rule.toPorts rule.icmps dir map

def distillIngress : PolicyMap → PeerRule → PolicyMap := distillPeers resolver .ingress

def distillEgress : PolicyMap → PeerRule → PolicyMap := distillPeers resolver .egress

variable (tenant : Bytes) (endpointLabels : LabelSet) (mode : PolicyEnforcementMode)

/-- What a rule that applies does. -/
def distillRule (map : PolicyMap) (rule : Rule) : PolicyMap :=
  let map := { map with
    ingressEnforced := map.ingressEnforced || (!rule.ingress.isEmpty && mode = .default)
    egressEnforced := map.egressEnforced || (!rule.egress.isEmpty && mode = .default) }
  rule.egress.foldl (distillEgress resolver) (rule.ingress.foldl (distillIngress resolver) map)

def distillRules : List Rule → PolicyMap → Except PolicyError PolicyMap
  | [], map => .ok map
  | rule :: rules, map =>
    if rule.tenant ≠ tenant then .error (.tenantDenied tenant)
    else if !rule.appliesTo endpointLabels then distillRules rules map
    else distillRules rules (distillRule resolver mode map rule)

def distill (rules : List Rule) : Except PolicyError PolicyMap :=
  let map : PolicyMap := { ingressEnforced := mode = .always, egressEnforced := mode = .always }
  if mode = .never then .ok map else distillRules resolver tenant endpointLabels mode rules map

/-! ## What is written -/

/-- The writes of some peers' rules, in order. -/
def peerWrites (dir : Direction) (rules : List PeerRule) : List (PolicyKey × Option ℕ) :=
  rules.flatMap fun r => portEntries (collectPeers resolver r) r.toPorts r.icmps dir

/-- The writes of a rule, in order. -/
def ruleWrites (rule : Rule) : List (PolicyKey × Option ℕ) :=
  peerWrites resolver .ingress rule.ingress ++ peerWrites resolver .egress rule.egress

/-- The map for some rules that apply: an enforced direction is one that a rule has, and keys have what is written
to them last. -/
def mapOf (rules : List Rule) : PolicyMap where
  ingressEnforced := mode = .always || (rules.any (!·.ingress.isEmpty) && mode = .default)
  egressEnforced := mode = .always || (rules.any (!·.egress.isEmpty) && mode = .default)
  entries := (rules.flatMap (ruleWrites resolver)).foldl (fun t w => t.insert w.1 (allowed w.2)) ∅

variable {resolver tenant endpointLabels mode}

/-- A run of `allow` changes the entries only, one after the other. -/
lemma foldl_allow (ws : List (PolicyKey × Option ℕ)) (map : PolicyMap) :
    ws.foldl (fun map w => map.allow w.1 w.2) map =
      { map with entries := ws.foldl (fun t w => t.insert w.1 (allowed w.2)) map.entries } := by
  induction ws generalizing map with
  | nil => rfl
  | cons w ws ih =>
    rw [List.foldl_cons, ih]
    rfl

/-- The loops over peers and ports make the writes of `peerWrites`. -/
lemma foldl_distillPeers (dir : Direction) (rules : List PeerRule) (map : PolicyMap) :
    rules.foldl (distillPeers resolver dir) map =
      { map with
        entries := (peerWrites resolver dir rules).foldl (fun t w => t.insert w.1 (allowed w.2)) map.entries } := by
  induction rules generalizing map with
  | nil => rfl
  | cons r rules ih =>
    rw [List.foldl_cons, ih, distillPeers, writePortEntries, foldl_allow, peerWrites, peerWrites,
      List.flatMap_cons, List.foldl_append]

/-- One more rule puts its writes behind those before it. -/
lemma distillRule_mapOf (before : List Rule) (rule : Rule) :
    distillRule resolver mode (mapOf resolver mode before) rule = mapOf resolver mode (before ++ [rule]) := by
  unfold distillRule distillIngress distillEgress
  rw [foldl_distillPeers, foldl_distillPeers]
  unfold mapOf
  simp only [List.any_append, List.any_cons, List.any_nil, List.flatMap_append, List.flatMap_singleton,
    List.foldl_append, ruleWrites, PolicyMap.mk.injEq, and_true, Bool.or_false]
  cases mode with
  | default => simp
  | always => simp
  | never => simp

/-- Distilling goes through the rules that apply, unless one belongs to another tenant. -/
lemma distillRules_eq (rules before : List Rule) :
    distillRules resolver tenant endpointLabels mode rules (mapOf resolver mode before) =
      if rules.all (·.tenant == tenant) then
        .ok (mapOf resolver mode (before ++ rules.filter (·.appliesTo endpointLabels)))
      else .error (.tenantDenied tenant) := by
  induction rules generalizing before with
  | nil =>
    rw [List.filter_nil, List.append_nil]
    rfl
  | cons rule rules ih =>
    rw [distillRules, List.all_cons]
    split
    · rename_i other
      rw [beq_eq_false_iff_ne.mpr other, Bool.false_and, if_neg Bool.false_ne_true]
    rename_i own
    rw [beq_iff_eq.mpr (not_ne_iff.mp own), Bool.true_and]
    split
    · rename_i no
      rw [ih, List.filter_cons_of_neg (by simpa using no)]
    · rename_i yes
      rw [distillRule_mapOf, ih, List.filter_cons_of_pos (by simpa using yes), List.append_assoc,
        List.singleton_append]

/-- Where the mode enforces anything, the map is that of the rules that apply. -/
lemma distill_eq (applied : mode ≠ .never) (rules : List Rule) :
    distill resolver tenant endpointLabels mode rules =
      if rules.all (·.tenant == tenant) then .ok (mapOf resolver mode (rules.filter (·.appliesTo endpointLabels)))
      else .error (.tenantDenied tenant) := by
  have start : (⟨mode = .always, mode = .always, ∅⟩ : PolicyMap) = mapOf resolver mode [] := by
    unfold mapOf
    simp
  rw [distill, if_neg applied, start, distillRules_eq]
  rfl

/-- The entry of a key is the last write to it. -/
lemma lookup_entries_mapOf (rules : List Rule) (key : PolicyKey) :
    (mapOf resolver mode rules).entries.lookup key =
      (last key (rules.flatMap (ruleWrites resolver))).map allowed := by
  rw [mapOf, lookup_foldl_insert, AList.lookup_empty, Option.or_none]

/-! ## The order of the rules -/

/-- Both fail alike, or the maps say the same of every packet. -/
def SameAnswers : Except PolicyError PolicyMap → Except PolicyError PolicyMap → Prop
  | .ok map, .ok map' => ∀ peer port proto dir,
      (map.lookup peer port proto dir).verdict = (map'.lookup peer port proto dir).verdict ∧
        (map.lookup peer port proto dir).l7RedirectPort = (map'.lookup peer port proto dir).l7RedirectPort
  | .error e, .error e' => e = e'
  | _, _ => False

/-- A lookup sees a map only through its two flags and its entries. -/
lemma sameAnswers_of_lookup {map map' : PolicyMap} (ingress : map.ingressEnforced = map'.ingressEnforced)
    (egress : map.egressEnforced = map'.egressEnforced)
    (entries : ∀ key, map.entries.lookup key = map'.entries.lookup key) : SameAnswers (.ok map) (.ok map') := by
  intro peer port proto dir
  unfold PolicyMap.lookup
  rw [entries, entries, entries, entries, entries, ingress, egress]
  exact ⟨rfl, rfl⟩

/-- A key that is written has its entry in the answer for the packet it describes. -/
lemma lookup_of_written {rules : List Rule} {key : PolicyKey} {l7 : Option ℕ}
    (written : last key (rules.flatMap (ruleWrites resolver)) = some l7) :
    ((mapOf resolver mode rules).lookup key.peerIdentity key.port key.protocol key.direction).l7RedirectPort =
      l7 := by
  unfold PolicyMap.lookup
  rw [lookup_entries_mapOf, written]
  rfl

/-- Rules that agree on the last write to each key may come in any order. -/
lemma sameAnswers_of_compatible {rules rules' : List Rule} (compatible : Compatible (ruleWrites resolver) rules)
    (perm : rules'.Perm rules) :
    SameAnswers (.ok (mapOf resolver mode rules)) (.ok (mapOf resolver mode rules')) := by
  refine sameAnswers_of_lookup ?_ ?_ fun key => ?_
  · dsimp only [mapOf]
    rw [perm.any_eq]
  · dsimp only [mapOf]
    rw [perm.any_eq]
  · rw [lookup_entries_mapOf, lookup_entries_mapOf, last_perm compatible perm]

/-- Each rule that applies can be made the last one, so that the answer is what it writes. -/
lemma redirect_of_orderFree {rules : List Rule} (applied : mode ≠ .never)
    (own : rules.all (·.tenant == tenant) = true)
    (free : ∀ rules', rules'.Perm rules → SameAnswers (distill resolver tenant endpointLabels mode rules)
      (distill resolver tenant endpointLabels mode rules'))
    {rule : Rule} {key : PolicyKey} {l7 : Option ℕ} (mem : rule ∈ rules.filter (·.appliesTo endpointLabels))
    (wrote : last key (ruleWrites resolver rule) = some l7) :
    ((mapOf resolver mode (rules.filter (·.appliesTo endpointLabels))).lookup key.peerIdentity key.port
      key.protocol key.direction).l7RedirectPort = l7 := by
  obtain ⟨there, applies⟩ := List.mem_filter.mp mem
  obtain ⟨before, after, rfl⟩ := List.append_of_mem there
  have perm : (before ++ after ++ [rule]).Perm (before ++ rule :: after) := by
    rw [List.append_assoc]
    exact (List.perm_append_singleton rule after).append_left before
  have agrees := free _ perm
  rw [distill_eq applied, distill_eq applied, perm.all_eq, own, if_pos rfl, if_pos rfl] at agrees
  rw [(agrees _ _ _ _).2]
  refine lookup_of_written ?_
  rw [List.filter_append, List.filter_cons, if_pos applies, List.filter_nil, List.flatMap_append, last_append,
    List.flatMap_singleton, wrote, Option.some_or]

end Distill

/-- Distilling does not depend on the order of the rules exactly if nothing is enforced, a rule belongs to another
tenant, or no two rules that apply end with different redirect ports for one key. -/
theorem distill_orderFree_iff (resolver : IdentityResolver) (tenant : Bytes) (endpointLabels : LabelSet)
    (mode : PolicyEnforcementMode) (rules : List Rule) :
    (∀ rules', rules'.Perm rules → SameAnswers (distill resolver tenant endpointLabels mode rules)
      (distill resolver tenant endpointLabels mode rules')) ↔
    mode = .never ∨ (∃ rule ∈ rules, rule.tenant ≠ tenant) ∨
      Compatible (ruleWrites resolver) (rules.filter (·.appliesTo endpointLabels)) := by
  by_cases never : mode = .never
  · refine iff_of_true (fun rules' _ => ?_) (.inl never)
    unfold distill
    rw [if_pos never, if_pos never]
    exact fun _ _ _ _ => ⟨rfl, rfl⟩
  cases own : rules.all (·.tenant == tenant) with
  | false =>
    have foreign : ∃ rule ∈ rules, rule.tenant ≠ tenant := by
      simpa [List.all_eq_false] using own
    refine iff_of_true (fun rules' perm => ?_) (.inr (.inl foreign))
    rw [distill_eq never, distill_eq never, perm.all_eq, own]
    exact rfl
  | true =>
    have none : ¬ ∃ rule ∈ rules, rule.tenant ≠ tenant := by
      simpa using own
    simp only [never, none, false_or]
    constructor
    · intro free a memA b memB key v v' wroteA wroteB
      exact (redirect_of_orderFree never own free memA wroteA).symm.trans
        (redirect_of_orderFree never own free memB wroteB)
    · intro compatible rules' perm
      rw [distill_eq never, distill_eq never, perm.all_eq, own, if_pos rfl, if_pos rfl]
      exact sameAnswers_of_compatible compatible (perm.filter _)

/-- Two rules for the same peer and port with different redirect ports. -/
theorem distill_order_matters :
    ∃ rules rules' : List Rule, rules'.Perm rules ∧
      ¬ SameAnswers (distill ⟨fun _ => none, []⟩ [] ⟨[]⟩ .default rules)
        (distill ⟨fun _ => none, []⟩ [] ⟨[]⟩ .default rules') := by
  refine ⟨[⟨[], {}, [{ entities := [.world], toPorts := [⟨[⟨80, .tcp⟩], some 1⟩] }], []⟩,
      ⟨[], {}, [{ entities := [.world], toPorts := [⟨[⟨80, .tcp⟩], some 2⟩] }], []⟩],
    [⟨[], {}, [{ entities := [.world], toPorts := [⟨[⟨80, .tcp⟩], some 2⟩] }], []⟩,
      ⟨[], {}, [{ entities := [.world], toPorts := [⟨[⟨80, .tcp⟩], some 1⟩] }], []⟩], .swap _ _ _, fun same => ?_⟩
  exact absurd (same 2 80 .tcp .ingress).2 (by decide)

end Net
