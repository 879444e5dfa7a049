import CaveRuntime.Common.Total
import CaveRuntime.Scheduler.Preempt
import Mathlib.Algebra.Order.BigOperators.Group.List
import Mathlib.Algebra.Order.Group.Nat
import Mathlib.Data.List.Infix

/-!
# The scheduler's cache

Model of `cave-scheduler/src/cache.rs`. A pod that is assumed to be on a node, or bound to it, has its resources
reserved there. The reservations are kept node by node: what a pod asks for is added when it comes and subtracted,
not below zero, when it goes, and a node with nothing reserved has no entry. Sums are those of `u64`.
-/

namespace Scheduler
open Utf8

abbrev Uuid := BitVec 128

structure CachedPod where
  uid : Uuid
  name : Bytes
  namespaceName : Bytes
  nodeName : Bytes
  resources : ResourceRequest
  assumedAt : Option ℤ

def CachedPod.isAssumed (p : CachedPod) : Bool := p.assumedAt.isSome

structure CacheConfig where
  assumedTtl : ℤ

inductive CacheError
  | podAlreadyKnown (uid : Uuid)
  | podNotFound (uid : Uuid)
  | podNotAssumed (uid : Uuid)
  | nodeNotMatched (expected got : Bytes)

/-- The order in which the pods are visited. -/
abbrev PodOrder := Order (Sigma fun _ : Uuid => CachedPod)

structure SchedulerCache where
  pods : Table Uuid CachedPod := ∅
  reserved : Table Bytes ResourceRequest := ∅

namespace SchedulerCache

variable (s : SchedulerCache)

def nodeReserved (nodeName : Bytes) : ResourceRequest := (s.reserved.lookup nodeName).getD ⟨0, 0⟩

def addToNodeReserved (node : Bytes) (r : ResourceRequest) : SchedulerCache :=
  let entry := s.nodeReserved node
  { s with
    reserved := s.reserved.insert node
      ⟨(entry.cpuMillicores + r.cpuMillicores) % 2 ^ 64, (entry.memoryBytes + r.memoryBytes) % 2 ^ 64⟩ }

def subtractFromNodeReserved (node : Bytes) (r : ResourceRequest) : SchedulerCache :=
  match s.reserved.lookup node with
  | none => s
  | some entry =>
    let cpu := entry.cpuMillicores - r.cpuMillicores
    let memory := entry.memoryBytes - r.memoryBytes
    if cpu = 0 ∧ memory = 0 then { s with reserved := s.reserved.erase node }
    else { s with reserved := s.reserved.insert node ⟨cpu, memory⟩ }

def assumePod (pod : CachedPod) (now : ℤ) : Except CacheError Unit × SchedulerCache :=
  if (s.pods.lookup pod.uid).isSome then (.error (.podAlreadyKnown pod.uid), s)
  else
    let p := { pod with assumedAt := some now }
    let s := s.addToNodeReserved p.nodeName p.resources
    (.ok (), { s with pods := s.pods.insert p.uid p })

def finishBinding (uid : Uuid) (nodeName : Bytes) : Except CacheError Unit × SchedulerCache :=
  match s.pods.lookup uid with
  | none => (.error (.podNotFound uid), s)
  | some pod =>
    if !pod.isAssumed then (.error (.podNotAssumed uid), s)
    else if pod.nodeName ≠ nodeName then (.error (.nodeNotMatched pod.nodeName nodeName), s)
    else (.ok (), { s with pods := s.pods.insert uid { pod with assumedAt := none } })

/-- A pod is taken out with its reservation, whether it is assumed or bound. -/
def takeOut (uid : Uuid) : Except CacheError CachedPod × SchedulerCache :=
  match s.pods.lookup uid with
  | none => (.error (.podNotFound uid), s)
  | some pod =>
    (.ok pod, { s with pods := s.pods.erase uid }.subtractFromNodeReserved pod.nodeName pod.resources)

def forgetPod (uid : Uuid) : Except CacheError CachedPod × SchedulerCache := s.takeOut uid

def removePod (uid : Uuid) : Except CacheError CachedPod × SchedulerCache := s.takeOut uid

/-- The assumed pods that are too old, as the map is visited. -/
def stale (visit : PodOrder) (now : ℤ) (cfg : CacheConfig) : List Uuid :=
  (visit.visit s.pods.entries).filterMap fun e =>
    match e.2.assumedAt with
    | some t => if cfg.assumedTtl ≤ now - t then some e.1 else none
    | none => none

def cleanupAssumedPods (visit : PodOrder) (now : ℤ) (cfg : CacheConfig) :
    List Uuid × SchedulerCache :=
  let stale := s.stale visit now cfg
  (stale.insertionSort (· ≤ ·), stale.foldl (fun s uid => (s.forgetPod uid).2) s)

end SchedulerCache

inductive CacheCall
  | assumePod (pod : CachedPod) (now : ℤ)
  | finishBinding (uid : Uuid) (nodeName : Bytes)
  | forgetPod (uid : Uuid)
  | removePod (uid : Uuid)
  | cleanupAssumedPods (visit : PodOrder) (now : ℤ) (cfg : CacheConfig)

/-- The error of a call, if it has one. -/
def errorOf {α : Type} : Except CacheError α → Option CacheError
  | .ok _ => none
  | .error e => some e

namespace SchedulerCache

/-- What a call gives: its error and the state after it. -/
def call (s : SchedulerCache) : CacheCall → Option CacheError × SchedulerCache
  | .assumePod pod now => (s.assumePod pod now).map errorOf id
  | .finishBinding uid nodeName => (s.finishBinding uid nodeName).map errorOf id
  | .forgetPod uid => (s.forgetPod uid).map errorOf id
  | .removePod uid => (s.removePod uid).map errorOf id
  | .cleanupAssumedPods visit now cfg => (none, (s.cleanupAssumedPods visit now cfg).2)

/-- The cache after some calls on a new one. -/
def run (calls : List CacheCall) : SchedulerCache := calls.foldl (fun s c => (s.call c).2) {}

/-- What a pod asks for of one resource on a node. -/
def demand (amount : ResourceRequest → ℕ) (node : Bytes) (p : CachedPod) : ℕ :=
  if p.nodeName = node then amount p.resources else 0

/-- What the pods on a node ask for of one resource. -/
def sumOn (s : SchedulerCache) (amount : ResourceRequest → ℕ) (node : Bytes) : ℕ :=
  Table.total (demand amount node) s.pods

/-- The sums of every node fit in `u64`. -/
def Within (s : SchedulerCache) : Prop :=
  ∀ node, s.sumOn (·.cpuMillicores) node < 2 ^ 64 ∧ s.sumOn (·.memoryBytes) node < 2 ^ 64

/-- The reservations are the sums. -/
def Exact (s : SchedulerCache) : Prop :=
  ∀ node, s.nodeReserved node = ⟨s.sumOn (·.cpuMillicores) node, s.sumOn (·.memoryBytes) node⟩

variable {s : SchedulerCache}

/-! ## One pod more or less -/

lemma nodeReserved_add (node node' : Bytes) (r : ResourceRequest) :
    (s.addToNodeReserved node r).nodeReserved node' =
      if node' = node then
        ⟨((s.nodeReserved node).cpuMillicores + r.cpuMillicores) % 2 ^ 64,
          ((s.nodeReserved node).memoryBytes + r.memoryBytes) % 2 ^ 64⟩
      else s.nodeReserved node' := by
  rw [nodeReserved, addToNodeReserved, Table.lookup_insert_eq]
  split
  · rfl
  · rfl

/-- A node without an entry has nothing reserved, so that in all cases the difference is what is left. -/
lemma nodeReserved_subtract (node node' : Bytes) (r : ResourceRequest) :
    (s.subtractFromNodeReserved node r).nodeReserved node' =
      if node' = node then
        ⟨(s.nodeReserved node).cpuMillicores - r.cpuMillicores, (s.nodeReserved node).memoryBytes - r.memoryBytes⟩
      else s.nodeReserved node' := by
  unfold subtractFromNodeReserved
  cases look : s.reserved.lookup node with
  | none =>
    dsimp only
    split
    · rename_i eq
      rw [eq, nodeReserved, look]
      simp
    · rfl
  | some entry =>
    have value : s.nodeReserved node = entry := by rw [nodeReserved, look]; rfl
    dsimp only
    split
    · rename_i zero
      rw [nodeReserved, Table.lookup_erase_eq, value, zero.1, zero.2]
      split
      · rfl
      · rfl
    · rw [nodeReserved, Table.lookup_insert_eq, value]
      split
      · rfl
      · rfl

@[simp] lemma pods_subtract (node : Bytes) (r : ResourceRequest) :
    (s.subtractFromNodeReserved node r).pods = s.pods := by
  unfold subtractFromNodeReserved
  split
  · rfl
  · dsimp only
    split
    · rfl
    · rfl

/-- What a state with one pod more has, if the reservation was exact before. -/
lemma Exact.assumePod (exact_ : s.Exact) (pod : CachedPod) (now : ℤ) (within : (s.assumePod pod now).2.Within) :
    (s.assumePod pod now).2.Exact := by
  unfold SchedulerCache.assumePod at within ⊢
  split
  · exact exact_
  rename_i new
  rw [if_neg new] at within
  intro node
  have fits := within node
  have sums (amount : ResourceRequest → ℕ) :
      Table.total (demand amount node) (s.pods.insert pod.uid { pod with assumedAt := some now }) =
        (if pod.nodeName = node then amount pod.resources else 0) + s.sumOn amount node := by
    rw [Table.total_insert, Table.total_erase_of_none _ (Option.not_isSome_iff_eq_none.mp new)]
    rfl
  change Table.total _ (s.pods.insert _ _) < _ ∧ Table.total _ (s.pods.insert _ _) < _ at fits
  change (s.addToNodeReserved _ _).nodeReserved node =
    ⟨Table.total _ (s.pods.insert _ _), Table.total _ (s.pods.insert _ _)⟩
  rw [sums, sums] at fits
  rw [sums, sums, nodeReserved_add, exact_ pod.nodeName]
  by_cases same : node = pod.nodeName
  · subst same
    rw [if_pos rfl, if_pos rfl] at fits
    rw [if_pos rfl, if_pos rfl, if_pos rfl]
    dsimp only
    rw [Nat.mod_eq_of_lt (by omega), Nat.mod_eq_of_lt (by omega), Nat.add_comm, Nat.add_comm (sumOn _ _ _)]
  · rw [if_neg same, if_neg (Ne.symm same), if_neg (Ne.symm same), Nat.zero_add, Nat.zero_add]
    exact exact_ node

lemma Exact.finishBinding (exact_ : s.Exact) (uid : Uuid) (nodeName : Bytes) :
    (s.finishBinding uid nodeName).2.Exact := by
  unfold SchedulerCache.finishBinding
  split
  · exact exact_
  rename_i pod look
  split
  · exact exact_
  split
  · exact exact_
  intro node
  have same (amount : ResourceRequest → ℕ) :
      Table.total (demand amount node) (s.pods.insert uid { pod with assumedAt := none }) = s.sumOn amount node := by
    rw [Table.total_insert, sumOn, Table.total_eq_add_erase _ look]
    rfl
  change s.nodeReserved node = ⟨Table.total _ (s.pods.insert _ _), Table.total _ (s.pods.insert _ _)⟩
  rw [same, same]
  exact exact_ node

/-- What goes was counted before, so that the subtraction does not stop at zero. -/
lemma Exact.takeOut (exact_ : s.Exact) (uid : Uuid) : (s.takeOut uid).2.Exact := by
  unfold SchedulerCache.takeOut
  split
  · exact exact_
  rename_i pod look
  intro node
  have sums (amount : ResourceRequest → ℕ) : s.sumOn amount node =
      (if pod.nodeName = node then amount pod.resources else 0) +
        Table.total (demand amount node) (s.pods.erase uid) :=
    Table.total_eq_add_erase _ look
  dsimp only
  rw [nodeReserved_subtract, sumOn, sumOn, pods_subtract]
  change (if node = pod.nodeName then ⟨(s.nodeReserved _).cpuMillicores - _, (s.nodeReserved _).memoryBytes - _⟩
    else s.nodeReserved node) = _
  rw [exact_ node]
  by_cases same : node = pod.nodeName
  · subst same
    rw [if_pos rfl, exact_ pod.nodeName]
    dsimp only
    -- the pod's own share is one of the two parts of each sum
    rw [sums, sums, if_pos rfl, if_pos rfl, Nat.add_sub_cancel_left, Nat.add_sub_cancel_left]
  · rw [if_neg same, sums, sums, if_neg (Ne.symm same), if_neg (Ne.symm same), Nat.zero_add, Nat.zero_add]

/-! ## Pods that are too old -/

/-- An assumed pod whose age has reached the limit. -/
def Overdue (p : CachedPod) (now : ℤ) (cfg : CacheConfig) : Prop :=
  ∃ t, p.assumedAt = some t ∧ cfg.assumedTtl ≤ now - t

lemma mem_stale {visit : PodOrder} {now : ℤ} {cfg : CacheConfig} {uid : Uuid} :
    uid ∈ s.stale visit now cfg ↔ ∃ p, s.pods.lookup uid = some p ∧ Overdue p now cfg := by
  rw [stale, List.mem_filterMap]
  constructor
  · rintro ⟨⟨key, p⟩, mem, eq⟩
    dsimp only at eq
    split at eq
    · rename_i t assumed
      split at eq
      · cases eq
        exact ⟨p, Table.mem_entries.mp (visit.mem_visit.mp mem), t, assumed, by assumption⟩
      · cases eq
    · cases eq
  · rintro ⟨p, look, t, assumed, old⟩
    refine ⟨⟨uid, p⟩, visit.mem_visit.mpr (Table.mem_entries.mpr look), ?_⟩
    dsimp only
    rw [assumed]
    exact if_pos old

lemma lookup_takeOut (uid uid' : Uuid) :
    (s.takeOut uid).2.pods.lookup uid' = if uid' = uid then none else s.pods.lookup uid' := by
  unfold takeOut
  split
  · rename_i none
    split
    · rename_i eq
      rw [eq, none]
    · rfl
  · rw [pods_subtract, Table.lookup_erase_eq]

lemma foldl_takeOut (uids : List Uuid) (s : SchedulerCache) :
    (s.Exact → (uids.foldl (fun s uid => (s.forgetPod uid).2) s).Exact) ∧
      ∀ uid, (uids.foldl (fun s uid => (s.forgetPod uid).2) s).pods.lookup uid =
        if uid ∈ uids then none else s.pods.lookup uid := by
  induction uids generalizing s with
  | nil => exact ⟨id, fun uid => (if_neg List.not_mem_nil).symm⟩
  | cons u uids ih =>
    obtain ⟨exact_, look⟩ := ih (s.forgetPod u).2
    refine ⟨fun before => exact_ (before.takeOut u), fun uid => ?_⟩
    rw [List.foldl_cons, look, forgetPod, lookup_takeOut]
    by_cases here : uid = u
    · simp [here]
    · simp [here]

/-! ## Whole histories -/

lemma Exact.call (exact_ : s.Exact) (c : CacheCall) (within : (s.call c).2.Within) : (s.call c).2.Exact := by
  cases c with
  | assumePod pod now => exact exact_.assumePod pod now within
  | finishBinding uid nodeName => exact exact_.finishBinding uid nodeName
  | forgetPod uid => exact exact_.takeOut uid
  | removePod uid => exact exact_.takeOut uid
  | cleanupAssumedPods visit now cfg => exact (foldl_takeOut _ s).1 exact_

lemma run_concat (calls : List CacheCall) (c : CacheCall) : run (calls ++ [c]) = ((run calls).call c).2 :=
  List.foldl_concat _ _ _ _

lemma exact_run (calls : List CacheCall) (within : ∀ before, before <+: calls → (run before).Within) :
    (run calls).Exact := by
  induction calls using List.reverseRecOn with
  | nil => exact fun node => rfl
  | append_singleton calls c ih =>
    have last := within _ List.prefix_rfl
    rw [run_concat] at last ⊢
    exact (ih fun before sub => within before (sub.trans (List.prefix_append _ _))).call c last

lemma takeOut_of_error {uid : Uuid} {e : CacheError}
    (failed : ((s.takeOut uid).map errorOf id).1 = some e) : ((s.takeOut uid).map errorOf id).2 = s := by
  unfold takeOut at failed ⊢
  split at failed
  · rfl
  · cases failed

lemma call_of_error {c : CacheCall} {e : CacheError} (failed : (s.call c).1 = some e) : (s.call c).2 = s := by
  cases c with
  | assumePod pod now =>
    simp only [SchedulerCache.call, SchedulerCache.assumePod] at failed ⊢
    split at failed
    · rename_i known
      rw [if_pos known]
      rfl
    · cases failed
  | finishBinding uid nodeName =>
    simp only [SchedulerCache.call, SchedulerCache.finishBinding] at failed ⊢
    split at failed
    · rfl
    split at failed
    · rename_i free
      rw [if_pos free]
      rfl
    split at failed
    · rename_i bound other
      rw [if_neg bound, if_pos other]
      rfl
    · cases failed
  | forgetPod uid => exact takeOut_of_error failed
  | removePod uid => exact takeOut_of_error failed
  | cleanupAssumedPods visit now cfg => cases failed

/-- After any calls within `u64` what is reserved on a node is the sum over its pods, a call that fails changes
nothing, and a clean-up removes exactly the assumed pods whose age has reached the limit. -/
theorem cache_reservations_exact (calls : List CacheCall)
    (within : ∀ before, before <+: calls → (run before).Within) :
    (∀ node, (run calls).nodeReserved node =
      ⟨(run calls).sumOn (·.cpuMillicores) node,
        (run calls).sumOn (·.memoryBytes) node⟩) ∧
    (∀ c e, ((run calls).call c).1 = some e →
      ((run calls).call c).2 = run calls) ∧
    ∀ visit now cfg,
      (∀ uid, uid ∈ ((run calls).cleanupAssumedPods visit now cfg).1 ↔
        ∃ p, (run calls).pods.lookup uid = some p ∧ Overdue p now cfg) ∧
      ∀ uid p, ((run calls).cleanupAssumedPods visit now cfg).2.pods.lookup uid = some p ↔
        (run calls).pods.lookup uid = some p ∧ ¬ Overdue p now cfg := by
  refine ⟨exact_run calls within, fun c e => call_of_error, ?_⟩
  intro visit now cfg
  refine ⟨fun uid => ?_, fun uid p => ?_⟩
  · rw [cleanupAssumedPods, List.mem_insertionSort]
    exact mem_stale
  · rw [cleanupAssumedPods, (foldl_takeOut _ _).2]
    split
    · rename_i mem
      obtain ⟨p', look, old⟩ := mem_stale.mp mem
      refine iff_of_false nofun ?_
      rintro ⟨look', young⟩
      rw [look] at look'
      cases look'
      exact young old
    · rename_i out
      refine ⟨fun look => ⟨look, fun old => ?_⟩, And.left⟩
      exact out (mem_stale.mpr ⟨p, look, old⟩)

lemma within_of_total {s : SchedulerCache} (cpu : Table.total (·.resources.cpuMillicores) s.pods < 2 ^ 64)
    (memory : Table.total (·.resources.memoryBytes) s.pods < 2 ^ 64) : s.Within := by
  have le (amount : ResourceRequest → ℕ) (node : Bytes) :
      s.sumOn amount node ≤ Table.total (fun p => amount p.resources) s.pods := by
    refine List.sum_le_sum fun e _ => ?_
    unfold demand
    split
    · exact Nat.le_refl _
    · exact Nat.zero_le _
  exact fun node => ⟨(le _ node).trans_lt cpu, (le _ node).trans_lt memory⟩

/-- Two pods are assumed on one node, one is removed, and the other is cleaned up when it is too old. -/
def twoPods : List CacheCall :=
  [.assumePod ⟨1, [112], [], [110], ⟨4, 8⟩, none⟩ 0, .assumePod ⟨2, [113], [], [110], ⟨3, 5⟩, none⟩ 10, .removePod 1,
    .cleanupAssumedPods .asIs 40 ⟨30⟩]

theorem cache_reservations_exact_two :
    (run (twoPods.take 2)).nodeReserved [110] = ⟨7, 13⟩ ∧ (run (twoPods.take 3)).nodeReserved [110] = ⟨3, 5⟩ ∧
      2 ∈ ((run (twoPods.take 3)).cleanupAssumedPods .asIs 40 ⟨30⟩).1 ∧
      (run twoPods).nodeReserved [110] = ⟨0, 0⟩ := by
  have within (n : ℕ) (before : List CacheCall) (part : before <+: twoPods.take n) : (run before).Within := by
    have small : ∀ calls ∈ twoPods.inits, Table.total (·.resources.cpuMillicores) (run calls).pods < 2 ^ 64 ∧
        Table.total (·.resources.memoryBytes) (run calls).pods < 2 ^ 64 := by decide
    obtain ⟨cpu, memory⟩ := small before ((List.mem_inits _ _).mpr (part.trans (List.take_prefix n twoPods)))
    exact within_of_total cpu memory
  have three := cache_reservations_exact (twoPods.take 3) (within 3)
  refine ⟨(cache_reservations_exact _ (within 2)).1 [110], three.1 [110], ?_, ?_⟩
  · exact ((three.2.2 .asIs 40 ⟨30⟩).1 2).mpr ⟨_, rfl, 10, rfl, by decide⟩
  · exact (cache_reservations_exact _ (within 4)).1 [110]

end SchedulerCache

end Scheduler
