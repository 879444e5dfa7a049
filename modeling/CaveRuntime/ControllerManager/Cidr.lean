import CaveRuntime.Common.Run
import CaveRuntime.Common.Table
import CaveRuntime.Common.Text
import Mathlib.Data.Set.Defs
import Mathlib.Tactic.Ring.Basic

/-!
# Slices of the cluster's addresses

Model of `cave-controller-manager/src/cidrallocator.rs`. The pod addresses of a cluster are cut into slices of one
length, and a node gets the first slice that is free. Arithmetic on `u32` that would overflow, and an index outside
the slots, give `none`.
-/

namespace ControllerManager
open Text Utf8

inductive AllocatorError
  | invalidCidr (cidr : Bytes)
  | nodeMaskTooSmall (cluster node : ℕ)
  | exhausted (capacity : ℕ)
  | alreadyAssigned (what : Bytes)
  | outOfRange (cidr : Bytes)

structure NodeCidr where
  network : UInt32
  prefixLen : ℕ

def hostMask (prefixLen : ℕ) : UInt32 :=
  if prefixLen = 0 then 0 else ~~~((1 <<< UInt32.ofNat (32 - prefixLen)) - 1)

namespace NodeCidr

def display (c : NodeCidr) : Bytes :=
  let n := c.network.toNat
  decimal (n / 2 ^ 24) ++ word "." ++ decimal (n / 2 ^ 16 % 2 ^ 8) ++ word "." ++ decimal (n / 2 ^ 8 % 2 ^ 8) ++
    word "." ++ decimal (n % 2 ^ 8) ++ word "/" ++ decimal c.prefixLen

/-- `str::parse::<u8>`. -/
def parseU8 (b : Bytes) : Option ℕ := (parseU64 b).filter (· < 2 ^ 8)

def parse (s : Bytes) : Option NodeCidr :=
  match s.span (· != 47) with
  | (_, []) => none
  | (addr, _ :: len) => do
    let prefixLen ← parseU8 len
    if prefixLen > 32 then none
    else
      match ← (addr.splitOn 46).mapM parseU8 with
      | [a, b, c, d] =>
        let network := UInt32.ofNat (((a * 2 ^ 8 + b) * 2 ^ 8 + c) * 2 ^ 8 + d)
        some ⟨network &&& hostMask prefixLen, prefixLen⟩
      | _ => none

/-- The addresses of a slice. -/
def addresses (c : NodeCidr) : Set ℕ :=
  {a | c.network.toNat ≤ a ∧ a < c.network.toNat + 2 ^ (32 - c.prefixLen)}

end NodeCidr

structure CidrAllocator where
  clusterCidr : NodeCidr
  nodeMask : ℕ
  slots : List Bool
  assignments : Table Bytes ℕ := ∅

/-- `+` on `u32`. -/
def addU32 (a b : UInt32) : Option UInt32 := if a.toNat + b.toNat < 2 ^ 32 then some (a + b) else none

/-- `*` on `u32`. -/
def mulU32 (a b : UInt32) : Option UInt32 := if a.toNat * b.toNat < 2 ^ 32 then some (a * b) else none

/-- `-` on `u32`. -/
def subU32 (a b : UInt32) : Option UInt32 := if b ≤ a then some (a - b) else none

/-- `1u32 << (32 - node_mask)`. -/
def slotSize (nodeMask : ℕ) : Option UInt32 :=
  if nodeMask ≤ 32 ∧ 32 - nodeMask < 32 then some (1 <<< UInt32.ofNat (32 - nodeMask)) else none

namespace CidrAllocator

def new (clusterCidrStr : Bytes) (nodeMask : ℕ) : Except AllocatorError CidrAllocator :=
  match NodeCidr.parse clusterCidrStr with
  | none => .error (.invalidCidr clusterCidrStr)
  | some cluster =>
    if nodeMask ≤ cluster.prefixLen then .error (.nodeMaskTooSmall cluster.prefixLen nodeMask)
    else if nodeMask > 32 then .error (.invalidCidr (word "/" ++ decimal nodeMask))
    else
      -- the shift is by 32 at most, so that `checked_shl` on `usize` does not refuse it
      let raw := 2 ^ (nodeMask - cluster.prefixLen)
      let slotCount := if raw ≤ 1000000 then raw else 1000000
      .ok { clusterCidr := cluster, nodeMask, slots := List.replicate slotCount false }

variable (s : CidrAllocator)

def slotToCidr (slot : ℕ) : Option NodeCidr := do
  let size ← slotSize s.nodeMask
  let offset ← mulU32 (UInt32.ofNat slot) size
  let network ← addU32 s.clusterCidr.network offset
  some ⟨network, s.nodeMask⟩

def cidrToSlot (cidr : NodeCidr) : Option (Except AllocatorError ℕ) :=
  if cidr.prefixLen ≠ s.nodeMask then some (.error (.outOfRange cidr.display))
  else if cidr.network &&& hostMask s.clusterCidr.prefixLen ≠ s.clusterCidr.network then
    some (.error (.outOfRange cidr.display))
  else do
    let size ← slotSize s.nodeMask
    let offset ← subU32 cidr.network s.clusterCidr.network
    let slot := (offset / size).toNat
    if slot ≥ s.slots.length then some (.error (.outOfRange cidr.display)) else some (.ok slot)

/-- A node takes a slot. -/
def assign (nodeName : Bytes) (slot : ℕ) : CidrAllocator :=
  { s with slots := s.slots.set slot true, assignments := s.assignments.insert nodeName slot }

def allocate (nodeName : Bytes) : Option (Except AllocatorError NodeCidr × CidrAllocator) :=
  match s.assignments.lookup nodeName with
  | some slot => do
    let cidr ← s.slotToCidr slot
    some (.ok cidr, s)
  | none =>
    match s.slots.findIdx? (!·) with
    | none => some (.error (.exhausted s.slots.length), s)
    | some slot => do
      let cidr ← s.slotToCidr slot
      some (.ok cidr, s.assign nodeName slot)

def occupy (nodeName : Bytes) (cidr : NodeCidr) : Option (Except AllocatorError NodeCidr × CidrAllocator) := do
  match ← s.cidrToSlot cidr with
  | .error e => some (.error e, s)
  | .ok slot =>
    match s.assignments.lookup nodeName with
    | some existing =>
      if existing = slot then some (.ok cidr, s) else some (.error (.alreadyAssigned nodeName), s)
    | none =>
      match s.slots[slot]? with
      | none => none
      | some true => some (.error (.alreadyAssigned (word "slot " ++ decimal slot ++ word " occupied")), s)
      | some false => some (.ok cidr, s.assign nodeName slot)

def release (nodeName : Bytes) : Option CidrAllocator :=
  match s.assignments.lookup nodeName with
  | none => some s
  | some slot =>
    if slot < s.slots.length then
      some { s with slots := s.slots.set slot false, assignments := s.assignments.erase nodeName }
    else none

/-- `cidr_for`; the outer `none` is an overflow. -/
def cidrFor (nodeName : Bytes) : Option (Option NodeCidr) :=
  match s.assignments.lookup nodeName with
  | none => some none
  | some slot => (s.slotToCidr slot).map some

end CidrAllocator

inductive CidrCall
  | allocate (nodeName : Bytes)
  | occupy (nodeName : Bytes) (cidr : NodeCidr)
  | release (nodeName : Bytes)

/-- The state after a call. -/
def CidrAllocator.after (s : CidrAllocator) : CidrCall → Option CidrAllocator
  | .allocate nodeName => (s.allocate nodeName).map Prod.snd
  | .occupy nodeName cidr => (s.occupy nodeName cidr).map Prod.snd
  | .release nodeName => s.release nodeName

/-! ## Masks and shifts -/

lemma toNat_shift {bits : ℕ} (small : bits < 32) : ((1 : UInt32) <<< UInt32.ofNat bits).toNat = 2 ^ bits := by
  have less : 2 ^ bits < 2 ^ 32 := Nat.pow_lt_pow_right (by decide) small
  rw [UInt32.toNat_shiftLeft, UInt32.toNat_ofNat', Nat.mod_eq_of_lt (a := bits) (by omega), Nat.mod_eq_of_lt small,
    Nat.shiftLeft_eq]
  simpa using less

lemma slotSize_eq {nodeMask : ℕ} (low : 0 < nodeMask) (high : nodeMask ≤ 32) :
    ∃ size, slotSize nodeMask = some size ∧ size.toNat = 2 ^ (32 - nodeMask) :=
  ⟨_, if_pos ⟨high, by omega⟩, toNat_shift (by omega)⟩

lemma toNat_and_hostMask (n : UInt32) {len : ℕ} (le : len ≤ 32) :
    (n &&& hostMask len).toNat = n.toNat / 2 ^ (32 - len) * 2 ^ (32 - len) := by
  have small := n.toNat_lt
  unfold hostMask
  split
  · rename_i zero
    rw [zero, Nat.div_eq_of_lt small]
    simp
  · have shift := toNat_shift (show 32 - len < 32 by omega)
    have positive : 0 < 2 ^ (32 - len) := Nat.two_pow_pos _
    have one : ((1 : UInt32) <<< UInt32.ofNat (32 - len) - 1).toNat = 2 ^ (32 - len) - 1 := by
      rw [UInt32.toNat_sub_of_le, shift]
      · rfl
      · rw [UInt32.le_iff_toNat_le, shift]
        exact positive
    rw [UInt32.toNat_and, UInt32.toNat_not, one]
    apply Nat.eq_of_testBit_eq
    intro i
    rw [Nat.testBit_and, Nat.testBit_mul_two_pow, Nat.testBit_div_two_pow,
      show UInt32.size - 1 - (2 ^ (32 - len) - 1) = 2 ^ 32 - (2 ^ (32 - len) - 1 + 1) by
        simp only [UInt32.size]; omega,
      Nat.testBit_two_pow_sub_succ, Nat.testBit_two_pow_sub_one]
    · by_cases behind : i < 32 - len
      · simp [behind, Nat.not_le.mpr behind]
      · simp only [behind, decide_false, Bool.not_false, Bool.and_true, not_lt.mp behind, decide_true, Bool.true_and,
          Nat.sub_add_cancel (not_lt.mp behind)]
        by_cases top : i < 32
        · simp [top]
        · rw [Nat.testBit_lt_two_pow (lt_of_lt_of_le small (Nat.pow_le_pow_right (by decide) (not_lt.mp top)))]
          rfl
    · have := Nat.pow_le_pow_right (n := 2) (by decide) (show 32 - len ≤ 32 by omega)
      omega

lemma and_hostMask_aligned (n : UInt32) {len : ℕ} (le : len ≤ 32) :
    2 ^ (32 - len) ∣ (n &&& hostMask len).toNat := by
  rw [toNat_and_hostMask n le]
  exact dvd_mul_left _ _

/-! ## The invariant -/

/-- The cluster's addresses start at a multiple of their number, and slots and assignments say the same. -/
structure CidrAllocator.Inv (cluster : NodeCidr) (nodeMask : ℕ) (s : CidrAllocator) : Prop where
  clusterCidr : s.clusterCidr = cluster
  mask : s.nodeMask = nodeMask
  longer : cluster.prefixLen < nodeMask
  high : nodeMask ≤ 32
  aligned : 2 ^ (32 - cluster.prefixLen) ∣ cluster.network.toNat
  count : s.slots.length ≤ 2 ^ (nodeMask - cluster.prefixLen)
  marked : ∀ i, s.slots[i]? = some true ↔ ∃ n, s.assignments.lookup n = some i
  single : ∀ n n' i, s.assignments.lookup n = some i → s.assignments.lookup n' = some i → n = n'

lemma NodeCidr.parse_spec {str : Bytes} {c : NodeCidr} (parsed : NodeCidr.parse str = some c) :
    c.prefixLen ≤ 32 ∧ 2 ^ (32 - c.prefixLen) ∣ c.network.toNat := by
  unfold NodeCidr.parse at parsed
  split at parsed
  · cases parsed
  obtain ⟨len, -, parsed⟩ := Option.bind_eq_some_iff.mp parsed
  split at parsed
  · cases parsed
  rename_i le
  obtain ⟨octets, -, parsed⟩ := Option.bind_eq_some_iff.mp parsed
  split at parsed
  · cases parsed
    exact ⟨not_lt.mp le, and_hostMask_aligned _ (not_lt.mp le)⟩
  · cases parsed

namespace CidrAllocator.Inv

variable {cluster : NodeCidr} {nodeMask : ℕ} {s : CidrAllocator}

lemma new {str : Bytes} (accepted : CidrAllocator.new str nodeMask = .ok s) : s.Inv s.clusterCidr nodeMask := by
  unfold CidrAllocator.new at accepted
  split at accepted
  · cases accepted
  rename_i cluster parsed
  split at accepted
  · cases accepted
  split at accepted
  · cases accepted
  rename_i longer high
  cases accepted
  refine ⟨rfl, rfl, not_le.mp longer, not_lt.mp high, (NodeCidr.parse_spec parsed).2, ?_, ?_, nofun⟩
  · rw [List.length_replicate]
    split
    · exact le_rfl
    · rename_i more
      exact (not_le.mp more).le
  · intro i
    refine iff_of_false ?_ nofun
    simp [List.getElem?_replicate]

variable {n : Bytes} {slot : ℕ} {nodeName : Bytes} {c : NodeCidr} {s' : CidrAllocator}

section

variable (inv : s.Inv cluster nodeMask)

include inv

lemma lt_length (look : s.assignments.lookup n = some slot) :
    slot < s.slots.length :=
  (List.getElem?_eq_some_iff.mp ((inv.marked slot).mpr ⟨n, look⟩)).1

/-- The slices of all slots lie within the cluster's addresses, and these within 32 bits. -/
lemma bounds (lt : slot < s.slots.length) :
    (slot + 1) * 2 ^ (32 - nodeMask) ≤ 2 ^ (32 - cluster.prefixLen) ∧
      cluster.network.toNat + 2 ^ (32 - cluster.prefixLen) ≤ 2 ^ 32 := by
  have longer := inv.longer
  have high := inv.high
  constructor
  · calc (slot + 1) * 2 ^ (32 - nodeMask)
        ≤ 2 ^ (nodeMask - cluster.prefixLen) * 2 ^ (32 - nodeMask) :=
          Nat.mul_le_mul_right _ (lt.trans_le inv.count)
      _ = 2 ^ (32 - cluster.prefixLen) := by
          rw [← Nat.pow_add]
          congr 1
          omega
  · -- a multiple below 2^32 is at least one step below it
    obtain ⟨q, eq⟩ := inv.aligned
    have small := cluster.network.toNat_lt
    have whole : 2 ^ 32 = 2 ^ (32 - cluster.prefixLen) * 2 ^ cluster.prefixLen := by
      rw [← Nat.pow_add]
      congr 1
      omega
    rw [eq, whole] at small
    have less : q < 2 ^ cluster.prefixLen := Nat.lt_of_mul_lt_mul_left small
    rw [eq, whole, ← Nat.mul_succ]
    exact Nat.mul_le_mul_left _ less

lemma slotToCidr (lt : slot < s.slots.length) :
    ∃ c, s.slotToCidr slot = some c ∧ c.prefixLen = nodeMask ∧
      c.network.toNat = cluster.network.toNat + slot * 2 ^ (32 - nodeMask) := by
  obtain ⟨within, top⟩ := inv.bounds lt
  obtain ⟨size, sized, value⟩ := slotSize_eq (Nat.zero_lt_of_lt inv.longer) inv.high
  have positive : 0 < 2 ^ (32 - nodeMask) := Nat.two_pow_pos _
  rw [Nat.add_mul, Nat.one_mul] at within
  have index : (UInt32.ofNat slot).toNat = slot := by
    rw [UInt32.toNat_ofNat']
    refine Nat.mod_eq_of_lt ?_
    calc slot ≤ slot * 2 ^ (32 - nodeMask) := Nat.le_mul_of_pos_right _ positive
      _ < 2 ^ 32 := by omega
  have product : (UInt32.ofNat slot * size).toNat = slot * 2 ^ (32 - nodeMask) := by
    rw [UInt32.toNat_mul, index, value]
    exact Nat.mod_eq_of_lt (by omega)
  refine ⟨⟨cluster.network + UInt32.ofNat slot * size, nodeMask⟩, ?_, rfl, ?_⟩
  · unfold CidrAllocator.slotToCidr
    rw [inv.mask, inv.clusterCidr, sized, Option.bind_eq_bind, Option.bind_some, mulU32, index, value,
      if_pos (by omega), Option.bind_some, addU32, product, if_pos (by omega)]
    rfl
  · rw [UInt32.toNat_add, product]
    exact Nat.mod_eq_of_lt (by omega)

/-- A slice that has the mask and lies in the cluster's addresses is not before them, and its first address is one
of its slot's. -/
lemma cidrToSlot (cidr : NodeCidr) :
    (∃ e, s.cidrToSlot cidr = some (.error e)) ∨
      ∃ slot, s.cidrToSlot cidr = some (.ok slot) ∧ slot < s.slots.length ∧
        cluster.network.toNat + slot * 2 ^ (32 - nodeMask) ≤ cidr.network.toNat ∧
        cidr.network.toNat < cluster.network.toNat + slot * 2 ^ (32 - nodeMask) + 2 ^ (32 - nodeMask) := by
  unfold CidrAllocator.cidrToSlot
  split
  · exact .inl ⟨_, rfl⟩
  split
  · exact .inl ⟨_, rfl⟩
  rename_i inside
  obtain ⟨size, sized, value⟩ := slotSize_eq (Nat.zero_lt_of_lt inv.longer) inv.high
  have below : s.clusterCidr.network ≤ cidr.network := by
    have longer := inv.longer
    have high := inv.high
    rw [← not_ne_iff.mp inside, UInt32.le_iff_toNat_le, toNat_and_hostMask _ (by rw [inv.clusterCidr]; omega)]
    exact Nat.div_mul_le_self _ _
  rw [inv.mask, sized, Option.bind_eq_bind, Option.bind_some, subU32, if_pos below, Option.bind_some]
  dsimp only
  split
  · exact .inl ⟨_, rfl⟩
  · rename_i lt
    refine .inr ⟨_, rfl, not_le.mp lt, ?_⟩
    rw [inv.clusterCidr] at below ⊢
    rw [UInt32.toNat_div, UInt32.toNat_sub_of_le _ _ below, value]
    have before := UInt32.le_iff_toNat_le.mp below
    have quotient := Nat.div_add_mod' (cidr.network.toNat - cluster.network.toNat) (2 ^ (32 - nodeMask))
    have rest := Nat.mod_lt (cidr.network.toNat - cluster.network.toNat) (Nat.two_pow_pos (32 - nodeMask))
    constructor <;> omega

lemma assign (free : s.slots[slot]? = some false)
    (new : s.assignments.lookup nodeName = none) : (s.assign nodeName slot).Inv cluster nodeMask := by
  have nobody : ∀ n, s.assignments.lookup n ≠ some slot := by
    intro n look
    rw [(inv.marked slot).mpr ⟨n, look⟩] at free
    cases free
  refine ⟨inv.clusterCidr, inv.mask, inv.longer, inv.high, inv.aligned, ?_, ?_, ?_⟩
  · rw [CidrAllocator.assign, List.length_set]
    exact inv.count
  · intro i
    simp only [CidrAllocator.assign, Table.lookup_insert_eq, List.getElem?_set]
    by_cases same : slot = i
    · subst same
      rw [if_pos rfl, if_pos (List.getElem?_eq_some_iff.mp free).1]
      exact iff_of_true rfl ⟨nodeName, if_pos rfl⟩
    · rw [if_neg same, inv.marked]
      refine exists_congr fun n => ?_
      split
      · rename_i eq
        rw [eq, new, Option.some_inj]
        exact iff_of_false nofun same
      · rfl
  · intro n n' i look look'
    simp only [CidrAllocator.assign, Table.lookup_insert_eq] at look look'
    split at look
    · rename_i eq
      cases look
      split at look'
      · rename_i eq'
        exact eq.trans eq'.symm
      · exact absurd look' (nobody n')
    · split at look'
      · cases look'
        exact absurd look (nobody n)
      · exact inv.single n n' i look look'

lemma release (nodeName : Bytes) :
    ∃ s', s.release nodeName = some s' ∧ s'.Inv cluster nodeMask := by
  unfold CidrAllocator.release
  cases look : s.assignments.lookup nodeName with
  | none => exact ⟨s, rfl, inv⟩
  | some slot =>
    have lt := inv.lt_length look
    refine ⟨_, if_pos lt, inv.clusterCidr, inv.mask, inv.longer, inv.high, inv.aligned, ?_, ?_, ?_⟩
    · rw [List.length_set]
      exact inv.count
    · intro i
      simp only [Table.lookup_erase_eq, List.getElem?_set]
      by_cases same : slot = i
      · subst same
        rw [if_pos rfl, if_pos lt]
        refine iff_of_false nofun ?_
        rintro ⟨n, look'⟩
        split at look'
        · cases look'
        · rename_i ne
          exact ne (inv.single n nodeName slot look' look)
      · rw [if_neg same, inv.marked]
        refine exists_congr fun n => ?_
        split
        · rename_i eq
          rw [eq, look, Option.some_inj]
          exact iff_of_false same nofun
        · rfl
    · intro n n' i first second
      simp only [Table.lookup_erase_eq] at first second
      split at first
      · cases first
      split at second
      · cases second
      exact inv.single n n' i first second

lemma allocate (nodeName : Bytes) :
    ∃ r s', s.allocate nodeName = some (r, s') ∧ s'.Inv cluster nodeMask := by
  unfold CidrAllocator.allocate
  cases look : s.assignments.lookup nodeName with
  | some slot =>
    obtain ⟨c, eq, -⟩ := inv.slotToCidr (inv.lt_length look)
    exact ⟨.ok c, s, by dsimp only; rw [eq]; rfl, inv⟩
  | none =>
    cases found : s.slots.findIdx? (!·) with
    | none => exact ⟨_, s, rfl, inv⟩
    | some slot =>
      obtain ⟨lt, free, -⟩ := List.findIdx?_eq_some_iff_getElem.mp found
      obtain ⟨c, eq, -⟩ := inv.slotToCidr lt
      refine ⟨.ok c, s.assign nodeName slot, by dsimp only; rw [eq]; rfl, inv.assign ?_ look⟩
      rw [List.getElem?_eq_getElem lt]
      simpa using free

lemma occupy (nodeName : Bytes) (cidr : NodeCidr) :
    ∃ r s', s.occupy nodeName cidr = some (r, s') ∧ s'.Inv cluster nodeMask := by
  unfold CidrAllocator.occupy
  rcases inv.cidrToSlot cidr with ⟨e, eq⟩ | ⟨slot, eq, lt, -⟩
  · exact ⟨.error e, s, by rw [eq]; rfl, inv⟩
  rw [eq, Option.bind_eq_bind, Option.bind_some]
  dsimp only
  cases look : s.assignments.lookup nodeName with
  | some existing =>
    dsimp only
    split
    · exact ⟨_, s, rfl, inv⟩
    · exact ⟨_, s, rfl, inv⟩
  | none =>
    dsimp only
    cases mark : s.slots[slot]? with
    | none => exact absurd lt (not_lt.mpr (List.getElem?_eq_none_iff.mp mark))
    | some taken =>
      cases taken with
      | true => exact ⟨_, s, rfl, inv⟩
      | false => exact ⟨_, _, rfl, inv.assign mark look⟩

lemma after (call : CidrCall) :
    ∃ s', s.after call = some s' ∧ s'.Inv cluster nodeMask := by
  cases call with
  | allocate nodeName =>
    obtain ⟨r, s', eq, inv'⟩ := inv.allocate nodeName
    exact ⟨s', by rw [CidrAllocator.after, eq]; rfl, inv'⟩
  | occupy nodeName cidr =>
    obtain ⟨r, s', eq, inv'⟩ := inv.occupy nodeName cidr
    exact ⟨s', by rw [CidrAllocator.after, eq]; rfl, inv'⟩
  | release nodeName => exact inv.release nodeName

lemma run (calls : List CidrCall) :
    ∃ s', Run.run CidrAllocator.after s calls = some s' ∧ s'.Inv cluster nodeMask := by
  induction calls generalizing s with
  | nil => exact ⟨s, rfl, inv⟩
  | cons call calls ih =>
    obtain ⟨s₁, eq, inv₁⟩ := inv.after call
    obtain ⟨s₂, eq₂, inv₂⟩ := ih inv₁
    exact ⟨s₂, Run.run_cons.mpr ⟨s₁, eq, eq₂⟩, inv₂⟩

end

/-! ## What a state means -/

/-- A node with a slot has the slice of the slot. -/
lemma cidrFor_of_lookup (look : s.assignments.lookup n = some slot) (of : s.slotToCidr slot = some c) :
    s.cidrFor n = some (some c) := by
  rw [CidrAllocator.cidrFor, look]
  exact congrArg (Option.map some) of

lemma cidrFor (inv : s.Inv cluster nodeMask) (n : Bytes) : ∃ c, s.cidrFor n = some c := by
  cases look : s.assignments.lookup n with
  | none => exact ⟨none, by rw [CidrAllocator.cidrFor, look]⟩
  | some slot =>
    obtain ⟨c, eq, -⟩ := inv.slotToCidr (inv.lt_length look)
    exact ⟨some c, cidrFor_of_lookup look eq⟩

lemma slice (inv : s.Inv cluster nodeMask) (reported : s.cidrFor n = some (some c)) :
    ∃ slot, s.assignments.lookup n = some slot ∧ slot < s.slots.length ∧ c.prefixLen = nodeMask ∧
      c.network.toNat = cluster.network.toNat + slot * 2 ^ (32 - nodeMask) := by
  unfold CidrAllocator.cidrFor at reported
  split at reported
  · cases reported
  rename_i slot look
  have lt := inv.lt_length look
  obtain ⟨c', eq, spec⟩ := inv.slotToCidr lt
  rw [eq] at reported
  cases reported
  exact ⟨slot, look, lt, spec⟩

lemma cidrFor_assign_self (of : s.slotToCidr slot = some c) :
    (s.assign nodeName slot).cidrFor nodeName = some (some c) :=
  cidrFor_of_lookup (by rw [CidrAllocator.assign, Table.lookup_insert_eq, if_pos rfl]) of

lemma cidrFor_assign_other (nodeName : Bytes) (slot : ℕ) (other : n ≠ nodeName) :
    (s.assign nodeName slot).cidrFor n = s.cidrFor n := by
  unfold CidrAllocator.cidrFor CidrAllocator.assign
  rw [Table.lookup_insert_eq, if_neg other]
  rfl

/-- The slice that an allocation answers is the one the node has afterwards. -/
lemma cidrFor_of_allocate
    (done : s.allocate nodeName = some (.ok c, s')) :
    s'.cidrFor nodeName = some (some c) ∧ ∀ n, n ≠ nodeName → s'.cidrFor n = s.cidrFor n := by
  unfold CidrAllocator.allocate at done
  split at done
  · rename_i slot look
    obtain ⟨c', eq, same⟩ := Option.bind_eq_some_iff.mp done
    cases same
    exact ⟨cidrFor_of_lookup look eq, fun n _ => rfl⟩
  · split at done
    · cases done
    · obtain ⟨c', eq, same⟩ := Option.bind_eq_some_iff.mp done
      cases same
      exact ⟨cidrFor_assign_self eq, fun n => cidrFor_assign_other _ _⟩

variable (inv : s.Inv cluster nodeMask)

include inv

/-- A node that occupies a slice has the slot in which the slice starts. -/
lemma cidrFor_of_occupy {cidr : NodeCidr}
    (done : s.occupy nodeName cidr = some (.ok c, s')) :
    c = cidr ∧ (∃ own, s'.cidrFor nodeName = some (some own) ∧ cidr.network.toNat ∈ own.addresses) ∧
      ∀ n, n ≠ nodeName → s'.cidrFor n = s.cidrFor n := by
  unfold CidrAllocator.occupy at done
  rcases inv.cidrToSlot cidr with ⟨e, eq⟩ | ⟨slot, eq, lt, within⟩
  · rw [eq] at done
    cases done
  rw [eq, Option.bind_eq_bind, Option.bind_some] at done
  dsimp only at done
  obtain ⟨own, of, len, start⟩ := inv.slotToCidr lt
  have has : cidr.network.toNat ∈ own.addresses := by
    rw [NodeCidr.addresses, Set.mem_ofPred_eq, len, start]
    exact within
  split at done
  · rename_i existing look
    split at done
    · rename_i same
      cases done
      exact ⟨rfl, ⟨own, cidrFor_of_lookup look (same ▸ of), has⟩, fun n _ => rfl⟩
    · cases done
  · split at done
    · cases done
    · cases done
    · cases done
      exact ⟨rfl, ⟨own, cidrFor_assign_self of, has⟩, fun n => cidrFor_assign_other _ _⟩

lemma inside (reported : s.cidrFor n = some (some c)) :
    c.prefixLen = nodeMask ∧ c.addresses ⊆ cluster.addresses := by
  obtain ⟨slot, -, lt, len, start⟩ := inv.slice reported
  obtain ⟨within, -⟩ := inv.bounds lt
  rw [Nat.add_mul, Nat.one_mul] at within
  refine ⟨len, ?_⟩
  rintro a ⟨low, high⟩
  rw [len, start] at high
  rw [start] at low
  exact ⟨by omega, by omega⟩

lemma disjoint {n' : Bytes} {c' : NodeCidr}
    (reported : s.cidrFor n = some (some c)) (reported' : s.cidrFor n' = some (some c')) (different : n ≠ n') :
    ∀ a, a ∈ c.addresses → a ∉ c'.addresses := by
  obtain ⟨slot, look, -, len, start⟩ := inv.slice reported
  obtain ⟨slot', look', -, len', start'⟩ := inv.slice reported'
  rintro a ⟨low, high⟩ ⟨low', high'⟩
  rw [len, start] at high
  rw [len', start'] at high'
  rw [start] at low
  rw [start'] at low'
  -- the slot is the address within the cluster divided by the size
  have le {i j : ℕ} (lt : i * 2 ^ (32 - nodeMask) < j * 2 ^ (32 - nodeMask) + 2 ^ (32 - nodeMask)) : i ≤ j := by
    rw [← Nat.succ_mul] at lt
    exact Nat.le_of_lt_succ (Nat.lt_of_mul_lt_mul_right lt)
  have same : slot = slot' := le_antisymm (le (by omega)) (le (by omega))
  exact different (inv.single n n' slot look (same ▸ look'))

lemma taken_iff (i : ℕ) :
    s.slots[i]? = some true ↔ ∃! n, s.assignments.lookup n = some i := by
  rw [inv.marked]
  constructor
  · rintro ⟨n, look⟩
    exact ⟨n, look, fun n' look' => inv.single n' n i look' look⟩
  · rintro ⟨n, look, -⟩
    exact ⟨n, look⟩

lemma full_of_exhausted {k : ℕ}
    (refused : s.allocate n = some (.error (.exhausted k), s')) :
    ∀ i < s.slots.length, ∃ n, s.assignments.lookup n = some i := by
  unfold CidrAllocator.allocate at refused
  split at refused
  · rename_i slot look
    obtain ⟨c, eq, -⟩ := inv.slotToCidr (inv.lt_length look)
    rw [eq] at refused
    cases refused
  · cases found : s.slots.findIdx? (!·) with
    | some slot =>
      obtain ⟨c, eq, -⟩ := inv.slotToCidr (List.findIdx?_eq_some_iff_getElem.mp found).1
      rw [found] at refused
      dsimp only at refused
      rw [eq] at refused
      cases refused
    | none =>
      intro i lt
      have mark := List.findIdx?_eq_none_iff.mp found s.slots[i] (List.getElem_mem lt)
      rw [← inv.marked, List.getElem?_eq_getElem lt]
      simpa using mark

end CidrAllocator.Inv

/-- After any calls on an allocator that was accepted: nothing overflows, the slices of different nodes are
disjoint slices of the cluster's addresses with the length of the mask, a slot is taken exactly if one node has it,
and an allocation is refused only when every slot is assigned. The slice that `allocate` answers is what `cidr_for`
then reports; `occupy` answers its argument, and `cidr_for` then reports the slice that has its first address. -/
theorem cidrAllocator_exact {str : Bytes} {nodeMask : ℕ} {s₀ : CidrAllocator}
    (accepted : CidrAllocator.new str nodeMask = .ok s₀) (calls : List CidrCall) :
    ∃ s, Run.run CidrAllocator.after s₀ calls = some s ∧
      (∀ n, ∃ c, s.cidrFor n = some c) ∧
      (∀ n c, s.cidrFor n = some (some c) →
        c.prefixLen = nodeMask ∧ c.addresses ⊆ s₀.clusterCidr.addresses) ∧
      (∀ n n' c c', s.cidrFor n = some (some c) → s.cidrFor n' = some (some c') → n ≠ n' →
        ∀ a, a ∈ c.addresses → a ∉ c'.addresses) ∧
      (∀ i, s.slots[i]? = some true ↔ ∃! n, s.assignments.lookup n = some i) ∧
      (∀ n k s', s.allocate n = some (.error (.exhausted k), s') →
        ∀ i < s.slots.length, ∃ n, s.assignments.lookup n = some i) ∧
      (∀ n c s', s.allocate n = some (.ok c, s') →
        s'.cidrFor n = some (some c) ∧ ∀ n', n' ≠ n → s'.cidrFor n' = s.cidrFor n') ∧
      ∀ n cidr c s', s.occupy n cidr = some (.ok c, s') →
        c = cidr ∧ (∃ own, s'.cidrFor n = some (some own) ∧ cidr.network.toNat ∈ own.addresses) ∧
          ∀ n', n' ≠ n → s'.cidrFor n' = s.cidrFor n' := by
  obtain ⟨s, eq, inv⟩ := (CidrAllocator.Inv.new accepted).run calls
  exact ⟨s, eq, inv.cidrFor, fun n c => inv.inside, fun n n' c c' => inv.disjoint, inv.taken_iff,
    fun n k s' => inv.full_of_exhausted, fun n c s' => CidrAllocator.Inv.cidrFor_of_allocate,
    fun n cidr c s' => inv.cidrFor_of_occupy⟩

/-- Two slices of the first half of the addresses; the second node asks for one that does not start at its slot. -/
theorem cidrAllocator_exact_two :
    ∃ s, Run.run CidrAllocator.after ⟨⟨0, 1⟩, 2, [false, false], ∅⟩
        [.allocate [97], .occupy [98] ⟨0x40000005, 2⟩] = some s ∧
      s.cidrFor [97] = some (some ⟨0, 2⟩) ∧ s.cidrFor [98] = some (some ⟨0x40000000, 2⟩) ∧
      ∀ a ∈ NodeCidr.addresses ⟨0, 2⟩, a ∉ NodeCidr.addresses ⟨0x40000000, 2⟩ := by
  obtain ⟨s, eq, -, -, apart, -⟩ := cidrAllocator_exact
    (show CidrAllocator.new (word "0.0.0.0/1") 2 = .ok ⟨⟨0, 1⟩, 2, [false, false], ∅⟩ from rfl)
    [.allocate [97], .occupy [98] ⟨0x40000005, 2⟩]
  refine ⟨s, eq, ?_⟩
  cases eq
  exact ⟨rfl, rfl, apart [97] [98] _ _ rfl rfl (by decide)⟩

end ControllerManager
