import CaveRuntime.Common.Inverse
import Mathlib.Data.List.Range

/-!
# Source NAT

Model of `SnatTable` of `cave-net/src/cilium/nat.rs`. A flow gets a port of the node for its destination; the
ports are tried from one that depends on the flow's own source port, around the whole range. The table keeps the
flows both by themselves and by what their replies are sent to.
-/

namespace Net

inductive IpAddr
  | v4 (addr : BitVec 32)
  | v6 (addr : BitVec 128)
deriving DecidableEq

def ephemeralPortMin : UInt16 := 32768

def ephemeralPortMax : UInt16 := 65535

@[ext]
structure SnatKey where
  srcIp : IpAddr
  srcPort : UInt16
  dstIp : IpAddr
  dstPort : UInt16
deriving DecidableEq

structure SnatEntry where
  newSrcIp : IpAddr
  newSrcPort : UInt16
  created : ℕ
deriving DecidableEq

inductive NatError
  | portExhausted (src : IpAddr)

structure SnatTable where
  nodeIp : IpAddr
  forward : Table SnatKey SnatEntry := ∅
  reverse : Table SnatKey SnatKey := ∅

/-- The number of ports; it is computed in `u32` and cut to `u16`. -/
def span : UInt16 := (ephemeralPortMax.toUInt32 - ephemeralPortMin.toUInt32 + 1).toUInt16

/-- The port that is tried after `off` others. -/
def candidate (srcPort off : UInt16) : UInt16 :=
  let start := ephemeralPortMin + srcPort % (ephemeralPortMax - ephemeralPortMin + 1)
  ephemeralPortMin + (((start - ephemeralPortMin).toUInt32 + off.toUInt32) % span.toUInt32).toUInt16

/-- The source of the replies to a flow that leaves from an address and a port. -/
def SnatKey.reply (key : SnatKey) (ip : IpAddr) (port : UInt16) : SnatKey := ⟨ip, port, key.dstIp, key.dstPort⟩

namespace SnatTable

variable (t : SnatTable)

/-- The ports in the order in which they are tried. -/
def probes (key : SnatKey) : List UInt16 :=
  (List.range span.toNat).map fun off => candidate key.srcPort (UInt16.ofNat off)

def allocate (key : SnatKey) (now : ℕ) : Except NatError SnatEntry × SnatTable :=
  match t.forward.lookup key with
  | some entry => (.ok entry, t)
  | none =>
    match (probes key).find? fun port => (t.reverse.lookup (key.reply t.nodeIp port)).isNone with
    | none => (.error (.portExhausted key.srcIp), t)
    | some port =>
      let entry : SnatEntry := ⟨t.nodeIp, port, now⟩
      (.ok entry, { t with
        forward := t.forward.insert key entry
        reverse := t.reverse.insert (key.reply t.nodeIp port) key })

def lookup (key : SnatKey) : Option SnatEntry := t.forward.lookup key

def lookupReverse (key : SnatKey) : Option SnatKey := t.reverse.lookup key

def release (key : SnatKey) : Bool × SnatTable :=
  match t.forward.lookup key with
  | some entry => (true, { t with
      forward := t.forward.erase key
      reverse := t.reverse.erase (key.reply entry.newSrcIp entry.newSrcPort) })
  | none => (false, t)

end SnatTable

/-! ## The ports that are tried -/

lemma span_toNat : span.toNat = 32768 := rfl

lemma candidate_toNat (srcPort off : UInt16) :
    (candidate srcPort off).toNat = 32768 + (srcPort.toNat % 32768 + off.toNat) % 32768 := by
  have range : (ephemeralPortMax - ephemeralPortMin + 1).toNat = 32768 := rfl
  have least : ephemeralPortMin.toNat = 32768 := rfl
  have width : span.toUInt32.toNat = 32768 := rfl
  have small := off.toNat_lt
  simp only [candidate, UInt16.toNat_add, UInt32.toNat_toUInt16, UInt32.toNat_mod, UInt32.toNat_add,
    UInt16.toNat_toUInt32, UInt16.toNat_sub, UInt16.toNat_mod, range, least, width]
  omega

lemma mem_probes (key : SnatKey) {port : UInt16} (high : ephemeralPortMin ≤ port) :
    port ∈ SnatTable.probes key := by
  have low : 32768 ≤ port.toNat := high
  have small := port.toNat_lt
  -- the offset that leads from the first port tried to this one, around the range
  refine List.mem_map.mpr ⟨(port.toNat + 32768 - key.srcPort.toNat % 32768) % 32768, ?_, ?_⟩
  · rw [List.mem_range, span_toNat]
    omega
  · apply UInt16.toNat_inj.mp
    rw [candidate_toNat, UInt16.toNat_ofNat']
    omega

/-- Only ports of the range are tried. -/
lemma range_of_mem_probes {key : SnatKey} {port : UInt16} (mem : port ∈ SnatTable.probes key) :
    ephemeralPortMin ≤ port ∧ port ≤ ephemeralPortMax := by
  obtain ⟨off, -, rfl⟩ := List.mem_map.mp mem
  have eq := candidate_toNat key.srcPort (UInt16.ofNat off)
  refine ⟨UInt16.le_iff_toNat_le.mpr ?_, UInt16.le_iff_toNat_le.mpr ?_⟩
  · change 32768 ≤ _
    omega
  · change _ ≤ 65535
    omega

/-! ## Whole histories -/

inductive SnatCall
  | allocate (key : SnatKey) (now : ℕ)
  | release (key : SnatKey)

def SnatTable.after (t : SnatTable) : SnatCall → SnatTable
  | .allocate key now => (t.allocate key now).2
  | .release key => (t.release key).2

/-- The table after some calls on a new one. -/
def SnatTable.run (nodeIp : IpAddr) (calls : List SnatCall) : SnatTable := calls.foldl SnatTable.after { nodeIp }

/-- The two maps are inverse to each other, and all flows leave from the node, by ports of its range. -/
structure SnatTable.Inv (nodeIp : IpAddr) (t : SnatTable) : Prop where
  ip : t.nodeIp = nodeIp
  inverse : Table.Inverse (fun key e => key.reply e.newSrcIp e.newSrcPort) t.forward t.reverse
  own : ∀ key e, t.forward.lookup key = some e →
    e.newSrcIp = nodeIp ∧ ephemeralPortMin ≤ e.newSrcPort ∧ e.newSrcPort ≤ ephemeralPortMax

namespace SnatTable.Inv

variable {nodeIp : IpAddr} {t : SnatTable}

lemma allocate (inv : t.Inv nodeIp) (key : SnatKey) (now : ℕ) : (t.allocate key now).2.Inv nodeIp := by
  unfold SnatTable.allocate
  cases known : t.forward.lookup key with
  | some e => exact inv
  | none =>
    cases found : (probes key).find? fun port => (t.reverse.lookup (key.reply t.nodeIp port)).isNone with
    | none => exact inv
    | some port =>
      have free := List.find?_some found
      rw [Option.isNone_iff_eq_none] at free
      refine ⟨inv.ip, inv.inverse.insert known free, ?_⟩
      intro k e look
      rw [Table.lookup_insert_eq] at look
      split at look
      · cases look
        exact ⟨inv.ip, range_of_mem_probes (List.mem_of_find?_eq_some found)⟩
      · exact inv.own k e look

lemma release (inv : t.Inv nodeIp) (key : SnatKey) : (t.release key).2.Inv nodeIp := by
  unfold SnatTable.release
  cases known : t.forward.lookup key with
  | none => exact inv
  | some entry =>
    refine ⟨inv.ip, inv.inverse.erase known, ?_⟩
    intro k e look
    rw [Table.lookup_erase_eq] at look
    split at look
    · cases look
    · exact inv.own k e look

lemma run (nodeIp : IpAddr) (calls : List SnatCall) : (SnatTable.run nodeIp calls).Inv nodeIp := by
  refine List.foldlRecOn calls SnatTable.after ⟨rfl, .empty, nofun⟩ ?_
  intro t inv call _
  cases call with
  | allocate key now => exact inv.allocate key now
  | release key => exact inv.release key

lemma lookup_iff (inv : t.Inv nodeIp) (key : SnatKey) (ip : IpAddr) (port : UInt16) :
    (∃ e, t.lookup key = some e ∧ e.newSrcIp = ip ∧ e.newSrcPort = port) ↔
      t.lookupReverse (key.reply ip port) = some key := by
  refine Iff.trans ?_ (inv.inverse (key.reply ip port) key).symm
  refine exists_congr fun e => and_congr_right fun _ => ?_
  simp only [SnatKey.reply, SnatKey.mk.injEq, and_self, and_true]

/-- Every port that is refused belongs to a live flow to the same destination. -/
lemma in_use_of_exhausted (inv : t.Inv nodeIp) {key : SnatKey} {now : ℕ} {err : NatError} {t' : SnatTable}
    (refused : t.allocate key now = (.error err, t')) {port : UInt16} (high : ephemeralPortMin ≤ port) :
    ∃ k e, t.lookup k = some e ∧ e.newSrcPort = port ∧ k.dstIp = key.dstIp ∧ k.dstPort = key.dstPort := by
  unfold SnatTable.allocate at refused
  split at refused
  · cases refused
  split at refused
  · rename_i none
    have taken := List.find?_eq_none.mp none port (mem_probes key high)
    rw [Option.isNone_iff_eq_none] at taken
    obtain ⟨k, look⟩ := Option.ne_none_iff_exists'.mp taken
    obtain ⟨e, look, same⟩ := (inv.inverse _ _).mp look
    simp only [SnatKey.reply, SnatKey.mk.injEq] at same
    exact ⟨k, e, look, same.2.1, same.2.2.1, same.2.2.2⟩
  · cases refused

end SnatTable.Inv

/-- What is answered to a flow is its entry in the table, and the other flows keep theirs. -/
lemma SnatTable.lookup_of_allocate {t t' : SnatTable} {key : SnatKey} {now : ℕ} {e : SnatEntry}
    (answer : t.allocate key now = (.ok e, t')) :
    t'.lookup key = some e ∧ ∀ k, k ≠ key → t'.lookup k = t.lookup k := by
  unfold SnatTable.allocate at answer
  split at answer
  · rename_i known
    cases answer
    exact ⟨known, fun _ _ => rfl⟩
  split at answer
  · cases answer
  · cases answer
    refine ⟨?_, fun k other => ?_⟩
    · rw [SnatTable.lookup, Table.lookup_insert_eq, if_pos rfl]
    · rw [SnatTable.lookup, Table.lookup_insert_eq, if_neg other, SnatTable.lookup]

/-- After any calls the flows and the replies are in bijection, a port serves one flow to a destination, a live
flow keeps its entry, a flow that is answered has the answer as its entry, with a port of the node's range, and a
flow is refused only when all ports are in use towards its destination. -/
theorem snat_bijection (nodeIp : IpAddr) (calls : List SnatCall) :
    (∀ key ip port,
      (∃ e, (SnatTable.run nodeIp calls).lookup key = some e ∧ e.newSrcIp = ip ∧ e.newSrcPort = port) ↔
        (SnatTable.run nodeIp calls).lookupReverse ⟨ip, port, key.dstIp, key.dstPort⟩ = some key) ∧
    (∀ key key' e e', (SnatTable.run nodeIp calls).lookup key = some e →
      (SnatTable.run nodeIp calls).lookup key' = some e' → key ≠ key' → key.dstIp = key'.dstIp →
      key.dstPort = key'.dstPort → e.newSrcPort ≠ e'.newSrcPort) ∧
    (∀ key e now, (SnatTable.run nodeIp calls).lookup key = some e →
      (SnatTable.run nodeIp calls).allocate key now = (.ok e, SnatTable.run nodeIp calls)) ∧
    (∀ key now e t', (SnatTable.run nodeIp calls).allocate key now = (.ok e, t') →
      t'.lookup key = some e ∧ (∀ k, k ≠ key → t'.lookup k = (SnatTable.run nodeIp calls).lookup k) ∧
        e.newSrcIp = nodeIp ∧ ephemeralPortMin ≤ e.newSrcPort ∧ e.newSrcPort ≤ ephemeralPortMax) ∧
    ∀ key now err t', (SnatTable.run nodeIp calls).allocate key now = (.error err, t') →
      ∀ port, ephemeralPortMin ≤ port → port ≤ ephemeralPortMax →
        ∃ k e, (SnatTable.run nodeIp calls).lookup k = some e ∧ e.newSrcPort = port ∧ k.dstIp = key.dstIp ∧
          k.dstPort = key.dstPort := by
  have inv := SnatTable.Inv.run nodeIp calls
  refine ⟨inv.lookup_iff, ?_, ?_, ?_, ?_⟩
  · intro key key' e e' look look' different ip port same
    refine different (inv.inverse.injective look look' ?_)
    rw [SnatKey.reply, SnatKey.reply, (inv.own key e look).1, (inv.own key' e' look').1, same, ip, port]
  · intro key e now look
    unfold SnatTable.allocate
    rw [show (SnatTable.run nodeIp calls).forward.lookup key = some e from look]
  · intro key now e t' answer
    obtain ⟨look, others⟩ := SnatTable.lookup_of_allocate answer
    have inv' := inv.allocate key now
    rw [answer] at inv'
    exact ⟨look, others, inv'.own key e look⟩
  · intro key now err t' refused port high _
    exact inv.in_use_of_exhausted refused high

/-- A new flow gets the first port that is free after the taken ones. -/
lemma SnatTable.allocate_new (t : SnatTable) {key : SnatKey} (now : ℕ) (before : List UInt16) {rest : List UInt16}
    {port : UInt16} (new : t.lookup key = none) (tried : probes key = before ++ port :: rest)
    (taken : ∀ p ∈ before, t.lookupReverse (key.reply t.nodeIp p) ≠ none)
    (free : t.lookupReverse (key.reply t.nodeIp port) = none) :
    t.after (.allocate key now) = ⟨t.nodeIp, t.forward.insert key ⟨t.nodeIp, port, now⟩,
      t.reverse.insert (key.reply t.nodeIp port) key⟩ := by
  have found : (probes key).find? (fun p => (t.reverse.lookup (key.reply t.nodeIp p)).isNone) = some port := by
    refine List.find?_eq_some_iff_append.mpr ⟨Option.isNone_iff_eq_none.mpr free, before, rest, tried, ?_⟩
    intro p mem
    rw [Bool.not_eq_true', ← Bool.not_eq_true, Option.isNone_iff_eq_none]
    exact taken p mem
  rw [lookup] at new
  rw [after, allocate, new, found]

/-- Two flows from one port to one destination: the second finds the port of the first taken and gets the next
one. -/
theorem snat_bijection_of_collision :
    let first : SnatKey := ⟨.v4 1, 1000, .v4 9, 80⟩
    let second : SnatKey := ⟨.v4 2, 1000, .v4 9, 80⟩
    let t := SnatTable.run (.v4 7) [.allocate first 0, .allocate second 1]
    t.lookup first = some ⟨.v4 7, 33768, 0⟩ ∧ t.lookup second = some ⟨.v4 7, 33769, 1⟩ ∧
      t.lookupReverse ⟨.v4 7, 33768, .v4 9, 80⟩ = some first ∧
      t.lookupReverse ⟨.v4 7, 33769, .v4 9, 80⟩ = some second := by
  intro first second t
  obtain ⟨rest, tried⟩ : ∃ rest, List.range span.toNat = 0 :: 1 :: rest := by
    change ∃ rest, List.range (32766 + 1 + 1) = _
    rw [List.range_succ_eq_map, List.range_succ_eq_map]
    exact ⟨_, rfl⟩
  have probes (key : SnatKey) (port : key.srcPort = 1000) : ∃ rest, SnatTable.probes key = 33768 :: 33769 :: rest := by
    rw [SnatTable.probes, tried, port]
    exact ⟨_, rfl⟩
  obtain ⟨after1, tried1⟩ := probes first rfl
  obtain ⟨after2, tried2⟩ := probes second rfl
  have one := SnatTable.allocate_new { nodeIp := .v4 7 } 0 [] rfl tried1 nofun rfl
  have two := SnatTable.allocate_new
    ⟨.v4 7, .insert first ⟨.v4 7, 33768, 0⟩ ∅, .insert ⟨.v4 7, 33768, .v4 9, 80⟩ first ∅⟩
    1 [33768] rfl tried2 (List.forall_mem_singleton.mpr (Option.some_ne_none first)) rfl
  have eq : t = _ := (congrArg (SnatTable.after · (.allocate second 1)) one).trans two
  have look : t.lookup first = some ⟨.v4 7, 33768, 0⟩ ∧ t.lookup second = some ⟨.v4 7, 33769, 1⟩ := by
    rw [eq]
    decide
  have both := (snat_bijection (.v4 7) [.allocate first 0, .allocate second 1]).1
  exact ⟨look.1, look.2, (both first _ _).mp ⟨_, look.1, rfl, rfl⟩, (both second _ _).mp ⟨_, look.2, rfl, rfl⟩⟩

end Net
