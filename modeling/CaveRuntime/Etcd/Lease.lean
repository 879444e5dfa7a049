import CaveRuntime.Common.Run
import CaveRuntime.Etcd.Writes

/-!
# The etcd-compatible store: keys and their leases

The lease of a key is stored with the key and in the list of the lease. The two agree in runs whose puts
name leases that exist, whose grants take ids that no lease with keys has, and whose restored snapshots
agree with themselves. The store checks none of this for `put`, `lease_grant`, ids drawn from the counter
and `restore_snapshot`; a put under a lease that does not exist is kept with that lease, and revoking the
lease later cannot find it (`put_under_missing_lease`).
-/

namespace Etcd
open Utf8

/-- Every lease lists each of its keys once, and its keys are exactly the live keys that have it. -/
structure Attached (current : Table Bytes KeyValue) (leases : Table ℤ Lease) : Prop where
  nodup : ∀ {id lease}, leases.lookup id = some lease → lease.keys.Nodup
  listed : ∀ {id lease k}, leases.lookup id = some lease → k ∈ lease.keys →
    ∃ kv, current.lookup k.asBytes = some kv ∧ kv.lease = some id
  held : ∀ {k kv id}, current.lookup k = some kv → kv.lease = some id →
    ∃ lease, leases.lookup id = some lease ∧ ∃ key ∈ lease.keys, key.asBytes = k

lemma Lease.mem_without {lease : Lease} {key : Bytes} {k : Str} :
    k ∈ (lease.without key).keys ↔ k ∈ lease.keys ∧ k.asBytes ≠ key := by
  simp [Lease.without]

lemma Lease.mem_with {lease : Lease} {key k : Str} :
    k ∈ (lease.with key).keys ↔ k ∈ lease.keys ∨ k = key := by
  unfold Lease.with
  split
  · rename_i listed
    constructor
    · exact .inl
    · rintro (old | rfl)
      · exact old
      · exact listed
  · simp

lemma Lease.nodup_with {lease : Lease} (nodup : lease.keys.Nodup) (key : Str) :
    (lease.with key).keys.Nodup := by
  unfold Lease.with
  split
  · exact nodup
  · rename_i absent
    rw [List.nodup_append]
    refine ⟨nodup, List.nodup_singleton _, fun a ha b hb eq => ?_⟩
    rw [List.mem_singleton.mp hb] at eq
    exact absent (eq ▸ ha)

namespace KvStore

variable {s s' : KvStore}

lemma lookup_detachOld (leases : Table ℤ Lease) (key : Bytes) (prevKv : Option KeyValue)
    (lease : Option ℤ) (id : ℤ) :
    (detachOld leases key prevKv lease).lookup id =
      if prevKv.bind (·.lease) = some id ∧ lease ≠ some id then (leases.lookup id).map (·.without key)
      else leases.lookup id := by
  unfold detachOld
  cases prevKv with
  | none => simp
  | some old =>
    cases hold : old.lease with
    | none => simp [hold]
    | some oldId =>
      by_cases same : some oldId = lease
      · subst same
        simp [hold]
      · simp only [ne_eq, same, not_false_eq_true, if_true, Option.bind_some, hold,
          Table.lookup_modify, Option.some.injEq]
        by_cases here : id = oldId
        · subst here
          simp [Ne.symm same]
        · simp [here, Ne.symm here]

lemma lookup_modify_lease (leases : Table ℤ Lease) (leaseId id : ℤ) (f : Lease → Lease) :
    (Table.modify leaseId f leases).lookup id =
      if some leaseId = some id then (leases.lookup id).map f else leases.lookup id := by
  simp only [Table.lookup_modify, Option.some.injEq]
  by_cases here : id = leaseId
  · simp [here]
  · simp [here, Ne.symm here]

lemma lookup_attach (leases : Table ℤ Lease) (lease : Option ℤ) (key : Str) (id : ℤ) :
    (attach leases lease key).lookup id =
      if lease = some id then (leases.lookup id).map (·.with key) else leases.lookup id := by
  unfold attach
  cases lease with
  | none => simp
  | some leaseId => exact lookup_modify_lease leases leaseId id _

lemma lookup_removeKeyFromLease (leases : Table ℤ Lease) (key : Bytes) (leaseId : Option ℤ) (id : ℤ) :
    (removeKeyFromLease leases key leaseId).lookup id =
      if leaseId = some id then (leases.lookup id).map (·.without key) else leases.lookup id := by
  unfold removeKeyFromLease
  cases leaseId with
  | none => simp
  | some leaseId => exact lookup_modify_lease leases leaseId id _

end KvStore

namespace Attached

variable {current : Table Bytes KeyValue} {leases leases' : Table ℤ Lease} {key : Bytes}

/-- One key changes its pair, and the leases change so that only the lease of the new pair lists it. -/
lemma update (h : Attached current leases) {current' : Table Bytes KeyValue} {new : Option KeyValue}
    {f : ℤ → Lease → Lease} (frame : ∀ k, k ≠ key → current'.lookup k = current.lookup k)
    (here : current'.lookup key = new) (lookup : ∀ id, leases'.lookup id = (leases.lookup id).map (f id))
    (nodup : ∀ id l, l.keys.Nodup → (f id l).keys.Nodup)
    (others : ∀ id l k, k.asBytes ≠ key → (k ∈ (f id l).keys ↔ k ∈ l.keys))
    (own : ∀ id l k, leases.lookup id = some l → k.asBytes = key →
      (k ∈ (f id l).keys ↔ new.bind (·.lease) = some id))
    (granted : ∀ id, new.bind (·.lease) = some id →
      (leases.lookup id).isSome ∧ ∃ k : Str, k.asBytes = key) :
    Attached current' leases' := by
  refine ⟨?_, ?_, ?_⟩
  · intro id l' found
    rw [lookup id, Option.map_eq_some_iff] at found
    obtain ⟨l, old, rfl⟩ := found
    exact nodup id l (h.nodup old)
  · intro id l' k found mem
    rw [lookup id, Option.map_eq_some_iff] at found
    obtain ⟨l, old, rfl⟩ := found
    by_cases same : k.asBytes = key
    · obtain ⟨kv, hkv, lease⟩ := Option.bind_eq_some_iff.mp ((own id l k old same).mp mem)
      exact ⟨kv, same ▸ here.trans hkv, lease⟩
    · obtain ⟨kv, hkv, lease⟩ := h.listed old ((others id l k same).mp mem)
      exact ⟨kv, (frame _ same).trans hkv, lease⟩
  · intro k kv id found lease
    by_cases same : k = key
    · subst same
      have eq : new.bind (·.lease) = some id := by rw [← here, found]; exact lease
      obtain ⟨isSome, str, hstr⟩ := granted id eq
      obtain ⟨l, old⟩ := Option.isSome_iff_exists.mp isSome
      exact ⟨f id l, by rw [lookup id, old]; rfl, str, (own id l str old hstr).mpr eq, hstr⟩
    · rw [frame k same] at found
      obtain ⟨l, old, str, mem, hstr⟩ := h.held found lease
      exact ⟨f id l, by rw [lookup id, old]; rfl, str,
        (others id l str (hstr ▸ same)).mpr mem, hstr⟩

end Attached

namespace KvStore

variable {s s' : KvStore}

/-- The lease of a request, if it names one, exists. -/
def LeaseExists (s : KvStore) (lease : Option ℤ) : Prop :=
  ∀ id ∈ lease, (s.leases.lookup id).isSome
deriving Decidable

lemma lookup_put_leases (s : KvStore) (req : PutRequest) (id : ℤ) :
    (s.put req).2.leases.lookup id = (s.leases.lookup id).map fun l =>
      if req.lease = some id then l.with req.key
      else if (s.current.lookup req.key.asBytes).bind (·.lease) = some id then
        l.without req.key.asBytes
      else l := by
  show (attach (detachOld s.leases _ _ req.lease) req.lease req.key).lookup id = _
  rw [lookup_attach, lookup_detachOld]
  by_cases new : req.lease = some id
  · simp [new]
  · by_cases old : (s.current.lookup req.key.asBytes).bind (·.lease) = some id
    · simp [new, old]
    · simp [new, old]

lemma put_attached (h : Attached s.current s.leases) {req : PutRequest}
    (granted : s.LeaseExists req.lease) :
    Attached (s.put req).2.current (s.put req).2.leases := by
  have w := put_writes s req
  have lease : (some (s.putKv req)).bind (·.lease) = req.lease := rfl
  refine h.update (fun k ne => w.frame k ne) (w.current _ rfl) (lookup_put_leases s req) ?_ ?_ ?_ ?_
  · intro id l nodup
    split
    · exact Lease.nodup_with nodup _
    split
    · exact nodup.filter _
    · exact nodup
  · intro id l k ne
    split
    · rw [Lease.mem_with]
      exact or_iff_left fun eq => ne (congrArg Str.asBytes eq)
    split
    · rw [Lease.mem_without]
      exact and_iff_left ne
    · rfl
  · intro id l k found same
    obtain rfl : k = req.key := Str.asBytes_injective same
    rw [lease]
    split
    · rename_i new
      simp [Lease.mem_with, new]
    rename_i new
    split
    · simp [Lease.mem_without, new]
    · rename_i old
      -- a lease lists no key that does not have it
      refine iff_of_false (fun mem => old ?_) new
      obtain ⟨kv, hkv, attached⟩ := h.listed found mem
      rw [hkv]
      exact attached
  · intro id eq
    exact ⟨granted id eq, req.key, rfl⟩

lemma deleteKey_attached (h : Attached s.current s.leases) (rev : ℕ) (key : Bytes) :
    Attached (s.deleteKey rev key).current (s.deleteKey rev key).leases := by
  unfold deleteKey
  cases live : s.current.lookup key with
  | none => exact h
  | some kv =>
    have lookup (id : ℤ) : (removeKeyFromLease s.leases key kv.lease).lookup id =
        (s.leases.lookup id).map fun l => if kv.lease = some id then l.without key else l := by
      rw [lookup_removeKeyFromLease]
      split <;> simp
    refine h.update (fun k (ne : k ≠ key) => AList.lookup_erase_ne ne)
      (AList.lookup_erase key s.current) lookup ?_ ?_ ?_ ?_
    · intro id l nodup
      split
      · exact nodup.filter _
      · exact nodup
    · intro id l k ne
      split
      · rw [Lease.mem_without]
        exact and_iff_left ne
      · rfl
    · intro id l k found same
      refine iff_of_false (fun mem => ?_) (by simp)
      split at mem
      · exact (Lease.mem_without.mp mem).2 same
      · rename_i other
        obtain ⟨kv', hkv', attached⟩ := h.listed found mem
        rw [same, live] at hkv'
        cases hkv'
        exact other attached
    · intro id eq
      cases eq

lemma deleteRange_attached (h : Attached s.current s.leases) (order : Order Bytes)
    (req : DeleteRangeRequest) :
    Attached (s.deleteRange order req).2.current (s.deleteRange order req).2.leases := by
  rw [deleteRange_eq]
  refine List.foldlRecOn (motive := fun t : KvStore => Attached t.current t.leases) _ _ ?_ ?_
  · exact h
  · exact fun t ht key _ => deleteKey_attached ht _ key

lemma isSome_deleteRange_leases (s : KvStore) (order : Order Bytes) (req : DeleteRangeRequest) (id : ℤ) :
    ((s.deleteRange order req).2.leases.lookup id).isSome = (s.leases.lookup id).isSome := by
  rw [deleteRange_eq]
  refine List.foldlRecOn
    (motive := fun t : KvStore => (t.leases.lookup id).isSome = (s.leases.lookup id).isSome) _ _ rfl ?_
  intro t ht key _
  rw [← ht]
  unfold deleteKey
  cases t.current.lookup key with
  | none => rfl
  | some kv =>
    show ((removeKeyFromLease t.leases key kv.lease).lookup id).isSome = _
    rw [lookup_removeKeyFromLease]
    split
    · exact Option.isSome_map
    · rfl

lemma isSome_runOp_leases (s : KvStore) (op : RequestOp × Order Bytes) (id : ℤ) :
    ((s.runOp op).leases.lookup id).isSome = (s.leases.lookup id).isSome := by
  obtain ⟨op, order⟩ := op
  cases op with
  | range _ => rfl
  | put req =>
    show ((s.put req).2.leases.lookup id).isSome = _
    rw [lookup_put_leases]
    exact Option.isSome_map
  | deleteRange req => exact isSome_deleteRange_leases s order req id

end KvStore

/-- The lease that an operation of a transaction names. -/
def RequestOp.lease : RequestOp → Option ℤ
  | .put req => req.lease
  | _ => none

namespace KvStore

variable {s s' : KvStore}

lemma runOps_attached {ops : List (RequestOp × Order Bytes)} (h : Attached s.current s.leases)
    (granted : ∀ op ∈ ops, s.LeaseExists op.1.lease) :
    Attached (ops.foldl runOp s).current (ops.foldl runOp s).leases := by
  induction ops generalizing s with
  | nil => exact h
  | cons op ops ih =>
    have next : Attached (s.runOp op).current (s.runOp op).leases := by
      have here := granted op List.mem_cons_self
      obtain ⟨op, order⟩ := op
      cases op with
      | range _ => exact h
      | put req => exact put_attached h here
      | deleteRange req => exact deleteRange_attached h order req
    refine ih next fun op' mem id eq => ?_
    rw [isSome_runOp_leases]
    exact granted op' (List.mem_cons_of_mem _ mem) id eq

/-- The loop of `lease_revoke` removes the keys it is given and changes no lease. -/
lemma foldl_revokeKey (s : KvStore) (keys : List Str) :
    (keys.foldl revokeKey s).leases = s.leases ∧ ∀ k, (keys.foldl revokeKey s).current.lookup k =
      if k ∈ keys.map Str.asBytes then none else s.current.lookup k := by
  induction keys generalizing s with
  | nil => simp
  | cons key keys ih =>
    obtain ⟨leases, current⟩ := ih (s.revokeKey key)
    have step : (s.revokeKey key).leases = s.leases ∧ ∀ k, (s.revokeKey key).current.lookup k =
        if k = key.asBytes then none else s.current.lookup k := by
      cases live : s.current.lookup key.asBytes with
      | none =>
        rw [revokeKey_of_not_live live]
        refine ⟨rfl, fun k => ?_⟩
        split
        · rename_i here
          rw [here, live]
        · rfl
      | some kv =>
        rw [revokeKey_of_live live]
        exact ⟨rfl, Table.lookup_erase_eq s.current key.asBytes⟩
    refine ⟨leases.trans step.1, fun k => (current k).trans ?_⟩
    rw [step.2 k]
    by_cases here : k = key.asBytes
    · simp [here]
    · simp [here]

lemma lookup_tryRevoke {id : ℤ} {lease : Lease} (found : s.leases.lookup id = some lease) (k : Bytes) :
    (s.tryRevoke id).current.lookup k =
      if k ∈ lease.keys.map Str.asBytes then none else s.current.lookup k := by
  rw [tryRevoke_of_some found]
  exact (foldl_revokeKey _ lease.keys).2 k

lemma mem_keys_iff (h : Attached s.current s.leases) {id : ℤ} {lease : Lease}
    (found : s.leases.lookup id = some lease) (k : Bytes) :
    k ∈ lease.keys.map Str.asBytes ↔ (s.current.lookup k).any (·.lease = some id) := by
  rw [List.mem_map, Option.any_eq_true]
  constructor
  · rintro ⟨key, mem, rfl⟩
    obtain ⟨kv, hkv, attached⟩ := h.listed found mem
    exact ⟨kv, hkv, by simpa using attached⟩
  · rintro ⟨kv, hkv, attached⟩
    obtain ⟨lease', found', key, mem, eq⟩ := h.held hkv (by simpa using attached)
    rw [found] at found'
    cases found'
    exact ⟨key, mem, eq⟩

/-- The keys of a revoked lease go with it. -/
lemma tryRevoke_attached (h : Attached s.current s.leases) (id : ℤ) :
    Attached (s.tryRevoke id).current (s.tryRevoke id).leases := by
  cases found : s.leases.lookup id with
  | none =>
    rw [tryRevoke_of_none found]
    exact h
  | some lease =>
    have current := lookup_tryRevoke found
    have leases : (s.tryRevoke id).leases = s.leases.erase id := by
      rw [tryRevoke_of_some found]
      exact (foldl_revokeKey _ lease.keys).1
    have kept {k : Bytes} {kv : KeyValue} (live : s.current.lookup k = some kv)
        (other : kv.lease ≠ some id) : (s.tryRevoke id).current.lookup k = some kv := by
      rw [current, if_neg, live]
      rw [mem_keys_iff h found, live]
      simpa using other
    rw [leases]
    refine ⟨?_, ?_, ?_⟩
    · intro id' l found'
      rw [Table.lookup_erase_eq] at found'
      split at found'
      · cases found'
      · exact h.nodup found'
    · intro id' l k found' mem
      rw [Table.lookup_erase_eq] at found'
      split at found'
      · cases found'
      · rename_i ne
        obtain ⟨kv, live, attached⟩ := h.listed found' mem
        refine ⟨kv, kept live ?_, attached⟩
        rw [attached]
        simpa using ne
    · intro k kv id' live attached
      rw [current] at live
      split at live
      · cases live
      · rename_i survives
        rw [mem_keys_iff h found, live] at survives
        have ne : id' ≠ id := by
          rintro rfl
          simp [attached] at survives
        obtain ⟨l, hl, rest⟩ := h.held live attached
        exact ⟨l, by rw [Table.lookup_erase_eq, if_neg ne, hl], rest⟩

/-- No lease with this id has keys. -/
def Unused (s : KvStore) (id : ℤ) : Prop := ∀ lease ∈ s.leases.lookup id, lease.keys = []
deriving Decidable

lemma insertLease_attached (h : Attached s.current s.leases) {id : ℤ} (unused : s.Unused id)
    (ttl now : ℤ) : Attached s.current (s.insertLease id ttl now).leases := by
  refine ⟨?_, ?_, ?_⟩
  · intro id' l found
    have found : (s.leases.insert id _).lookup id' = some l := found
    rw [Table.lookup_insert_eq] at found
    split at found
    · cases found
      exact List.nodup_nil
    · exact h.nodup found
  · intro id' l k found mem
    have found : (s.leases.insert id _).lookup id' = some l := found
    rw [Table.lookup_insert_eq] at found
    split at found
    · cases found
      cases mem
    · exact h.listed found mem
  · intro k kv id' live attached
    obtain ⟨l, hl, key, mem, eq⟩ := h.held live attached
    have ne : id' ≠ id := by
      rintro rfl
      rw [unused l hl] at mem
      cases mem
    exact ⟨l, (AList.lookup_insert_ne ne).trans hl, key, mem, eq⟩

lemma leaseGrant_attached (h : Attached s.current s.leases) {req : LeaseGrantRequest}
    (unused : s.Unused (req.id.getD s.autoLeaseId)) (now : ℤ) :
    Attached (s.leaseGrant now req).2.current (s.leaseGrant now req).2.leases := by
  unfold leaseGrant
  cases given : req.id with
  | none =>
    rw [given] at unused
    exact insertLease_attached h unused req.ttl now
  | some id =>
    rw [given] at unused
    exact insertLease_attached h unused req.ttl now

/-- The request of `lease_grant_v2` takes its id from the counter. -/
def drawsId (req : LeaseGrantRequest) : Bool := req.id.all (· = 0)

lemma leaseGrantV2_attached (h : Attached s.current s.leases) {req : LeaseGrantRequest}
    (unused : 0 ≤ req.ttl → drawsId req → s.Unused s.autoLeaseId) (now : ℤ) :
    Attached (((s.leaseGrantV2 now req).toOption.map Prod.snd).getD s).current
      (((s.leaseGrantV2 now req).toOption.map Prod.snd).getD s).leases := by
  unfold leaseGrantV2
  by_cases negative : req.ttl < 0
  · rw [if_pos negative]
    exact h
  rw [if_neg negative]
  cases given : req.id with
  | none => exact insertLease_attached h (unused (by omega) (by simp [drawsId, given])) _ now
  | some id =>
    dsimp only
    by_cases zero : id = 0
    · rw [if_pos zero]
      exact insertLease_attached h (unused (by omega) (by simp [drawsId, given, zero])) _ now
    rw [if_neg zero]
    by_cases taken : (s.leases.lookup id).isSome
    · rw [if_pos taken]
      exact h
    · rw [if_neg taken]
      exact insertLease_attached h (fun lease found => absurd (Option.isSome_of_mem found) taken) _ now

end KvStore

/-- The document lists every key and every lease once, and its keys and leases agree. -/
structure SnapshotDoc.Consistent (doc : SnapshotDoc) : Prop where
  keys : ((doc.kvs.getD []).map (·.key)).Nodup
  ids : ((doc.leases.getD []).map (·.id)).Nodup
  nodup : ∀ l ∈ doc.leases.getD [], l.keys.Nodup
  listed : ∀ l ∈ doc.leases.getD [], ∀ k ∈ l.keys,
    ∃ kv ∈ doc.kvs.getD [], kv.key = k.asBytes ∧ kv.lease = some l.id
  held : ∀ kv ∈ doc.kvs.getD [], ∀ id ∈ kv.lease,
    ∃ l ∈ doc.leases.getD [], l.id = id ∧ ∃ k ∈ l.keys, k.asBytes = kv.key

instance (doc : SnapshotDoc) : Decidable doc.Consistent :=
  decidable_of_iff
    (((doc.kvs.getD []).map (·.key)).Nodup ∧ ((doc.leases.getD []).map (·.id)).Nodup ∧
      (∀ l ∈ doc.leases.getD [], l.keys.Nodup) ∧
      (∀ l ∈ doc.leases.getD [], ∀ k ∈ l.keys,
        ∃ kv ∈ doc.kvs.getD [], kv.key = k.asBytes ∧ kv.lease = some l.id) ∧
      ∀ kv ∈ doc.kvs.getD [], ∀ id ∈ kv.lease,
        ∃ l ∈ doc.leases.getD [], l.id = id ∧ ∃ k ∈ l.keys, k.asBytes = kv.key)
    ⟨fun ⟨keys, ids, nodup, listed, held⟩ => ⟨keys, ids, nodup, listed, held⟩,
      fun h => ⟨h.keys, h.ids, h.nodup, h.listed, h.held⟩⟩

namespace KvStore

variable {s s' : KvStore}

lemma foldl_restoreKv_current (s : KvStore) (kvs : List KeyValue) :
    (kvs.foldl restoreKv s).current = kvs.foldl (fun t kv => t.insert kv.key kv) s.current := by
  induction kvs generalizing s with
  | nil => rfl
  | cons kv kvs ih => exact ih _

lemma foldl_restoreKv_leases (s : KvStore) (kvs : List KeyValue) :
    (kvs.foldl restoreKv s).leases = s.leases := by
  induction kvs generalizing s with
  | nil => rfl
  | cons kv kvs ih => exact ih _

/-- A consistent snapshot attaches the keys that it lists. -/
lemma restoreDoc_attached {doc : SnapshotDoc} (ok : doc.Consistent) (s : KvStore) (revision : ℕ) :
    Attached (s.restoreDoc doc revision).current (s.restoreDoc doc revision).leases := by
  have current {k : Bytes} {kv : KeyValue} : (s.restoreDoc doc revision).current.lookup k = some kv ↔
      kv ∈ doc.kvs.getD [] ∧ kv.key = k := by
    show ((doc.kvs.getD []).foldl restoreKv _).current.lookup k = some kv ↔ _
    rw [foldl_restoreKv_current, Table.lookup_foldl_insert _ ok.keys]
    simp
  have leases {id : ℤ} {l : Lease} : (s.restoreDoc doc revision).leases.lookup id = some l ↔
      l ∈ doc.leases.getD [] ∧ l.id = id := by
    show ((doc.leases.getD []).foldl (fun t l => t.insert l.id l)
      ((doc.kvs.getD []).foldl restoreKv _).leases).lookup id = some l ↔ _
    rw [foldl_restoreKv_leases, Table.lookup_foldl_insert _ ok.ids]
    simp
  refine ⟨?_, ?_, ?_⟩
  · intro id l found
    exact ok.nodup l (leases.mp found).1
  · intro id l k found mem
    obtain ⟨hl, rfl⟩ := leases.mp found
    obtain ⟨kv, hkv, eq, attached⟩ := ok.listed l hl k mem
    exact ⟨kv, current.mpr ⟨hkv, eq⟩, attached⟩
  · intro k kv id live attached
    obtain ⟨hkv, rfl⟩ := current.mp live
    obtain ⟨l, hl, rfl, rest⟩ := ok.held kv hkv id attached
    exact ⟨l, leases.mpr ⟨hl, rfl⟩, rest⟩

/-- The leases that a call names exist, and the leases that it grants had no keys. -/
def GrantsApart (s : KvStore) : Op → Prop
  | .put req => s.LeaseExists req.lease
  | .txn req _ => ∀ op ∈ s.branch req, s.LeaseExists op.lease
  | .leaseGrant req _ => s.Unused (req.id.getD s.autoLeaseId)
  | .leaseGrantV2 req _ => 0 ≤ req.ttl → drawsId req → s.Unused s.autoLeaseId
  | _ => True

instance (s : KvStore) : (op : Op) → Decidable (s.GrantsApart op)
  | .put req => inferInstanceAs (Decidable (s.LeaseExists req.lease))
  | .txn req _ => inferInstanceAs (Decidable (∀ op ∈ s.branch req, s.LeaseExists op.lease))
  | .leaseGrant req _ => inferInstanceAs (Decidable (s.Unused (req.id.getD s.autoLeaseId)))
  | .leaseGrantV2 req _ =>
    inferInstanceAs (Decidable (0 ≤ req.ttl → drawsId req → s.Unused s.autoLeaseId))
  | .deleteRange _ _ | .leaseRevoke _ | .expireLeases _ _ | .compact _ | .compactV2 _
  | .defragmentWithStatus => isTrue trivial

/-- What the calls and restores of a run have to meet for the leases to agree with the keys. -/
def KeepsLeases (codec : SnapshotCodec) (s : KvStore) : Event → Prop
  | .call op => s.GrantsApart op
  | .restoreSnapshot blob _ => ∀ doc, codec.fromSlice blob = .ok doc → doc.Consistent

instance (codec : SnapshotCodec) (s : KvStore) : (e : Event) → Decidable (s.KeepsLeases codec e)
  | .call op => inferInstanceAs (Decidable (s.GrantsApart op))
  | .restoreSnapshot blob _ =>
    match read : codec.fromSlice blob with
    | .error _ => isTrue (by simp [KeepsLeases, read])
    | .ok doc => decidable_of_iff doc.Consistent (by simp [KeepsLeases, read])

/-- Every event that keeps the leases apart keeps the attachment. -/
lemma step_attached {codec : SnapshotCodec} {e : Event} (h : Attached s.current s.leases)
    (ok : s.KeepsLeases codec e) (st : s.stepEvent codec e = some s') :
    Attached s'.current s'.leases := by
  cases e with
  | restoreSnapshot blob checksum =>
    cases st
    cases restoreSnapshot_cases codec s blob checksum with
    | inl same =>
      rw [same]
      exact h
    | inr done =>
      obtain ⟨doc, revision, read, -, eq⟩ := done
      rw [eq]
      exact restoreDoc_attached (ok doc read) s revision
  | call op =>
    cases st
    cases op with
    | put req => exact put_attached h ok
    | deleteRange req order => exact deleteRange_attached h order req
    | txn req orders =>
      refine runOps_attached h fun op mem => ok op.1 ?_
      rw [← map_fst_ordered (s.branch req) orders]
      exact List.mem_map_of_mem mem
    | leaseGrant req now => exact leaseGrant_attached h ok now
    | leaseGrantV2 req now => exact leaseGrantV2_attached h ok now
    | leaseRevoke id => exact tryRevoke_attached h id
    | expireLeases now order =>
      exact List.foldlRecOn (motive := fun t : KvStore => Attached t.current t.leases) _ tryRevoke h
        fun t ht id _ => tryRevoke_attached ht id
    | compact c => exact h
    | compactV2 c =>
      show Attached ((s.compactV2 c).toOption.getD s).current ((s.compactV2 c).toOption.getD s).leases
      cases compactV2_cases s c with
      | inl same =>
        rw [same]
        exact h
      | inr done =>
        rw [done.2.2]
        exact h
    | defragmentWithStatus => exact h

/-- In runs that keep the leases, a live key has a lease exactly if that lease exists and lists it once,
and revoking a lease removes exactly the live keys that have it. -/
theorem lease_attachment {codec : SnapshotCodec} {events : List Event} {s : KvStore}
    (hr : Run.run (stepEvent codec) new events = some s)
    (gd : Run.Guarded (stepEvent codec) (KeepsLeases codec) new events) :
    (∀ k kv, s.current.lookup k = some kv → ∀ id, kv.lease = some id ↔
      ∃ lease, s.leases.lookup id = some lease ∧ lease.keys.countP (·.asBytes = k) = 1) ∧
    (∀ id s', s.leaseRevoke id = .ok s' → ∀ k, s'.current.lookup k =
      if (s.current.lookup k).any (·.lease = some id) then none else s.current.lookup k) := by
  have start : Attached new.current new.leases :=
    { nodup := by rintro _ _ ⟨⟩, listed := by rintro _ _ _ ⟨⟩, held := by rintro _ _ _ ⟨⟩ }
  have h : Attached s.current s.leases :=
    Run.invariant_of_guarded (P := fun s => Attached s.current s.leases) step_attached gd hr start
  refine ⟨fun k kv live id => ⟨fun attached => ?_, ?_⟩, fun id s' revoked k => ?_⟩
  · obtain ⟨lease, found, key, mem, rfl⟩ := h.held live attached
    refine ⟨lease, found, ?_⟩
    rw [← List.count_eq_one_of_mem (h.nodup found) mem, List.count_eq_countP]
    refine List.countP_congr fun x _ => ?_
    simp only [decide_eq_true_eq, beq_iff_eq]
    exact Str.asBytes_injective.eq_iff
  · rintro ⟨lease, found, once⟩
    obtain ⟨key, mem, here⟩ := List.countP_pos_iff.mp (once ▸ Nat.one_pos)
    obtain ⟨kv', live', attached⟩ := h.listed found mem
    rw [of_decide_eq_true here, live] at live'
    cases live'
    exact attached
  · unfold leaseRevoke at revoked
    cases found : s.leases.lookup id with
    | none =>
      rw [found] at revoked
      cases revoked
    | some lease =>
      have same : s' = s.tryRevoke id := by
        rw [tryRevoke_of_some found]
        rw [found] at revoked
        exact (Except.ok.inj revoked).symm
      rw [same, lookup_tryRevoke found]
      simp only [mem_keys_iff h found]

/-- A lease is granted, the key "a" is put under it and moved to another one, and the first lease is
revoked. -/
def moveKeyRun : List Event :=
  [.call (.leaseGrant { ttl := 60, id := some 7 } 0), .call (.leaseGrant { ttl := 60 } 0),
    .call (.put { key := keyA, value := keyA, lease := some 7 }),
    .call (.put { key := keyA, value := keyB, lease := some 2 }), .call (.leaseRevoke 7)]

/-- The key is live under the second lease, which lists it once. -/
theorem lease_attachment_moved_key :
    ∃ s kv lease, Run.run (stepEvent noSnapshots) new moveKeyRun = some s ∧
      s.current.lookup keyA.asBytes = some kv ∧ s.leases.lookup 2 = some lease ∧
      lease.keys.countP (·.asBytes = keyA.asBytes) = 1 := by
  obtain ⟨s, hr, test⟩ := Run.exists_of_test (stepEvent noSnapshots) new moveKeyRun
    (fun s => (s.current.lookup keyA.asBytes).any (·.lease = some 2)) (by decide)
  rw [Option.any_eq_true] at test
  obtain ⟨kv, live, attached⟩ := test
  have gd : Run.Guarded (stepEvent noSnapshots) (KeepsLeases noSnapshots) new moveKeyRun := by
    decide
  obtain ⟨lease, found, once⟩ :=
    ((lease_attachment hr gd).1 _ kv live 2).mp (of_decide_eq_true attached)
  exact ⟨s, kv, lease, hr, live, found, once⟩

/-- A key is put under a lease that was never granted, and the lease is granted after that. -/
def missingLeaseRun : List Event :=
  [.call (.put { key := keyA, value := keyA, lease := some 7 }),
    .call (.leaseGrant { ttl := 60, id := some 7 } 0)]

/-- The key has the lease, the lease does not list it, and revoking the lease leaves the key live. -/
theorem put_under_missing_lease :
    ∃ s s' lease, Run.run (stepEvent noSnapshots) new missingLeaseRun = some s ∧
      (s.current.lookup keyA.asBytes).map (·.lease) = some (some 7) ∧
      s.leases.lookup 7 = some lease ∧ lease.keys = [] ∧
      s.leaseRevoke 7 = .ok s' ∧ (s'.current.lookup keyA.asBytes).isSome := by
  refine ⟨_, _, _, rfl, ?_, rfl, rfl, rfl, ?_⟩
  · decide
  · decide

end KvStore

end Etcd
