import Mathlib.Data.Finset.Dedup
import Mathlib.Data.Finset.SDiff
import Mathlib.Data.Finset.Filter
import CaveRuntime.Common.Mvcc
import CaveRuntime.Etcd.Store

/-!
# The etcd-compatible store: what a write does

`current`, `history` and `key_index` of the store are a plain map and a multi-version map (`mvcc`). Every
operation that takes a revision changes them in the same way: it gives the keys it touches one value,
in the plain map and as a version on top of the multi-version map (`Writes`). The rest of the store's
operations leave `current` alone.
-/

namespace Etcd
open Utf8

/-- The value that a history entry gives its key. -/
def putValue : Bytes × EventType × KeyValue → Option KeyValue
  | (_, .put, kv) => some kv
  | (_, .delete, _) => none

namespace KvStore

variable {s s' : KvStore} {k : Bytes} {r : ℕ}

/-- The store's history as a multi-version map. -/
def mvcc (s : KvStore) : Mvcc Bytes KeyValue where
  rev := s.revision
  index k := (s.keyIndex.lookup k).getD []
  log r := (s.history.lookup r).bind putValue

lemma getAtRevision_eq (s : KvStore) (k : Bytes) (r : ℕ) : s.getAtRevision k r = s.mvcc.get k r := by
  unfold getAtRevision Mvcc.get
  show _ = (lastUpTo ((s.keyIndex.lookup k).getD []) r).bind s.mvcc.log
  cases s.keyIndex.lookup k with
  | none => rfl
  | some revs =>
    show (revs.reverse.find? (· ≤ r)).bind _ = (revs.reverse.find? (· ≤ r)).bind _
    congr 1
    funext rev
    show (s.history.lookup rev).bind _ = (s.history.lookup rev).bind putValue
    congr 1
    funext ⟨_, eventType, kv⟩
    cases eventType <;> rfl

/-- One revision that gives all the keys it touches the value `v`. -/
structure Writes (s s' : KvStore) (touched : Bytes → Prop) (v : Option KeyValue) : Prop where
  mvcc : Mvcc.Write s.mvcc s'.mvcc touched v
  current : ∀ k, touched k → s'.current.lookup k = v
  frame : ∀ k, ¬ touched k → s'.current.lookup k = s.current.lookup k
  compacted : s'.compactedRevision = s.compactedRevision

/-- Every live pair is stored under its own key. -/
def Keyed (s : KvStore) : Prop := ∀ k kv, s.current.lookup k = some kv → kv.key = k

lemma Writes.keyed {touched : Bytes → Prop} {v : Option KeyValue} (w : Writes s s' touched v)
    (h : s.Keyed) (new : ∀ k kv, touched k → v = some kv → kv.key = k) : s'.Keyed := by
  intro k kv found
  by_cases hk : touched k
  · rw [w.current k hk] at found
    exact new k kv hk found
  · rw [w.frame k hk] at found
    exact h k kv found

lemma index_indexPush (s : KvStore) (key : Bytes) (rev : ℕ) (k : Bytes) :
    (s.indexPush key rev).mvcc.index k =
      if k = key then s.mvcc.index k ++ [rev] else s.mvcc.index k := by
  show ((s.keyIndex.insert key _).lookup k).getD [] = _
  rw [Table.lookup_insert_eq]
  split
  · subst k
    rfl
  · rfl

lemma log_historyInsert (s : KvStore) (rev : ℕ) (e : Bytes × EventType × KeyValue) (r : ℕ) :
    (s.historyInsert rev e).mvcc.log r = if r = rev then putValue e else s.mvcc.log r := by
  show ((s.history.insert rev e).lookup r).bind putValue = _
  rw [Table.lookup_insert_eq]
  split <;> rfl

lemma put_writes (s : KvStore) (req : PutRequest) :
    Writes s (s.put req).2 (· = req.key.asBytes) (some (s.putKv req)) where
  mvcc :=
    { rev := rfl
      index := by
        rintro k rfl
        exact (index_indexPush s _ _ _).trans (if_pos rfl)
      frame := fun k ne => (index_indexPush s _ _ k).trans (if_neg ne)
      log := fun k _ => (log_historyInsert s _ _ _).trans (if_pos rfl)
      log_frame := fun r le =>
        (log_historyInsert s _ _ r).trans (if_neg (Nat.ne_of_lt (Nat.lt_succ_of_le le))) }
  current := by
    rintro k rfl
    exact AList.lookup_insert _
  frame := fun k ne => AList.lookup_insert_ne ne
  compacted := rfl

lemma put_keyed (h : s.Keyed) (req : PutRequest) : (s.put req).2.Keyed := by
  refine (put_writes s req).keyed h ?_
  rintro k kv rfl eq
  cases eq
  rfl

lemma nextRevision_writes (s : KvStore) : Writes s s.nextRevision (fun _ => False) none where
  mvcc := .nothing rfl rfl rfl
  current _ := False.elim
  frame _ _ := rfl
  compacted := rfl

lemma Writes.congr {touched touched' : Bytes → Prop} {v : Option KeyValue}
    (w : Writes s s' touched v) (same : ∀ k, touched k ↔ touched' k) : Writes s s' touched' v := by
  have eq : touched = touched' := funext fun k => propext (same k)
  exact eq ▸ w

/-- One more key is deleted at the revision of the request. -/
lemma Writes.recordDelete {t u : KvStore} {done : Bytes → Prop} {key : Bytes} {kv : KeyValue}
    (w : Writes s t done none) (fresh : ¬ done key)
    (cur : ∀ k, u.current.lookup k = if k = key then none else t.current.lookup k)
    (index : u.mvcc.index = t.mvcc.index) (log : u.mvcc.log = t.mvcc.log)
    (rev : u.revision = t.revision) (compacted : u.compactedRevision = t.compactedRevision) :
    Writes s (u.recordDelete key kv (s.revision + 1)) (fun k => done k ∨ k = key) none where
  mvcc :=
    { rev := rev.trans w.mvcc.rev
      index := by
        intro k hk
        refine (index_indexPush u _ _ k).trans ?_
        rw [index]
        cases hk with
        | inl old =>
          have ne : k ≠ key := fun e => fresh (e ▸ old)
          rw [if_neg ne, w.mvcc.index k old]
        | inr here =>
          rw [if_pos here, here, w.mvcc.frame key fresh]
          rfl
      frame := by
        intro k hk
        refine (index_indexPush u _ _ k).trans ?_
        rw [index, if_neg fun e => hk (.inr e)]
        exact w.mvcc.frame k fun d => hk (.inl d)
      log := fun k _ => (log_historyInsert u _ _ _).trans (if_pos rfl)
      log_frame := by
        intro r le
        refine (log_historyInsert u _ _ r).trans ?_
        have ne : r ≠ s.revision + 1 := Nat.ne_of_lt (Nat.lt_succ_of_le le)
        rw [if_neg ne, log]
        exact w.mvcc.log_frame r le }
  current := by
    intro k hk
    refine (cur k).trans ?_
    cases hk with
    | inl old =>
      rw [w.current k old]
      exact ite_self _
    | inr here => exact if_pos here
  frame := by
    intro k hk
    refine (cur k).trans ?_
    rw [if_neg fun e => hk (.inr e)]
    exact w.frame k fun d => hk (.inl d)
  compacted := compacted.trans w.compacted

/-- One key of `delete_range`, on the store alone. -/
def deleteKey (rev : ℕ) (s : KvStore) (key : Bytes) : KvStore :=
  match s.current.lookup key with
  | none => s
  | some kv => s.deleteLive rev key kv

lemma Deletion.key_store (wantPrev : Bool) (rev : ℕ) (d : Deletion) (key : Bytes) :
    (d.key wantPrev rev key).store = d.store.deleteKey rev key := by
  unfold Deletion.key deleteKey
  split <;> simp_all

lemma Deletion.foldl_store (wantPrev : Bool) (rev : ℕ) (ks : List Bytes) (d : Deletion) :
    (ks.foldl (Deletion.key wantPrev rev) d).store = ks.foldl (deleteKey rev) d.store := by
  induction ks generalizing d with
  | nil => rfl
  | cons k ks ih =>
    rw [List.foldl_cons, ih, Deletion.key_store]
    rfl

end KvStore

/-- The keys a deletion covers. -/
def DeleteRangeRequest.covers (req : DeleteRangeRequest) (k : Bytes) : Bool :=
  inRange req.key.asBytes (req.rangeEnd.map (·.asBytes)) k

namespace KvStore

variable {s s' : KvStore}

/-- The keys that `delete_range` tries to remove, in its order. -/
def keysToDelete (s : KvStore) (order : Order Bytes) (req : DeleteRangeRequest) : List Bytes :=
  match req.rangeEnd with
  | some _ => order.visit (s.current.keys.filter req.covers)
  | none => [req.key.asBytes]

/-- `delete_range` is one loop over its keys, with a range end and without. -/
lemma deleteRange_loop (s : KvStore) (order : Order Bytes) (req : DeleteRangeRequest) :
    s.deleteRange order req =
      let d := (s.keysToDelete order req).foldl (Deletion.key req.prevKv (s.revision + 1)) ⟨s.nextRevision, 0, []⟩
      ({ header := d.store.header, deleted := d.deleted, prevKvs := d.prevKvs }, d.store) := by
  unfold deleteRange keysToDelete
  cases h : req.rangeEnd with
  | none => rfl
  | some e =>
    have cov : req.covers = inRange req.key.asBytes (some e.asBytes) := by
      funext k
      simp [DeleteRangeRequest.covers, h]
    rw [cov]
    rfl

lemma deleteRange_eq (s : KvStore) (order : Order Bytes) (req : DeleteRangeRequest) :
    (s.deleteRange order req).2 =
      (s.keysToDelete order req).foldl (deleteKey (s.revision + 1)) s.nextRevision := by
  rw [deleteRange_loop]
  exact Deletion.foldl_store _ _ _ _

lemma mem_keysToDelete {order : Order Bytes} {req : DeleteRangeRequest} {k : Bytes}
    (live : (s.current.lookup k).isSome) :
    k ∈ s.keysToDelete order req ↔ req.covers k := by
  unfold keysToDelete
  cases h : req.rangeEnd with
  | none => simp [DeleteRangeRequest.covers, h, inRange]
  | some e =>
    rw [Order.mem_visit, List.mem_filter]
    exact and_iff_right (Table.lookup_isSome.mp live)

/-- The loop of `delete_range` adds the live ones of its keys to what the revision deletes. -/
lemma Writes.foldl_deleteKey {t : KvStore} {done : Bytes → Prop} (w : Writes s t done none)
    (ks : List Bytes) :
    Writes s (ks.foldl (deleteKey (s.revision + 1)) t)
      (fun k => done k ∨ (k ∈ ks ∧ (s.current.lookup k).isSome)) none := by
  induction ks generalizing t done with
  | nil => exact w.congr fun k => by simp
  | cons key ks ih =>
    rw [List.foldl_cons]
    cases live : t.current.lookup key with
    | none =>
      have skip : t.deleteKey (s.revision + 1) key = t := by simp [deleteKey, live]
      rw [skip]
      refine (ih w).congr fun k => ?_
      -- a key that is not live any more was deleted before
      have gone : k = key → (s.current.lookup k).isSome → done k := by
        rintro rfl alive
        by_contra not
        rw [w.frame k not] at live
        simp [live] at alive
      simp only [List.mem_cons]
      tauto
    | some kv =>
      have fresh : ¬ done key := by
        intro d
        rw [w.current key d] at live
        cases live
      have alive : (s.current.lookup key).isSome := by
        rw [← w.frame key fresh, live]
        rfl
      have step : t.deleteKey (s.revision + 1) key = t.deleteLive (s.revision + 1) key kv := by
        simp [deleteKey, live]
      rw [step]
      have next : Writes s (t.deleteLive (s.revision + 1) key kv) (fun k => done k ∨ k = key) none :=
        w.recordDelete fresh (fun k => Table.lookup_erase_eq _ _ _) rfl rfl rfl rfl
      refine (ih next).congr fun k => ?_
      simp only [List.mem_cons]
      constructor
      · rintro ((d | rfl) | ⟨mem, al⟩)
        · exact .inl d
        · exact .inr ⟨.inl rfl, alive⟩
        · exact .inr ⟨.inr mem, al⟩
      · tauto

lemma deleteRange_writes (s : KvStore) (order : Order Bytes) (req : DeleteRangeRequest) :
    Writes s (s.deleteRange order req).2
      (fun k => (s.current.lookup k).isSome ∧ req.covers k) none := by
  rw [deleteRange_eq]
  refine ((nextRevision_writes s).foldl_deleteKey (s.keysToDelete order req)).congr fun k => ?_
  constructor
  · rintro (bad | ⟨mem, live⟩)
    · exact bad.elim
    · exact ⟨live, (mem_keysToDelete live).mp mem⟩
  · rintro ⟨live, cov⟩
    exact .inr ⟨(mem_keysToDelete live).mpr cov, live⟩

lemma revokeKey_of_live {key : Str} {kv : KeyValue} (live : s.current.lookup key.asBytes = some kv) :
    s.revokeKey key =
      ({ s with current := s.current.erase key.asBytes } : KvStore).nextRevision.recordDelete
        key.asBytes kv (s.revision + 1) := by
  simp only [revokeKey, live]
  rfl

lemma revokeKey_of_not_live {key : Str} (dead : s.current.lookup key.asBytes = none) :
    s.revokeKey key = s := by
  simp [revokeKey, dead]

/-- A key of `lease_revoke` that is live is deleted at a revision of its own. -/
lemma revokeKey_writes {key : Str} {kv : KeyValue} (live : s.current.lookup key.asBytes = some kv) :
    Writes s (s.revokeKey key) (· = key.asBytes) none := by
  rw [revokeKey_of_live live]
  refine Writes.congr ((nextRevision_writes s).recordDelete not_false
    (fun k => Table.lookup_erase_eq _ _ _) rfl rfl rfl rfl) fun k => ?_
  rw [false_or]

lemma leaseGrant_eq (s : KvStore) (req : LeaseGrantRequest) (now : ℤ) :
    ∃ leases counter, (s.leaseGrant now req).2 =
      { s with leases := leases, leaseCounter := counter } := by
  unfold leaseGrant
  cases req.id with
  | none => exact ⟨_, _, rfl⟩
  | some id => exact ⟨_, _, rfl⟩

lemma leaseGrantV2_eq (s : KvStore) (req : LeaseGrantRequest) (now : ℤ) :
    ∃ leases counter, ((s.leaseGrantV2 now req).toOption.map Prod.snd).getD s =
      { s with leases := leases, leaseCounter := counter } := by
  unfold leaseGrantV2
  split
  · exact ⟨_, _, rfl⟩
  cases req.id with
  | none => exact ⟨_, _, rfl⟩
  | some id =>
    dsimp only
    split
    · exact ⟨_, _, rfl⟩
    split
    · exact ⟨_, _, rfl⟩
    · exact ⟨_, _, rfl⟩

lemma tryRevoke_of_none {id : ℤ} (h : s.leases.lookup id = none) : s.tryRevoke id = s := by
  unfold tryRevoke leaseRevoke
  rw [h]
  rfl

lemma tryRevoke_of_some {id : ℤ} {lease : Lease} (h : s.leases.lookup id = some lease) :
    s.tryRevoke id = lease.keys.foldl revokeKey { s with leases := s.leases.erase id } := by
  unfold tryRevoke leaseRevoke
  rw [h]
  rfl

lemma log_dropHistory (s : KvStore) (c r : ℕ) :
    (s.dropHistory c).mvcc.log r = if r < c then none else s.mvcc.log r := by
  show ((Table.eraseAll _ s.history).lookup r).bind putValue = _
  rw [Table.lookup_eraseAll]
  by_cases lt : r < c
  · rw [if_pos lt]
    split
    · rfl
    · rename_i not
      have absent : s.history.lookup r = none := by
        rw [AList.lookup_eq_none]
        intro mem
        exact not (List.mem_filter.mpr ⟨AList.mem_keys.mp mem, by simpa using lt⟩)
      rw [absent]
      rfl
  · rw [if_neg lt, if_neg]
    · rfl
    · intro mem
      exact lt (by simpa using (List.mem_filter.mp mem).2)

/-- Changing the lists of the index one by one changes the multi-version map's lists. -/
lemma index_mapWithKey (s : KvStore) {f : List ℕ → List ℕ} (nil : f [] = []) (k : Bytes) :
    ({ s with keyIndex := Table.mapWithKey (fun _ => f) s.keyIndex } : KvStore).mvcc.index k =
      f (s.mvcc.index k) := by
  show ((Table.mapWithKey (fun _ => f) s.keyIndex).lookup k).getD [] = _
  rw [Table.lookup_mapWithKey]
  show _ = f ((s.keyIndex.lookup k).getD [])
  cases s.keyIndex.lookup k with
  | none => exact nil.symm
  | some revs => rfl

/-- What `compact_v2` keeps of a key's revisions starts with the last one up to its own. -/
lemma pruned_eq (c : ℕ) (revs : List ℕ) :
    pruned c revs = revs ∨ ∃ n, pruned c revs = revs.drop n ∧ ∃ r ∈ revs.drop n, r ≤ c := by
  unfold pruned
  by_cases few : (revs.takeWhile (· ≤ c)).length ≤ 1
  · exact .inl (if_pos few)
  · right
    refine ⟨(revs.takeWhile (· ≤ c)).length - 1, if_neg few, ?_⟩
    have short : (revs.takeWhile (· ≤ c)).length - 1 < (revs.takeWhile (· ≤ c)).length := by omega
    have bound := Nat.lt_of_lt_of_le short (List.takeWhile_prefix (· ≤ c)).length_le
    refine ⟨revs.get ⟨_, bound⟩, ?_, ?_⟩
    · rw [List.drop_eq_getElem_cons bound]
      exact List.mem_cons_self
    · have same := (List.takeWhile_prefix (l := revs) (· ≤ c)).getElem short
      rw [List.get_eq_getElem, ← same]
      simpa using List.mem_takeWhile_imp (List.getElem_mem short)

lemma compactV2_cases (s : KvStore) (c : ℕ) :
    (s.compactV2 c).toOption.getD s = s ∨
      c ≤ s.revision ∧ s.compactedRevision < c ∧
        (s.compactV2 c).toOption.getD s =
          { s.compact c with
            keyIndex := Table.mapWithKey (fun _ => pruned c) (s.compact c).keyIndex } := by
  unfold compactV2
  by_cases zero : c = 0
  · exact .inl (by rw [if_pos zero]; rfl)
  by_cases future : s.revision < c
  · exact .inl (by rw [if_neg zero, if_pos future]; rfl)
  by_cases back : c ≤ s.compactedRevision
  · exact .inl (by rw [if_neg zero, if_neg future, if_pos back]; rfl)
  · refine .inr ⟨Nat.not_lt.mp future, Nat.not_le.mp back, ?_⟩
    rw [if_neg zero, if_neg future, if_neg back]
    rfl

/-- `restore_snapshot` fails and does nothing, or puts back a document with a revision. -/
lemma restoreSnapshot_cases (codec : SnapshotCodec) (s : KvStore) (blob : Bytes) (checksum : String) :
    (s.restoreSnapshot codec blob checksum).toOption.getD s = s ∨
      ∃ doc revision, codec.fromSlice blob = .ok doc ∧ doc.revision = some revision ∧
        (s.restoreSnapshot codec blob checksum).toOption.getD s = s.restoreDoc doc revision := by
  unfold restoreSnapshot
  by_cases wrong : codec.sha256Hex blob ≠ checksum
  · exact .inl (by simp only [if_pos wrong]; rfl)
  simp only [if_neg wrong]
  cases codec.fromSlice blob with
  | error message => exact .inl rfl
  | ok doc =>
    cases rev : doc.revision with
    | none => exact .inl (by simp only [rev]; rfl)
    | some revision => exact .inr ⟨doc, revision, rfl, rev, by simp only [rev]; rfl⟩

/-- The live keys. -/
def liveKeys (s : KvStore) : Finset Bytes := s.current.keys.toFinset

lemma mem_liveKeys {k : Bytes} : k ∈ s.liveKeys ↔ (s.current.lookup k).isSome := by
  rw [liveKeys, List.mem_toFinset, Table.lookup_isSome]

end KvStore

/-- The keys that a deletion removes if `live` are the live keys. -/
def DeleteRangeRequest.hits (req : DeleteRangeRequest) (live : Finset Bytes) : Finset Bytes :=
  live.filter fun k => req.covers k

/-- The live keys after an operation of a transaction. -/
def RequestOp.after (live : Finset Bytes) : RequestOp → Finset Bytes
  | .range _ => live
  | .put req => insert req.key.asBytes live
  | .deleteRange req => live \ req.hits live

namespace KvStore

lemma liveKeys_runOp (s : KvStore) (op : RequestOp) (order : Order Bytes) :
    (s.runOp (op, order)).liveKeys = op.after s.liveKeys := by
  apply Finset.ext
  intro k
  cases op with
  | range _ => rfl
  | put req =>
    have w := put_writes s req
    rw [mem_liveKeys, RequestOp.after, Finset.mem_insert, mem_liveKeys]
    show (((s.put req).2).current.lookup k).isSome = true ↔ _
    by_cases here : k = req.key.asBytes
    · simp [w.current k here, here]
    · simp [here, w.frame k here]
  | deleteRange req =>
    have w := deleteRange_writes s order req
    rw [mem_liveKeys, RequestOp.after, DeleteRangeRequest.hits, Finset.mem_sdiff, Finset.mem_filter,
      mem_liveKeys]
    show (((s.deleteRange order req).2).current.lookup k).isSome = true ↔ _
    by_cases here : (s.current.lookup k).isSome ∧ req.covers k
    · simp [here, w.current k here]
    · rw [w.frame k here]
      tauto

lemma map_fst_ordered (ops : List RequestOp) (orders : ℕ → Order Bytes) :
    (ordered ops orders).map Prod.fst = ops := by
  simp [ordered, Function.comp_def]

lemma runOp_cases (s : KvStore) (op : RequestOp × Order Bytes) :
    s.runOp op = s ∨ ∃ touched v, Writes s (s.runOp op) touched v := by
  obtain ⟨op, order⟩ := op
  cases op with
  | range _ => exact .inl rfl
  | put req => exact .inr ⟨_, _, put_writes s req⟩
  | deleteRange req => exact .inr ⟨_, _, deleteRange_writes s order req⟩

/-! ## What every call keeps -/

/-- What is kept by writes and by the removal of history and index entries. Nothing else touches the pairs, so that
every call keeps it. -/
structure Kept (P : KvStore → Prop) : Prop where
  write : ∀ {s s' touched v}, P s → Writes s s' touched v → (∀ k kv, touched k → v = some kv → kv.key = k) → P s'
  collect : ∀ {s s' : KvStore}, P s → s'.current = s.current → s'.revision = s.revision →
    (∀ k, s'.mvcc.index k ⊆ s.mvcc.index k) →
    (∀ r kv, s'.mvcc.log r = some kv → s.mvcc.log r = some kv) → P s'

namespace Kept

variable {P : KvStore → Prop} (kept : Kept P)

include kept

variable (h : P s)

include h

lemma frame (mvcc : s'.mvcc = s.mvcc) (current : s'.current = s.current) : P s' := by
  refine kept.collect h current (congrArg Mvcc.rev mvcc) (fun k => ?_) fun r kv found => ?_
  · rw [mvcc]
    exact List.Subset.refl _
  · rwa [mvcc] at found

lemma put (req : PutRequest) : P (s.put req).2 := by
  refine kept.write h (put_writes s req) ?_
  rintro k kv rfl eq
  cases eq
  rfl

lemma deleteRange (order : Order Bytes) (req : DeleteRangeRequest) : P (s.deleteRange order req).2 :=
  kept.write h (deleteRange_writes s order req) (by simp)

lemma runOp (op : RequestOp × Order Bytes) : P (s.runOp op) := by
  obtain ⟨op, order⟩ := op
  cases op with
  | range _ => exact h
  | put req => exact kept.put h req
  | deleteRange req => exact kept.deleteRange h order req

lemma revokeKey (key : Str) : P (s.revokeKey key) := by
  cases live : s.current.lookup key.asBytes with
  | none =>
    rw [revokeKey_of_not_live live]
    exact h
  | some kv => exact kept.write h (revokeKey_writes live) (by simp)

lemma tryRevoke (id : ℤ) : P (s.tryRevoke id) := by
  cases found : s.leases.lookup id with
  | none =>
    rw [tryRevoke_of_none found]
    exact h
  | some lease =>
    rw [tryRevoke_of_some found]
    exact List.foldlRecOn lease.keys KvStore.revokeKey (kept.frame h rfl rfl) fun _ h key _ => kept.revokeKey h key

lemma compact (c : ℕ) : P (s.compact c) := by
  refine kept.collect h rfl rfl (fun k => List.Subset.refl _) fun r kv found => ?_
  have found : (dropHistory { s with compactedRevision := c } c).mvcc.log r = some kv := found
  rw [log_dropHistory] at found
  split at found
  · cases found
  · exact found

lemma compactV2 (c : ℕ) : P ((s.compactV2 c).toOption.getD s) := by
  cases compactV2_cases s c with
  | inl same =>
    rw [same]
    exact h
  | inr done =>
    rw [done.2.2]
    refine kept.collect (kept.compact h c) rfl rfl (fun k => ?_) fun r kv found => found
    rw [index_mapWithKey _ rfl]
    cases pruned_eq c ((s.compact c).mvcc.index k) with
    | inl eq =>
      rw [eq]
      exact List.Subset.refl _
    | inr ex =>
      obtain ⟨n, eq, -⟩ := ex
      rw [eq]
      exact List.drop_subset _ _

lemma defragment : P s.defragmentWithStatus.2 := by
  have index := index_mapWithKey s (show List.filter (s.compactedRevision ≤ ·) ([] : List ℕ) = [] from rfl)
  refine kept.collect h rfl rfl (fun k => ?_) fun r kv found => found
  exact (congrArg (· ⊆ s.mvcc.index k) (index k)).mpr (List.filter_subset_self _)

lemma apply (op : Op) : P (op.apply s) := by
  cases op with
  | put req => exact kept.put h req
  | deleteRange req order => exact kept.deleteRange h order req
  | txn req orders => exact List.foldlRecOn _ _ h fun _ h op _ => kept.runOp h op
  | leaseGrant req now =>
    obtain ⟨leases, counter, eq⟩ := leaseGrant_eq s req now
    have granted : P (s.leaseGrant now req).2 := eq ▸ kept.frame h rfl rfl
    exact granted
  | leaseGrantV2 req now =>
    obtain ⟨leases, counter, eq⟩ := leaseGrantV2_eq s req now
    have granted : P (((s.leaseGrantV2 now req).toOption.map Prod.snd).getD s) := eq ▸ kept.frame h rfl rfl
    exact granted
  | leaseRevoke id => exact kept.tryRevoke h id
  | expireLeases now order => exact List.foldlRecOn _ _ h fun _ h id _ => kept.tryRevoke h id
  | compact c => exact kept.compact h c
  | compactV2 c => exact kept.compactV2 h c
  | defragmentWithStatus => exact kept.defragment h

end Kept

end KvStore

end Etcd
