import CaveRuntime.Common.Run
import CaveRuntime.Etcd.Writes

/-!
# The etcd-compatible store: reads at old revisions

A read at a revision that is not compacted returns the pairs that were live right after that revision,
in runs whose compactions only drop puts that have been superseded. The compactions of the store drop
every history entry below their revision, also the last put of a key that is still live, so runs that
compact in any other way lose live keys from reads at all later revisions
(`compaction_hides_a_live_key`).
-/

namespace Etcd
open Utf8

namespace KvStore

/-- The stores `lease_revoke` goes through. -/
def revokeVisits (s : KvStore) (leaseId : ℤ) : List KvStore :=
  match s.leases.lookup leaseId with
  | none => []
  | some lease => lease.keys.scanl revokeKey { s with leases := s.leases.erase leaseId }

/-- The stores a sequence of `lease_revoke` calls goes through. -/
def expireVisits (s : KvStore) : List ℤ → List KvStore
  | [] => []
  | id :: ids => s.revokeVisits id ++ (s.tryRevoke id).expireVisits ids

end KvStore

/-- The stores a call goes through: it assigns revisions one after the other, and these are the stores
right after each of them. -/
def Op.visits (s : KvStore) : Op → List KvStore
  | .txn req orders => (KvStore.ordered (s.branch req) orders).scanl KvStore.runOp s
  | .leaseRevoke leaseId => s.revokeVisits leaseId
  | .expireLeases now order => s.expireVisits (s.expiredIds order now)
  | op => [op.apply s]

/-- The stores a run goes through. -/
def visited (s : KvStore) : List Op → List KvStore
  | [] => [s]
  | op :: ops => s :: (op.visits s ++ visited (op.apply s) ops)

namespace KvStore

/-- Every put below `c` has been superseded by a revision of its key at or below `c`. -/
def Superseding (s : KvStore) (c : ℕ) : Prop :=
  ∀ e ∈ s.keyIndex.entries, ∀ r ∈ e.2, r < c → (s.history.lookup r).bind putValue ≠ none →
    ∃ r' ∈ e.2, r < r' ∧ r' ≤ c
deriving Decidable

/-- Compactions never go back and only drop what has been superseded. -/
def DropsSuperseded (s : KvStore) : Op → Prop
  | .compact revision => s.compactedRevision ≤ revision ∧ s.Superseding revision
  | .compactV2 revision =>
    revision ≤ s.revision → s.compactedRevision < revision → s.Superseding revision
  | .defragmentWithStatus => s.Superseding s.compactedRevision
  | _ => True

instance (s : KvStore) : (op : Op) → Decidable (s.DropsSuperseded op)
  | .compact revision => inferInstanceAs (Decidable (_ ∧ s.Superseding revision))
  | .compactV2 revision =>
    inferInstanceAs (Decidable (revision ≤ s.revision → s.compactedRevision < revision →
      s.Superseding revision))
  | .defragmentWithStatus => inferInstanceAs (Decidable (s.Superseding s.compactedRevision))
  | .put _ | .deleteRange _ _ | .txn _ _ | .leaseGrant _ _ | .leaseGrantV2 _ _ | .leaseRevoke _
  | .expireLeases _ _ => isTrue trivial

variable {s s' : KvStore} {past : Set KvStore} {views : ℕ → Bytes → Option KeyValue} {k : Bytes}

lemma Superseding.mvcc {c : ℕ} (h : s.Superseding c) : s.mvcc.Superseded c := by
  intro k r hr lt put
  cases hk : s.keyIndex.lookup k with
  | none => simp [KvStore.mvcc, hk] at hr
  | some revs =>
    have index : s.mvcc.index k = revs := by simp [KvStore.mvcc, hk]
    rw [index] at hr ⊢
    exact h ⟨k, revs⟩ (Table.mem_entries.mpr hk) r hr lt put

/-- The store reads back `views`, and these are what was live in the stores of the past. -/
structure Tracked (past : Set KvStore) (s : KvStore) (views : ℕ → Bytes → Option KeyValue) : Prop where
  bounded : s.mvcc.Bounded
  increasing : s.mvcc.Increasing
  faithful : s.mvcc.Faithful s.compactedRevision views
  positive : 1 ≤ s.revision
  now : ∀ k, views s.revision k = s.current.lookup k
  before : ∀ t ∈ past, t.revision ≤ s.revision ∧ ∀ k, views t.revision k = t.current.lookup k
  all : ∀ r, 1 ≤ r → r ≤ s.revision → ∃ t ∈ past, t.revision = r
  empty : ∀ r ≤ 1, ∀ k, views r k = none
  keyed : ∀ {r k kv}, views r k = some kv → kv.key = k

lemma Tracked.visit (h : Tracked past s views) : Tracked (insert s past) s views :=
  { h with
    before := by
      rintro t (rfl | old)
      · exact ⟨Nat.le_refl _, h.now⟩
      · exact h.before t old
    all := by
      intro r pos le
      obtain ⟨t, ht, rev⟩ := h.all r pos le
      exact ⟨t, .inr ht, rev⟩ }

lemma Tracked.frame (h : Tracked past s views) (mvcc : s'.mvcc = s.mvcc)
    (current : s'.current = s.current) (compacted : s'.compactedRevision = s.compactedRevision) :
    Tracked past s' views where
  bounded := mvcc ▸ h.bounded
  increasing := mvcc ▸ h.increasing
  faithful := by rw [mvcc, compacted]; exact h.faithful
  positive := by
    have rev : s'.revision = s.revision := congrArg Mvcc.rev mvcc
    exact rev ▸ h.positive
  now := by
    have rev : s'.revision = s.revision := congrArg Mvcc.rev mvcc
    rw [current, rev]
    exact h.now
  before := by
    have rev : s'.revision = s.revision := congrArg Mvcc.rev mvcc
    rw [rev]
    exact h.before
  all := by
    have rev : s'.revision = s.revision := congrArg Mvcc.rev mvcc
    rw [rev]
    exact h.all
  empty := h.empty
  keyed := h.keyed

/-- A write adds one view, that of its revision. -/
lemma Tracked.write (h : Tracked past s views) {touched : Bytes → Prop} {v : Option KeyValue}
    (w : Writes s s' touched v) (keyed : ∀ k kv, touched k → v = some kv → kv.key = k) :
    Tracked (insert s' past) s'
      (Mvcc.extend views s.revision fun k => s'.current.lookup k) := by
  have rev : s'.revision = s.revision + 1 := w.mvcc.rev
  have old : ∀ r ≤ s.revision, ∀ k,
      Mvcc.extend views s.revision (fun k => s'.current.lookup k) r k = views r k := by
    intro r le k
    rw [Mvcc.extend_of_le le]
  have new : ∀ k, Mvcc.extend views s.revision (fun k => s'.current.lookup k) s'.revision k =
      s'.current.lookup k := by
    intro k
    rw [Mvcc.extend_of_gt (by omega)]
  refine ⟨w.mvcc.bounded h.bounded, w.mvcc.increasing h.bounded h.increasing, ?_, ?_, new, ?_, ?_, ?_,
    ?_⟩
  · rw [w.compacted]
    refine h.faithful.write w.mvcc h.bounded w.current fun k hk => ?_
    exact (w.frame k hk).trans (h.now k).symm
  · omega
  · rintro t (rfl | ht)
    · exact ⟨Nat.le_refl _, new⟩
    · obtain ⟨le, view⟩ := h.before t ht
      exact ⟨by omega, fun k => (old _ le k).trans (view k)⟩
  · intro r pos le
    by_cases last : r = s'.revision
    · exact ⟨s', .inl rfl, last.symm⟩
    · obtain ⟨t, ht, eq⟩ := h.all r pos (by omega)
      exact ⟨t, .inr ht, eq⟩
  · intro r le k
    rw [old r (Nat.le_trans le h.positive), h.empty r le]
  · intro r k kv view
    by_cases le : r ≤ s.revision
    · rw [old r le] at view
      exact h.keyed view
    · rw [Mvcc.extend_of_gt (Nat.not_le.mp le)] at view
      by_cases hk : touched k
      · rw [w.current k hk] at view
        exact keyed k kv hk view
      · rw [w.frame k hk, ← h.now k] at view
        exact h.keyed view

lemma Tracked.collect (h : Tracked past s views) (rev : s'.revision = s.revision)
    (current : s'.current = s.current) (up : s.compactedRevision ≤ s'.compactedRevision)
    (index : ∀ k, (s'.mvcc.index k).Sublist (s.mvcc.index k))
    (same : ∀ r ≤ s.revision, s'.compactedRevision ≤ r ∨ r = s.revision → ∀ k,
      s'.mvcc.get k r = s.mvcc.get k r) :
    Tracked past s' views where
  bounded k r hr := by
    show r ≤ s'.revision
    rw [rev]
    exact h.bounded k r ((index k).subset hr)
  increasing k := (h.increasing k).sublist (index k)
  faithful := h.faithful.of_get up rev same
  positive := rev ▸ h.positive
  now := by
    rw [current, rev]
    exact h.now
  before := by
    rw [rev]
    exact h.before
  all := by
    rw [rev]
    exact h.all
  empty := h.empty
  keyed := h.keyed

/-- There are views that the store tracks. -/
def Tracks (past : Set KvStore) (s : KvStore) : Prop := ∃ views, Tracked past s views

namespace Tracks

section

variable (h : Tracks past s)

include h

lemma put (req : PutRequest) : Tracks (insert (s.put req).2 past) (s.put req).2 := by
  obtain ⟨views, h⟩ := h
  refine ⟨_, h.write (put_writes s req) ?_⟩
  rintro k kv rfl eq
  cases eq
  rfl

lemma deleteRange (order : Order Bytes) (req : DeleteRangeRequest) :
    Tracks (insert (s.deleteRange order req).2 past) (s.deleteRange order req).2 := by
  obtain ⟨views, h⟩ := h
  exact ⟨_, h.write (deleteRange_writes s order req) (by simp)⟩

lemma visit : Tracks (insert s past) s := by
  obtain ⟨views, h⟩ := h
  exact ⟨views, h.visit⟩

lemma frame (mvcc : s'.mvcc = s.mvcc) (current : s'.current = s.current)
    (compacted : s'.compactedRevision = s.compactedRevision) : Tracks past s' := by
  obtain ⟨views, h⟩ := h
  exact ⟨views, h.frame mvcc current compacted⟩

lemma runOp (op : RequestOp × Order Bytes) :
    Tracks (insert (s.runOp op) past) (s.runOp op) := by
  obtain ⟨op, order⟩ := op
  cases op with
  | range _ => exact h.visit
  | put req => exact h.put req
  | deleteRange req => exact h.deleteRange order req

lemma revokeKey (key : Str) :
    Tracks (insert (s.revokeKey key) past) (s.revokeKey key) := by
  cases live : s.current.lookup key.asBytes with
  | none =>
    rw [revokeKey_of_not_live live]
    exact h.visit
  | some kv =>
    obtain ⟨views, h⟩ := h
    exact ⟨_, h.write (revokeKey_writes live) (by simp)⟩

end

lemma once (h : Tracks (insert s past) s) : Tracks (past ∪ {t | t ∈ [s]}) s := by
  simpa [Set.insert_def, Set.union_comm] using h

lemma scanl {α : Type*} {f : KvStore → α → KvStore}
    (round : ∀ {past s} a, Tracks past s → Tracks (insert (f s a) past) (f s a)) (h : Tracks past s)
    (l : List α) : Tracks (past ∪ {t | t ∈ l.scanl f s}) (l.foldl f s) := by
  induction l generalizing s past with
  | nil => exact h.visit.once
  | cons a l ih =>
    have rest := ih (round a h.visit)
    have head : f s a ∈ l.scanl f (f s a) := by cases l <;> simp
    have same : insert (f s a) (insert s past) ∪ {t | t ∈ l.scanl f (f s a)} =
        past ∪ {t | t ∈ (a :: l).scanl f s} := by
      apply Set.ext
      intro t
      simp only [Set.mem_union, Set.mem_insert_iff, Set.mem_ofPred_eq, List.scanl_cons,
        List.mem_cons]
      constructor
      · rintro ((rfl | rfl | old) | mem)
        · exact .inr (.inr head)
        · exact .inr (.inl rfl)
        · exact .inl old
        · exact .inr (.inr mem)
      · tauto
    exact same ▸ rest

lemma tryRevoke (h : Tracks past s) (id : ℤ) :
    Tracks (past ∪ {t | t ∈ s.revokeVisits id}) (s.tryRevoke id) := by
  unfold revokeVisits
  cases found : s.leases.lookup id with
  | none =>
    rw [tryRevoke_of_none found]
    simpa using h
  | some lease =>
    rw [tryRevoke_of_some found]
    let t : KvStore := { s with leases := s.leases.erase id }
    have start : Tracks past t := h.frame rfl rfl rfl
    exact start.scanl (fun key h => h.revokeKey key) lease.keys

lemma expire (h : Tracks past s) (ids : List ℤ) :
    Tracks (past ∪ {t | t ∈ s.expireVisits ids}) (ids.foldl KvStore.tryRevoke s) := by
  induction ids generalizing s past with
  | nil => simpa [expireVisits] using h
  | cons id ids ih =>
    have rest := ih (h.tryRevoke id)
    simpa [expireVisits, Set.ofPred_or, Set.union_assoc] using rest

end Tracks

namespace Tracks

lemma compact {c : ℕ} (h : Tracks past s) (up : s.compactedRevision ≤ c) (sup : s.Superseding c) :
    Tracks past (s.compact c) := by
  obtain ⟨views, h⟩ := h
  refine ⟨views, h.collect rfl rfl up (fun k => List.Sublist.refl _) ?_⟩
  intro r le from_ k
  exact sup.mvcc.get_drop_log h.bounded h.increasing rfl (log_dropHistory _ c) from_

lemma compactV2 {c : ℕ} (h : Tracks past s)
    (ok : c ≤ s.revision → s.compactedRevision < c → s.Superseding c) :
    Tracks past ((s.compactV2 c).toOption.getD s) := by
  cases compactV2_cases s c with
  | inl same =>
    rw [same]
    exact h
  | inr done =>
    obtain ⟨le, lt, eq⟩ := done
    rw [eq]
    -- the history first, then the index
    obtain ⟨views, dropped⟩ := h.compact (Nat.le_of_lt lt) (ok le lt)
    refine ⟨views, dropped.collect rfl rfl (Nat.le_refl _) ?_ ?_⟩
    · intro k
      rw [index_mapWithKey _ rfl]
      cases pruned_eq c ((s.compact c).mvcc.index k) with
      | inl eq => rw [eq]
      | inr ex =>
        obtain ⟨n, eq, -⟩ := ex
        rw [eq]
        exact List.drop_sublist _ _
    · intro r _ from_ k
      have ge : c ≤ r := by
        cases from_ with
        | inl ge => exact ge
        | inr last => exact last ▸ le
      refine congrArg (Option.bind · (s.compact c).mvcc.log) ?_
      rw [index_mapWithKey _ rfl]
      cases pruned_eq c ((s.compact c).mvcc.index k) with
      | inl eq => rw [eq]
      | inr ex =>
        obtain ⟨n, eq, u, hu, below⟩ := ex
        rw [eq]
        exact lastUpTo.drop n hu (Nat.le_trans below ge)

lemma defragment (h : Tracks past s) (sup : s.Superseding s.compactedRevision) :
    Tracks past s.defragmentWithStatus.2 := by
  obtain ⟨views, h⟩ := h
  have index := index_mapWithKey s
    (show List.filter (s.compactedRevision ≤ ·) ([] : List ℕ) = [] from rfl)
  refine ⟨views, h.collect rfl rfl (Nat.le_refl _) ?_ ?_⟩
  · intro k
    exact (congrArg (List.Sublist · _) (index k)).mpr List.filter_sublist
  · intro r le from_ k
    exact sup.mvcc.get_filter_index h.bounded h.increasing (index k) rfl from_

lemma step (h : Tracks past s) {op : Op} (ok : s.DropsSuperseded op) :
    Tracks (past ∪ {t | t ∈ op.visits s}) (op.apply s) := by
  cases op with
  | put req => exact (h.put req).once
  | deleteRange req order => exact (h.deleteRange order req).once
  | txn req orders => exact h.scanl (fun op h => h.runOp op) _
  | leaseGrant req now =>
    obtain ⟨leases, counter, eq⟩ := leaseGrant_eq s req now
    have same : Tracks past (s.leaseGrant now req).2 := eq ▸ h.frame rfl rfl rfl
    exact same.visit.once
  | leaseGrantV2 req now =>
    obtain ⟨leases, counter, eq⟩ := leaseGrantV2_eq s req now
    have same : Tracks past (((s.leaseGrantV2 now req).toOption.map Prod.snd).getD s) :=
      eq ▸ h.frame rfl rfl rfl
    exact same.visit.once
  | leaseRevoke id => exact h.tryRevoke id
  | expireLeases now order => exact h.expire _
  | compact c => exact (h.compact ok.1 ok.2).visit.once
  | compactV2 c => exact (h.compactV2 ok).visit.once
  | defragmentWithStatus => exact (h.defragment ok).visit.once

lemma run {ops : List Op} (h : Tracks past s) (gd : Run.Guarded KvStore.step DropsSuperseded s ops)
    (hr : Run.run KvStore.step s ops = some s') : Tracks (past ∪ {t | t ∈ visited s ops}) s' := by
  induction ops generalizing s past with
  | nil =>
    cases hr
    exact h.visit.once
  | cons op ops ih =>
    obtain ⟨t, st, hr⟩ := Run.run_cons.mp hr
    cases st
    have rest := ih (h.visit.step gd.1) (gd.2 _ rfl) hr
    have same : insert s past ∪ {t | t ∈ op.visits s} ∪ {t | t ∈ visited (op.apply s) ops} =
        past ∪ {t | t ∈ visited s (op :: ops)} := by
      apply Set.ext
      intro t
      simp only [visited, Set.mem_union, Set.mem_insert_iff, Set.mem_ofPred_eq, List.mem_cons,
        List.mem_append]
      tauto
    exact same ▸ rest

lemma new : Tracks {KvStore.new} KvStore.new := by
  refine ⟨fun _ _ => none, ?_, ?_, ?_, Nat.le_refl 1, fun _ => rfl, ?_, ?_, fun _ _ _ => rfl,
    fun h => by cases h⟩
  · intro k r hr
    cases hr
  · intro k
    exact List.Pairwise.nil
  · intro r _ _ k
    rfl
  · intro t ht
    cases ht
    exact ⟨Nat.le_refl 1, fun _ => rfl⟩
  · intro r pos le
    exact ⟨_, rfl, Nat.le_antisymm pos le⟩

end Tracks

end KvStore

/-- The keys a range request covers. -/
def RangeRequest.covers (req : RangeRequest) (k : Bytes) : Bool :=
  inRange req.key.asBytes (req.rangeEnd.map (·.asBytes)) k

/-- What a request is to be shown of the pairs that it covers: all of them, unless it is for their number, for the
first ones or for keys without values. -/
def RangeRequest.shows (req : RangeRequest) (kvs : List KeyValue) : List KeyValue :=
  let first := req.limit.elim kvs kvs.take
  if req.countOnly then [] else if req.keysOnly then first.map fun kv => { kv with value := [] } else first

/-- The pairs of a plain map that a request covers, in key order. -/
structure Listing (view : Bytes → Option KeyValue) (req : RangeRequest) (kvs : List KeyValue) :
    Prop where
  sorted : kvs.Pairwise (·.key < ·.key)
  mem : ∀ kv, kv ∈ kvs ↔ req.covers kv.key ∧ view kv.key = some kv

lemma Listing.unique {view : Bytes → Option KeyValue} {req : RangeRequest} {kvs kvs' : List KeyValue}
    (h : Listing view req kvs) (h' : Listing view req kvs') : kvs = kvs' := by
  have nodup : ∀ {l : List KeyValue}, l.Pairwise (·.key < ·.key) → l.Nodup := by
    intro l sorted
    refine sorted.imp ?_
    rintro a b lt rfl
    exact List.lt_irrefl _ lt
  have perm : kvs.Perm kvs' := by
    rw [List.perm_ext_iff_of_nodup (nodup h.sorted) (nodup h'.sorted)]
    intro kv
    rw [h.mem, h'.mem]
  refine perm.eq_of_pairwise ?_ h.sorted h'.sorted
  intro a b _ _ lt gt
  exact absurd (List.lt_trans lt gt) (List.lt_irrefl _)

/-- Sorting pairs with different keys puts them in strictly increasing order. -/
lemma pairwise_sortByKey {kvs : List KeyValue} (nodup : (kvs.map (·.key)).Nodup) :
    (KvStore.sortByKey kvs).Pairwise (·.key < ·.key) := by
  have : Std.Total (α := KeyValue) (fun a b => a.key ≤ b.key) := ⟨fun a b => List.le_total _ _⟩
  have : IsTrans KeyValue (fun a b => a.key ≤ b.key) := ⟨fun a b c => List.le_trans⟩
  have perm : (KvStore.sortByKey kvs).Perm kvs := List.perm_insertionSort _ _
  have le : (KvStore.sortByKey kvs).Pairwise (·.key ≤ ·.key) := List.pairwise_insertionSort _ _
  have ne : (KvStore.sortByKey kvs).Pairwise (·.key ≠ ·.key) :=
    List.pairwise_map.mp ((perm.map _).nodup_iff.mpr nodup)
  exact (le.and ne).imp fun h => Std.lt_of_le_of_ne h.1 h.2

section

variable {view : Bytes → Option KeyValue} {req : RangeRequest}

lemma listing_sortByKey {kvs : List KeyValue} (nodup : (kvs.map (·.key)).Nodup)
    (mem : ∀ kv, kv ∈ kvs ↔ req.covers kv.key ∧ view kv.key = some kv) :
    Listing view req (KvStore.sortByKey kvs) where
  sorted := pairwise_sortByKey nodup
  mem kv := (List.perm_insertionSort _ _).mem_iff.trans (mem kv)

lemma map_key_filterMap (keyed : ∀ {k kv}, view k = some kv → kv.key = k) (ks : List Bytes) :
    (ks.filterMap view).map (·.key) = ks.filter fun k => (view k).isSome := by
  induction ks with
  | nil => rfl
  | cons k ks ih =>
    cases found : view k with
    | none => simp [List.filterMap_cons_none found, found, ih]
    | some kv => simp [List.filterMap_cons_some found, found, ih, keyed found]

lemma listing_single (single : req.rangeEnd = none)
    (keyed : ∀ {k kv}, view k = some kv → kv.key = k) :
    Listing view req (view req.key.asBytes).toList where
  sorted := by cases view req.key.asBytes <;> simp
  mem kv := by
    simp only [Option.mem_toList, RangeRequest.covers, single, Option.map_none, inRange,
      decide_eq_true_eq]
    constructor
    · intro found
      rw [keyed found]
      exact ⟨rfl, found⟩
    · rintro ⟨here, found⟩
      rwa [here] at found

lemma RangeRequest.covers_of_some {e : Str} (ends : req.rangeEnd = some e) :
    req.covers = inRange req.key.asBytes (some e.asBytes) := by
  funext k
  simp [RangeRequest.covers, ends]

end

/-- The string "c". -/
def keyC : Str := ⟨[0x63], by decide⟩

namespace KvStore

variable {s : KvStore} {req : RangeRequest}

lemma respond_shows (s : KvStore) (req : RangeRequest) (kvs : List KeyValue) :
    (s.respond req kvs).kvs = req.shows kvs ∧ (s.respond req kvs).count = kvs.length := by
  unfold respond RangeRequest.shows
  dsimp only
  split
  · exact ⟨rfl, rfl⟩
  refine ⟨?_, rfl⟩
  cases req.limit with
  | none => rfl
  | some limit =>
    have first : (if limit < kvs.length then (kvs.take limit, true) else (kvs, false)).1 = kvs.take limit := by
      split
      · rfl
      · rename_i all
        exact (List.take_of_length_le (Nat.not_lt.mp all)).symm
    simp only [first, Option.elim_some]

lemma range_listing (keyed : ∀ {k kv}, s.current.lookup k = some kv → kv.key = k) :
    ∃ kvs, Listing (fun k => s.current.lookup k) req kvs ∧
      s.range { req with revision := none } = .ok (s.respond req kvs) := by
  cases single : req.rangeEnd with
  | none =>
    refine ⟨_, listing_single single keyed, ?_⟩
    simp only [range]
    rfl
  | some e =>
    have cov := RangeRequest.covers_of_some single
    refine ⟨sortByKey ((s.current.entries.filter fun e => req.covers e.1).map Sigma.snd),
      listing_sortByKey ?_ ?_, ?_⟩
    · have keys : ((s.current.entries.filter fun e => req.covers e.1).map Sigma.snd).map (·.key) =
          (s.current.entries.filter fun e => req.covers e.1).map Sigma.fst := by
        rw [List.map_map]
        refine List.map_congr_left fun e he => ?_
        exact keyed (Table.mem_entries.mp (List.mem_filter.mp he).1)
      rw [keys]
      exact s.current.keys_nodup.sublist (List.filter_sublist.map _)
    · intro kv
      simp only [List.mem_map, List.mem_filter]
      constructor
      · rintro ⟨e, ⟨mem, he⟩, rfl⟩
        have found := Table.mem_entries.mp mem
        rw [keyed found]
        exact ⟨he, found⟩
      · rintro ⟨he, found⟩
        exact ⟨⟨kv.key, kv⟩, ⟨Table.mem_entries.mpr found, he⟩, rfl⟩
    · simp only [range, cov]
      rfl

lemma rangeAtRevision_listing {r : ℕ}
    (keyed : ∀ {k kv}, s.getAtRevision k r = some kv → kv.key = k) :
    ∃ kvs, Listing (fun k => s.getAtRevision k r) req kvs ∧
      s.rangeAtRevision req r = s.respond req kvs := by
  cases single : req.rangeEnd with
  | none =>
    refine ⟨_, listing_single single keyed, ?_⟩
    simp only [rangeAtRevision, single]
  | some e =>
    have cov := RangeRequest.covers_of_some single
    refine ⟨sortByKey ((s.keyIndex.keys.filter req.covers).filterMap (s.getAtRevision · r)),
      listing_sortByKey ?_ ?_, ?_⟩
    · rw [map_key_filterMap keyed]
      exact s.keyIndex.keys_nodup.sublist (List.filter_sublist.trans List.filter_sublist)
    · intro kv
      simp only [List.mem_filterMap, List.mem_filter]
      constructor
      · rintro ⟨k, ⟨_, hk⟩, found⟩
        rw [keyed found]
        exact ⟨hk, found⟩
      · rintro ⟨hk, found⟩
        refine ⟨kv.key, ⟨?_, hk⟩, found⟩
        rw [← Table.lookup_isSome]
        cases indexed : s.keyIndex.lookup kv.key with
        | none => simp [getAtRevision, indexed] at found
        | some _ => rfl
    · simp only [rangeAtRevision, single, cov]

/-- A store that reads back `views` answers a read at an assigned revision from the view of that revision. -/
lemma Tracked.range_at {past : Set KvStore} {views : ℕ → Bytes → Option KeyValue} (h : Tracked past s views)
    {r : ℕ} (readable : s.compactedRevision ≤ r) (assigned : r ≤ s.revision) (req : RangeRequest) :
    ∃ kvs, Listing (views r) req kvs ∧ s.range { req with revision := some r } = .ok (s.respond req kvs) := by
  have view (k : Bytes) : s.getAtRevision k r = views r k :=
    (getAtRevision_eq s k r).trans (h.faithful r assigned (.inl readable) k)
  obtain ⟨kvs, listing, eq⟩ := @rangeAtRevision_listing s { req with revision := some r } r
    (fun found => h.keyed (by rwa [view] at found))
  have same : (fun k => s.getAtRevision k r) = views r := funext view
  rw [same] at listing
  refine ⟨kvs, ⟨listing.sorted, listing.mem⟩, ?_⟩
  have notCompacted : ¬ (r < s.compactedRevision ∧ 0 < s.compactedRevision) := by omega
  simp only [range, if_neg notCompacted, eq]
  rfl

/-- In a run whose compactions only drop what has been superseded, a read at a revision that is not
compacted returns the pairs that were live right after that revision, in key order, as far as they are asked for,
and counts them all; at the current revision it returns what a read without a revision returns. The first revision
is 1. -/
theorem time_travel {ops : List Op} {s : KvStore} (hr : Run.run step new ops = some s)
    (gd : Run.Guarded step DropsSuperseded new ops) {r : ℕ} (readable : s.compactedRevision ≤ r)
    (assigned : r ≤ s.revision) :
    (∃ t ∈ visited new ops, t.revision = max r 1) ∧
      (∀ t ∈ visited new ops, t.revision = max r 1 → ∀ req : RangeRequest,
        ∃ kvs resp, Listing (fun k => t.current.lookup k) req kvs ∧
          s.range { req with revision := some r } = .ok resp ∧ resp.kvs = req.shows kvs ∧
          resp.count = kvs.length) ∧
      (r = s.revision → ∀ req : RangeRequest,
        s.range { req with revision := some r } = s.range { req with revision := none }) := by
  obtain ⟨views, h⟩ := Tracks.new.run gd hr
  have here : new ∈ visited new ops := by cases ops <;> simp [visited]
  have past {t : KvStore} : t ∈ ({new} ∪ {t | t ∈ visited new ops} : Set KvStore) ↔
      t ∈ visited new ops := by
    simp only [Set.mem_union, Set.mem_singleton_iff, Set.mem_ofPred_eq, or_iff_right_iff_imp]
    rintro rfl
    exact here
  refine ⟨?_, ?_, ?_⟩
  · obtain ⟨t, ht, rev⟩ := h.all (max r 1) (by omega) (by have := h.positive; omega)
    exact ⟨t, past.mp ht, rev⟩
  · intro t ht rev req
    obtain ⟨kvs, listing, eq⟩ := h.range_at readable assigned req
    have same : views r = fun k => t.current.lookup k := by
      funext k
      rw [← (h.before t (past.mpr ht)).2 k, rev]
      by_cases first : r ≤ 1
      · rw [h.empty r first, h.empty _ (by omega)]
      · rw [Nat.max_eq_left (by omega)]
    exact ⟨kvs, _, same ▸ listing, eq, s.respond_shows req kvs⟩
  · intro last req
    obtain ⟨kvs, listing, eq⟩ := h.range_at readable assigned req
    have now : views r = fun k => s.current.lookup k := by
      funext k
      rw [last, h.now]
    obtain ⟨kvs', listing', eq'⟩ := @range_listing s req fun {k kv} found => by
      rw [← h.now] at found
      exact h.keyed found
    rw [now] at listing
    rw [eq, eq', listing.unique listing']

/-- The key "a" is written twice and compacted to its second version, then "b" is written. -/
def overwriteRun : List Op :=
  [.put { key := keyA, value := keyA }, .put { key := keyA, value := keyB }, .compactV2 3,
    .put { key := keyB, value := keyB }, .defragmentWithStatus]

/-- The run drops only the superseded first version, and the read at revision 3 sees "a" alone, with the value that
it had then. -/
theorem time_travel_overwritten :
    ∃ s, Run.run step new overwriteRun = some s ∧ s.revision = 4 ∧
      ∃ t ∈ visited new overwriteRun, t.revision = 3 ∧ ∃ resp,
        Listing (fun k => t.current.lookup k) { key := keyA, rangeEnd := some keyC } resp.kvs ∧
          s.range { key := keyA, rangeEnd := some keyC, revision := some 3 } = .ok resp ∧
          resp.kvs.map (fun kv => (kv.key, kv.value)) = [(keyA.asBytes, keyB.asBytes)] := by
  obtain ⟨s, hr, test⟩ := Run.exists_of_test step new overwriteRun
    (fun s => s.revision = 4 && s.compactedRevision = 3 &&
      (s.range { key := keyA, rangeEnd := some keyC, revision := some 3 }).toOption.map
        (·.kvs.map fun kv => (kv.key, kv.value)) = some [(keyA.asBytes, keyB.asBytes)]) (by decide)
  simp only [Bool.and_eq_true, decide_eq_true_eq] at test
  obtain ⟨⟨rev4, compacted⟩, read⟩ := test
  obtain ⟨⟨t, ht, rev⟩, at_, -⟩ := time_travel hr (by decide) (r := 3) (by omega) (by omega)
  obtain ⟨kvs, resp, listing, eq, shown, -⟩ := at_ t ht rev { key := keyA, rangeEnd := some keyC }
  rw [eq] at read
  cases shown
  exact ⟨s, hr, rev4, t, ht, rev, resp, listing, eq, Option.some.inj read⟩

/-- The keys "a" and "b" are written and the store is compacted to the current revision. -/
def compactionRun : List Op :=
  [.put { key := keyA, value := keyA }, .put { key := keyB, value := keyB }, .compactV2 3]

/-- After the compaction, "a" is live and in the read without a revision, and missing from the read at
the current revision. -/
theorem compaction_hides_a_live_key :
    ∃ s, Run.run step new compactionRun = some s ∧ s.compactedRevision ≤ s.revision ∧
      (s.current.lookup keyA.asBytes).isSome ∧
      (∃ resp, s.range { key := keyA, revision := some s.revision } = .ok resp ∧ resp.kvs = []) ∧
      ∃ resp, s.range { key := keyA } = .ok resp ∧ resp.kvs.map (·.key) = [keyA.asBytes] :=
  ⟨_, rfl, by decide, by decide, ⟨_, rfl, by decide⟩, _, rfl, by decide⟩

end KvStore

end Etcd
