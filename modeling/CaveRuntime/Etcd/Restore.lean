import CaveRuntime.Common.Text
import CaveRuntime.Etcd.Snapshot

/-!
# The etcd-compatible store: what a restored store answers

A snapshot of `s` is restored into `t`. The pairs, leases, members and the revision are those of `s`. The
history is gone, so that a read at the current revision finds nothing, and the counter of `t` goes on, so that
an id that is drawn later can be one that is in use. The round trip is faithful exactly if nothing was
readable at the current revision of `s` and the counter of `t` has passed all ids of `s`.
-/

namespace Etcd
open Utf8 Run

/-- A call that draws an id. -/
inductive Draw where
  | leaseGrant (ttl now : ℤ)
  | memberAdd (req : MemberAddRequest)

namespace KvStore

variable {s t u : KvStore} {codec : SnapshotCodec} {toVec : SnapshotPayload → Bytes}

/-! ## The claim and its condition -/

/-- The store after a call that draws an id. -/
def draw (s : KvStore) : Draw → Option KvStore
  | .leaseGrant ttl now => some (s.leaseGrant now { ttl := ttl }).2
  | .memberAdd req => some (s.memberAdd req)

/-- The id that the call returns is not in use. -/
def DrawsNew (s : KvStore) : Draw → Prop
  | .leaseGrant ttl now => s.leases.lookup (s.leaseGrant now { ttl := ttl }).1.id = none
  | .memberAdd req => ∀ m ∈ s.members, m.id ≠ (s.newMember req).id

/-- The store `u` answers as `s` does, and draws only ids that are not in use. -/
structure Resumes (s u : KvStore) : Prop where
  now : ∀ req : RangeRequest, u.range { req with revision := none } = s.range { req with revision := none }
  atCurrent : ∀ req : RangeRequest,
    u.range { req with revision := some s.revision } = s.range { req with revision := some s.revision }
  revision : u.revision = s.revision
  leases : ∀ id, u.leases.lookup id = s.leases.lookup id
  members : u.members = s.members
  fresh : ∀ draws, Guarded draw DrawsNew u draws

/-- The key is in a range that a request can name. -/
def Addressed (k : Bytes) : Prop := ∃ req : RangeRequest, req.covers k

/-- The last version of the key is not in the history, or is a deletion. -/
def Forgotten (s : KvStore) (k : Bytes) : Prop :=
  ∀ revs, s.keyIndex.lookup k = some revs → ∀ rev, revs.reverse.find? (· ≤ s.revision) = some rev →
    ∀ entry, s.history.lookup rev = some entry → entry.2.1 = .delete

/-- When the snapshot of `s` loses nothing in `t`: the current revision of `s` is compacted or has nothing to
show, and the counter of `t` has passed the ids of `s`. -/
structure Transferable (s t : KvStore) : Prop where
  shown : s.revision < s.compactedRevision ∨ ∀ k, Addressed k → s.Forgotten k
  leases : ∀ id, (s.leases.lookup id).isSome → id ≤ t.leaseCounter
  members : ∀ m ∈ s.members, m.id < t.leaseCounter + 100

/-! ## The restored store -/

lemma foldl_restoreKv_eq (s : KvStore) (kvs : List KeyValue) : ∃ index, kvs.foldl restoreKv s =
    { s with current := kvs.foldl (fun t kv => t.insert kv.key kv) s.current, keyIndex := index } := by
  induction kvs generalizing s with
  | nil => exact ⟨_, rfl⟩
  | cons kv kvs ih =>
    obtain ⟨index, eq⟩ := ih (s.restoreKv kv)
    exact ⟨index, eq⟩

/-- What the restored store has. -/
structure Restored (s t u : KvStore) : Prop where
  current : ∀ k, u.current.lookup k = s.current.lookup k
  leases : ∀ id, u.leases.lookup id = s.leases.lookup id
  history : u.history = ∅
  revision : u.revision = s.revision
  compacted : u.compactedRevision = s.compactedRevision
  members : u.members = s.members
  counter : u.leaseCounter = t.leaseCounter

lemma restoreDoc_restored (h : s.Filed) (t : KvStore) :
    Restored s t (t.restoreDoc s.snapshotPayload.doc s.revision) := by
  obtain ⟨index, eq⟩ := foldl_restoreKv_eq
    { t with current := ∅, keyIndex := ∅, history := ∅, leases := ∅ } s.snapshotPayload.kvs
  have whole : t.restoreDoc s.snapshotPayload.doc s.revision =
      { t with
        current := s.snapshotPayload.kvs.foldl (fun t kv => t.insert kv.key kv) ∅
        keyIndex := index
        history := ∅
        leases := s.snapshotPayload.leases.foldl (fun t l => t.insert l.id l) ∅
        members := s.members
        revision := s.revision
        compactedRevision := s.compactedRevision } := by
    unfold restoreDoc
    simp only [SnapshotPayload.doc, Option.getD_some]
    rw [eq]
    rfl
  rw [whole]
  exact
    { current := h.pairs.lookup_rebuild (List.perm_insertionSort _ _)
      leases := h.leases.lookup_rebuild (List.perm_insertionSort _ _)
      history := rfl
      revision := rfl
      compacted := rfl
      members := rfl
      counter := rfl }

lemma transferSnapshot_eq (reads : codec.fromSlice (toVec s.snapshotPayload) = .ok s.snapshotPayload.doc)
    (t : KvStore) :
    transferSnapshot codec toVec s t = .ok (t.restoreDoc s.snapshotPayload.doc s.revision) := by
  unfold transferSnapshot
  rw [assembleChunks_snapshotStream]
  show t.restoreSnapshot codec (toVec s.snapshotPayload) (codec.sha256Hex (toVec s.snapshotPayload)) = _
  unfold restoreSnapshot
  dsimp only
  rw [if_neg (not_not.mpr rfl), reads]
  rfl

/-! ## Reads -/

lemma respond_eq (revision : u.revision = s.revision) (req : RangeRequest) (kvs : List KeyValue) :
    u.respond req kvs = s.respond req kvs := by
  have header : u.header = s.header := by
    unfold header
    rw [revision]
  unfold respond
  rw [header]

lemma Restored.now (r : Restored s t u) (h : s.Filed) (req : RangeRequest) :
    u.range { req with revision := none } = s.range { req with revision := none } := by
  obtain ⟨kvs, listing, eq⟩ := @range_listing s req fun {k kv} found => h.pairs k kv found
  obtain ⟨kvs', listing', eq'⟩ := @range_listing u req fun {k kv} found => by
    rw [r.current] at found
    exact h.pairs k kv found
  have same : (fun k => u.current.lookup k) = fun k => s.current.lookup k := funext r.current
  rw [same] at listing'
  rw [eq, eq', listing.unique listing', respond_eq r.revision]

lemma forgotten_iff (k : Bytes) : s.Forgotten k ↔ s.getAtRevision k s.revision = none := by
  unfold Forgotten getAtRevision
  cases s.keyIndex.lookup k with
  | none => simp
  | some revs =>
    simp only [Option.some.injEq, forall_eq', Option.bind_eq_bind, Option.bind_some]
    cases revs.reverse.find? (· ≤ s.revision) with
    | none => simp
    | some rev =>
      simp only [Option.some.injEq, forall_eq', Option.bind_some]
      cases s.history.lookup rev with
      | none => simp
      | some entry =>
        obtain ⟨key, eventType, kv⟩ := entry
        cases eventType <;> simp

/-- A read at a revision selects nothing exactly if no key that it covers has a pair then. -/
lemma rangeAtRevision_eq (s : KvStore) (req : RangeRequest) (r : ℕ) :
    ∃ kvs, s.rangeAtRevision req r = s.respond req kvs ∧
      (kvs = [] ↔ ∀ k, req.covers k → s.getAtRevision k r = none) := by
  unfold rangeAtRevision
  refine ⟨_, rfl, ?_⟩
  cases single : req.rangeEnd with
  | none => simp [RangeRequest.covers, single, inRange, Option.toList_eq_nil_iff]
  | some e =>
    have cov := RangeRequest.covers_of_some single
    have sorted (kvs : List KeyValue) : sortByKey kvs = [] ↔ kvs = [] := by
      have perm : (sortByKey kvs).Perm kvs := List.perm_insertionSort _ _
      rw [← List.length_eq_zero_iff, perm.length_eq, List.length_eq_zero_iff]
    rw [cov, sorted, List.filterMap_eq_nil_iff]
    simp only [List.mem_filter, and_imp]
    constructor
    · intro empty k covered
      cases indexed : s.keyIndex.lookup k with
      | none => simp [getAtRevision, indexed]
      | some revs => exact empty k (Table.lookup_isSome.mp (by rw [indexed]; rfl)) covered
    · intro none k _ covered
      exact none k covered

lemma Restored.getAtRevision (r : Restored s t u) (k : Bytes) (rev : ℕ) : u.getAtRevision k rev = none := by
  have gone (rev : ℕ) : u.history.lookup rev = none := by
    rw [r.history]
    rfl
  unfold KvStore.getAtRevision
  cases u.keyIndex.lookup k with
  | none => rfl
  | some revs =>
    simp only [Option.bind_eq_bind, Option.bind_some]
    cases revs.reverse.find? (· ≤ rev) with
    | none => rfl
    | some rev' => simp [gone]

lemma Restored.rangeAtRevision (r : Restored s t u) (req : RangeRequest) (rev : ℕ) :
    u.rangeAtRevision req rev = s.respond req [] := by
  obtain ⟨kvs, eq, empty⟩ := rangeAtRevision_eq u req rev
  rw [eq, empty.mpr fun k _ => r.getAtRevision k rev, respond_eq r.revision]

/-- The restored store shows nothing at the current revision, so there must have been nothing. -/
lemma Restored.atCurrent_iff (r : Restored s t u) :
    (∀ req : RangeRequest,
      u.range { req with revision := some s.revision } = s.range { req with revision := some s.revision }) ↔
      s.revision < s.compactedRevision ∨ ∀ k, Addressed k → s.Forgotten k := by
  by_cases compacted : s.revision < s.compactedRevision
  · have both : s.revision < s.compactedRevision ∧ 0 < s.compactedRevision := ⟨compacted, by omega⟩
    refine iff_of_true (fun req => ?_) (.inl compacted)
    simp only [range, r.compacted, if_pos both]
  · have kept : ¬ (s.revision < s.compactedRevision ∧ 0 < s.compactedRevision) := fun h => compacted h.1
    have read (v : KvStore) (same : v.compactedRevision = s.compactedRevision) (req : RangeRequest) :
        v.range { req with revision := some s.revision } =
          .ok (v.rangeAtRevision { req with revision := some s.revision } s.revision) := by
      show (if s.revision < v.compactedRevision ∧ _ then _ else _) = _
      rw [same, if_neg kept]
    rw [or_iff_right compacted]
    simp only [read u r.compacted, read s rfl, Except.ok.injEq, r.rangeAtRevision, forgotten_iff]
    constructor
    · rintro same k ⟨req, covered⟩
      -- the same range without a limit and with its values
      obtain ⟨kvs, eq, empty⟩ := rangeAtRevision_eq s
        { key := req.key, rangeEnd := req.rangeEnd, revision := some s.revision } s.revision
      have none : kvs = [] := by
        have shown := (same { key := req.key, rangeEnd := req.rangeEnd }).trans eq
        exact (congrArg RangeResponse.kvs shown).symm
      exact empty.mp none k covered
    · intro forgotten req
      obtain ⟨kvs, eq, empty⟩ := rangeAtRevision_eq s { req with revision := some s.revision } s.revision
      rw [eq, empty.mpr fun k covered => forgotten k ⟨_, covered⟩]

/-! ## Ids -/

/-- The counter has passed all ids. -/
structure Passed (s : KvStore) : Prop where
  leases : ∀ id, (s.leases.lookup id).isSome → id ≤ s.leaseCounter
  members : ∀ m ∈ s.members, m.id < s.leaseCounter + 100

lemma Passed.drawsNew (h : s.Passed) (d : Draw) : s.DrawsNew d := by
  cases d with
  | leaseGrant ttl now =>
    show s.leases.lookup s.autoLeaseId = none
    by_contra used
    have le := h.leases s.autoLeaseId (Option.isSome_iff_ne_none.mpr used)
    unfold autoLeaseId at le
    omega
  | memberAdd req =>
    intro m mem
    exact Nat.ne_of_lt (h.members m mem)

lemma Passed.draw {d : Draw} (h : s.Passed) (st : s.draw d = some t) : t.Passed := by
  cases d with
  | leaseGrant ttl now =>
    cases st
    constructor
    · intro id used
      have used : ((s.leases.insert s.autoLeaseId _).lookup id).isSome := used
      rw [Table.lookup_insert_eq] at used
      show id ≤ ((s.leaseCounter + 1 : ℕ) : ℤ)
      split at used
      · rename_i here
        rw [here]
        exact le_refl _
      · have le := h.leases id used
        omega
    · intro m mem
      have lt := h.members m mem
      show m.id < s.leaseCounter + 1 + 100
      omega
  | memberAdd req =>
    cases st
    constructor
    · intro id used
      have le := h.leases id used
      show id ≤ ((s.leaseCounter + 1 : ℕ) : ℤ)
      omega
    · intro m mem
      show m.id < s.leaseCounter + 1 + 100
      cases List.mem_append.mp mem with
      | inl old =>
        have lt := h.members m old
        omega
      | inr new =>
        rw [List.mem_singleton.mp new]
        show s.leaseCounter + 100 < s.leaseCounter + 1 + 100
        omega

lemma Passed.guarded (h : s.Passed) (draws : List Draw) : Guarded KvStore.draw DrawsNew s draws := by
  induction draws generalizing s with
  | nil => trivial
  | cons d draws ih => exact ⟨h.drawsNew d, fun t st => ih (h.draw st)⟩

lemma run_memberAdd (s : KvStore) (n : ℕ) :
    ∃ t, run draw s (List.replicate n (.memberAdd {})) = some t ∧ t.leaseCounter = s.leaseCounter + n ∧
      t.leases = s.leases ∧ s.members ⊆ t.members := by
  induction n generalizing s with
  | zero => exact ⟨s, rfl, rfl, rfl, List.Subset.refl _⟩
  | succ n ih =>
    obtain ⟨t, hr, counter, leases, members⟩ := ih (s.memberAdd {})
    refine ⟨t, hr, ?_, leases, List.Subset.trans (List.subset_append_left _ _) members⟩
    rw [counter]
    show s.leaseCounter + 1 + n = s.leaseCounter + (n + 1)
    omega

lemma passed_of_fresh (fresh : ∀ draws, Guarded draw DrawsNew s draws) : s.Passed := by
  constructor
  · intro id used
    by_contra above
    obtain ⟨t, hr, counter, leases, -⟩ := run_memberAdd s (id - s.leaseCounter - 1).toNat
    have drawn : t.DrawsNew (.leaseGrant 0 0) := (fresh _).last hr
    have new : t.leases.lookup t.autoLeaseId = none := drawn
    have here : t.autoLeaseId = id := by
      unfold autoLeaseId
      rw [counter]
      omega
    rw [here, leases] at new
    rw [new] at used
    cases used
  · intro m mem
    by_contra above
    obtain ⟨t, hr, counter, -, members⟩ := run_memberAdd s (m.id - 100 - s.leaseCounter)
    have drawn : t.DrawsNew (.memberAdd {}) := (fresh _).last hr
    have new : ∀ m ∈ t.members, m.id ≠ t.leaseCounter + 100 := drawn
    refine new m (members mem) ?_
    rw [counter]
    omega

lemma Restored.passed_iff (r : Restored s t u) : u.Passed ↔
    (∀ id, (s.leases.lookup id).isSome → id ≤ t.leaseCounter) ∧
      ∀ m ∈ s.members, m.id < t.leaseCounter + 100 := by
  constructor
  · intro h
    rw [← r.counter, ← r.members]
    exact ⟨fun id used => h.leases id (by rwa [r.leases]), h.members⟩
  · rintro ⟨leases, members⟩
    rw [← r.counter] at leases
    rw [← r.counter, ← r.members] at members
    exact ⟨fun id used => leases id (by rwa [r.leases] at used), members⟩

lemma Restored.resumes_iff (r : Restored s t u) (h : s.Filed) : Resumes s u ↔ Transferable s t := by
  constructor
  · intro same
    obtain ⟨leases, members⟩ := r.passed_iff.mp (passed_of_fresh same.fresh)
    exact ⟨r.atCurrent_iff.mp same.atCurrent, leases, members⟩
  · intro ok
    have passed := r.passed_iff.mpr ⟨ok.leases, ok.members⟩
    exact ⟨r.now h, r.atCurrent_iff.mpr ok.shown, r.revision, r.leases, r.members, passed.guarded⟩

/-- If the JSON of its snapshot is read back, the snapshot of a reachable store restores it in another store
exactly if its current revision has nothing to show and the other store's counter has passed its ids. -/
theorem snapshot_resumes_iff {calls : List StoreCall} {c : ClusterStore}
    (hr : run (ClusterStore.call codec) {} calls = some c)
    (reads : codec.fromSlice (toVec c.kv.snapshotPayload) = .ok c.kv.snapshotPayload.doc) (t : KvStore) :
    (∃ u, transferSnapshot codec toVec c.kv t = .ok u ∧ Resumes c.kv u) ↔ Transferable c.kv t := by
  have filed := ClusterStore.filed_of_run hr
  have restored := restoreDoc_restored filed t
  rw [transferSnapshot_eq reads]
  constructor
  · rintro ⟨u, eq, same⟩
    cases eq
    exact (restored.resumes_iff filed).mp same
  · intro ok
    exact ⟨_, rfl, (restored.resumes_iff filed).mpr ok⟩

/-! ## A snapshot as a text -/

/-- The numbers of a snapshot, with the length before each list; the names of added members follow from their ids. -/
def numbers (p : SnapshotPayload) : List ℕ :=
  let listed (l : List ℕ) := l.length :: l
  [p.revision, p.compactRevision, p.kvs.length] ++
    p.kvs.flatMap (fun kv => listed (kv.key.map (·.toNat)) ++ listed (kv.value.map (·.toNat)) ++
      [kv.createRevision, kv.modRevision, kv.version]) ++
    [p.leases.length] ++ p.leases.flatMap (fun l => [l.id.toNat, l.ttl.toNat, l.grantedAt.toNat]) ++
    [p.members.length] ++ p.members.flatMap fun m => [m.id, m.isLearner.toNat]

/-- The numbers in decimal, each with a space behind it. -/
def textOf (p : SnapshotPayload) : Bytes := (numbers p).flatMap fun n => Text.decimal n ++ [32]

/-- So many values from the front of a list of numbers. -/
def readMany {α : Type} (read : List ℕ → Option (α × List ℕ)) : ℕ → List ℕ → Option (List α × List ℕ)
  | 0, l => some ([], l)
  | n + 1, l => do
    let (a, l) ← read l
    let (as, l) ← readMany read n l
    some (a :: as, l)

def readNumber : List ℕ → Option (ℕ × List ℕ)
  | n :: l => some (n, l)
  | [] => none

def readList {α : Type} (read : List ℕ → Option (α × List ℕ)) (l : List ℕ) : Option (List α × List ℕ) := do
  let (n, l) ← readNumber l
  readMany read n l

def readKv (l : List ℕ) : Option (KeyValue × List ℕ) := do
  let (key, l) ← readList readNumber l
  let (value, l) ← readList readNumber l
  match l with
  | create :: mod :: version :: l =>
    some (⟨key.map UInt8.ofNat, value.map UInt8.ofNat, create, mod, version, none⟩, l)
  | _ => none

def readLease : List ℕ → Option (Lease × List ℕ)
  | id :: ttl :: grantedAt :: l => some (⟨id, ttl, grantedAt, []⟩, l)
  | _ => none

def readMember : List ℕ → Option (Member × List ℕ)
  | id :: learner :: l => some (⟨id, "member-" ++ toString id, [], [], learner = 1⟩, l)
  | _ => none

def readDoc (l : List ℕ) : Option SnapshotDoc := do
  let (revision, l) ← readNumber l
  let (compactRevision, l) ← readNumber l
  let (kvs, l) ← readList readKv l
  let (leases, l) ← readList readLease l
  let (members, _) ← readList readMember l
  some ⟨revision, compactRevision, kvs, leases, members⟩

/-- The snapshot is read from the text, with a checksum of all its bytes. -/
def textCodec : SnapshotCodec where
  sha256Hex b := toString (b.foldl (fun sum c => (31 * sum + c.toNat) % 2 ^ 64) 7)
  fromSlice b :=
    match ((b.splitOn 32).dropLast.mapM Text.parseDigits).bind readDoc with
    | some doc => .ok doc
    | none => .error "invalid snapshot"

/-- Two pairs are put, a lease and a member take the place of the first member, one pair is deleted, and the store is
compacted to its revision. -/
def usedCalls : List StoreCall :=
  [.event (.call (.put { key := keyA, value := keyB })), .event (.call (.put { key := keyB, value := keyA })),
    .event (.call (.leaseGrant { ttl := 60 } 0)), .cluster (.memberAdd {}), .cluster (.memberRemove 1),
    .event (.call (.deleteRange { key := keyB } .asIs)), .event (.call (.compactV2 4))]

/-- A store that has drawn two ids of its own. -/
def drawnStore : KvStore := (new.memberAdd {}).memberAdd {}

/-- The text of the snapshot is read back, and the store that has restored it answers as the first one. -/
theorem snapshot_resumes_text : ∃ c : ClusterStore,
    run (ClusterStore.call textCodec) {} usedCalls = some c ∧
      textOf c.kv.snapshotPayload = Text.word "4 4 1 1 97 1 98 2 2 1 1 2 60 0 1 102 0 " ∧
      ∃ u, transferSnapshot textCodec textOf c.kv drawnStore = .ok u ∧ Resumes c.kv u ∧
        (u.range { key := keyA, rangeEnd := some keyC }).toOption.map (·.kvs.map (·.value)) =
          some [keyB.asBytes] := by
  obtain ⟨c, hr⟩ : ∃ c, run (ClusterStore.call textCodec) {} usedCalls = some c := ⟨_, rfl⟩
  have text : textOf c.kv.snapshotPayload = Text.word "4 4 1 1 97 1 98 2 2 1 1 2 60 0 1 102 0 " := by
    cases hr
    rfl
  have reads : textCodec.fromSlice (textOf c.kv.snapshotPayload) = .ok c.kv.snapshotPayload.doc := by
    cases hr
    rfl
  have shown : ∀ e ∈ c.kv.keyIndex.entries, c.kv.getAtRevision e.1 c.kv.revision = none := by
    cases hr
    decide
  have leases : ∀ id ∈ c.kv.leases.keys, id ≤ drawnStore.leaseCounter := by
    cases hr
    decide
  have members : ∀ m ∈ c.kv.members, m.id < drawnStore.leaseCounter + 100 := by
    cases hr
    decide
  have forgotten (k : Bytes) : c.kv.Forgotten k := by
    rw [forgotten_iff]
    cases look : c.kv.keyIndex.lookup k with
    | none => simp [getAtRevision, look]
    | some revs => exact shown ⟨k, revs⟩ (Table.mem_entries.mpr look)
  obtain ⟨u, eq, same⟩ := (snapshot_resumes_iff hr reads drawnStore).mpr
    ⟨.inr fun k _ => forgotten k, fun id used => leases id (Table.lookup_isSome.mp used), members⟩
  refine ⟨c, hr, text, u, eq, same, ?_⟩
  rw [same.now { key := keyA, rangeEnd := some keyC }]
  cases hr
  decide

/-- The pair "a" and a lease that draws its id. -/
def leasedCalls : List StoreCall :=
  [.event (.call (.put { key := keyA, value := keyA })), .event (.call (.leaseGrant { ttl := 60 } 0))]

/-- The store after these calls. -/
def leasedStore : KvStore := ((new.put { key := keyA, value := keyA }).2.leaseGrant 0 { ttl := 60 }).2

/-- The new store that has restored the snapshot finds nothing at the current revision, and it grants the id
of the lease that it has restored once more. -/
theorem snapshot_forgets : ∃ c : ClusterStore, ∀ codec toVec,
    run (ClusterStore.call codec) {} leasedCalls = some c ∧
      (codec.fromSlice (toVec c.kv.snapshotPayload) = .ok c.kv.snapshotPayload.doc →
        ∃ u, transferSnapshot codec toVec c.kv new = .ok u ∧
          (c.kv.range { key := keyA, revision := some 2 }).toOption.map (·.count) = some 1 ∧
          (u.range { key := keyA, revision := some 2 }).toOption.map (·.count) = some 0 ∧
          (u.leaseGrant 0 { ttl := 60 }).1.id = 2 ∧ (u.leases.lookup 2).isSome) := by
  refine ⟨{ kv := leasedStore }, fun codec toVec => ⟨rfl, fun reads => ?_⟩⟩
  exact ⟨_, transferSnapshot_eq reads new, by decide, by decide, by decide, by decide⟩

end KvStore

end Etcd
