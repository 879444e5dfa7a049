import CaveRuntime.Etcd.Access
import CaveRuntime.Etcd.Routes
import CaveRuntime.Etcd.TimeTravel
import CaveRuntime.Etcd.Txn

/-!
# The etcd-compatible store: authorisation of reads and deletions

The handlers `kv_range` and `kv_delete_range` check the permission for the first key of a request and then act on
its whole range. So what is returned or deleted is authorised exactly if every live key of the range is granted to
the user, by one permission or by several; a user with a permission for one key can read and delete every key
after it.

A pair has the key that it was written under, also in the history, which takes the invariant `OwnKeys`. A
snapshot may say that a pair was written after the snapshot; then a later revision is taken for one of
the pair's, and a read at it returns another key.
-/

namespace Etcd
open Utf8 Run

/-! ## Pairs and their keys -/

namespace KvStore

variable {s s' : KvStore} {codec : SnapshotCodec}

/-- Every pair, live or in the history, has the key it is stored under. -/
structure OwnKeys (s : KvStore) : Prop where
  keyed : s.Keyed
  bounded : s.mvcc.Bounded
  versions : ∀ k, ∀ r ∈ s.mvcc.index k, ∀ kv, s.mvcc.log r = some kv → kv.key = k

namespace OwnKeys

lemma new : KvStore.new.OwnKeys := by
  refine ⟨?_, ?_, ?_⟩
  · rintro k kv ⟨⟩
  · rintro k r ⟨⟩
  · rintro k r ⟨⟩

lemma write (h : s.OwnKeys) {touched : Bytes → Prop} {v : Option KeyValue}
    (w : Writes s s' touched v) (own : ∀ k kv, touched k → v = some kv → kv.key = k) : s'.OwnKeys where
  keyed := w.keyed h.keyed own
  bounded := w.mvcc.bounded h.bounded
  versions := by
    intro k r hr kv found
    have old (hr : r ∈ s.mvcc.index k) : kv.key = k := by
      rw [w.mvcc.log_frame r (h.bounded k r hr)] at found
      exact h.versions k r hr kv found
    by_cases hk : touched k
    · cases w.mvcc.mem_index hr with
      | inl before => exact old before
      | inr here =>
        rw [here, w.mvcc.log k hk] at found
        exact own k kv hk found
    · rw [w.mvcc.frame k hk] at hr
      exact old hr

lemma collect (h : s.OwnKeys) (current : s'.current = s.current) (rev : s'.revision = s.revision)
    (index : ∀ k, s'.mvcc.index k ⊆ s.mvcc.index k)
    (log : ∀ r kv, s'.mvcc.log r = some kv → s.mvcc.log r = some kv) : s'.OwnKeys where
  keyed := by
    unfold Keyed
    rw [current]
    exact h.keyed
  bounded := h.bounded.of_subset rev index
  versions k r hr kv found := h.versions k r (index k hr) kv (log r kv found)

lemma kept : Kept OwnKeys where
  write h := h.write
  collect h := h.collect

/-- The loop of `restore_snapshot` puts pairs back under their keys and leaves the history alone. -/
lemma foldl_restoreKv (kvs : List KeyValue) (keyed : s.Keyed) :
    (kvs.foldl restoreKv s).Keyed ∧ (kvs.foldl restoreKv s).history = s.history := by
  induction kvs generalizing s with
  | nil => exact ⟨keyed, rfl⟩
  | cons kv kvs ih =>
    refine ih (s := s.restoreKv kv) fun k kv' found => ?_
    have found : (s.current.insert kv.key kv).lookup k = some kv' := found
    rw [Table.lookup_insert_eq] at found
    split at found
    · rename_i here
      cases found
      exact here.symm
    · exact keyed k kv' found

lemma restoreDoc (s : KvStore) (doc : SnapshotDoc) (revision : ℕ)
    (before : ∀ kv ∈ doc.kvs.getD [], kv.modRevision ≤ revision) :
    (s.restoreDoc doc revision).OwnKeys := by
  let t : KvStore := { s with current := ∅, keyIndex := ∅, history := ∅, leases := ∅ }
  obtain ⟨keyed, history⟩ := foldl_restoreKv (s := t) (doc.kvs.getD []) (by rintro k kv ⟨⟩)
  refine ⟨keyed, bounded_restoreDoc s doc revision before, ?_⟩
  intro k r _ kv found
  have none : (s.restoreDoc doc revision).mvcc.log r = none := by
    show (((doc.kvs.getD []).foldl restoreKv t).history.lookup r).bind putValue = none
    rw [history]
    rfl
  rw [none] at found
  cases found

end OwnKeys

lemma OwnKeys.run {es : List Event} (sound : Guarded (stepEvent codec) (RestoresAssigned codec) .new es)
    (hr : Run.run (stepEvent codec) .new es = some s) : s.OwnKeys :=
  invariant_of_guarded (kept.stepEvent restoreDoc) sound hr .new

/-! ## What is returned and deleted -/

lemma OwnKeys.getAtRevision (h : s.OwnKeys) {k : Bytes} {r : ℕ} {kv : KeyValue}
    (found : s.getAtRevision k r = some kv) : kv.key = k := by
  rw [getAtRevision_eq] at found
  obtain ⟨v, last, log⟩ := Option.bind_eq_some_iff.mp found
  exact h.versions k v (lastUpTo.mem last) kv log

/-- The live pairs that a read looks at: at a revision, those that the history has for it. -/
def viewAt (s : KvStore) : Option ℕ → Bytes → Option KeyValue
  | none, k => s.current.lookup k
  | some r, k => s.getAtRevision k r

/-- A read returns what it is to be shown of the live pairs that it covers. -/
lemma OwnKeys.range_shows (h : s.OwnKeys) {req : RangeRequest} {resp : RangeResponse}
    (done : s.range req = .ok resp) :
    ∃ kvs, Listing (s.viewAt req.revision) req kvs ∧ resp.kvs = req.shows kvs := by
  cases rev : req.revision with
  | none =>
    obtain ⟨kvs, listing, eq⟩ := @range_listing s req fun {_ _} found => h.keyed _ _ found
    have same : { req with revision := none } = req := by rw [← rev]
    rw [same] at eq
    cases done.symm.trans eq
    exact ⟨kvs, listing, (s.respond_shows req kvs).1⟩
  | some r =>
    obtain ⟨kvs, listing, eq⟩ :=
      @rangeAtRevision_listing s req r fun {_ _} found => h.getAtRevision found
    unfold range at done
    simp only [rev] at done
    split at done
    · cases done
    · cases done
      rw [eq]
      exact ⟨kvs, listing, (s.respond_shows req kvs).1⟩

/-- A deletion removes the live keys that it covers, and no others. -/
lemma deleteRange_gone_iff {order : Order Bytes} {req : DeleteRangeRequest} {k : Bytes}
    (live : (s.current.lookup k).isSome) :
    (s.deleteRange order req).2.current.lookup k = none ↔ req.covers k = true := by
  have w := deleteRange_writes s order req
  constructor
  · intro gone
    by_contra out
    rw [w.frame k fun hit => out hit.2] at gone
    simp [gone] at live
  · exact fun hit => w.current k ⟨live, hit⟩

/-- What holds of the pairs of the keys that the loop goes over holds of the pairs that it collects. -/
lemma foldl_prevKvs {wantPrev : Bool} {rev : ℕ} {P : KeyValue → Prop} (ks : List Bytes)
    (d : Deletion) (live : ∀ k ∈ ks, ∀ kv, d.store.current.lookup k = some kv → P kv)
    (old : ∀ kv ∈ d.prevKvs, P kv) :
    ∀ kv ∈ (ks.foldl (Deletion.key wantPrev rev) d).prevKvs, P kv := by
  induction ks generalizing d with
  | nil => exact old
  | cons key ks ih =>
    refine ih _ ?_ ?_
    · intro k hk kv found
      refine live k (List.mem_cons_of_mem _ hk) kv ?_
      unfold Deletion.key at found
      split at found
      · exact found
      · have found : (d.store.current.erase key).lookup k = some kv := found
        rw [Table.lookup_erase_eq] at found
        split at found
        · cases found
        · exact found
    · intro kv hkv
      unfold Deletion.key at hkv
      split at hkv
      · exact old kv hkv
      · rename_i kv' here
        dsimp only at hkv
        split at hkv
        · cases List.mem_append.mp hkv with
          | inl before => exact old kv before
          | inr new =>
            rw [List.mem_singleton.mp new]
            exact live key List.mem_cons_self kv' here
        · exact old kv hkv

/-- The pairs that a deletion returns were live, and it covers them. -/
lemma Keyed.live_of_prevKvs (h : s.Keyed) {order : Order Bytes} {req : DeleteRangeRequest}
    {kv : KeyValue} (mem : kv ∈ (s.deleteRange order req).1.prevKvs) :
    (s.current.lookup kv.key).isSome ∧ req.covers kv.key = true := by
  rw [deleteRange_loop] at mem
  refine foldl_prevKvs (P := fun kv => (s.current.lookup kv.key).isSome ∧ req.covers kv.key = true) _ _ ?_
    (by rintro _ ⟨⟩) kv mem
  intro k hk kv found
  have found : s.current.lookup k = some kv := found
  have live : (s.current.lookup k).isSome := by rw [found]; rfl
  rw [h k kv found]
  exact ⟨live, (mem_keysToDelete live).mp hk⟩

end KvStore

/-! ## Authorisation -/

namespace AuthStore

variable {s : AuthStore} {name : String} {perm : PermType}

lemma kvRange_ok {b64 : Base64} {authorization : Option String} {req : RangeRequest}
    {resp : RangeResponse} (accepted : s.kvRange b64 authorization req = .ok resp) :
    s.checkAuthToken (extractToken authorization) (decodeRangeRequest b64 req).key.asBytes .read =
        .ok () ∧
      ∃ raw, s.kv.range (decodeRangeRequest b64 req) = .ok raw ∧
        resp.kvs = raw.kvs.map (encodeKv b64) := by
  unfold kvRange at accepted
  split at accepted
  · cases accepted
  · rename_i checked
    split at accepted
    · cases accepted
    · rename_i raw read
      cases accepted
      exact ⟨checked, raw, read, rfl⟩

/-- A deletion that is accepted has been checked at its first key, and is made by `delete_range`. -/
lemma kvDeleteRange_ok {b64 : Base64} {bridge : Option RaftBridge} {order : Order Bytes}
    {authorization : Option String} {req : DeleteRangeRequest} {resp : DeleteRangeResponse}
    (accepted : (s.kvDeleteRange b64 bridge order authorization req).1 = .ok resp) :
    s.checkAuthToken (extractToken authorization) (decodeDeleteRequest b64 req).key.asBytes .write =
        .ok () ∧
      ∃ req', req'.covers = (decodeDeleteRequest b64 req).covers ∧
        (s.kvDeleteRange b64 bridge order authorization req).2.kv =
          ((deleteBase bridge s.kv).deleteRange order req').2 ∧
        (resp.prevKvs = [] ∨ bridge = none ∧
          resp.prevKvs = (s.kv.deleteRange order req').1.prevKvs.map (encodeKv b64)) := by
  unfold kvDeleteRange at accepted ⊢
  dsimp only at accepted ⊢
  split at accepted
  · cases accepted
  rename_i checked
  simp only [checked, true_and]
  unfold deleteNow at accepted ⊢
  cases bridge with
  | none =>
    cases accepted
    exact ⟨_, rfl, rfl, .inr ⟨rfl, rfl⟩⟩
  | some b =>
    cases result : b.result with
    | error e =>
      simp only [result] at accepted
      cases accepted
    | ok _ =>
      simp only [result] at accepted ⊢
      cases accepted
      exact ⟨{ decodeDeleteRequest b64 req with prevKv := false }, rfl, rfl, .inl rfl⟩

end AuthStore

/-- The keys that a read returns are all authorised exactly if every live key is granted that the read covers and is
to show, and the keys that a deletion deletes and returns exactly if every live key is granted that it covers; no
restored snapshot had pairs from after it. -/
theorem ranges_authorised (b64 : Base64) (encodes : Function.Injective b64.encode) (codec : SnapshotCodec)
    (s : AuthStore) (es : List Event)
    (sound : Guarded (KvStore.stepEvent codec) (KvStore.RestoresAssigned codec) .new es)
    (hr : run (KvStore.stepEvent codec) .new es = some s.kv) (enabled : s.authEnabled = true)
    (authorization : Option String) (token name : String)
    (extracted : extractToken authorization = some token)
    (known : s.authTokens.lookup token = some name) (user : name ≠ "root") :
    (∀ req resp, s.kvRange b64 authorization req = .ok resp →
      s.Grants name (decodeRangeRequest b64 req).key.asBytes .read ∧
      ((∀ kv ∈ resp.kvs, ∃ key, kv.key = b64.encode key ∧ s.Grants name key .read) ↔
        ∃ kvs, Listing (s.kv.viewAt (decodeRangeRequest b64 req).revision) (decodeRangeRequest b64 req) kvs ∧
          ∀ kv ∈ (decodeRangeRequest b64 req).shows kvs, s.Grants name kv.key .read)) ∧
    (∀ bridge order req resp, (s.kvDeleteRange b64 bridge order authorization req).1 = .ok resp →
      s.Grants name (decodeDeleteRequest b64 req).key.asBytes .write ∧
      (((∀ k, ((deleteBase bridge s.kv).current.lookup k).isSome →
          (s.kvDeleteRange b64 bridge order authorization req).2.kv.current.lookup k = none →
          s.Grants name k .write) ∧
        ∀ kv ∈ resp.prevKvs, ∃ key, kv.key = b64.encode key ∧ s.Grants name key .write) ↔
        ∀ k, ((deleteBase bridge s.kv).current.lookup k).isSome → (decodeDeleteRequest b64 req).covers k = true →
          s.Grants name k .write)) := by
  have own := KvStore.OwnKeys.run sound hr
  constructor
  · intro req resp accepted
    obtain ⟨checked, raw, read, shown⟩ := AuthStore.kvRange_ok accepted
    rw [extracted, AuthStore.checkAuthToken_iff enabled known user] at checked
    obtain ⟨kvs, listing, eq⟩ := own.range_shows read
    refine ⟨checked, ?_⟩
    rw [shown, eq, List.forall_mem_map]
    constructor
    · refine fun all => ⟨kvs, listing, fun kv mem => ?_⟩
      obtain ⟨key, same, granted⟩ := all kv mem
      exact encodes same ▸ granted
    · rintro ⟨kvs', listing', all⟩ kv mem
      cases listing.unique listing'
      exact ⟨kv.key, rfl, all kv mem⟩
  · intro bridge order req resp accepted
    obtain ⟨checked, req', covers, after, prev⟩ := AuthStore.kvDeleteRange_ok accepted
    rw [extracted, AuthStore.checkAuthToken_iff enabled known user] at checked
    refine ⟨checked, ?_⟩
    rw [← covers, after]
    constructor
    · exact fun all k live hit => all.1 k live ((KvStore.deleteRange_gone_iff live).mpr hit)
    · refine fun all => ⟨fun k live gone => all k live ((KvStore.deleteRange_gone_iff live).mp gone), ?_⟩
      intro kv mem
      rcases prev with none | ⟨rfl, direct⟩
      · rw [none] at mem
        cases mem
      · rw [direct] at mem
        obtain ⟨kv', mem', rfl⟩ := List.mem_map.mp mem
        obtain ⟨live, hit⟩ := own.keyed.live_of_prevKvs mem'
        exact ⟨kv'.key, rfl, all kv'.key live hit⟩

/-! ## One user and two keys -/

/-- Keys that are sent as they are. -/
def plainBase64 : Base64 := ⟨id, some⟩

/-- The keys "a" and "b" are written. -/
def twoKeys : List Event :=
  [.call (.put { key := keyA, value := keyA }), .call (.put { key := keyB, value := keyB })]

/-- A user with one role, which has some permissions. -/
def oneRole (perms : List Permission) : List AuthOp :=
  [.userAdd "user" "secret" 0, .roleAdd "role"] ++ perms.map (.roleGrantPermission "role") ++
    [.userGrantRole "user" "role", .authEnable, .authenticate "user" "secret" "token"]

/-- The store with the two keys and the user. -/
def oneUser (perms : List Permission) : AuthStore :=
  { ((run (AuthStore.step plainBcrypt) .new (oneRole perms)).getD .new) with
    kv := (run (KvStore.stepEvent noSnapshots) .new twoKeys).getD .new }

/-- A user who may read and write "a" by one permission and "b" by another reads both keys as one range. -/
theorem ranges_authorised_adjacent :
    let s := oneUser [⟨.readwrite, keyA, none⟩, ⟨.readwrite, keyB, none⟩]
    ∃ resp, s.kvRange plainBase64 (some "Bearer token") { key := keyA, rangeEnd := some keyC } = .ok resp ∧
      resp.kvs.map (·.key) = [keyA.asBytes, keyB.asBytes] ∧
      ∀ kv ∈ resp.kvs, ∃ key, kv.key = plainBase64.encode key ∧ s.Grants "user" key .read := by
  intro s
  have sound : Guarded (KvStore.stepEvent noSnapshots) (KvStore.RestoresAssigned noSnapshots) .new twoKeys :=
    ⟨trivial, fun _ _ => ⟨trivial, fun _ _ => trivial⟩⟩
  have both := ranges_authorised plainBase64 (fun _ _ => id) noSnapshots s twoKeys sound rfl rfl
    (some "Bearer token") "token" "user" (by decide) rfl (by decide)
  refine ⟨_, rfl, by decide, (both.1 { key := keyA, rangeEnd := some keyC } _ rfl).2.mpr ?_⟩
  have own : s.kv.OwnKeys := .run sound rfl
  obtain ⟨kvs, listing, -⟩ := KvStore.range_listing fun {k kv} found => own.keyed k kv found
  refine ⟨kvs, listing, fun kv mem => ?_⟩
  have live : ∀ e ∈ s.kv.current.entries, e.1 = keyA.asBytes ∨ e.1 = keyB.asBytes := by decide
  have here := live _ (Table.mem_entries.mpr ((listing.mem kv).mp mem).2)
  dsimp only at here
  have known : s.authTokens.lookup "token" = some "user" := rfl
  rw [← AuthStore.checkAuthToken_iff rfl known (by decide)]
  rcases here with here | here
  · rw [here]
    decide
  · rw [here]
    decide

/-- A user who may read and write the key "a" reads the key "b" and deletes it, by asking for the range
from "a" on. -/
theorem range_beyond_permission :
    ∃ resp resp', (oneUser [⟨.readwrite, keyA, none⟩]).kvRange plainBase64 (some "Bearer token")
        { key := keyA, rangeEnd := some keyC } = .ok resp ∧
      keyB.asBytes ∈ resp.kvs.map (·.key) ∧
      ¬ (oneUser [⟨.readwrite, keyA, none⟩]).Grants "user" keyB.asBytes .read ∧
      ((oneUser [⟨.readwrite, keyA, none⟩]).kvDeleteRange plainBase64 none .asIs (some "Bearer token")
        { key := keyA, rangeEnd := some keyC }).1 = .ok resp' ∧ resp'.deleted = 2 ∧
      ¬ (oneUser [⟨.readwrite, keyA, none⟩]).Grants "user" keyB.asBytes .write := by
  have known : (oneUser [⟨.readwrite, keyA, none⟩]).authTokens.lookup "token" = some "user" := rfl
  refine ⟨_, _, rfl, by decide, ?_, rfl, by decide, ?_⟩
  · rw [← AuthStore.checkAuthToken_iff rfl known (by decide)]
    decide
  · rw [← AuthStore.checkAuthToken_iff rfl known (by decide)]
    decide

end Etcd
