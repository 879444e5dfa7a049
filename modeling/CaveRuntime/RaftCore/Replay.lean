import CaveRuntime.Common.Overwrite
import CaveRuntime.Apiserver.Store
import CaveRuntime.Etcd.Writes

/-!
# RaftCore: replaying committed entries

Model of `apply_one`, `apply_one_notify` and `apply_batch_notify` of `raft_apply.rs` on both stores, lines
57-61, 109-126 and 172-269. Every command overwrites what it names: a put its key, a deletion the keys of its
range, and the apiserver's commands one resource, whatever the stores hold. That is why a log that is applied
once more, after any of its own entries, leaves the pairs and the resources that it leaves alone.

The map of the etcd store is visited in any order, another one in each deletion.
-/

open Utf8 Overwrite

namespace Etcd.KvStore

/-- The live pairs of a store, under their keys. -/
def live (s : KvStore) (k : Bytes) : Option (Bytes × Bytes) :=
  (s.current.lookup k).map fun kv => (kv.key, kv.value)

/-- The set of the live pairs of a store. -/
def livePairs (s : KvStore) : Finset (Bytes × Bytes) :=
  (s.current.entries.map fun e => (e.2.key, e.2.value)).toFinset

lemma mem_livePairs {s : KvStore} {p : Bytes × Bytes} : p ∈ livePairs s ↔ ∃ k, live s k = some p := by
  simp only [livePairs, live, List.mem_toFinset, List.mem_map, Option.map_eq_some_iff]
  constructor
  · rintro ⟨⟨k, kv⟩, mem, eq⟩
    exact ⟨k, kv, AList.mem_lookup_iff.mpr mem, eq⟩
  · rintro ⟨k, kv, found, eq⟩
    exact ⟨⟨k, kv⟩, AList.mem_lookup_iff.mp found, eq⟩

lemma live_put (s : KvStore) (req : PutRequest) : live (s.put req).2 = write (live s) fun k =>
    if k = req.key.asBytes then some (some (k, req.value.asBytes)) else none := by
  funext k
  have writes := put_writes s req
  by_cases here : k = req.key.asBytes
  · simp only [live, write, writes.current k here, if_pos here, Option.getD_some, Option.map_some]
    rw [here]
    rfl
  · simp only [live, write, writes.frame k here, if_neg here, Option.getD_none]

/-- A deletion leaves the keys that it covers without a pair, those included that had none. -/
lemma live_deleteRange (s : KvStore) (order : Order Bytes) (req : DeleteRangeRequest) :
    live (s.deleteRange order req).2 = write (live s) fun k => if req.covers k then some none else none := by
  funext k
  have writes := deleteRange_writes s order req
  by_cases touched : (s.current.lookup k).isSome ∧ req.covers k
  · simp only [live, write, writes.current k touched, if_pos touched.2, Option.getD_some, Option.map_none]
  · simp only [live, write, writes.frame k touched]
    split
    · rename_i covered
      have gone : s.current.lookup k = none := by
        by_contra alive
        exact touched ⟨Option.isSome_iff_ne_none.mpr alive, covered⟩
      rw [gone]
      rfl
    · rfl

end Etcd.KvStore

namespace RaftCore
open Etcd Apiserver

structure ApplyMetrics where
  appliedTotal : ℕ := 0
  etcdPuts : ℕ := 0
  etcdDeletes : ℕ := 0
  apiserverUpserts : ℕ := 0
  apiserverDeletes : ℕ := 0
  noops : ℕ := 0
  decodeErrors : ℕ := 0
  applyErrors : ℕ := 0
  lastAppliedIndex : ℕ := 0
  deriving DecidableEq, Repr

/-- Rust `ApplyTargets`, with the metrics and the value of the notifier, if there is one. -/
structure ApplyTargets (P : Type) where
  kv : KvStore
  resources : ResourceStore P
  metrics : ApplyMetrics := {}
  notifier : Option ℕ := none

/-- What the daemon decodes with: commands, and the resources in them. -/
structure Decoder (J P : Type) where
  codec : Codec J
  fromValue : J → Option (Resource P)

namespace ApplyTargets

variable {J P : Type}

/-- The `match` of Rust `apply_one`. -/
def applyCommand (decoder : Decoder J P) (order : Order Bytes) (t : ApplyTargets P) :
    RaftCommand J → Except ApplyError (ApplyTargets P)
  | .etcdPut key value lease =>
    .ok { t with
      kv := (t.kv.put { key := .ofString key, value := .ofString value, lease := lease, prevKv := false }).2
      metrics.etcdPuts := t.metrics.etcdPuts + 1 }
  | .etcdDelete key rangeEnd =>
    .ok { t with
      kv := (t.kv.deleteRange order
        { key := .ofString key, rangeEnd := rangeEnd.map .ofString, prevKv := false }).2
      metrics.etcdDeletes := t.metrics.etcdDeletes + 1 }
  | .apiserverUpsert resource =>
    match decoder.fromValue resource with
    | none => .error .apiserverUpsert
    | some res =>
      .ok { t with
        resources := t.resources.upsert res
        metrics.apiserverUpserts := t.metrics.apiserverUpserts + 1 }
  | .apiserverDelete kind namespace_ name =>
    .ok { t with
      resources := (t.resources.delete kind namespace_ name).2
      metrics.apiserverDeletes := t.metrics.apiserverDeletes + 1 }
  | .noOp => .ok { t with metrics.noops := t.metrics.noops + 1 }

/-- Rust `apply_one`. A failure leaves everything as it was. -/
def applyOne (decoder : Decoder J P) (order : Order Bytes) (t : ApplyTargets P) (entry : LogEntry) :
    Except ApplyError (ApplyTargets P) := do
  let cmd ← decoder.codec.decode entry.command
  let t ← t.applyCommand decoder order cmd
  return { t with
    metrics.appliedTotal := t.metrics.appliedTotal + 1
    metrics.lastAppliedIndex := entry.index }

def applyOneNotify (decoder : Decoder J P) (order : Order Bytes) (t : ApplyTargets P) (entry : LogEntry) :
    Except ApplyError (ApplyTargets P) := do
  let t ← t.applyOne decoder order entry
  return { t with notifier := t.notifier.map fun _ => entry.index }

/-- The body of the loop of Rust `apply_batch_notify`. -/
def applyNext (decoder : Decoder J P) (order : Order Bytes) (t : ApplyTargets P) (entry : LogEntry) :
    ApplyTargets P :=
  match t.applyOneNotify decoder order entry with
  | .ok t => t
  | .error e =>
    { t with
      metrics.applyErrors := t.metrics.applyErrors + 1
      metrics.decodeErrors := t.metrics.decodeErrors + if e = .decode then 1 else 0 }

/-- Rust `apply_batch_notify`; `orders` are the orders of the map in the deletions of the entries. -/
def applyBatchNotify (decoder : Decoder J P) (orders : ℕ → Order Bytes) (t : ApplyTargets P) :
    List LogEntry → ApplyTargets P
  | [] => t
  | entry :: entries =>
    applyBatchNotify decoder (fun i => orders (i + 1)) (t.applyNext decoder (orders 0) entry) entries

end ApplyTargets

/-! ## What the commands overwrite -/

section Effects

variable {J P : Type}

/-- What a command does to the live pairs. -/
def RaftCommand.onPairs : RaftCommand J → Effect Bytes (Bytes × Bytes)
  | .etcdPut key value _ => fun k =>
    if k = (Str.ofString key).asBytes then some (some (k, (Str.ofString value).asBytes)) else none
  | .etcdDelete key rangeEnd => fun k =>
    if inRange (Str.ofString key).asBytes ((rangeEnd.map Str.ofString).map (·.asBytes)) k then some none
    else none
  | _ => fun _ => none

/-- What an entry does: an entry that does not decode does nothing. -/
def onEntry {α β : Type*} (decoder : Decoder J P) (effect : RaftCommand J → Effect α β) (entry : LogEntry) :
    Effect α β :=
  match decoder.codec.decode entry.command with
  | .ok cmd => effect cmd
  | .error _ => fun _ => none

/-- A view of the stores on which every command acts as its overwrite. -/
structure Tracked {α β : Type*} (decoder : Decoder J P) (view : KvStore → ResourceStore P → α → Option β)
    (effect : RaftCommand J → Effect α β) : Prop where
  applied : ∀ {order t cmd t'}, ApplyTargets.applyCommand decoder order t cmd = .ok t' →
    view t'.kv t'.resources = write (view t.kv t.resources) (effect cmd)
  failed : ∀ {order t cmd e}, ApplyTargets.applyCommand decoder order t cmd = .error e →
    effect cmd = fun _ => none

variable {α β : Type*} {decoder : Decoder J P} {view : KvStore → ResourceStore P → α → Option β}
  {effect : RaftCommand J → Effect α β}

lemma Tracked.applyNext (tracked : Tracked decoder view effect) (order : Order Bytes) (t : ApplyTargets P)
    (entry : LogEntry) :
    view (t.applyNext decoder order entry).kv (t.applyNext decoder order entry).resources =
      write (view t.kv t.resources) (onEntry decoder effect entry) := by
  unfold ApplyTargets.applyNext ApplyTargets.applyOneNotify ApplyTargets.applyOne onEntry
  cases decoded : decoder.codec.decode entry.command with
  | error e => rfl
  | ok cmd =>
    cases applied : t.applyCommand decoder order cmd with
    | ok t' =>
      simp only [bind, Except.bind, applied]
      exact (tracked.applied applied :)
    | error e =>
      simp only [bind, Except.bind, applied, tracked.failed applied]
      rfl

lemma Tracked.applyBatchNotify (tracked : Tracked decoder view effect) (orders : ℕ → Order Bytes)
    (t : ApplyTargets P) (entries : List LogEntry) :
    view (t.applyBatchNotify decoder orders entries).kv (t.applyBatchNotify decoder orders entries).resources =
      (entries.map (onEntry decoder effect)).foldl write (view t.kv t.resources) := by
  induction entries generalizing orders t with
  | nil => rfl
  | cons entry entries ih =>
    rw [List.map_cons, List.foldl_cons, ← tracked.applyNext (orders 0)]
    exact ih _ _

/-- A log after some of its own entries gives what it gives alone, in any orders of the map. -/
lemma Tracked.replay (tracked : Tracked decoder view effect) (orders orders' orders'' : ℕ → Order Bytes)
    (t : ApplyTargets P) {again entries : List LogEntry} (sub : again ⊆ entries) :
    let once := t.applyBatchNotify decoder orders entries
    let twice := (t.applyBatchNotify decoder orders' again).applyBatchNotify decoder orders'' entries
    view twice.kv twice.resources = view once.kv once.resources := by
  dsimp only
  rw [tracked.applyBatchNotify, tracked.applyBatchNotify, tracked.applyBatchNotify]
  exact foldl_write_replay (List.map_subset _ sub) _

lemma tracked_pairs (decoder : Decoder J P) :
    Tracked decoder (fun kv _ => kv.live) RaftCommand.onPairs where
  applied := by
    intro order t cmd t' applied
    cases cmd with
    | etcdPut key value lease =>
      cases applied
      exact KvStore.live_put ..
    | etcdDelete key rangeEnd =>
      cases applied
      exact KvStore.live_deleteRange ..
    | apiserverUpsert resource =>
      simp only [ApplyTargets.applyCommand] at applied
      split at applied
      · cases applied
      · cases applied
        rfl
    | apiserverDelete kind namespace_ name =>
      cases applied
      rfl
    | noOp =>
      cases applied
      rfl
  failed := by
    intro order t cmd e failed
    cases cmd with
    | apiserverUpsert resource => rfl
    | _ => cases failed

/-- Applying the first entries of a log and then the whole log leaves the live pairs that the log alone
leaves. -/
theorem replay_same_pairs (decoder : Decoder J P) (orders orders' orders'' : ℕ → Order Bytes)
    (t : ApplyTargets P) (log : List LogEntry) (n : ℕ) :
    ((t.applyBatchNotify decoder orders' (log.take n)).applyBatchNotify decoder orders'' log).kv.livePairs =
      (t.applyBatchNotify decoder orders log).kv.livePairs := by
  have same := (tracked_pairs decoder).replay orders orders' orders'' t (List.take_subset n log)
  ext p
  simp only [KvStore.mem_livePairs]
  exact exists_congr fun k => by rw [same]

end Effects

end RaftCore
