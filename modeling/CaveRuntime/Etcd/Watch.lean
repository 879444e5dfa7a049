import Mathlib.Data.Finset.Card
import CaveRuntime.Common.Run
import CaveRuntime.Etcd.Writes

/-!
# The etcd-compatible store: replay of watch events

`get_historical_events` replays from the history what a watch that was subscribed from the start has
received. The history has one entry per revision, and `delete_range` dispatches an event for every key
it removes at one revision, so the two streams agree in runs whose deletions each remove at most one
key, and differ as soon as one removes two (`range_delete_loses_an_event`).
-/

namespace Etcd
open Utf8

/-- The keys an operation of a transaction removes. -/
def RequestOp.removes (live : Finset Bytes) : RequestOp → Finset Bytes
  | .deleteRange req => req.hits live
  | _ => ∅

/-- Each deletion of a branch removes at most one key. -/
def SingleDeletes : Finset Bytes → List RequestOp → Prop
  | _, [] => True
  | live, op :: ops => (op.removes live).card ≤ 1 ∧ SingleDeletes (op.after live) ops

instance decidableSingleDeletes : ∀ live ops, Decidable (SingleDeletes live ops)
  | _, [] => isTrue trivial
  | live, op :: ops =>
    have := decidableSingleDeletes (op.after live) ops
    inferInstanceAs (Decidable (_ ∧ _))

/-- The call compacts the history. -/
def Op.compacts : Op → Bool
  | .compact _ | .compactV2 _ => true
  | _ => false

namespace KvStore

/-- Each deletion of the call removes at most one key. -/
def DeletesSingly (s : KvStore) : Op → Prop
  | .deleteRange req _ => (req.hits s.liveKeys).card ≤ 1
  | .txn req _ => SingleDeletes s.liveKeys (s.branch req)
  | _ => True

instance (s : KvStore) : (op : Op) → Decidable (s.DeletesSingly op)
  | .deleteRange req _ => inferInstanceAs (Decidable ((req.hits s.liveKeys).card ≤ 1))
  | .txn req _ => inferInstanceAs (Decidable (SingleDeletes s.liveKeys (s.branch req)))
  | .put _ | .leaseGrant _ _ | .leaseGrantV2 _ _ | .leaseRevoke _ | .expireLeases _ _ | .compact _
  | .compactV2 _ | .defragmentWithStatus => isTrue trivial

/-- The history entry of an event. -/
def entryOf (e : WatchEvent) : Sigma fun _ : ℕ => Bytes × EventType × KeyValue :=
  ⟨e.kv.modRevision, e.kv.key, e.eventType, e.kv⟩

/-- The inbox of a watch is the part of the history that it matches. -/
structure Replays (id : ℤ) (cfg : WatchConfig) (s : KvStore) : Prop where
  notCompacted : s.compactedRevision = 0
  config : s.watchConfigs.lookup id = some cfg
  assigned : ∀ e ∈ s.history.entries, 1 ≤ e.1 ∧ e.1 ≤ s.revision
  keyed : s.Keyed
  inbox : ∃ inbox, s.watchInboxes.lookup id = some inbox ∧
    inbox.map entryOf = (Table.ascending s.history).filter fun e => keyMatchesWatch e.2.1 cfg

variable {id : ℤ} {cfg : WatchConfig} {s s' : KvStore}

lemma lookup_deliver {configs : Table ℤ WatchConfig} {inboxes : Table ℤ (List WatchEvent)}
    {inbox : List WatchEvent} (event : WatchEvent) (config : configs.lookup id = some cfg)
    (found : inboxes.lookup id = some inbox) :
    (deliver configs inboxes event).lookup id =
      some (if keyMatchesWatch event.kv.key cfg then inbox ++ [localEvent cfg event] else inbox) := by
  unfold deliver
  rw [Table.lookup_eraseAll, if_neg, Table.lookup_mapWithKey, found]
  · simp only [Option.map_some, config]
  · simp [config]

lemma entryOf_localEvent (cfg : WatchConfig) (event : WatchEvent) :
    entryOf (localEvent cfg event) = entryOf event := by
  unfold localEvent
  split <;> rfl

namespace Replays

section

variable (h : Replays id cfg s)

include h

/-- A change that concerns neither the live keys nor the history nor the watches. -/
lemma frame (current : s'.current = s.current)
    (history : s'.history = s.history) (rev : s.revision ≤ s'.revision)
    (configs : s'.watchConfigs = s.watchConfigs) (inboxes : s'.watchInboxes = s.watchInboxes)
    (compacted : s'.compactedRevision = s.compactedRevision) : Replays id cfg s' where
  notCompacted := compacted.trans h.notCompacted
  config := configs ▸ h.config
  assigned e he := by
    obtain ⟨pos, le⟩ := h.assigned e (history ▸ he)
    exact ⟨pos, Nat.le_trans le rev⟩
  keyed := by
    unfold Keyed
    rw [current]
    exact h.keyed
  inbox := by
    rw [inboxes, history]
    exact h.inbox

/-- An event goes to the history and to the inboxes that it matches. -/
lemma emit (event : WatchEvent)
    (rev : s'.revision = s.revision + 1) (fresh : event.kv.modRevision = s.revision + 1)
    (history : s'.history =
      s.history.insert (s.revision + 1) (event.kv.key, event.eventType, event.kv))
    (configs : s'.watchConfigs = s.watchConfigs)
    (inboxes : s'.watchInboxes = deliver s.watchConfigs s.watchInboxes event)
    (compacted : s'.compactedRevision = s.compactedRevision)
    (keyed : s'.Keyed) : Replays id cfg s' where
  notCompacted := compacted.trans h.notCompacted
  config := configs ▸ h.config
  assigned e he := by
    rw [history] at he
    rw [rev]
    have found := Table.mem_entries.mp he
    rw [Table.lookup_insert_eq] at found
    split at found
    · omega
    · have := h.assigned e (Table.mem_entries.mpr found)
      omega
  keyed := keyed
  inbox := by
    obtain ⟨inbox, found, same⟩ := h.inbox
    have above : ∀ e ∈ s.history.entries, e.1 < s.revision + 1 := fun e he =>
      Nat.lt_succ_of_le (h.assigned e he).2
    refine ⟨_, inboxes ▸ lookup_deliver event h.config found, ?_⟩
    rw [history, Table.ascending_insert_last _ above, List.filter_append, ← same]
    by_cases matched : keyMatchesWatch event.kv.key cfg
    · have entry : entryOf event =
          ⟨s.revision + 1, event.kv.key, event.eventType, event.kv⟩ := by
        rw [← fresh]
        rfl
      simp [matched, entryOf_localEvent, entry]
    · simp [matched]

lemma put (req : PutRequest) : Replays id cfg (s.put req).2 :=
  h.emit ⟨.put, s.putKv req, s.current.lookup req.key.asBytes⟩ rfl rfl rfl rfl rfl rfl
    (put_keyed h.keyed req)

lemma deleteKey (key : Bytes) :
    Replays id cfg (s.nextRevision.deleteKey (s.revision + 1) key) := by
  unfold KvStore.deleteKey
  cases live : s.nextRevision.current.lookup key with
  | none => exact h.frame rfl rfl (Nat.le_succ _) rfl rfl rfl
  | some kv =>
    have here : (makeDeleteKv kv (s.revision + 1)).key = key := h.keyed key kv live
    refine h.emit ⟨.delete, makeDeleteKv kv (s.revision + 1), some kv⟩ rfl rfl ?_ rfl rfl rfl ?_
    · rw [here]
      rfl
    · intro k kv' found
      have found : (s.current.erase key).lookup k = some kv' := found
      rw [Table.lookup_erase_eq] at found
      split at found
      · cases found
      · exact h.keyed k kv' found

lemma deleteRange {req : DeleteRangeRequest}
    (single : (req.hits s.liveKeys).card ≤ 1) (order : Order Bytes) :
    Replays id cfg (s.deleteRange order req).2 := by
  rw [deleteRange_eq]
  have short : (s.keysToDelete order req).length ≤ 1 := by
    unfold keysToDelete
    cases req.rangeEnd with
    | none => exact Nat.le_refl 1
    | some _ =>
      rw [(order.perm _).length_eq]
      have nodup : (s.current.keys.filter req.covers).Nodup := s.current.keys_nodup.filter _
      have same : (s.current.keys.filter req.covers).toFinset = req.hits s.liveKeys := by
        rw [List.toFinset_filter]
        rfl
      rwa [← List.toFinset_card_of_nodup nodup, same]
  match s.keysToDelete order req, short with
  | [], _ => exact h.frame rfl rfl (Nat.le_succ _) rfl rfl rfl
  | [key], _ => exact h.deleteKey key

lemma revokeKey (key : Str) : Replays id cfg (s.revokeKey key) := by
  cases live : s.current.lookup key.asBytes with
  | none =>
    rw [revokeKey_of_not_live live]
    exact h
  | some kv =>
    have here : (makeDeleteKv kv (s.revision + 1)).key = key.asBytes := h.keyed _ kv live
    have w : Writes s (s.revokeKey key) (· = key.asBytes) none := revokeKey_writes live
    have keyed := w.keyed h.keyed (by simp)
    rw [revokeKey_of_live live] at keyed ⊢
    refine h.emit ⟨.delete, makeDeleteKv kv (s.revision + 1), some kv⟩ rfl rfl ?_ rfl rfl rfl keyed
    rw [here]
    rfl

lemma tryRevoke (leaseId : ℤ) : Replays id cfg (s.tryRevoke leaseId) := by
  cases found : s.leases.lookup leaseId with
  | none =>
    rw [tryRevoke_of_none found]
    exact h
  | some lease =>
    rw [tryRevoke_of_some found]
    let t : KvStore := { s with leases := s.leases.erase leaseId }
    have start : Replays id cfg t := h.frame rfl rfl (Nat.le_refl _) rfl rfl rfl
    exact List.foldlRecOn lease.keys _ start fun t ht key _ => ht.revokeKey key

lemma runOps {ops : List (RequestOp × Order Bytes)}
    (single : SingleDeletes s.liveKeys (ops.map Prod.fst)) : Replays id cfg (ops.foldl runOp s) := by
  induction ops generalizing s with
  | nil => exact h
  | cons op ops ih =>
    obtain ⟨op, order⟩ := op
    have next : Replays id cfg (s.runOp (op, order)) := by
      cases op with
      | range _ => exact h
      | put req => exact h.put req
      | deleteRange req => exact h.deleteRange single.1 order
    exact ih next (by rw [liveKeys_runOp]; exact single.2)

lemma step {op : Op} (keeps : op.compacts = false)
    (ok : s.DeletesSingly op) : Replays id cfg (op.apply s) := by
  cases op with
  | put req => exact h.put req
  | deleteRange req order => exact h.deleteRange ok order
  | txn req orders => exact h.runOps (by rw [map_fst_ordered]; exact ok)
  | leaseGrant req now =>
    obtain ⟨leases, counter, eq⟩ := leaseGrant_eq s req now
    show Replays id cfg (s.leaseGrant now req).2
    exact eq ▸ h.frame rfl rfl (Nat.le_refl _) rfl rfl rfl
  | leaseGrantV2 req now =>
    obtain ⟨leases, counter, eq⟩ := leaseGrantV2_eq s req now
    show Replays id cfg (((s.leaseGrantV2 now req).toOption.map Prod.snd).getD s)
    exact eq ▸ h.frame rfl rfl (Nat.le_refl _) rfl rfl rfl
  | leaseRevoke leaseId => exact h.tryRevoke leaseId
  | expireLeases now order =>
    exact List.foldlRecOn (s.expiredIds order now) _ h fun t ht leaseId _ => ht.tryRevoke leaseId
  | compact c => cases keeps
  | compactV2 c => cases keeps
  | defragmentWithStatus => exact h.frame rfl rfl (Nat.le_refl _) rfl rfl rfl

end

lemma subscribed {req : WatchCreateRequest} {start : KvStore}
    (sub : (new.watchCreate req).2.watchSubscribe (new.watchCreate req).1.watchId = .ok start) :
    ∃ cfg, cfg.key = req.key.asBytes ∧ cfg.rangeEnd = req.rangeEnd.map (·.asBytes) ∧
      Replays (new.watchCreate req).1.watchId cfg start := by
  have config : (new.watchCreate req).2.watchConfigs.lookup (new.watchCreate req).1.watchId =
      some { watchId := 1, key := req.key.asBytes, rangeEnd := req.rangeEnd.map (·.asBytes),
             startRevision := req.startRevision, prevKv := req.prevKv } := AList.lookup_insert _
  unfold watchSubscribe at sub
  rw [config] at sub
  cases sub
  refine ⟨_, rfl, rfl, rfl, config, ?_, ?_, ⟨[], AList.lookup_insert _, rfl⟩⟩
  · intro e he
    cases he
  · intro k kv found
    cases found

lemma run (h : Replays id cfg s) {ops : List Op} (keeps : ∀ op ∈ ops, op.compacts = false)
    (gd : Run.Guarded KvStore.step DeletesSingly s ops)
    (hr : Run.run KvStore.step s ops = some s') : Replays id cfg s' := by
  induction ops generalizing s with
  | nil =>
    cases hr
    exact h
  | cons op ops ih =>
    obtain ⟨t, st, hr⟩ := Run.run_cons.mp hr
    cases st
    exact ih (h.step (keeps op List.mem_cons_self) gd.1)
      (fun op' mem => keeps op' (List.mem_cons_of_mem _ mem)) (gd.2 _ rfl) hr

end Replays

/-- The event that a history entry replays. -/
def replayed (e : Sigma fun _ : ℕ => Bytes × EventType × KeyValue) : WatchEvent :=
  { eventType := e.2.2.1, kv := e.2.2.2, prevKv := none }

/-- Without compaction the replay is the matching entries from the start revision on. -/
lemma getHistoricalEvents_eq (notCompacted : s.compactedRevision = 0)
    (assigned : ∀ e ∈ s.history.entries, 1 ≤ e.1) (fromRev : ℕ) :
    s.getHistoricalEvents cfg fromRev =
      (((Table.ascending s.history).filter fun e => keyMatchesWatch e.2.1 cfg).filter
        fun e => fromRev ≤ e.1).map replayed := by
  unfold getHistoricalEvents
  have assigned : ∀ e ∈ Table.ascending s.history, 1 ≤ e.1 := fun e he =>
    assigned e (Table.mem_ascending.mp he)
  rw [notCompacted]
  generalize Table.ascending s.history = entries at assigned ⊢
  induction entries with
  | nil => rfl
  | cons e entries ih =>
    have ih := ih fun x hx => assigned x (List.mem_cons_of_mem _ hx)
    have pos := assigned e List.mem_cons_self
    have start : max fromRev (0 + 1) ≤ e.1 ↔ fromRev ≤ e.1 := by omega
    simp only [List.filter_cons, decide_eq_true_eq, start]
    by_cases late : fromRev ≤ e.1 <;> by_cases matched : keyMatchesWatch e.2.1 cfg = true
    · simp only [late, matched, if_true, decide_true, List.map_cons, List.filter_cons]
      rw [List.filterMap_cons_some (b := replayed e)]
      · exact congrArg _ ih
      · simp [matched, replayed]
    · simp only [late, matched, if_true]
      rw [List.filterMap_cons_none]
      · exact ih
      · simp [matched]
    · simp only [late, matched, if_true, if_false, List.filter_cons, decide_false]
      exact ih
    · simp only [late, matched, if_false]
      exact ih

namespace Replays

/-- The replay from a revision on is what the inbox has received from that revision on. -/
lemma historical (h : Replays id cfg s) {inbox : List WatchEvent}
    (same : inbox.map entryOf = (Table.ascending s.history).filter fun e => keyMatchesWatch e.2.1 cfg)
    (fromRev : ℕ) :
    s.getHistoricalEvents cfg fromRev =
      (inbox.filter fun e => fromRev ≤ e.kv.modRevision).map fun e => { e with prevKv := none } := by
  rw [getHistoricalEvents_eq h.notCompacted (fun e he => (h.assigned e he).1), ← same,
    List.filter_map, List.map_map]
  rfl

end Replays

/-- In a run without compaction whose deletions each remove at most one key, a watch that was subscribed
from the start has received exactly what the history replays, from every revision on. -/
theorem watch_replay {req : WatchCreateRequest} {start s : KvStore} {ops : List Op}
    (sub : (new.watchCreate req).2.watchSubscribe (new.watchCreate req).1.watchId = .ok start)
    (hr : Run.run step start ops = some s) (keeps : ∀ op ∈ ops, op.compacts = false)
    (gd : Run.Guarded step DeletesSingly start ops) :
    ∃ cfg inbox, s.watchConfigs.lookup (new.watchCreate req).1.watchId = some cfg ∧
      cfg.key = req.key.asBytes ∧ cfg.rangeEnd = req.rangeEnd.map (·.asBytes) ∧
      s.watchInboxes.lookup (new.watchCreate req).1.watchId = some inbox ∧
      ∀ fromRev,
        s.getHistoricalEvents cfg fromRev =
          ((inbox.filter fun e => fromRev ≤ e.kv.modRevision).map fun e =>
            { e with prevKv := none }) ∧
        (s.getHistoricalEvents cfg fromRev).Pairwise (·.kv.modRevision < ·.kv.modRevision) := by
  obtain ⟨cfg, key, rangeEnd, first⟩ := Replays.subscribed sub
  have h := first.run keeps gd hr
  obtain ⟨inbox, found, same⟩ := h.inbox
  refine ⟨cfg, inbox, h.config, key, rangeEnd, found, fun fromRev => ?_⟩
  have events := h.historical same fromRev
  refine ⟨events, ?_⟩
  have order : inbox.Pairwise (·.kv.modRevision < ·.kv.modRevision) := by
    have entries : (inbox.map entryOf).Pairwise (·.1 < ·.1) :=
      same ▸ (Table.pairwise_ascending s.history).filter _
    rw [List.pairwise_map] at entries
    exact entries
  rw [events]
  exact List.pairwise_map.mpr (order.filter _)

/-- A watch on all keys from "a" on. -/
def watchAll : WatchCreateRequest := { key := keyA, rangeEnd := some keyZ }

/-- A store in which a watch on all keys is subscribed. -/
def watched : KvStore :=
  { (new.watchCreate watchAll).2 with
    watchInboxes := (new.watchCreate watchAll).2.watchInboxes.insert 1 [] }

/-- Two keys are written and deleted one by one. -/
def singleDeletesRun : List Op :=
  [.put { key := keyA, value := keyA }, .put { key := keyB, value := keyB },
    .deleteRange { key := keyA } .asIs, .deleteRange { key := keyA, rangeEnd := watchAll.rangeEnd } .asIs]

/-- The four events are replayed. -/
theorem watch_replay_single_deletes :
    ∃ s cfg inbox, Run.run step watched singleDeletesRun = some s ∧
      s.watchConfigs.lookup 1 = some cfg ∧ s.watchInboxes.lookup 1 = some inbox ∧
      inbox.length = 4 ∧
      s.getHistoricalEvents cfg 0 = inbox.map fun e => { e with prevKv := none } := by
  obtain ⟨s, hr, test⟩ := Run.exists_of_test step watched singleDeletesRun
    (fun s => (s.watchInboxes.lookup 1).any (·.length = 4)) (by decide)
  obtain ⟨cfg, inbox, config, -, -, found, replay⟩ :=
    @watch_replay watchAll watched s singleDeletesRun rfl hr (by decide) (by decide)
  have found : s.watchInboxes.lookup 1 = some inbox := found
  refine ⟨s, cfg, inbox, hr, config, found, ?_, ?_⟩
  · simpa [found] using test
  · have all := (replay 0).1
    simpa using all

/-- Two keys are written and deleted by one request. -/
def rangeDeleteRun : List Op :=
  [.put { key := keyA, value := keyA }, .put { key := keyB, value := keyB },
    .deleteRange { key := keyA, rangeEnd := watchAll.rangeEnd } .asIs]

/-- The watch has received both deletions, and only one of them is replayed. -/
theorem range_delete_loses_an_event :
    ∃ s cfg inbox, Run.run step watched rangeDeleteRun = some s ∧
      s.watchConfigs.lookup 1 = some cfg ∧ s.watchInboxes.lookup 1 = some inbox ∧
      inbox.length = 4 ∧ (s.getHistoricalEvents cfg 0).length = 3 := by
  obtain ⟨s, hr, test⟩ := Run.exists_of_test step watched rangeDeleteRun
    (fun s => (s.watchInboxes.lookup 1).any (·.length = 4) &&
      (s.watchConfigs.lookup 1).any fun cfg => (s.getHistoricalEvents cfg 0).length = 3)
    (by decide)
  rw [Bool.and_eq_true, Option.any_eq_true, Option.any_eq_true] at test
  obtain ⟨⟨inbox, found, four⟩, cfg, config, three⟩ := test
  exact ⟨s, cfg, inbox, hr, config, found, by simpa using four, by simpa using three⟩

end KvStore

end Etcd
