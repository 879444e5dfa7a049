import CaveRuntime.Common.Run
import CaveRuntime.Etcd.Writes

/-!
# The etcd-compatible store: visibility of transactions

Each put and each deletion of a transaction takes a revision of its own. A transaction is visible at one
revision if at most one operation of the branch it takes changes anything; a branch of two puts shows the
first of them alone at the revision in between (`two_puts_visible_apart`).
-/

namespace Etcd
open Utf8

/-- The operation changes a key if `live` are the live keys. -/
def RequestOp.writes (live : Finset Bytes) : RequestOp → Prop
  | .range _ => False
  | .put _ => True
  | .deleteRange req => (req.hits live).Nonempty

instance (live : Finset Bytes) : (op : RequestOp) → Decidable (op.writes live)
  | .range _ => isFalse not_false
  | .put _ => isTrue trivial
  | .deleteRange req => inferInstanceAs (Decidable (req.hits live).Nonempty)

/-- The number of operations of a branch that change a key. -/
def writeCount : Finset Bytes → List RequestOp → ℕ
  | _, [] => 0
  | live, op :: ops => (if op.writes live then 1 else 0) + writeCount (op.after live) ops

namespace KvStore

variable {s s' : KvStore} {k : Bytes} {r : ℕ} {op : RequestOp × Order Bytes}
  {ops : List (RequestOp × Order Bytes)}

lemma revision_runOp (s : KvStore) (op : RequestOp × Order Bytes) :
    s.revision ≤ (s.runOp op).revision ∧ (s.runOp op).revision ≤ s.revision + 1 := by
  cases runOp_cases s op with
  | inl same =>
    rw [same]
    omega
  | inr wr =>
    obtain ⟨_, _, w⟩ := wr
    have : (s.runOp op).revision = s.revision + 1 := w.mvcc.rev
    omega

lemma kept_bounded : Kept fun s => s.mvcc.Bounded where
  write bd w _ := w.mvcc.bounded bd
  collect bd _ rev index _ := bd.of_subset rev index

lemma bounded_runOp (bd : s.mvcc.Bounded) (op : RequestOp × Order Bytes) : (s.runOp op).mvcc.Bounded :=
  kept_bounded.runOp bd op

lemma get_runOp_of_le (le : r ≤ s.revision) : (s.runOp op).mvcc.get k r = s.mvcc.get k r := by
  cases runOp_cases s op with
  | inl same => rw [same]
  | inr wr =>
    obtain ⟨_, _, w⟩ := wr
    exact w.mvcc.get_of_le le

lemma get_runOp_of_quiet (bd : s.mvcc.Bounded) (quiet : ¬ op.1.writes s.liveKeys)
    (ge : s.revision ≤ r) : (s.runOp op).mvcc.get k r = s.mvcc.get k s.revision := by
  obtain ⟨op, order⟩ := op
  cases op with
  | range _ => exact bd.get_of_ge ge
  | put req => exact absurd trivial quiet
  | deleteRange req =>
    have w := deleteRange_writes s order req
    have untouched : ¬ ((s.current.lookup k).isSome ∧ req.covers k) := by
      rintro ⟨live, cov⟩
      exact quiet ⟨k, Finset.mem_filter.mpr ⟨mem_liveKeys.mpr live, cov⟩⟩
    by_cases last : r = s.revision
    · rw [last]
      exact w.mvcc.get_of_le (Nat.le_refl _)
    · have ge' : (s.deleteRange order req).2.mvcc.rev ≤ r := by
        rw [w.mvcc.rev]
        show s.revision + 1 ≤ r
        omega
      exact ((w.mvcc.bounded bd).get_of_ge ge').trans (w.mvcc.get_untouched bd untouched)

lemma revision_foldl_runOp (s : KvStore) (ops : List (RequestOp × Order Bytes)) :
    s.revision ≤ (ops.foldl runOp s).revision := by
  induction ops generalizing s with
  | nil => exact Nat.le_refl _
  | cons op ops ih => exact Nat.le_trans (revision_runOp s op).1 (ih _)

lemma get_foldl_of_le (le : r ≤ s.revision) : (ops.foldl runOp s).mvcc.get k r = s.mvcc.get k r := by
  induction ops generalizing s with
  | nil => rfl
  | cons op ops ih =>
    have next := ih (Nat.le_trans le (revision_runOp s op).1)
    exact next.trans (get_runOp_of_le le)

lemma get_foldl_of_quiet (bd : s.mvcc.Bounded) (quiet : writeCount s.liveKeys (ops.map Prod.fst) = 0)
    (ge : s.revision ≤ r) : (ops.foldl runOp s).mvcc.get k r = s.mvcc.get k s.revision := by
  induction ops generalizing s with
  | nil => exact bd.get_of_ge ge
  | cons op ops ih =>
    have here : ¬ op.1.writes s.liveKeys := by
      intro writes
      simp [writeCount, writes] at quiet
    have rest : writeCount (s.runOp op).liveKeys (ops.map Prod.fst) = 0 := by
      rw [liveKeys_runOp]
      simpa [writeCount, here] using quiet
    have step : (s.runOp op).revision ≤ r ∨ r = s.revision := by
      have := revision_runOp s op
      omega
    cases step with
    | inl later =>
      have next := ih (bounded_runOp bd op) rest later
      exact next.trans (get_runOp_of_quiet bd here (revision_runOp s op).1)
    | inr last =>
      subst last
      exact get_foldl_of_le (Nat.le_refl _)

/-- The operations of a branch with at most one write become visible at one revision. -/
lemma get_foldl_of_single (bd : s.mvcc.Bounded)
    (single : writeCount s.liveKeys (ops.map Prod.fst) ≤ 1) :
    ∃ visible, ∀ r, s.revision ≤ r → ∀ k, (ops.foldl runOp s).mvcc.get k r =
      if r < visible then s.mvcc.get k s.revision
      else (ops.foldl runOp s).mvcc.get k (ops.foldl runOp s).revision := by
  induction ops generalizing s with
  | nil => exact ⟨0, fun r ge k => bd.get_of_ge ge⟩
  | cons op ops ih =>
    by_cases writes : op.1.writes s.liveKeys
    · -- the rest of the branch changes nothing
      have rest : writeCount (s.runOp op).liveKeys (ops.map Prod.fst) = 0 := by
        rw [liveKeys_runOp]
        simp only [List.map_cons, writeCount, writes, if_true] at single
        omega
      have quiet {r : ℕ} {k : Bytes} (ge : (s.runOp op).revision ≤ r) :=
        @get_foldl_of_quiet _ k r _ (bounded_runOp bd op) rest ge
      refine ⟨(s.runOp op).revision, fun r ge k => ?_⟩
      by_cases before : r < (s.runOp op).revision
      · have last : r = s.revision := by
          have := revision_runOp s op
          omega
        rw [if_pos before, last]
        exact get_foldl_of_le (Nat.le_refl _)
      · rw [if_neg before]
        exact (quiet (Nat.not_lt.mp before)).trans (quiet (revision_foldl_runOp _ ops)).symm
    · have few : writeCount (s.runOp op).liveKeys (ops.map Prod.fst) ≤ 1 := by
        rw [liveKeys_runOp]
        simpa [writeCount, writes] using single
      obtain ⟨visible, view⟩ := ih (bounded_runOp bd op) few
      have step := revision_runOp s op
      have same {r : ℕ} {k : Bytes} (ge : s.revision ≤ r) :=
        @get_runOp_of_quiet _ k r op bd writes ge
      refine ⟨max visible (s.runOp op).revision, fun r ge k => ?_⟩
      by_cases later : (s.runOp op).revision ≤ r
      · refine (view r later k).trans ?_
        rw [same step.1]
        by_cases before : r < visible
        · rw [if_pos before, if_pos (by omega)]
        · rw [if_neg before, if_neg (by omega)]
          rfl
      · rw [if_pos (by omega)]
        exact (get_foldl_of_le (Nat.le_of_not_le later)).trans (same ge)

/-- The pairs of a snapshot were written at or before its revision. -/
def RestoresAssigned (codec : SnapshotCodec) (_ : KvStore) : Event → Prop
  | .call _ => True
  | .restoreSnapshot blob _ => ∀ doc revision, codec.fromSlice blob = .ok doc →
      doc.revision = some revision → ∀ kv ∈ doc.kvs.getD [], kv.modRevision ≤ revision

lemma mem_index_restoreKv {kvs : List KeyValue} (hr : r ∈ (kvs.foldl restoreKv s).mvcc.index k) :
    r ∈ s.mvcc.index k ∨ ∃ kv ∈ kvs, kv.modRevision = r := by
  induction kvs generalizing s with
  | nil => exact .inl hr
  | cons kv kvs ih =>
    cases ih hr with
    | inl here =>
      have here : r ∈ (s.indexPush kv.key kv.modRevision).mvcc.index k := here
      rw [index_indexPush] at here
      split at here
      · cases List.mem_append.mp here with
        | inl old => exact .inl old
        | inr new => exact .inr ⟨kv, List.mem_cons_self, (List.mem_singleton.mp new).symm⟩
      · exact .inl here
    | inr later =>
      obtain ⟨kv', mem, eq⟩ := later
      exact .inr ⟨kv', List.mem_cons_of_mem _ mem, eq⟩

lemma bounded_restoreDoc (s : KvStore) (doc : SnapshotDoc) (revision : ℕ)
    (before : ∀ kv ∈ doc.kvs.getD [], kv.modRevision ≤ revision) : (s.restoreDoc doc revision).mvcc.Bounded := by
  intro k r hr
  cases mem_index_restoreKv hr with
  | inl old => cases old
  | inr new =>
    obtain ⟨kv, mem, eq⟩ := new
    exact eq ▸ before kv mem

/-- What the calls keep and every such snapshot has is kept by all events. -/
lemma Kept.stepEvent {P : KvStore → Prop} (kept : Kept P) {codec : SnapshotCodec} {e : Event}
    (restored : ∀ (s : KvStore) doc revision, (∀ kv ∈ doc.kvs.getD [], kv.modRevision ≤ revision) →
      P (s.restoreDoc doc revision))
    (h : P s) (ok : RestoresAssigned codec s e) (st : s.stepEvent codec e = some s') : P s' := by
  cases e with
  | call op =>
    cases st
    exact kept.apply h op
  | restoreSnapshot blob checksum =>
    cases st
    cases restoreSnapshot_cases codec s blob checksum with
    | inl same =>
      rw [same]
      exact h
    | inr done =>
      obtain ⟨doc, revision, read, rev, eq⟩ := done
      rw [eq]
      exact restored s doc revision (ok doc revision read rev)

/-- A read at a revision depends on the revision only through what the keys were then. -/
lemma rangeAtRevision_congr {r' : ℕ} (req : RangeRequest)
    (same : ∀ k, s.mvcc.get k r = s.mvcc.get k r') :
    s.rangeAtRevision req r = s.rangeAtRevision req r' := by
  have eq : (s.getAtRevision · r) = (s.getAtRevision · r') := by
    funext k
    rw [getAtRevision_eq, getAtRevision_eq, same k]
  unfold rangeAtRevision
  rw [eq, congrFun eq req.key.asBytes]

/-- In every store reached through calls and restores of snapshots whose pairs were written by the
snapshot's revision, a transaction of which at most one operation changes a key leaves older reads alone
and becomes visible as a whole at one revision. -/
theorem txn_visible_at_once {codec : SnapshotCodec} {events : List Event} {s : KvStore}
    (hr : Run.run (stepEvent codec) new events = some s)
    (gd : Run.Guarded (stepEvent codec) (RestoresAssigned codec) new events) (req : TxnRequest)
    (orders : ℕ → Order Bytes) (single : writeCount s.liveKeys (s.branch req) ≤ 1) :
    (∀ r ≤ s.revision, ∀ k, (s.txn orders req).2.getAtRevision k r = s.getAtRevision k r) ∧
      ∃ visible, ∀ r, s.revision ≤ r → r ≤ (s.txn orders req).2.revision →
        (s.txn orders req).2.compactedRevision ≤ r → ∀ query : RangeRequest,
          (s.txn orders req).2.range { query with revision := some r } =
            .ok ((s.txn orders req).2.rangeAtRevision query
              (if r < visible then s.revision else (s.txn orders req).2.revision)) := by
  have start : new.mvcc.Bounded := by
    intro k r hr
    cases hr
  have bd : s.mvcc.Bounded :=
    Run.invariant_of_guarded (P := fun s => s.mvcc.Bounded) (kept_bounded.stepEvent bounded_restoreDoc) gd hr start
  have old (r : ℕ) (le : r ≤ s.revision) (k : Bytes) :
      (s.txn orders req).2.mvcc.get k r = s.mvcc.get k r := get_foldl_of_le le
  refine ⟨fun r le k => ?_, ?_⟩
  · rw [getAtRevision_eq, getAtRevision_eq, old r le k]
  · obtain ⟨visible, view⟩ :=
      get_foldl_of_single bd (by rwa [map_fst_ordered (s.branch req) orders])
    refine ⟨visible, fun r ge le readable query => ?_⟩
    have open_ : ¬ (r < (s.txn orders req).2.compactedRevision ∧
        0 < (s.txn orders req).2.compactedRevision) := by omega
    simp only [range, if_neg open_]
    refine congrArg _ (rangeAtRevision_congr _ fun k => (view r ge k).trans ?_)
    by_cases before : r < visible
    · rw [if_pos before, if_pos before]
      exact (old s.revision (Nat.le_refl _) k).symm
    · rw [if_neg before, if_neg before]
      rfl

/-- The range of all keys from "a" on. -/
def allKeys : RangeRequest := { key := keyA, rangeEnd := some keyZ }

/-- A transaction that deletes a key that is not live and writes another one. -/
def deleteAndPut : TxnRequest :=
  { success := [.deleteRange { key := keyB }, .put { key := keyA, value := keyA }] }

/-- Only the put of the transaction changes a key, so a read at any revision shows all or nothing. -/
theorem txn_visible_at_once_put :
    ∃ s, Run.run (stepEvent noSnapshots) new [.call (.put { key := keyA, value := keyB })] = some s ∧
      ∃ visible, ∀ r, s.revision ≤ r → r ≤ (s.txn (fun _ => .asIs) deleteAndPut).2.revision →
        (s.txn (fun _ => .asIs) deleteAndPut).2.compactedRevision ≤ r → ∀ query : RangeRequest,
          (s.txn (fun _ => .asIs) deleteAndPut).2.range { query with revision := some r } =
            .ok ((s.txn (fun _ => .asIs) deleteAndPut).2.rangeAtRevision query
              (if r < visible then s.revision
                else (s.txn (fun _ => .asIs) deleteAndPut).2.revision)) := by
  obtain ⟨s, hr, test⟩ := Run.exists_of_test (stepEvent noSnapshots) new
    [.call (.put { key := keyA, value := keyB })]
    (fun s => writeCount s.liveKeys (s.branch deleteAndPut) ≤ 1) (by decide)
  have gd : Run.Guarded (stepEvent noSnapshots) (RestoresAssigned noSnapshots) new
      [.call (.put { key := keyA, value := keyB })] := ⟨trivial, fun _ _ => trivial⟩
  exact ⟨s, hr, (txn_visible_at_once hr gd deleteAndPut _ (by simpa using test)).2⟩

/-- A transaction that writes two keys. -/
def twoPuts : TxnRequest :=
  { success := [.put { key := keyA, value := keyA }, .put { key := keyB, value := keyB }] }

/-- Revision 2 shows the first key of the transaction without the second one. -/
theorem two_puts_visible_apart :
    let s := (new.txn (fun _ => .asIs) twoPuts).2
    s.revision = 3 ∧ s.compactedRevision ≤ 2 ∧
      (s.rangeAtRevision allKeys 1).count = 0 ∧
      s.range { allKeys with revision := some 2 } = .ok (s.rangeAtRevision allKeys 2) ∧
      (s.rangeAtRevision allKeys 2).kvs.map (·.key) = [keyA.asBytes] ∧
      (s.rangeAtRevision allKeys 3).kvs.map (·.key) = [keyA.asBytes, keyB.asBytes] := by
  refine ⟨by decide, by decide, by decide, rfl, by decide,
    by decide⟩

end KvStore

end Etcd
