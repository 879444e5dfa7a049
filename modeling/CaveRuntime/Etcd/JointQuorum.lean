import Mathlib.Data.List.GetD
import Mathlib.Data.List.Sublists
import CaveRuntime.Common.OrderStatistic
import CaveRuntime.Common.Run
import CaveRuntime.Etcd.Cluster

/-!
# The etcd-compatible store: commit indices of joint configurations

`commit_via_match_index` takes a majority of all the voters in the member list, also while a joint
configuration is active, when the list has the voters of both configurations. Whatever the voters have
acknowledged, the index that it returns is the one of `joint_committed_index`, exactly if a set of voters is a
quorum of the member list when it is one of the outgoing and of the incoming voters, and only then. That is so
without a joint configuration, when one voter is added to an odd number of voters, or when one voter takes the
place of another. In general the index may not be acknowledged by a majority of the incoming voters.

Both indices are greatest indices that a majority has acknowledged, so they are compared through what is below
them: for each index, the voters that have acknowledged it are a set of voters.
-/

namespace Etcd
open OrderStatistic Run

/-- The index is acknowledged by a strict majority of the voters. -/
def AckedByMajority (matchIdx : Table ℕ ℕ) (voters : List ℕ) (index : ℕ) : Prop :=
  voters.length < 2 * voters.countP fun id => index ≤ ClusterStore.acked matchIdx id

section Majority

variable {matchIdx : Table ℕ ℕ} {voters part : List ℕ} {index : ℕ}

lemma ackedByMajority_iff :
    AckedByMajority matchIdx voters index ↔
      voters.length / 2 + 1 ≤ reaching (voters.map (ClusterStore.acked matchIdx)) index := by
  unfold AckedByMajority reaching
  rw [List.countP_map]
  show _ < 2 * _ ↔ _ ≤ voters.countP fun id => decide (index ≤ ClusterStore.acked matchIdx id)
  omega

lemma majority_le_length (ne : voters ≠ []) : voters.length / 2 + 1 ≤ voters.length := by
  have := List.length_pos_iff.mpr ne
  omega

/-- `majority_committed_index` is the greatest index that a majority has acknowledged. -/
lemma majorityCommittedIndex_isKthLargest (matchIdx : Table ℕ ℕ) (ne : voters ≠ []) :
    IsKthLargest (voters.map (ClusterStore.acked matchIdx)) (voters.length / 2 + 1)
      (majorityCommittedIndex voters matchIdx) := by
  have quorum := majority_le_length ne
  let indices := (voters.map (ClusterStore.acked matchIdx)).insertionSort (· ≥ ·)
  have perm : indices.Perm (voters.map (ClusterStore.acked matchIdx)) := List.perm_insertionSort _ _
  have lt : voters.length / 2 < indices.length := by
    rw [perm.length_eq, List.length_map]
    omega
  have kth := isKthLargest_descending (List.pairwise_insertionSort (· ≥ ·) _ : indices.Pairwise _) lt
  have eq : majorityCommittedIndex voters matchIdx = indices[voters.length / 2] := by
    unfold majorityCommittedIndex
    rw [if_neg ne]
    exact List.getD_eq_getElem _ _ lt
  rw [eq]
  exact kth.perm perm

lemma AckedByMajority.ne_nil (acked : AckedByMajority matchIdx voters index) : voters ≠ [] := by
  rintro rfl
  exact Nat.not_lt_zero _ acked

/-- What is below `joint_committed_index` is acknowledged by both majorities. -/
lemma le_jointCommittedIndex_iff {outgoing incoming : List ℕ} (out : outgoing ≠ []) (inc : incoming ≠ []) :
    index ≤ jointCommittedIndex outgoing incoming matchIdx ↔
      AckedByMajority matchIdx outgoing index ∧ AckedByMajority matchIdx incoming index := by
  rw [jointCommittedIndex, Nat.le_min, (majorityCommittedIndex_isKthLargest matchIdx out).le_iff,
    (majorityCommittedIndex_isKthLargest matchIdx inc).le_iff, ackedByMajority_iff, ackedByMajority_iff]

/-- A strict majority of the voters is in the set. -/
def Majority (voters set : List ℕ) : Prop := voters.length < 2 * voters.countP (· ∈ set)
deriving Decidable

lemma majority_iff {set : List ℕ} (same : ∀ id ∈ voters, id ∈ set ↔ index ≤ ClusterStore.acked matchIdx id) :
    Majority voters set ↔ AckedByMajority matchIdx voters index := by
  unfold Majority AckedByMajority
  rw [List.countP_congr fun id mem => ?_]
  rw [decide_eq_true_eq, decide_eq_true_eq]
  exact same id mem

/-- Exactly the voters of a set can have acknowledged the index 1. -/
lemma exists_acked (set : List ℕ) : ∃ matchIdx, ∀ id, id ∈ set ↔ 1 ≤ ClusterStore.acked matchIdx id := by
  induction set with
  | nil => exact ⟨∅, fun id => iff_of_false List.not_mem_nil (Nat.not_succ_le_zero 0)⟩
  | cons first set ih =>
    obtain ⟨matchIdx, same⟩ := ih
    refine ⟨matchIdx.insert first 1, fun id => ?_⟩
    rw [List.mem_cons, same]
    unfold ClusterStore.acked
    rw [Table.lookup_insert_eq]
    split
    · rename_i here
      exact iff_of_true (.inl here) (Nat.le_refl 1)
    · rename_i other
      exact or_iff_right other

end Majority

namespace ClusterStore

variable {s : ClusterStore} {index : ℕ}

/-- `commit_via_match_index` returns the greatest index that a majority of the member list has
acknowledged. -/
lemma commitViaMatchIndex_isKthLargest (done : s.commitViaMatchIndex = some index) :
    voterIds s.kv.members ≠ [] ∧
      IsKthLargest ((voterIds s.kv.members).map (acked s.matchIndex))
        ((voterIds s.kv.members).length / 2 + 1) index := by
  unfold commitViaMatchIndex at done
  generalize voterIds s.kv.members = voters at done ⊢
  dsimp only at done
  split at done
  · cases done
  rename_i ne
  have quorum := majority_le_length ne
  let indexes := (voters.map (acked s.matchIndex)).insertionSort (· ≤ ·)
  have perm : indexes.Perm (voters.map (acked s.matchIndex)) := List.perm_insertionSort _ _
  have len : indexes.length = voters.length := by rw [perm.length_eq, List.length_map]
  have size : quorumSizeFor voters.length = voters.length / 2 + 1 := by
    unfold quorumSizeFor
    rw [if_neg (List.length_pos_iff.mpr ne).ne']
  have lt : indexes.length - (voters.length / 2 + 1) < indexes.length := by omega
  have kth := isKthLargest_ascending (List.pairwise_insertionSort (· ≤ ·) _ : indexes.Pairwise _) lt
  have place : indexes.length - (indexes.length - (voters.length / 2 + 1)) = voters.length / 2 + 1 := by
    omega
  rw [place] at kth
  rw [size, List.getD_eq_getElem _ _ lt] at done
  rw [← Option.some.inj done]
  exact ⟨ne, kth.perm perm⟩

/-- The voters of the outgoing configuration, which is the current one if no other is coming. -/
def outgoing (s : ClusterStore) : List ℕ :=
  match s.joint with
  | none => voterIds s.kv.members
  | some cfg => cfg.outgoing

/-- The voters of the incoming configuration. -/
def incoming (s : ClusterStore) : List ℕ :=
  match s.joint with
  | none => voterIds s.kv.members
  | some cfg => cfg.incoming

/-- The committed index as `raft_joint_quorum` computes it. -/
def committedIndex (s : ClusterStore) : ℕ :=
  match s.joint with
  | none => majorityCommittedIndex (voterIds s.kv.members) s.matchIndex
  | some cfg => jointCommittedIndex cfg.outgoing cfg.incoming s.matchIndex

/-- A set of voters is a quorum of the member list exactly if it is one of both configurations. -/
def QuorumsAgree (s : ClusterStore) : Prop :=
  voterIds s.kv.members = [] ∨ ∀ set ∈ (voterIds s.kv.members ++ s.outgoing ++ s.incoming).sublists,
    Majority (voterIds s.kv.members) set ↔ Majority s.outgoing set ∧ Majority s.incoming set
deriving Decidable

lemma quorumsAgree_of_none (none : s.joint = none) : s.QuorumsAgree := by
  refine .inr fun set _ => ?_
  unfold outgoing incoming
  rw [none]
  exact (and_self_iff).symm

lemma committedIndex_eq (s : ClusterStore) :
    s.committedIndex = jointCommittedIndex s.outgoing s.incoming s.matchIndex := by
  unfold committedIndex outgoing incoming
  cases s.joint with
  | none => exact (min_self _).symm
  | some cfg => rfl

end ClusterStore

/-- Whatever has been acknowledged, the index that `commit_via_match_index` returns is acknowledged by a strict
majority of the outgoing and of the incoming voters and is the one of `raft_joint_quorum`, exactly if the quorums of
the member list are those of both configurations. -/
theorem commit_index_acked_by_both (s : ClusterStore) :
    (∀ matchIndex index, { s with matchIndex }.commitViaMatchIndex = some index →
      AckedByMajority matchIndex s.outgoing index ∧ AckedByMajority matchIndex s.incoming index ∧
        index = { s with matchIndex }.committedIndex) ↔ s.QuorumsAgree := by
  have below {matchIndex : Table ℕ ℕ} {index : ℕ} (done : { s with matchIndex }.commitViaMatchIndex = some index)
      (i : ℕ) : i ≤ index ↔ AckedByMajority matchIndex (voterIds s.kv.members) i := by
    obtain ⟨-, kth⟩ := ClusterStore.commitViaMatchIndex_isKthLargest done
    exact kth.le_iff.trans ackedByMajority_iff.symm
  constructor
  · intro acked
    refine or_iff_not_imp_left.mpr fun ne set _ => ?_
    -- the voters of the set have acknowledged the index 1, and no others have
    obtain ⟨matchIndex, same⟩ := exists_acked set
    have done : { s with matchIndex }.commitViaMatchIndex = some _ := if_neg ne
    obtain ⟨out, inc, eq⟩ := acked matchIndex _ done
    rw [majority_iff fun id _ => same id, majority_iff fun id _ => same id, majority_iff fun id _ => same id,
      ← below done, eq, ClusterStore.committedIndex_eq]
    exact le_jointCommittedIndex_iff out.ne_nil inc.ne_nil
  · rintro agree matchIndex index done
    have ne := (ClusterStore.commitViaMatchIndex_isKthLargest done).1
    have both (i : ℕ) : AckedByMajority matchIndex (voterIds s.kv.members) i ↔
        AckedByMajority matchIndex s.outgoing i ∧ AckedByMajority matchIndex s.incoming i := by
      let ids := voterIds s.kv.members ++ s.outgoing ++ s.incoming
      have iff := agree.resolve_left ne (ids.filter fun id => i ≤ ClusterStore.acked matchIndex id)
        (List.mem_sublists.mpr List.filter_sublist)
      rwa [majority_iff, majority_iff, majority_iff] at iff
      all_goals
        intro id mem
        rw [List.mem_filter, decide_eq_true_eq]
        exact and_iff_right (by simp [ids, mem])
    obtain ⟨out, inc⟩ := (both index).mp ((below done index).mp le_rfl)
    refine ⟨out, inc, eq_of_forall_le_iff fun i => ?_⟩
    rw [below done, both, ClusterStore.committedIndex_eq]
    exact (le_jointCommittedIndex_iff out.ne_nil inc.ne_nil).symm

/-- A second voter takes the place of the first one, which has the index 7; the new one has acknowledged 5. -/
def replaceVoter : List ClusterOp :=
  [.enterJoint { adds := [{}], removes := [1] }, .recordMatchIndex 1 7, .recordMatchIndex 101 5]

theorem commit_index_acked_by_both_replaced :
    ∃ s, run ClusterStore.step {} replaceVoter = some s ∧ s.outgoing = [1] ∧ s.incoming = [101] ∧
      s.commitViaMatchIndex = some 5 ∧ AckedByMajority s.matchIndex s.outgoing 5 ∧
      AckedByMajority s.matchIndex s.incoming 5 ∧ 5 = s.committedIndex := by
  refine ⟨_, rfl, rfl, by decide, by decide, ?_⟩
  exact (commit_index_acked_by_both _).mpr (by decide) _ 5 (by decide)

/-- Two of three voters are removed; they have acknowledged the index 7, and the one that stays nothing. -/
def removeVoters : List ClusterOp :=
  [.memberAdd {}, .memberAdd {}, .enterJoint { removes := [101, 102] }, .recordMatchIndex 101 7,
    .recordMatchIndex 102 7]

/-- The index 7 is returned, no incoming voter has acknowledged it, and `joint_committed_index` is 0. -/
theorem commit_without_incoming_voters :
    ∃ s, run ClusterStore.step {} removeVoters = some s ∧ s.incoming = [1] ∧
      s.commitViaMatchIndex = some 7 ∧ ¬ AckedByMajority s.matchIndex s.incoming 7 ∧
      s.committedIndex = 0 := by
  refine ⟨_, rfl, by decide, by decide, ?_, by decide⟩
  unfold AckedByMajority
  decide

end Etcd
