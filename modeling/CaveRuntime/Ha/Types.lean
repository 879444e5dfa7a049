import CaveRuntime.Common.Quorum

/-!
# cave-ha: types

Model of the types of `crates/compute/cave-ha/src/raft/types.rs` that logs and snapshots hold. Node ids, terms
and indices are natural numbers.
-/

namespace Ha

abbrev Bytes := List UInt8

structure MembershipConfig where
  voters : Finset ℕ
  learners : Finset ℕ
  votersOutgoing : Option (Finset ℕ)
  autoLeave : Bool
  deriving DecidableEq

namespace MembershipConfig

def quorum (setSize : ℕ) : ℕ := setSize / 2 + 1

def hasQuorum (m : MembershipConfig) (votes : Finset ℕ) : Bool :=
  if (m.voters.filter (· ∈ votes)).card < quorum m.voters.card then false
  else
    match m.votersOutgoing with
    | some old => !decide ((old.filter (· ∈ votes)).card < quorum old.card)
    | none => true

/-- The voter sets that a decision needs a majority of. -/
def Counts (m : MembershipConfig) (set : Finset ℕ) : Prop := set = m.voters ∨ m.votersOutgoing = some set

variable {m m' : MembershipConfig} {set votes votes' : Finset ℕ}

lemma le_card_of_hasQuorum (counts : m.Counts set) (h : m.hasQuorum votes = true) :
    set.card / 2 + 1 ≤ (set.filter (· ∈ votes)).card := by
  unfold hasQuorum at h
  split at h
  · cases h
  · rename_i new
    rcases counts with rfl | old
    · exact Nat.not_lt.mp new
    · rw [old] at h
      exact Nat.not_lt.mp (of_decide_eq_false ((Bool.not_eq_true' _).mp h))

/-- Decisions under two configurations with a voter set in common, such as before, in and after a joint
phase, have a voter in common. -/
theorem quorums_meet (counts : m.Counts set) (counts' : m'.Counts set) (h : m.hasQuorum votes = true)
    (h' : m'.hasQuorum votes' = true) : ∃ v ∈ set, v ∈ votes ∧ v ∈ votes' := by
  have most := le_card_of_hasQuorum counts h
  have most' := le_card_of_hasQuorum counts' h'
  obtain ⟨v, hv, hv'⟩ := QuorumSystem.inter_of_card (set.filter_subset (· ∈ votes))
    (set.filter_subset (· ∈ votes')) (by omega)
  obtain ⟨mem, vote⟩ := Finset.mem_filter.mp hv
  exact ⟨v, mem, vote, (Finset.mem_filter.mp hv').2⟩

theorem quorums_meet_joint :
    hasQuorum ⟨{1, 2, 3}, ∅, none, false⟩ {1, 2} = true ∧
      hasQuorum ⟨{3, 4, 5}, ∅, some {1, 2, 3}, false⟩ {2, 3, 4} = true ∧
      ∃ v ∈ ({1, 2, 3} : Finset ℕ), v ∈ ({1, 2} : Finset ℕ) ∧ v ∈ ({2, 3, 4} : Finset ℕ) := by
  have before : hasQuorum ⟨{1, 2, 3}, ∅, none, false⟩ {1, 2} = true := by decide
  have joint : hasQuorum ⟨{3, 4, 5}, ∅, some {1, 2, 3}, false⟩ {2, 3, 4} = true := by decide
  exact ⟨before, joint, quorums_meet (.inl rfl) (.inr rfl) before joint⟩

end MembershipConfig

inductive EntryType where
  | normal
  | membershipChange
  | barrier
  deriving DecidableEq, Repr

structure LogEntry where
  index : ℕ
  term : ℕ
  entryType : EntryType
  data : Bytes
  deriving DecidableEq, Repr

namespace LogEntry

def newNormal (index : ℕ) (term : ℕ) (data : Bytes) : LogEntry := ⟨index, term, .normal, data⟩

def newBarrier (index : ℕ) (term : ℕ) : LogEntry := ⟨index, term, .barrier, []⟩

end LogEntry

structure SnapshotMeta where
  index : ℕ
  term : ℕ
  membership : MembershipConfig
  deriving DecidableEq

def SnapshotMeta.default : SnapshotMeta := ⟨0, 0, ⟨∅, ∅, none, false⟩⟩

end Ha
