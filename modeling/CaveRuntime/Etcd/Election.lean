import CaveRuntime.Common.Utf8
import CaveRuntime.Etcd.LockManager

/-!
# The etcd-compatible store: elections with epochs

Model of `EpochElection` of `cave-etcd/src/lock_manager.rs`, lines 331-516. The candidates wait in a queue that
is ordered by revision, and the first one leads. A call changes the queue and the leader under one lock, so
that a run is a sequence of calls. The history for observers and the time of an election, which no call reads,
are left out. Epochs and revisions are natural numbers here, `u64` there.
-/

namespace Etcd
open Run Utf8

structure LeaderEpoch where
  epoch : ℕ
  leaseId : ℤ
  value : Bytes
deriving DecidableEq, Repr

structure EpochElection where
  queue : Table ℕ (ℤ × Bytes)
  revCounter : ℕ
  current : Option LeaderEpoch
  epochCounter : ℕ

namespace EpochElection

def new : EpochElection := ⟨∅, 0, none, 0⟩

variable (s : EpochElection)

/-- A candidate becomes the leader, with the next epoch. -/
def elect (leaseId : ℤ) (value : Bytes) : EpochElection :=
  { s with epochCounter := s.epochCounter + 1, current := some ⟨s.epochCounter + 1, leaseId, value⟩ }

/-- The first one in the queue becomes the leader. -/
def promote : Option (ℕ × ℤ) × EpochElection :=
  match s.queue.first with
  | none => (none, { s with current := none })
  | some (_, leaseId, value) => (some (s.epochCounter + 1, leaseId), s.elect leaseId value)

def campaign (leaseId : ℤ) (value : Bytes) : (ℕ × Bool) × EpochElection :=
  let rev := s.revCounter + 1
  let wasEmpty := s.queue.first.isNone
  let s := { s with revCounter := rev, queue := s.queue.insert rev (leaseId, value) }
  ((rev, wasEmpty), if wasEmpty then s.elect leaseId value else s)

/-- `resign`; `none` is the panic of a leader without a queue. -/
def resign (leaseId : ℤ) :
    Option (Except LockManagerError (Option (ℕ × ℤ)) × EpochElection) :=
  match s.current with
  | none => some (.error .noLeader, s)
  | some cur =>
    if cur.leaseId ≠ leaseId then some (.error .notLeader, s)
    else do
      let (leaderRev, _) ← s.queue.first
      let (next, s) := promote { s with queue := s.queue.erase leaderRev }
      return (.ok next, s)

def proclaim (leaseId : ℤ) (value : Bytes) : Except LockManagerError EpochElection :=
  match s.current with
  | none => .error .noLeader
  | some cur =>
    if cur.leaseId ≠ leaseId then .error .notLeader else .ok { s with current := some { cur with value } }

def expireLease (leaseId : ℤ) : Option (ℕ × ℤ) × EpochElection :=
  let revs := ((Table.ascending s.queue).filter fun e => e.2.1 = leaseId).map Sigma.fst
  let rest := { s with queue := s.queue.eraseAll revs }
  if s.current.map (·.leaseId) = some leaseId then rest.promote else (none, rest)

end EpochElection

inductive ElectionCall where
  | campaign (leaseId : ℤ) (value : Bytes)
  | resign (leaseId : ℤ)
  | proclaim (leaseId : ℤ) (value : Bytes)
  | expireLease (leaseId : ℤ)

namespace EpochElection

def step (s : EpochElection) : ElectionCall → Option EpochElection
  | .campaign leaseId value => some (s.campaign leaseId value).2
  | .resign leaseId => (s.resign leaseId).map Prod.snd
  | .proclaim leaseId value => some (((s.proclaim leaseId value).toOption).getD s)
  | .expireLease leaseId => some (s.expireLease leaseId).2

/-- The leader is the lease that stands first, and its epoch has been drawn. -/
structure Inv (s : EpochElection) : Prop where
  drawn : ∀ rev e, s.queue.lookup rev = some e → rev ≤ s.revCounter
  head : s.current.map (·.leaseId) = s.queue.first.map (·.2.1)
  epoch : ∀ c ∈ s.current, c.epoch ≤ s.epochCounter

/-- A later leader has a later epoch, or is the same one. -/
def Follows (s s' : EpochElection) : Prop :=
  s.epochCounter ≤ s'.epochCounter ∧ ∀ c' ∈ s'.current, s.epochCounter < c'.epoch ∨
    ∃ c ∈ s.current, c.epoch = c'.epoch ∧ c.leaseId = c'.leaseId

variable {s s' s'' : EpochElection} {leaseId : ℤ}

lemma Follows.of_current (counter : s'.epochCounter = s.epochCounter) (current : s'.current = s.current) :
    s.Follows s' :=
  ⟨counter.ge, fun c' h => .inr ⟨c', current ▸ h, rfl, rfl⟩⟩

lemma Follows.trans (h : s.Follows s') (h' : s'.Follows s'') : s.Follows s'' := by
  refine ⟨h.1.trans h'.1, fun c'' cur => ?_⟩
  rcases h'.2 c'' cur with later | ⟨c', cur', epoch, lease⟩
  · exact .inl (h.1.trans_lt later)
  · rw [← epoch, ← lease]
    exact h.2 c' cur'

lemma Inv.elect (drawn : ∀ rev e, s.queue.lookup rev = some e → rev ≤ s.revCounter) {rev : ℕ}
    {leaseId : ℤ} {value : Bytes} (first : s.queue.first = some (rev, leaseId, value)) :
    (s.elect leaseId value).Inv ∧ s.Follows (s.elect leaseId value) := by
  refine ⟨⟨drawn, ?_, ?_⟩, Nat.le_succ _, ?_⟩
  · exact (congrArg (Option.map (·.2.1)) first).symm
  · rintro c ⟨⟩
    exact Nat.le_refl _
  · rintro c ⟨⟩
    exact .inl (Nat.lt_succ_self _)

lemma Inv.promote (drawn : ∀ rev e, s.queue.lookup rev = some e → rev ≤ s.revCounter) :
    (s.promote).2.Inv ∧ s.Follows (s.promote).2 := by
  unfold EpochElection.promote
  cases first : s.queue.first with
  | none => exact ⟨⟨drawn, by simp [first], nofun⟩, Nat.le_refl _, nofun⟩
  | some e => exact Inv.elect drawn first

/-- The next of the queue leads, in a new epoch. -/
lemma Inv.expireLease (inv : s.Inv) :
    (s.expireLease leaseId).2.Inv ∧ s.Follows (s.expireLease leaseId).2 := by
  have drawn (revs : List ℕ) (rev : ℕ) (e : ℤ × Bytes) (look : (s.queue.eraseAll revs).lookup rev = some e) :
      rev ≤ s.revCounter := by
    rw [Table.lookup_eraseAll] at look
    split at look
    · cases look
    · exact inv.drawn rev e look
  unfold EpochElection.expireLease
  dsimp only
  split
  · exact Inv.promote (drawn _)
  · rename_i other
    refine ⟨⟨drawn _, ?_, inv.epoch⟩, .of_current rfl rfl⟩
    have head := inv.head
    cases first : s.queue.first with
    | none =>
      rw [first] at head
      refine head.trans ?_
      cases left : Table.first (s.queue.eraseAll _) with
      | none => rfl
      | some e =>
        have look := Table.lookup_of_first left
        rw [Table.lookup_eraseAll, Table.lookup_of_first_none first, ite_self] at look
        cases look
    | some e =>
      rw [first] at head
      refine head.trans (congrArg (Option.map (·.2.1)) (Table.first_eraseAll first ?_).symm)
      -- the leader is of another lease
      intro mem
      obtain ⟨⟨rev, v⟩, hit, eq⟩ := List.mem_map.mp mem
      obtain ⟨here, lease⟩ := List.mem_filter.mp hit
      have look := Table.mem_entries.mp (Table.mem_ascending.mp here)
      rw [show rev = e.1 from eq, Table.lookup_of_first first] at look
      cases look
      exact other (head.trans (congrArg some (of_decide_eq_true lease)))

lemma Inv.campaign (inv : s.Inv) (value : Bytes) :
    (s.campaign leaseId value).2.Inv ∧ s.Follows (s.campaign leaseId value).2 := by
  have drawn (rev : ℕ) (e : ℤ × Bytes)
      (look : AList.lookup rev (s.queue.insert (s.revCounter + 1) (leaseId, value)) = some e) :
      rev ≤ s.revCounter + 1 := by
    rw [Table.lookup_insert_eq] at look
    split at look
    · rename_i here
      exact here.le
    · exact Nat.le_succ_of_le (inv.drawn rev e look)
  unfold EpochElection.campaign
  cases first : s.queue.first with
  | none => exact Inv.elect drawn (Table.first_insert_of_none first)
  | some e =>
    have above := Nat.lt_succ_of_le (inv.drawn _ _ (Table.lookup_of_first first))
    refine ⟨⟨drawn, ?_, inv.epoch⟩, .of_current rfl rfl⟩
    exact inv.head.trans (congrArg _ (first.trans (Table.first_insert_of_lt first above).symm))

lemma Inv.step (inv : s.Inv) {call : ElectionCall} (st : s.step call = some s') : s'.Inv ∧ s.Follows s' := by
  cases call with
  | campaign leaseId value =>
    cases st
    exact inv.campaign value
  | expireLease leaseId =>
    cases st
    exact inv.expireLease
  | resign leaseId =>
    obtain ⟨r, done, rfl⟩ := Option.map_eq_some_iff.mp st
    unfold EpochElection.resign at done
    split at done
    · cases done
      exact ⟨inv, .of_current rfl rfl⟩
    · split at done
      · cases done
        exact ⟨inv, .of_current rfl rfl⟩
      · obtain ⟨e, -, done⟩ := Option.bind_eq_some_iff.mp done
        cases done
        refine Inv.promote fun rev e' look => ?_
        rw [Table.lookup_erase_eq] at look
        split at look
        · cases look
        · exact inv.drawn rev e' look
  | proclaim leaseId value =>
    cases st
    unfold EpochElection.proclaim
    split
    · exact ⟨inv, .of_current rfl rfl⟩
    · rename_i cur here
      split
      · exact ⟨inv, .of_current rfl rfl⟩
      · refine ⟨⟨inv.drawn, ?_, ?_⟩, Nat.le_refl _, ?_⟩
        · exact (congrArg _ here).symm.trans inv.head
        · rintro c ⟨⟩
          exact inv.epoch cur here
        · rintro c ⟨⟩
          exact .inr ⟨cur, here, rfl, rfl⟩

lemma inv_of_run {calls : List ElectionCall} (hr : run step new calls = some s) : s.Inv :=
  invariant_of_run (fun inv st => (inv.step st).1) hr ⟨nofun, rfl, nofun⟩

/-- In every run the leader is the lease that stands first in the queue, and there is none exactly
if the queue is empty; so `resign` never panics. -/
theorem leader_heads_queue {calls : List ElectionCall} (hr : run step new calls = some s) :
    s.current.map (·.leaseId) = s.queue.first.map (·.2.1) ∧
      ∀ leaseId, (s.resign leaseId).isSome := by
  have head := (inv_of_run hr).head
  refine ⟨head, fun leaseId => ?_⟩
  unfold resign
  split
  · rfl
  · rename_i cur here
    split
    · rfl
    · cases first : s.queue.first with
      | none =>
        rw [here, first] at head
        cases head
      | some e => rfl

theorem leader_heads_queue_two :
    ∃ s, run step new [.campaign 7 [1], .campaign 8 [2], .expireLease 7] = some s ∧
      s.current.map (·.leaseId) = some 8 ∧ (s.resign 8).isSome :=
  have hr : run step new [.campaign 7 [1], .campaign 8 [2], .expireLease 7] = some _ := rfl
  ⟨_, hr, (leader_heads_queue hr).1, (leader_heads_queue hr).2 8⟩

/-- Epochs are fencing tokens: a leader at a later time has no earlier epoch, and the same epoch only if it is
the same lease. -/
theorem epochs_fence {calls calls' : List ElectionCall} {c c' : LeaderEpoch}
    (hr : run step new calls = some s) (hr' : run step s calls' = some s')
    (cur : s.current = some c) (cur' : s'.current = some c') :
    c.epoch ≤ c'.epoch ∧ (c.epoch = c'.epoch → c.leaseId = c'.leaseId) := by
  have inv := inv_of_run hr
  have both : s'.Inv ∧ s.Follows s' := by
    refine invariant_of_run (P := fun t => t.Inv ∧ s.Follows t) ?_ hr' ⟨inv, .of_current rfl rfl⟩
    intro t call t' old st
    obtain ⟨inv', follows⟩ := old.1.step st
    exact ⟨inv', old.2.trans follows⟩
  have drawn := inv.epoch c cur
  rcases both.2.2 c' cur' with later | ⟨c₀, here, epoch, lease⟩
  · exact ⟨(drawn.trans_lt later).le, fun same => absurd same (drawn.trans_lt later).ne⟩
  · obtain rfl := Option.some.inj (cur.symm.trans here)
    exact ⟨epoch.le, fun _ => lease⟩

theorem epochs_fence_resigned :
    ∃ s s' c c', run step new [.campaign 7 [1], .campaign 8 [2]] = some s ∧
      run step s [.resign 7] = some s' ∧ s.current = some c ∧ s'.current = some c' ∧
      c.epoch = 1 ∧ c'.epoch = 2 ∧ c.epoch ≤ c'.epoch :=
  have hr : run step new [.campaign 7 [1], .campaign 8 [2]] = some _ := rfl
  have hr' : run step _ [.resign 7] = some _ := rfl
  ⟨_, _, _, _, hr, hr', rfl, rfl, rfl, rfl, (epochs_fence hr hr' rfl rfl).1⟩

end EpochElection

end Etcd
