import Mathlib.Tactic.Common
import Mathlib.Logic.Function.Iterate

/-!
# Rolling updates

Model of `plan_rolling_step` of `cave-controller-manager/src/deployment.rs`. A deployment has pods of a new and of
an old replica set; a step plans both sizes from the current ones, and the update is the iteration of the step.
-/

namespace ControllerManager

inductive Strategy
  | recreate
  | rollingUpdate (maxSurge maxUnavailable : ℕ)

structure DeploymentSpec where
  replicas : ℕ
  strategy : Strategy

/-- The sizes of the two replica sets. -/
@[ext]
structure RollingStep where
  newRsTarget : ℕ
  oldRsTarget : ℕ
deriving DecidableEq

def u32Max : ℕ := 4294967295

/-- `saturating_add` of two `u32`; the subtraction that saturates is that of `ℕ`. -/
def saturatingAdd (a b : ℕ) : ℕ := min (a + b) u32Max

/-- The function has no error of its own, so that the plan is given without `Ok`. -/
def planRollingStep (spec : DeploymentSpec) (newRsSize oldRsSize : ℕ) : RollingStep :=
  match spec.strategy with
  | .recreate => ⟨if oldRsSize = 0 then spec.replicas else 0, 0⟩
  | .rollingUpdate maxSurge maxUnavailable =>
    let total := saturatingAdd newRsSize oldRsSize
    let surgeRoom := saturatingAdd spec.replicas maxSurge - total
    -- pods that are only planned are not yet available
    let minAvailable := spec.replicas - maxUnavailable
    let alive := saturatingAdd newRsSize oldRsSize
    let removable := alive - minAvailable
    let scaleDown := min removable oldRsSize
    ⟨min (saturatingAdd newRsSize surgeRoom) spec.replicas, oldRsSize - scaleDown⟩

/-- Both sizes are set to the planned ones. -/
def roll (spec : DeploymentSpec) (s : RollingStep) : RollingStep :=
  planRollingStep spec s.newRsTarget s.oldRsTarget

/-- The sizes after `n` steps of an update that starts with old pods only. -/
def rollout (spec : DeploymentSpec) (n : ℕ) : RollingStep := (roll spec)^[n] ⟨0, spec.replicas⟩

/-- What holds between two steps of a rolling update. -/
structure Rolling (R S U : ℕ) (s : RollingStep) : Prop where
  new : s.newRsTarget ≤ R
  total : s.newRsTarget + s.oldRsTarget ≤ R + S
  available : R - U ≤ s.newRsTarget + s.oldRsTarget

/-- What is left to do. -/
def remaining (R : ℕ) (s : RollingStep) : ℕ := (R - s.newRsTarget) + s.oldRsTarget

section
variable {spec : DeploymentSpec} {S U : ℕ} {s : RollingStep}

lemma roll_eq (rolling : spec.strategy = .rollingUpdate S U) (fits : spec.replicas + S ≤ u32Max)
    (inv : Rolling spec.replicas S U s) :
    roll spec s =
      ⟨min (s.newRsTarget + (spec.replicas + S - (s.newRsTarget + s.oldRsTarget))) spec.replicas,
        s.oldRsTarget - min (s.newRsTarget + s.oldRsTarget - (spec.replicas - U)) s.oldRsTarget⟩ := by
  have new := inv.new
  have total := inv.total
  unfold roll planRollingStep saturatingAdd
  rw [rolling]
  ext
  · dsimp only
    omega
  · dsimp only
    omega

lemma Rolling.roll (rolling : spec.strategy = .rollingUpdate S U) (fits : spec.replicas + S ≤ u32Max)
    (inv : Rolling spec.replicas S U s) : Rolling spec.replicas S U (roll spec s) := by
  have new := inv.new
  have total := inv.total
  have available := inv.available
  rw [roll_eq rolling fits inv]
  constructor
  · exact Nat.min_le_right _ _
  · dsimp only
    omega
  · dsimp only
    omega

/-- The total is below what the surge allows or above what must be available, so that one of the sizes moves. -/
lemma Rolling.remaining_lt (rolling : spec.strategy = .rollingUpdate S U) (fits : spec.replicas + S ≤ u32Max)
    (some : 1 ≤ S + U) (inv : Rolling spec.replicas S U s) (left : remaining spec.replicas s ≠ 0) :
    remaining spec.replicas (ControllerManager.roll spec s) < remaining spec.replicas s := by
  have new := inv.new
  have total := inv.total
  rw [roll_eq rolling fits inv]
  unfold remaining at left ⊢
  dsimp only
  omega

lemma Rolling.eq_of_remaining (inv : Rolling spec.replicas S U s) (done : remaining spec.replicas s = 0) :
    s = ⟨spec.replicas, 0⟩ := by
  have new := inv.new
  unfold remaining at done
  ext
  · dsimp only
    omega
  · dsimp only
    omega

lemma rolling_rollout (rolling : spec.strategy = .rollingUpdate S U) (fits : spec.replicas + S ≤ u32Max) (n : ℕ) :
    Rolling spec.replicas S U (rollout spec n) := by
  induction n with
  | zero =>
    constructor
    · exact Nat.zero_le _
    · change 0 + spec.replicas ≤ spec.replicas + S
      omega
    · change spec.replicas - U ≤ 0 + spec.replicas
      omega
  | succ n ih =>
    unfold rollout at ih ⊢
    rw [Function.iterate_succ_apply']
    exact ih.roll rolling fits

lemma exists_rollout_eq (rolling : spec.strategy = .rollingUpdate S U) (fits : spec.replicas + S ≤ u32Max)
    (some : 1 ≤ S + U) (k n : ℕ) (left : remaining spec.replicas (rollout spec n) ≤ k) :
    ∃ m, rollout spec m = ⟨spec.replicas, 0⟩ := by
  induction k generalizing n with
  | zero => exact ⟨n, (rolling_rollout rolling fits n).eq_of_remaining (Nat.le_zero.mp left)⟩
  | succ k ih =>
    have inv := rolling_rollout rolling fits n
    by_cases done : remaining spec.replicas (rollout spec n) = 0
    · exact ⟨n, inv.eq_of_remaining done⟩
    · apply ih (n + 1)
      have less := inv.remaining_lt rolling fits some done
      unfold rollout at less left ⊢
      rw [Function.iterate_succ_apply']
      omega

end

/-- **A rolling update stays within its budget and finishes.** -/
theorem rollout_within_budget (spec : DeploymentSpec) (S U : ℕ) (rolling : spec.strategy = .rollingUpdate S U)
    (some : 1 ≤ S + U) (fits : spec.replicas + S ≤ u32Max) :
    (∃ n, rollout spec n = ⟨spec.replicas, 0⟩) ∧
      ∀ n, (roll spec (rollout spec n)).newRsTarget + (roll spec (rollout spec n)).oldRsTarget ≤
          spec.replicas + S ∧
        spec.replicas - U ≤ (rollout spec n).newRsTarget + (roll spec (rollout spec n)).oldRsTarget := by
  refine ⟨exists_rollout_eq rolling fits some _ 0 (Nat.le_refl _), fun n => ?_⟩
  have inv := rolling_rollout rolling fits n
  refine ⟨(inv.roll rolling fits).total, ?_⟩
  have available := inv.available
  rw [roll_eq rolling fits inv]
  dsimp only
  omega

/-- Three replicas with a surge of one pod are all new at some point. -/
theorem rollout_within_budget_three :
    ∃ n, rollout ⟨3, .rollingUpdate 1 0⟩ n = ⟨3, 0⟩ :=
  (rollout_within_budget ⟨3, .rollingUpdate 1 0⟩ 1 0 rfl (by decide) (by decide)).1

example : rollout ⟨3, .rollingUpdate 1 0⟩ 6 = ⟨3, 0⟩ := by decide

end ControllerManager
