import CaveRuntime.Common.Run
import CaveRuntime.Common.Table
import CaveRuntime.Vault.Shamir

/-!
# The vault: leases

Model of `cave-vault/src/core/lease.rs`. `renew` caps the increment by the maximum lifetime, but counts it
from the current time and does not ask whether the lease has expired: each renewal can move the end of a
lease as far as its maximum lifetime into the future. If every renewal of a lease comes before it expires
and asks for no more than what is left of its maximum lifetime, the lease keeps to it.

Times are in nanoseconds. The clock is read once a call.
-/

namespace Vault
open Utf8 Run

/-- One second. -/
def second : ℤ := 1000000000

/-- The crate `chrono`: `t + Duration::seconds(secs)`, which panics out of its range. -/
structure Chrono where
  add : ℤ → ℤ → Option ℤ
  add_eq : ∀ {t secs t'}, add t secs = some t' → t' = t + secs * second

structure Lease where
  id : Bytes
  path : Bytes
  renewable : Bool
  ttl : ℤ
  maxTtl : ℤ
  createdAt : ℤ
  expiresAt : ℤ
  token : Bytes
  mount : Bytes
deriving DecidableEq, Repr

/-- `Lease::new`; `none` if it panics. -/
def Lease.new (chrono : Chrono) (uuid : Bytes) (now : ℤ) (path token mount : Bytes) (ttlSecs maxTtlSecs : ℤ)
    (renewable : Bool) : Option Lease := do
  let expiresAt ← chrono.add now ttlSecs
  return {
    id := path ++ 47 :: uuid
    path
    renewable
    ttl := ttlSecs
    maxTtl := maxTtlSecs
    createdAt := now
    expiresAt
    token
    mount }

def Lease.isExpired (lease : Lease) (now : ℤ) : Bool := lease.expiresAt < now

structure LeaseStore where
  leases : Table Bytes Lease

namespace LeaseStore

variable (store : LeaseStore)

def put (lease : Lease) : LeaseStore := ⟨store.leases.insert lease.id lease⟩

def get (id : Bytes) : Option Lease := store.leases.lookup id

def renew (chrono : Chrono) (now : ℤ) (store : LeaseStore) (id : Bytes) (incrementSecs : ℤ) :
    Except Failure Lease × LeaseStore :=
  match store.get id with
  | none => (.error (.error .leaseNotFound), store)
  | some lease =>
    if lease.renewable = false then (.error (.error (.invalidRequest "lease is not renewable")), store)
    else
      let increment := min incrementSecs lease.maxTtl
      match chrono.add now increment with
      | none => (.error .panic, store)
      | some expiresAt =>
        let lease := { lease with expiresAt, ttl := increment }
        (.ok lease, ⟨store.leases.insert id lease⟩)

def revoke (id : Bytes) : Bool × LeaseStore :=
  ((store.get id).isSome, ⟨store.leases.erase id⟩)

/-- Remove the leases with the given ids, and count them. -/
def removeAll (ids : List Bytes) : ℕ × LeaseStore :=
  (ids.length, ⟨store.leases.eraseAll ids⟩)

/-- The leases, in the order of the map. -/
def values : List Lease := store.leases.entries.map (·.2)

def revokePrefix (start : Bytes) : ℕ × LeaseStore :=
  store.removeAll (store.leases.keys.filter (start.isPrefixOf ·))

def revokeByToken (token : Bytes) : ℕ × LeaseStore :=
  store.removeAll ((store.values.filter (·.token == token)).map (·.id))

def purgeExpired (now : ℤ) (store : LeaseStore) : ℕ × LeaseStore :=
  store.removeAll ((store.values.filter (·.isExpired now)).map (·.id))

end LeaseStore

/-- The calls that change the store. -/
inductive LeaseCall where
  | put (lease : Lease)
  | renew (id : Bytes) (incrementSecs : ℤ)
  | revoke (id : Bytes)
  | revokePrefix (start : Bytes)
  | revokeByToken (token : Bytes)
  | purgeExpired
deriving DecidableEq, Repr

/-- The store after a call at the given time. -/
def LeaseCall.apply (chrono : Chrono) (now : ℤ) (store : LeaseStore) : LeaseCall → LeaseStore
  | .put lease => store.put lease
  | .renew id incrementSecs => (store.renew chrono now id incrementSecs).2
  | .revoke id => (store.revoke id).2
  | .revokePrefix start => (store.revokePrefix start).2
  | .revokeByToken token => (store.revokeByToken token).2
  | .purgeExpired => (store.purgeExpired now).2

/-- The store, and the time of the last call. -/
structure Leases where
  now : ℤ
  store : LeaseStore

/-- A call at a time; the clock does not go back. -/
def Leases.step (chrono : Chrono) (s : Leases) (call : ℤ × LeaseCall) : Option Leases :=
  if s.now ≤ call.1 then some ⟨call.1, call.2.apply chrono call.1 s.store⟩ else none

/-! ## What a call does to a lease -/

/-- What a call does to the lease with the given id. -/
inductive LeaseOutcome (chrono : Chrono) (now : ℤ) (id : Bytes) (old : Option Lease) :
    LeaseCall → Option Lease → Prop
  | same {call : LeaseCall} : LeaseOutcome chrono now id old call old
  | gone {call : LeaseCall} : LeaseOutcome chrono now id old call none
  | put {lease : Lease} : lease.id = id → LeaseOutcome chrono now id old (.put lease) (some lease)
  | renewed {lease : Lease} {incrementSecs expiresAt : ℤ} : old = some lease → lease.renewable = true →
      chrono.add now (min incrementSecs lease.maxTtl) = some expiresAt →
      LeaseOutcome chrono now id old (.renew id incrementSecs)
        (some { lease with expiresAt, ttl := min incrementSecs lease.maxTtl })

section Outcome

variable {chrono : Chrono} {now : ℤ} {store : LeaseStore} {id : Bytes} {call : LeaseCall}

lemma LeaseStore.get_removeAll (ids : List Bytes) :
    LeaseOutcome chrono now id (store.get id) call ((store.removeAll ids).2.get id) := by
  unfold LeaseStore.removeAll LeaseStore.get
  rw [Table.lookup_eraseAll]
  split
  · exact .gone
  · exact .same

lemma LeaseStore.get_renew (id' : Bytes) (incrementSecs : ℤ) :
    LeaseOutcome chrono now id (store.get id) (.renew id' incrementSecs)
      ((store.renew chrono now id' incrementSecs).2.get id) := by
  unfold LeaseStore.renew
  cases look : store.get id' with
  | none => exact .same
  | some lease =>
    dsimp only
    split
    · exact .same
    rename_i renewable
    cases added : chrono.add now (min incrementSecs lease.maxTtl) with
    | none => exact .same
    | some expiresAt =>
      simp only [LeaseStore.get, Table.lookup_insert_eq]
      split
      · rename_i here
        subst here
        exact .renewed look (Bool.not_eq_false _ ▸ renewable) added
      · exact .same

lemma LeaseCall.get_apply (chrono : Chrono) (now : ℤ) (store : LeaseStore) (id : Bytes) (call : LeaseCall) :
    LeaseOutcome chrono now id (store.get id) call ((call.apply chrono now store).get id) := by
  cases call with
  | put lease =>
    simp only [LeaseCall.apply, LeaseStore.put, LeaseStore.get, Table.lookup_insert_eq]
    split
    · rename_i here
      exact .put here.symm
    · exact .same
  | renew id' incrementSecs => exact LeaseStore.get_renew id' incrementSecs
  | revoke id' =>
    simp only [LeaseCall.apply, LeaseStore.revoke, LeaseStore.get, Table.lookup_erase_eq]
    split
    · exact .gone
    · exact .same
  | revokePrefix start => exact LeaseStore.get_removeAll _
  | revokeByToken token => exact LeaseStore.get_removeAll _
  | purgeExpired => exact LeaseStore.get_removeAll _

end Outcome

/-! ## Renewals in time -/

namespace Leases

variable {chrono : Chrono} {id : Bytes} {s s' : Leases} {call : ℤ × LeaseCall}

/-- The lease is renewed before it expires and not beyond its maximum lifetime, and no other lease gets
its id. -/
def Timely (id : Bytes) (s : Leases) : ℤ × LeaseCall → Prop
  | (now, .renew id' incrementSecs) => id' = id → ∀ lease ∈ s.store.get id, lease.renewable = true →
      lease.isExpired now = false ∧
        now + incrementSecs * second ≤ lease.createdAt + lease.maxTtl * second
  | (_, .put lease) => lease.id ≠ id
  | _ => True

instance (id : Bytes) (s : Leases) : (call : ℤ × LeaseCall) → Decidable (s.Timely id call)
  | (_, .renew _ _) => inferInstanceAs (Decidable (_ → ∀ lease ∈ s.store.get id, _ → _))
  | (_, .put _) => inferInstanceAs (Decidable (_ ≠ _))
  | (_, .revoke _) | (_, .revokePrefix _) | (_, .revokeByToken _) | (_, .purgeExpired) =>
    inferInstanceAs (Decidable True)

/-- The lease was created at the given time and ends within its maximum lifetime. -/
def Within (id : Bytes) (createdAt maxTtl : ℤ) (s : Leases) : Prop :=
  ∀ lease ∈ s.store.get id, lease.createdAt = createdAt ∧ lease.maxTtl = maxTtl ∧
    lease.expiresAt ≤ createdAt + maxTtl * second

lemma step_now (st : s.step chrono call = some s') : s.now ≤ call.1 ∧ s'.now = call.1 := by
  obtain ⟨forward, e⟩ := Option.ite_none_right_eq_some.mp st
  cases e
  exact ⟨forward, rfl⟩

lemma step_outcome (st : s.step chrono call = some s') {lease : Lease}
    (look : s'.store.get id = some lease) :
    LeaseOutcome chrono call.1 id (s.store.get id) call.2 (some lease) := by
  obtain ⟨-, e⟩ := Option.ite_none_right_eq_some.mp st
  cases e
  rw [← look]
  exact LeaseCall.get_apply chrono call.1 s.store id call.2

lemma within_step {createdAt maxTtl : ℤ} (within : s.Within id createdAt maxTtl) (timely : s.Timely id call)
    (st : s.step chrono call = some s') : s'.Within id createdAt maxTtl := by
  intro lease look
  have out := step_outcome st look
  obtain ⟨now, call⟩ := call
  generalize old : s.store.get id = before at out
  cases out with
  | same => exact within lease old
  | put here => exact absurd here timely
  | @renewed lease incrementSecs expiresAt was renewable added =>
    subst was
    obtain ⟨made, cap, -⟩ := within lease old
    refine ⟨made, cap, ?_⟩
    rw [← made, ← cap]
    calc expiresAt = now + min incrementSecs lease.maxTtl * second := chrono.add_eq added
      _ ≤ now + incrementSecs * second :=
        add_le_add_right (mul_le_mul_of_nonneg_right (min_le_left _ _) (by decide)) now
      _ ≤ _ := (timely rfl lease old renewable).2

/-- The lease has expired and has its old end. -/
def Ended (id : Bytes) (expiresAt : ℤ) (s : Leases) : Prop :=
  expiresAt < s.now ∧ ∀ lease ∈ s.store.get id, lease.expiresAt = expiresAt

lemma ended_step {expiresAt : ℤ} (ended : s.Ended id expiresAt) (timely : s.Timely id call)
    (st : s.step chrono call = some s') : s'.Ended id expiresAt := by
  obtain ⟨forward, now⟩ := step_now st
  have past : expiresAt < call.1 := ended.1.trans_le forward
  refine ⟨now ▸ past, fun lease look => ?_⟩
  have out := step_outcome st look
  obtain ⟨now, call⟩ := call
  generalize old : s.store.get id = before at out
  cases out with
  | same => exact ended.2 lease old
  | put here => exact absurd here timely
  | @renewed lease incrementSecs expiresAt was renewable added =>
    subst was
    have alive := (timely rfl lease old renewable).1
    rw [Lease.isExpired, ended.2 lease old] at alive
    exact absurd past (of_decide_eq_false alive)

/-- **A lease that is renewed in time never outlives its maximum and is not extended once it has
expired.** -/
theorem lease_within_maximum {uuid path token mount : Bytes} {created ttl maxTtl : ℤ} {renewable : Bool}
    {lease : Lease} {store : LeaseStore}
    (made : Lease.new chrono uuid created path token mount ttl maxTtl renewable = some lease)
    (short : ttl ≤ maxTtl) {calls : List (ℤ × LeaseCall)}
    (timely : Guarded (step chrono) (Timely lease.id) ⟨created, store.put lease⟩ calls)
    (ran : run (step chrono) ⟨created, store.put lease⟩ calls = some s)
    {l : Lease} (look : s.store.get lease.id = some l) :
    l.createdAt = created ∧ l.maxTtl = maxTtl ∧ l.expiresAt ≤ created + maxTtl * second ∧
      ∀ now ≥ s.now, l.isExpired now = true → ∀ later : List (ℤ × LeaseCall),
        Guarded (step chrono) (Timely lease.id) ⟨now, s.store⟩ later →
          ∀ s', run (step chrono) ⟨now, s.store⟩ later = some s' →
            ∀ l' ∈ s'.store.get lease.id, l'.expiresAt = l.expiresAt := by
  have start : Within lease.id created maxTtl ⟨created, store.put lease⟩ := by
    intro l look
    rw [LeaseStore.put, LeaseStore.get, AList.lookup_insert] at look
    cases look
    obtain ⟨expiresAt, added, e⟩ := Option.bind_eq_some_iff.mp made
    cases e
    refine ⟨rfl, rfl, ?_⟩
    calc expiresAt = created + ttl * second := chrono.add_eq added
      _ ≤ created + maxTtl * second := add_le_add_right (mul_le_mul_of_nonneg_right short (by decide)) created
  obtain ⟨at_, cap, within⟩ := invariant_of_guarded within_step timely ran start l look
  refine ⟨at_, cap, within, fun now _ expired later timely' s' ran' => ?_⟩
  have ended : Ended lease.id l.expiresAt ⟨now, s.store⟩ := by
    refine ⟨of_decide_eq_true expired, fun l' look' => ?_⟩
    cases look.symm.trans look'
    rfl
  exact (invariant_of_guarded ended_step timely' ran' ended).2

/-- Times without a bound. -/
def exactTimes : Chrono := ⟨fun t secs => some (t + secs * second), fun h => (Option.some.inj h).symm⟩

/-- A lease of 60 seconds, with a maximum of 100, made at time 0. -/
def minuteLease : Lease := ⟨[108, 47, 49], [108], true, 60, 100, 0, 60 * second, [116], [109]⟩

theorem lease_within_maximum_renewed :
    ∃ s l s', run (step exactTimes) ⟨0, LeaseStore.put ⟨∅⟩ minuteLease⟩
        [(50 * second, .renew minuteLease.id 50)] = some s ∧
      s.store.get minuteLease.id = some l ∧ l.expiresAt ≤ 0 + 100 * second ∧
      l.isExpired (120 * second) = true ∧
      run (step exactTimes) ⟨120 * second, s.store⟩ [(130 * second, .revokeByToken [])] = some s' ∧
      ∀ l' ∈ s'.store.get minuteLease.id, l'.expiresAt = l.expiresAt := by
  have made : Lease.new exactTimes [49] 0 [108] [116] [109] 60 100 true = some minuteLease := by decide
  have timely : Guarded (step exactTimes) (Timely minuteLease.id) ⟨0, LeaseStore.put ⟨∅⟩ minuteLease⟩
    [(50 * second, .renew minuteLease.id 50)] := by decide
  have within := lease_within_maximum made (by decide) timely rfl rfl
  refine ⟨_, _, _, rfl, rfl, within.2.2.1, rfl, rfl, ?_⟩
  exact within.2.2.2 (120 * second) (by decide) rfl [(130 * second, .revokeByToken [])] (by decide) _ rfl

/-- A renewal after 50 seconds moves the end to 150, past the maximum of 100; and one after 200 seconds
brings back a lease that ended after 60. -/
theorem lease_outlives_maximum :
    Lease.new exactTimes [49] 0 [108] [116] [109] 60 100 true = some minuteLease ∧
    (∃ s, run (step exactTimes) ⟨0, LeaseStore.put ⟨∅⟩ minuteLease⟩
        [(50 * second, .renew minuteLease.id 100)] = some s ∧
      (s.store.get minuteLease.id).map (·.expiresAt) = some (150 * second)) ∧
    minuteLease.isExpired (200 * second) = true ∧
    ∃ s, run (step exactTimes) ⟨0, LeaseStore.put ⟨∅⟩ minuteLease⟩
        [(200 * second, .renew minuteLease.id 100)] = some s ∧
      (s.store.get minuteLease.id).map (·.expiresAt) = some (300 * second) :=
  ⟨by decide, ⟨_, rfl, by decide⟩, by decide, _, rfl, by decide⟩

end Leases

end Vault
