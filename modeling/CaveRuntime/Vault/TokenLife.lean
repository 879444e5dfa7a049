import CaveRuntime.Common.Lifetime
import CaveRuntime.Vault.Issuing
import Mathlib.Data.Int.ConditionallyCompleteOrder

/-!
# The vault: how long a token lives

`create` sets the end of a token without a look at the maximum lifetime it records, and `renew` counts its
increment from the current time, capped by the maximum lifetime, and takes a token that has expired. If a
token is made for no longer than its maximum, and every renewal of it comes before it expires and asks for
no more than what is left of the maximum, then the token is a life that keeps to its limit: it is not found
after its maximum, and once it is not found it stays so.
-/

namespace Vault
open Lifetime Run Text Utf8

/-- The calls on a store with a token. -/
inductive TokenCall where
  | renew (id : Bytes) (incrementSecs : ℤ)
  | lookup (id : Bytes)
  | revoke (id : Bytes)
deriving DecidableEq, Repr

/-- The store after a call at the given time. -/
def TokenCall.apply (chrono : Chrono) (now : ℤ) (store : TokenStore) : TokenCall → TokenStore
  | .renew id incrementSecs =>
    match store.renew chrono now id incrementSecs with
    | .ok (_, store) => store
    | .error _ => store
  | .lookup _ => store
  | .revoke id => (store.revoke id).2

/-- The store, and the time of the last call. -/
structure Tokens where
  now : ℤ
  store : TokenStore

/-- A call at a time; the clock does not go back. -/
def Tokens.step (chrono : Chrono) (s : Tokens) (call : ℤ × TokenCall) : Option Tokens :=
  if s.now ≤ call.1 then some ⟨call.1, call.2.apply chrono call.1 s.store⟩ else none

/-! ## A token as a life -/

/-- The limit and the end of a token. -/
def VaultToken.life (token : VaultToken) : Life ℤ :=
  ⟨token.createdAt + token.explicitMaxTtl * second, token.expiresAt⟩

lemma VaultToken.isExpired_iff {token : VaultToken} {now : ℤ} :
    token.isExpired now = true ↔ token.life.Over now := by
  simp [isExpired, life, Life.Over, Option.any_eq_true]

namespace Tokens

variable {chrono : Chrono} {id : Bytes} {s s' : Tokens} {call : ℤ × TokenCall}

/-- The life of the token with the given id. -/
def life (id : Bytes) (s : Tokens) : Option (Life ℤ) := (s.store.tokens.lookup id).map VaultToken.life

lemma lookup_eq_none {now : ℤ} : s.store.lookup now id = none ↔ ∀ l ∈ s.life id, l.Over now := by
  unfold TokenStore.lookup life
  cases s.store.tokens.lookup id with
  | none => exact ⟨fun _ => nofun, fun _ => rfl⟩
  | some token =>
    rw [Option.filter_eq_none_iff]
    constructor
    · intro expired l here
      cases here
      have expired := expired token rfl
      rw [Bool.not_eq_true', Bool.not_eq_false] at expired
      exact VaultToken.isExpired_iff.mp expired
    · intro ended token' here
      cases here
      rw [Bool.not_eq_true', Bool.not_eq_false]
      exact VaultToken.isExpired_iff.mpr (ended _ rfl)

/-- The token is renewed before it expires and not beyond its maximum lifetime. -/
def Timely (id : Bytes) (s : Tokens) : ℤ × TokenCall → Prop
  | (now, .renew id' incrementSecs) => id' = id → ∀ token ∈ s.store.tokens.lookup id,
      token.renewable = true → token.isExpired now = false ∧
        now + incrementSecs * second ≤ token.createdAt + token.explicitMaxTtl * second
  | _ => True

instance (id : Bytes) (s : Tokens) : (call : ℤ × TokenCall) → Decidable (s.Timely id call)
  | (_, .renew _ _) => inferInstanceAs (Decidable (_ → ∀ token ∈ s.store.tokens.lookup id, _ → _))
  | (_, .lookup _) | (_, .revoke _) => inferInstanceAs (Decidable True)

lemma renew_ok {store store' : TokenStore} {now incrementSecs : ℤ} {new : VaultToken}
    (done : store.renew chrono now id incrementSecs = .ok (new, store')) :
    ∃ token expiresAt, store.tokens.lookup id = some token ∧ token.renewable = true ∧
      chrono.add now (token.increment incrementSecs) = some expiresAt ∧
      new = { token with expiresAt := some expiresAt, ttl := token.increment incrementSecs } ∧
      store' = { store with tokens := store.tokens.insert id new } := by
  unfold TokenStore.renew at done
  split at done
  · cases done
  rename_i token look
  split at done
  · cases done
  rename_i renewable
  dsimp only at done
  split at done
  · cases done
  rename_i expiresAt added
  cases done
  exact ⟨token, expiresAt, look, Bool.not_eq_false _ ▸ renewable, added, rfl, rfl⟩

lemma lookup_revoke (store : TokenStore) (id id' : Bytes) :
    (store.revoke id).2.tokens.lookup id' = if id' = id then none else store.tokens.lookup id' := by
  unfold TokenStore.revoke
  split
  · exact Table.lookup_erase_eq _ _ _
  · rename_i absent
    split
    · rename_i same
      rw [same, absent]
    · rfl

lemma change_renew {now incrementSecs : ℤ} {id' : Bytes} {new : VaultToken} {store' : TokenStore}
    (timely : s.Timely id (now, .renew id' incrementSecs))
    (done : s.store.renew chrono now id' incrementSecs = .ok (new, store')) :
    Change now (s.life id) (life id ⟨now, store'⟩) := by
  obtain ⟨token, expiresAt, look, renewable, added, rfl, rfl⟩ := renew_ok done
  unfold life
  rw [Table.lookup_insert_eq]
  split
  case isFalse => exact .same
  case isTrue same =>
    subst same
    obtain ⟨alive, left⟩ := timely rfl token look renewable
    rw [look]
    refine .renewed (fun ended => ?_) ?_
    · rw [VaultToken.isExpired_iff.mpr ended] at alive
      cases alive
    · calc expiresAt = now + token.increment incrementSecs * second := chrono.add_eq added
        _ ≤ now + incrementSecs * second :=
          add_le_add_right (mul_le_mul_of_nonneg_right (token.increment_le _) (by decide)) now
        _ ≤ _ := left

lemma follows (timely : s.Timely id call) (st : s.step chrono call = some s') :
    Follows Tokens.now (life id) s s' := by
  obtain ⟨forward, e⟩ := Option.ite_none_right_eq_some.mp st
  cases e
  refine ⟨forward, ?_⟩
  obtain ⟨now, call⟩ := call
  cases call with
  | renew id' incrementSecs =>
    simp only [TokenCall.apply]
    split
    · rename_i done
      exact change_renew timely done
    · exact .same
  | lookup id' => exact .same
  | revoke id' =>
    simp only [TokenCall.apply, life, lookup_revoke]
    split
    · exact .gone
    · exact .same

/-- **A token that is made for no longer than its maximum and renewed in time is not found after its
maximum, and once it is not found it is never found again.** -/
theorem token_within_maximum {checks : Bool} {codec : Codec} {rng : Rng} {created : ℤ}
    {params : CreateTokenParams} {parent : Option VaultToken} {token : VaultToken} {store store' : TokenStore}
    (made : store.create checks codec chrono rng created params parent = .ok (token, store'))
    (short : ∀ ttl ∈ params.ttlSecs checks, ∀ maxTtl ∈ params.maxTtlSecs checks, ttl ≤ maxTtl)
    {calls : List (ℤ × TokenCall)}
    (timely : Guarded (step chrono) (Timely token.id) ⟨created, store'⟩ calls)
    (ran : run (step chrono) ⟨created, store'⟩ calls = some s) (now : ℤ) :
    (∀ t, s.store.lookup now token.id = some t → now ≤ created + token.explicitMaxTtl * second) ∧
    (s.store.lookup now token.id = none → ∀ later : List (ℤ × TokenCall),
      Guarded (step chrono) (Timely token.id) ⟨now, s.store⟩ later →
        ∀ s', run (step chrono) ⟨now, s.store⟩ later = some s' →
          ∀ now' ≥ s'.now, s'.store.lookup now' token.id = none) := by
  obtain ⟨entered, -, has⟩ := TokenStore.create_ok made
  subst entered
  have start : ∀ l ∈ life token.id ⟨created, store.enter token⟩,
      l.limit = created + token.explicitMaxTtl * second ∧ l.Within := by
    intro l here
    rw [life, TokenStore.lookup_enter, if_pos rfl] at here
    cases here
    obtain ⟨ttl, expiresAt, secs, added, ends⟩ := has.ends
    have within : expiresAt ≤ created + token.explicitMaxTtl * second := by
      calc expiresAt = created + ttl * second := chrono.add_eq added
        _ ≤ created + token.explicitMaxTtl * second :=
          add_le_add_right (mul_le_mul_of_nonneg_right
            (has.explicitMaxTtl ▸ short ttl secs _ has.maxTtl) (by decide)) created
    have limit : token.life.limit = created + token.explicitMaxTtl * second := by
      rw [VaultToken.life, has.createdAt]
    exact ⟨limit, expiresAt, ends, limit ▸ within⟩
  have inv := within_of_guarded follows timely ran start
  refine ⟨fun t found => ?_, fun nothing later timely' s' ran' now' forward' => ?_⟩
  · by_contra late
    have ended : ∀ l ∈ s.life token.id, l.Over now := by
      intro l here
      obtain ⟨limit, within⟩ := inv l here
      exact within.ended (limit ▸ not_le.mp late)
    cases (lookup_eq_none.mpr ended).symm.trans found
  · have ended := (over_of_guarded follows timely' ran' (lookup_eq_none.mp nothing)).2
    exact lookup_eq_none.mpr fun l here => (ended l here).2.mono forward'

/-- A request for a token with the given lifetime and a maximum of 100 seconds. -/
def hundred (ttl : String) : CreateTokenParams :=
  { id := some (word "t"), ttl := some (word ttl), explicitMaxTtl := some (word "100s") }

/-- A token, and the store it is made in at time 0. -/
def madeAtZero (ttl : String) : Except Failure (VaultToken × TokenStore) :=
  TokenStore.create true hexCodec Leases.exactTimes callRng 0 {} (hundred ttl) none

/-- The token of a minute. -/
def minuteToken : VaultToken × TokenStore :=
  match madeAtZero "1m" with
  | .ok made => made
  | .error _ => TokenStore.createRoot 0 {} []

/-- It is renewed after 50 seconds for 50, and not found after 120. -/
theorem token_within_maximum_renewed :
    ∃ s s' t, madeAtZero "1m" = .ok minuteToken ∧
      run (step Leases.exactTimes) ⟨0, minuteToken.2⟩ [(50 * second, .renew (word "t") 50)] = some s ∧
      s.store.lookup (90 * second) (word "t") = some t ∧ 90 * second ≤ 0 + 100 * second ∧
      s.store.lookup (120 * second) (word "t") = none ∧
      run (step Leases.exactTimes) ⟨120 * second, s.store⟩ [(130 * second, .lookup (word "t"))] = some s' ∧
      s'.store.lookup (140 * second) (word "t") = none := by
  have made : madeAtZero "1m" = .ok (minuteToken.1, minuteToken.2) := rfl
  have short : ∀ ttl ∈ (hundred "1m").ttlSecs true, ∀ maxTtl ∈ (hundred "1m").maxTtlSecs true,
    ttl ≤ maxTtl := by decide
  have timely : Guarded (step Leases.exactTimes) (Timely minuteToken.1.id) ⟨0, minuteToken.2⟩
    [(50 * second, .renew (word "t") 50)] := by decide
  have within := token_within_maximum made short timely rfl
  refine ⟨_, _, _, rfl, rfl, rfl, (within (90 * second)).1 _ rfl, rfl, rfl, ?_⟩
  exact (within (120 * second)).2 rfl [(130 * second, .lookup (word "t"))] (by decide) _ rfl _ (by decide)

/-- A renewal after 50 seconds keeps a token beyond its maximum of 100, one after 200 seconds brings back a
token that ended after 60, and a token can be made for longer than its maximum. -/
theorem token_outlives_maximum :
    (∃ token store s t, madeAtZero "1m" = .ok (token, store) ∧ token.explicitMaxTtl = 100 ∧
      run (step Leases.exactTimes) ⟨0, store⟩ [(50 * second, .renew (word "t") 100)] = some s ∧
      s.store.lookup (140 * second) (word "t") = some t) ∧
    (∃ token store s t, madeAtZero "1m" = .ok (token, store) ∧
      store.lookup (200 * second) (word "t") = none ∧
      run (step Leases.exactTimes) ⟨0, store⟩
        [(200 * second, .lookup (word "t")), (200 * second, .renew (word "t") 100)] = some s ∧
      s.store.lookup (250 * second) (word "t") = some t) ∧
    ∃ token store t, madeAtZero "1h" = .ok (token, store) ∧ token.explicitMaxTtl = 100 ∧
      store.lookup (200 * second) (word "t") = some t :=
  ⟨⟨_, _, _, _, rfl, rfl, rfl, rfl⟩, ⟨_, _, _, _, rfl, rfl, rfl, rfl⟩, _, _, _, rfl, rfl, rfl⟩

end Tokens

end Vault
