import CaveRuntime.Common.Run
import CaveRuntime.Vault.Kv2

/-!
# The vault: the versions of a KV v2 secret

Sequences of `write_secret` and `write_metadata` on one path. A write compares `cas` with the current
version, numbers the new version by one more, and then removes the oldest versions until no more than
`max_versions` are left; with a maximum of 0 it removes the version it has just written. Nothing looks at
`cas_required`. If every write carries `cas` while the flag is set, comes when the maximum is not 0, and does
not wrap the number around, then the versions are 1, 2, 3 and so on, and what is stored right after a write
is a contiguous run that ends in its version.
-/

namespace Vault
open MachineInt Run Text Utf8

/-! ## Secrets in the store -/

namespace Kv2Store

variable {store : Kv2Store} {mount path : Bytes}

lemma get_put_self (store : Kv2Store) (mount path : Bytes) (secret : Kv2Secret) :
    (store.put mount path secret).get mount path = some secret := by
  simp only [get, put, AList.lookup_insert, Option.bind_some]

lemma get_put_ne {path' : Bytes} (ne : path' ≠ path) (secret : Kv2Secret) :
    (store.put mount path secret).get mount path' = store.get mount path' := by
  simp only [get, put, AList.lookup_insert, Option.bind_some]
  rw [AList.lookup_insert_ne ne]
  cases store.lookup mount with
  | none => rfl
  | some secrets => rfl

/-- The secret under a path, or the one that a request makes there. -/
def secretOr (clock : ℕ → ℤ) (store : Kv2Store) (mount path : Bytes) : Kv2Secret :=
  (store.get mount path).getD (Kv2Secret.default (clock 0) (clock 1))

lemma secretOr_of_get {secret : Kv2Secret} (found : store.get mount path = some secret) (clock : ℕ → ℤ) :
    store.secretOr clock mount path = secret := by
  rw [secretOr, found]
  rfl

lemma entry_fst (clock : ℕ → ℤ) : (store.entry clock mount path).1 = store.secretOr clock mount path := by
  unfold entry secretOr
  cases store.get mount path with
  | none => rfl
  | some secret => rfl

lemma get_entry_self (clock : ℕ → ℤ) :
    (store.entry clock mount path).2.get mount path = some (store.secretOr clock mount path) := by
  unfold entry secretOr
  cases found : store.get mount path with
  | none => exact get_put_self store mount path _
  | some secret => exact found

lemma get_entry_ne {path' : Bytes} (ne : path' ≠ path) (clock : ℕ → ℤ) :
    (store.entry clock mount path).2.get mount path' = store.get mount path' := by
  unfold entry
  cases store.get mount path with
  | none => exact get_put_ne ne _
  | some secret => rfl

lemma get_onSecret (store : Kv2Store) (mount path path' : Bytes) (f : Kv2Secret → Kv2Secret) :
    (store.onSecret mount path f).get mount path' =
      if path' = path then (store.get mount path').map f else store.get mount path' := by
  unfold get onSecret
  rw [Table.lookup_modify, if_pos rfl]
  cases store.lookup mount with
  | none =>
    split
    · rfl
    · rfl
  | some secrets => exact Table.lookup_modify secrets path path' f

end Kv2Store

/-! ## A write -/

namespace Kv2Secret

variable {checks : Bool} {secret : Kv2Secret}

/-- The numbers of the stored versions. -/
def numbers (secret : Kv2Secret) : List ℕ := secret.versions.map (·.version)

lemma evict_eq {n : ℕ} (fine : ∀ v ∈ secret.versions.take n, checks = true → v.version + 1 < 2 ^ 64) :
    (evict checks n secret).1 = true ∧ ∃ oldestVersion, (evict checks n secret).2 =
      { secret with versions := secret.versions.drop n, oldestVersion } := by
  induction n generalizing secret with
  | zero => exact ⟨rfl, secret.oldestVersion, rfl⟩
  | succ n ih =>
    unfold evict
    cases versions : secret.versions with
    | nil =>
      have none : secret.versions.drop n = [] := by rw [versions]; exact List.drop_nil
      obtain ⟨done, oldest, eq⟩ := @ih secret (by rw [versions]; simp)
      refine ⟨done, oldest, ?_⟩
      simp only [eq, none, List.drop_nil]
    | cons v rest =>
      rw [versions] at fine
      have next : ∃ o, addU64 checks v.version 1 = some o := by
        unfold addU64
        split
        · exact ⟨_, rfl⟩
        · rename_i large
          cases checks with
          | true => exact absurd (fine v (by simp) rfl) large
          | false => exact ⟨_, rfl⟩
      obtain ⟨o, next⟩ := next
      simp only [next]
      obtain ⟨done, oldest, eq⟩ := @ih { secret with oldestVersion := o, versions := rest }
        fun v mem => fine v (List.mem_cons_of_mem _ mem)
      exact ⟨done, oldest, eq⟩

/-- What a write makes of a secret. -/
structure Wrote (checks : Bool) (secret : Kv2Secret) (newVersion : ℕ) (data : Table Bytes Json) (now : ℤ)
    (secret' : Kv2Secret) : Prop where
  number : addU64 checks secret.currentVersion 1 = some newVersion
  current : secret'.currentVersion = newVersion
  versions : secret'.versions =
    (secret.push newVersion data now).versions.drop (secret.versions.length + 1 - secret.maxVersions)
  maxVersions : secret'.maxVersions = secret.maxVersions

variable {newVersion : ℕ} {data : Table Bytes Json} {now : ℤ}

lemma Wrote.next {secret' : Kv2Secret}
    (wrote : secret.Wrote checks newVersion data now secret')
    (fits : checks = true ∨ secret.currentVersion + 1 < 2 ^ 64) : newVersion = secret.currentVersion + 1 := by
  have number := wrote.number
  rcases fits with checked | small
  · rw [checked] at number
    exact (addU64_checked number).2
  · rw [addU64, if_pos small] at number
    exact (Option.some.inj number).symm

lemma Wrote.numbers {secret' : Kv2Secret}
    (wrote : secret.Wrote checks newVersion data now secret') :
    secret'.numbers = (secret.numbers ++ [newVersion]).drop (secret.versions.length + 1 - secret.maxVersions) := by
  rw [Kv2Secret.numbers, wrote.versions, List.map_drop, push, List.map_append]
  rfl

/-- The versions that a write removes were there before it, so that each of their numbers has a successor. -/
lemma wrote_evict
    (fine : ∀ v ∈ secret.versions, checks = true → v.version ≤ secret.currentVersion)
    (kept : secret.maxVersions ≠ 0) (number : addU64 checks secret.currentVersion 1 = some newVersion) :
    (evict checks (secret.versions.length + 1 - secret.maxVersions) (secret.push newVersion data now)).1 = true ∧
      secret.Wrote checks newVersion data now
        (evict checks (secret.versions.length + 1 - secret.maxVersions) (secret.push newVersion data now)).2 := by
  have few : secret.versions.length + 1 - secret.maxVersions ≤ secret.versions.length := by omega
  have next : ∀ v ∈ (secret.push newVersion data now).versions.take
      (secret.versions.length + 1 - secret.maxVersions), checks = true → v.version + 1 < 2 ^ 64 := by
    intro v taken checked
    rw [push, List.take_append_of_le_length few] at taken
    have le := fine v (List.mem_of_mem_take taken) checked
    rw [checked] at number
    obtain ⟨small, -⟩ := addU64_checked number
    omega
  obtain ⟨done, oldest, left⟩ := evict_eq next
  exact ⟨done, number, by rw [left]; rfl, by rw [left], by rw [left]; rfl⟩

end Kv2Secret

/-- The field of an answer that has the number of the version written. -/
def versionOf (answer : Except Failure VaultResponse) : Option ℕ :=
  match answer with
  | .ok r =>
    match r.data.bind (Json.get "version") with
    | some (.number n) => some n.toNat
    | _ => none
  | .error _ => none

lemma versionOf_written (n : ℕ) (text : Bytes) :
    versionOf (.ok (.withFields [("version", .number n), ("created_time", .string text)])) = some n := by
  simp only [versionOf, VaultResponse.withFields, Option.bind_some, Json.get_obj_head, Int.toNat_natCast]

/-- How a write ends, if no number of a version it removes is the last there is. -/
inductive WriteOutcome (checks : Bool) (secret : Kv2Secret) (cas : Option ℕ) (data : Table Bytes Json)
    (now : ℤ) (answer : Except Failure VaultResponse) (secret' : Kv2Secret) : Prop
  | refused : versionOf answer = none → secret' = secret → WriteOutcome checks secret cas data now answer secret'
  | wrote {newVersion : ℕ} : (∀ c ∈ cas, c = secret.currentVersion) → versionOf answer = some newVersion →
      secret.Wrote checks newVersion data now secret' → WriteOutcome checks secret cas data now answer secret'

section Write

variable {checks : Bool} {rfc3339 : ℤ → Bytes} {clock : ℕ → ℤ} {store : Kv2Store} {mount path : Bytes}
  {cas : Option ℕ} {data : Table Bytes Json}

/-- A write is refused or stores a new version. -/
lemma writeSecret_outcome
    (fine : ∀ v ∈ (store.secretOr clock mount path).versions,
      checks = true → v.version ≤ (store.secretOr clock mount path).currentVersion)
    (kept : (store.secretOr clock mount path).maxVersions ≠ 0) :
    ∃ secret', (Kv2.writeSecret checks rfc3339 clock store mount path cas data).2.get mount path = some secret' ∧
      WriteOutcome checks (store.secretOr clock mount path) cas data (clock 2)
        (Kv2.writeSecret checks rfc3339 clock store mount path cas data).1 secret' := by
  generalize secretEq : store.secretOr clock mount path = secret at fine kept ⊢
  have first : (store.entry clock mount path).1 = secret := (Kv2Store.entry_fst clock).trans secretEq
  have there : (store.entry clock mount path).2.get mount path = some secret :=
    (Kv2Store.get_entry_self clock).trans (congrArg some secretEq)
  unfold Kv2.writeSecret
  dsimp only
  rw [first]
  split
  · exact ⟨secret, there, .refused rfl rfl⟩
  rename_i same
  cases number : addU64 checks secret.currentVersion 1 with
  | none => exact ⟨secret, there, .refused rfl rfl⟩
  | some newVersion =>
    obtain ⟨done, wrote⟩ := @Kv2Secret.wrote_evict checks secret newVersion data (clock 2) fine kept number
    have length : (secret.push newVersion data (clock 2)).versions.length -
        (secret.push newVersion data (clock 2)).maxVersions =
          secret.versions.length + 1 - secret.maxVersions := by
      rw [Kv2Secret.push, List.length_append]
      rfl
    dsimp only
    rw [length, done]
    refine ⟨_, Kv2Store.get_put_self _ _ _ _, .wrote ?_ (versionOf_written _ _) wrote⟩
    intro c given
    by_contra ne
    exact same (by rw [given]; simpa using ne)

lemma writeSecret_get_ne {path' : Bytes} (ne : path' ≠ path) :
    (Kv2.writeSecret checks rfc3339 clock store mount path cas data).2.get mount path' = store.get mount path' := by
  have same := @Kv2Store.get_entry_ne store mount path path' ne clock
  unfold Kv2.writeSecret
  dsimp only
  split
  · exact same
  · split
    · exact same
    · split
      · exact (Kv2Store.get_put_ne ne _).trans same
      · exact (Kv2Store.get_put_ne ne _).trans same

lemma writeMetadata_get (body : UpdateMetadataRequest) :
    (Kv2.writeMetadata clock store mount path body).get mount path = some { store.secretOr clock mount path with
      maxVersions := body.maxVersions.getD (store.secretOr clock mount path).maxVersions
      casRequired := body.casRequired.getD (store.secretOr clock mount path).casRequired
      customMetadata := body.customMetadata.getD (store.secretOr clock mount path).customMetadata } := by
  unfold Kv2.writeMetadata
  dsimp only
  rw [Kv2Store.get_put_self, Kv2Store.entry_fst]

end Write

/-! ## The history of a path -/

namespace Kv2Path

/-- A successful write: its `cas`, the `cas_required` of the secret before it, the version of the answer, and
the numbers of the versions stored right after it. -/
structure WriteRecord where
  cas : Option ℕ
  required : Bool
  version : ℕ
  stored : List ℕ
  deriving DecidableEq

/-- The store, with the successful writes to the path so far. -/
structure State where
  store : Kv2Store
  writes : List WriteRecord

/-- A request to the path, with the readings of the clock. -/
inductive Event where
  | write (clock : ℕ → ℤ) (cas : Option ℕ) (data : Table Bytes Json)
  | metadata (clock : ℕ → ℤ) (body : UpdateMetadataRequest)

/-- A write carries `cas` if the secret requires it, some version may be kept, and the next number is one
that a `u64` has (or its overflow is noticed). -/
def CarefulWrite (checks : Bool) (secret : Kv2Secret) (cas : Option ℕ) : Prop :=
  (secret.casRequired = true → cas.isSome) ∧ secret.maxVersions ≠ 0 ∧
    (checks = true ∨ secret.currentVersion + 1 < 2 ^ 64)
deriving Decidable

section System

variable (checks : Bool) (rfc3339 : ℤ → Bytes) (mount path : Bytes)

/-- The numbers of the versions that a store has of the path. -/
def storedNumbers (store : Kv2Store) : List ℕ := ((store.get mount path).map Kv2Secret.numbers).getD []

/-- One request. -/
def step (s : State) : Event → Option State
  | .write clock cas data =>
    let (answer, store) := Kv2.writeSecret checks rfc3339 clock s.store mount path cas data
    match versionOf answer with
    | none => some { s with store }
    | some version =>
      let required := (s.store.secretOr clock mount path).casRequired
      some ⟨store, s.writes ++ [⟨cas, required, version, storedNumbers mount path store⟩]⟩
  | .metadata clock body => some { s with store := Kv2.writeMetadata clock s.store mount path body }

/-- Every write is a careful one. -/
def Careful (s : State) : Event → Prop
  | .write clock cas _ => CarefulWrite checks (s.store.secretOr clock mount path) cas
  | .metadata _ _ => True

instance (s : State) : (e : Event) → Decidable (Careful checks mount path s e)
  | .write clock cas _ => inferInstanceAs (Decidable (CarefulWrite checks (s.store.secretOr clock mount path) cas))
  | .metadata _ _ => inferInstanceAs (Decidable True)

end System

/-- The number of the last of some writes; 0 before the first. -/
def lastVersion (writes : List WriteRecord) : ℕ := (writes.getLast?.map (·.version)).getD 0

/-- What a successful write is like after those before it. -/
structure WriteRecord.Regular (earlier : List WriteRecord) (r : WriteRecord) : Prop where
  next : r.version = earlier.length + 1
  compared : ∀ c ∈ r.cas, c = lastVersion earlier
  required : r.required = true → r.cas.isSome
  contiguous : ∃ first ≤ r.version, r.stored = List.range' first (r.version + 1 - first)

/-- The invariant: the secret is numbered by the writes, and it has the last ones without a gap. -/
structure Inv (mount path : Bytes) (s : State) : Prop where
  regular : ∀ earlier r later, s.writes = earlier ++ r :: later → r.Regular earlier
  current : ∀ clock, (s.store.secretOr clock mount path).currentVersion = s.writes.length
  stored : ∀ clock, ∃ first ≤ s.writes.length + 1,
    (s.store.secretOr clock mount path).numbers = List.range' first (s.writes.length + 1 - first)

namespace Inv

variable {checks : Bool} {rfc3339 : ℤ → Bytes} {mount path : Bytes} {s s' : State}

lemma last (inv : Inv mount path s) : lastVersion s.writes = s.writes.length := by
  unfold lastVersion
  rcases List.eq_nil_or_concat s.writes with none | ⟨earlier, r, eq⟩
  · rw [none]
    rfl
  · have regular := inv.regular earlier r [] (by rw [eq, List.concat_eq_append])
    rw [eq, List.concat_eq_append, List.getLast?_append, List.length_append]
    exact regular.next

lemma start {store : Kv2Store} (fresh : store.get mount path = none) : Inv mount path ⟨store, []⟩ where
  regular := by
    intro earlier r later eq
    simp at eq
  current := by
    intro clock
    rw [Kv2Store.secretOr, fresh]
    rfl
  stored := by
    intro clock
    rw [Kv2Store.secretOr, fresh]
    exact ⟨1, le_refl _, rfl⟩

/-- A request that writes no version, and changes neither the numbers nor the current one. -/
lemma keep {store' : Kv2Store} {secret' : Kv2Secret} (clock : ℕ → ℤ) (inv : Inv mount path s)
    (found : store'.get mount path = some secret')
    (current : secret'.currentVersion = (s.store.secretOr clock mount path).currentVersion)
    (versions : secret'.versions = (s.store.secretOr clock mount path).versions) :
    Inv mount path { s with store := store' } where
  regular := inv.regular
  current := by
    intro clock'
    rw [Kv2Store.secretOr_of_get found, current, inv.current clock]
  stored := by
    intro clock'
    rw [Kv2Store.secretOr_of_get found, Kv2Secret.numbers, versions]
    exact inv.stored clock

lemma regular_append {writes : List WriteRecord} {r : WriteRecord}
    (before : ∀ earlier r later, writes = earlier ++ r :: later → r.Regular earlier) (last : r.Regular writes) :
    ∀ earlier r' later, writes ++ [r] = earlier ++ r' :: later → r'.Regular earlier := by
  intro earlier r' later eq
  rcases List.eq_nil_or_concat later with none | ⟨later, x, more⟩
  · rw [none] at eq
    obtain ⟨same, tail⟩ := List.append_inj' eq rfl
    cases tail
    rwa [← same]
  · have eq : writes ++ [r] = (earlier ++ r' :: later) ++ [x] := by
      rw [eq, more, List.concat_eq_append, List.append_assoc, List.cons_append]
    exact before earlier r' later (List.append_inj' eq rfl).1

/-- A write adds its number to those stored and takes away some of the first. -/
lemma numbers_wrote {secret secret' : Kv2Secret} {newVersion first : ℕ} {data : Table Bytes Json} {now : ℤ}
    (wrote : secret.Wrote checks newVersion data now secret') (kept : secret.maxVersions ≠ 0)
    (next : newVersion = secret.currentVersion + 1) (le : first ≤ secret.currentVersion + 1)
    (numbers : secret.numbers = List.range' first (secret.currentVersion + 1 - first)) :
    ∃ first ≤ newVersion, secret'.numbers = List.range' first (newVersion + 1 - first) := by
  have length : secret.versions.length = secret.currentVersion + 1 - first := by
    have eq := congrArg List.length numbers
    rwa [Kv2Secret.numbers, List.length_map, List.length_range'] at eq
  have all : secret.numbers ++ [newVersion] = List.range' first (newVersion + 1 - first) := by
    have len : newVersion + 1 - first = secret.currentVersion + 1 - first + 1 := by omega
    have eq : newVersion = first + (secret.currentVersion + 1 - first) := by omega
    rw [len, List.range'_1_concat, numbers, ← eq]
  refine ⟨first + (secret.versions.length + 1 - secret.maxVersions), by omega, ?_⟩
  rw [wrote.numbers, all, List.drop_range', Nat.mul_one, Nat.sub_add_eq]

/-- A careful write takes the next number. -/
lemma write {clock : ℕ → ℤ} {cas : Option ℕ} {data : Table Bytes Json} (inv : Inv mount path s)
    (careful : Careful checks mount path s (.write clock cas data))
    (st : step checks rfc3339 mount path s (.write clock cas data) = some s') : Inv mount path s' := by
  obtain ⟨required, kept, fits⟩ := careful
  obtain ⟨first, le, numbers⟩ := inv.stored clock
  have current := inv.current clock
  rw [← current] at le numbers
  have fine : ∀ v ∈ (s.store.secretOr clock mount path).versions,
      checks = true → v.version ≤ (s.store.secretOr clock mount path).currentVersion := by
    intro v mem checked
    have mem : v.version ∈ (s.store.secretOr clock mount path).numbers := List.mem_map_of_mem mem
    rw [numbers, List.mem_range'_1] at mem
    omega
  obtain ⟨secret', found, outcome⟩ := @writeSecret_outcome checks rfc3339 clock s.store mount path cas data
    fine kept
  cases outcome with
  | refused none same =>
    simp only [step, none, Option.some.injEq] at st
    subst st
    exact inv.keep clock found (by rw [same]) (by rw [same])
  | @wrote newVersion compared some wrote =>
    simp only [step, some, Option.some.injEq] at st
    subst st
    have next := wrote.next fits
    have after := numbers_wrote wrote kept next le numbers
    have length : newVersion = s.writes.length + 1 := by rw [next, current]
    refine ⟨regular_append inv.regular ⟨length, ?_, required, ?_⟩, ?_, ?_⟩
    · rw [inv.last, ← current]
      exact compared
    · rw [storedNumbers, found]
      exact after
    · intro clock'
      rw [Kv2Store.secretOr_of_get found, wrote.current, List.length_append]
      exact length
    · intro clock'
      rw [Kv2Store.secretOr_of_get found, List.length_append]
      obtain ⟨first, le, eq⟩ := after
      rw [length] at le eq
      exact ⟨first, le.trans (Nat.le_succ _), eq⟩

lemma step {e : Event} (inv : Inv mount path s) (careful : Careful checks mount path s e)
    (st : Kv2Path.step checks rfc3339 mount path s e = some s') : Inv mount path s' := by
  cases e with
  | write clock cas data => exact inv.write careful st
  | metadata clock body =>
    cases st
    exact inv.keep clock (writeMetadata_get body) rfl rfl

end Inv

section History

variable {checks : Bool} {rfc3339 : ℤ → Bytes} {mount path : Bytes} {store : Kv2Store} {s : State}
  {es : List Event}

/-- In a run whose writes are careful, the n-th successful write gets version n, its `cas` is the version
before it, it has a `cas` if one is required, and what is stored right after it is a contiguous run of
versions up to its own. -/
theorem writes_regular (fresh : store.get mount path = none)
    (careful : Guarded (step checks rfc3339 mount path) (Careful checks mount path) ⟨store, []⟩ es)
    (ran : run (step checks rfc3339 mount path) ⟨store, []⟩ es = some s) {earlier later : List WriteRecord}
    {r : WriteRecord} (wrote : s.writes = earlier ++ r :: later) : r.Regular earlier := by
  have inv : Inv mount path s :=
    invariant_of_guarded (fun inv ok st => Inv.step inv ok st) careful ran (Inv.start fresh)
  exact inv.regular earlier r later wrote

/-- With a required `cas` and room for two versions, the third write is after the first two. -/
theorem writes_regular_third :
    ∃ s r, run (step true (fun _ => []) [] []) ⟨∅, []⟩
        [.metadata (fun _ => 0) { casRequired := some true, maxVersions := some 2 },
         .write (fun _ => 1) (some 0) ∅, .write (fun _ => 2) (some 0) ∅, .write (fun _ => 3) (some 1) ∅,
         .write (fun _ => 4) (some 2) ∅] = some s ∧
      s.writes = [⟨some 0, true, 1, [1]⟩, ⟨some 1, true, 2, [1, 2]⟩, r] ∧ r = ⟨some 2, true, 3, [2, 3]⟩ ∧
      r.Regular [⟨some 0, true, 1, [1]⟩, ⟨some 1, true, 2, [1, 2]⟩] := by
  have careful : Guarded (step true (fun _ => []) [] []) (Careful true [] []) ⟨∅, []⟩
    [.metadata (fun _ => 0) { casRequired := some true, maxVersions := some 2 },
     .write (fun _ => 1) (some 0) ∅, .write (fun _ => 2) (some 0) ∅, .write (fun _ => 3) (some 1) ∅,
     .write (fun _ => 4) (some 2) ∅] := by decide
  exact ⟨_, _, rfl, rfl, rfl, writes_regular rfl careful rfl rfl⟩

/-- A write without `cas` succeeds although the secret requires it, and where no version may be kept nothing
is stored right after a write. -/
theorem written_without_cas :
    ∃ s, run (step true (fun _ => []) [] []) ⟨∅, []⟩
        [.metadata (fun _ => 0) { casRequired := some true }, .write (fun _ => 1) none ∅,
         .metadata (fun _ => 2) { maxVersions := some 0 }, .write (fun _ => 3) (some 1) ∅] = some s ∧
      s.writes = [⟨none, true, 1, [1]⟩, ⟨some 1, true, 2, []⟩] ∧
      ¬ WriteRecord.Regular [] ⟨none, true, 1, [1]⟩ ∧
      ¬ WriteRecord.Regular [⟨none, true, 1, [1]⟩] ⟨some 1, true, 2, []⟩ := by
  refine ⟨_, rfl, rfl, ?_, ?_⟩
  · intro regular
    exact absurd (regular.required rfl) (by decide)
  · intro regular
    obtain ⟨first, le, stored⟩ := regular.contiguous
    have length := congrArg List.length stored
    rw [List.length_range'] at length
    change 0 = 2 + 1 - first at length
    change first ≤ 2 at le
    omega

end History

end Kv2Path

end Vault
