import CaveRuntime.Vault.Kv2Versions

/-!
# The vault: deleted versions of a KV v2 secret

Sequences of writes, deletions, undeletions and destructions of versions on one mount. A destroyed version
has no data, but a deleted one keeps it, with the time of the deletion beside it. `read_secret` compares
that time with the clock. The route for reading data leads to `read_secret_version`, which does not: it
shows the time in the metadata of its answer, next to the data. So a read of a deleted version is refused
exactly if it goes through `read_secret`, or if the version has also been destroyed or is not stored any more.
-/

namespace Vault
open MachineInt Run Text Utf8

/-! ## What the requests say about a version -/

/-- What a request does to a version that it names. -/
inductive VersionChange where
  | deleted (time : ℤ)
  | undeleted
  | destroyed

/-- What became of a version. -/
inductive Fate where
  | live
  | deleted (time : ℤ)
  | destroyed
  deriving DecidableEq

namespace Fate

/-- What becomes of a version after one more change. -/
def turn : VersionChange → Fate → Fate
  | _, .destroyed => .destroyed
  | .deleted time, _ => .deleted time
  | .undeleted, _ => .live
  | .destroyed, _ => .destroyed

/-- The time of the deletion. -/
def deletionTime : Fate → Option ℤ
  | .deleted time => some time
  | _ => none

/-- Deleted before a time, or destroyed. -/
def Gone (now : ℤ) : Fate → Prop
  | .live => False
  | .deleted time => time < now
  | .destroyed => True

end Fate

/-- A version was created (`change` is `none`) or changed. -/
structure VersionEvent where
  path : Bytes
  version : ℕ
  change : Option VersionChange

/-- What became of a version of a path, after the events in this order. -/
def fate (path : Bytes) (version : ℕ) (log : List VersionEvent) : Fate :=
  log.foldl (fun fate e => if e.path = path ∧ e.version = version then e.change.elim .live (Fate.turn · fate)
    else fate) .live

lemma fate_append_self (path : Bytes) (version : ℕ) (change : Option VersionChange) (log : List VersionEvent) :
    fate path version (log ++ [⟨path, version, change⟩]) =
      change.elim .live (Fate.turn · (fate path version log)) := by
  rw [fate, List.foldl_append]
  exact if_pos ⟨rfl, rfl⟩

lemma fate_append_ne {path : Bytes} {version : ℕ} {e : VersionEvent} (ne : ¬ (e.path = path ∧ e.version = version))
    (log : List VersionEvent) : fate path version (log ++ [e]) = fate path version log := by
  rw [fate, List.foldl_append]
  exact if_neg ne

/-! ## Changes of stored versions -/

/-- What a change does to the version. -/
def VersionChange.apply : VersionChange → Kv2Version → Kv2Version
  | .deleted time, v => { v with deletionTime := some time }
  | .undeleted, v => if v.destroyed then v else { v with deletionTime := none }
  | .destroyed, v => { v with destroyed := true, data := none }

@[simp] lemma VersionChange.apply_version (change : VersionChange) (v : Kv2Version) :
    (change.apply v).version = v.version := by
  cases change with
  | deleted time => rfl
  | undeleted => cases destroyed : v.destroyed <;> simp [apply, destroyed]
  | destroyed => rfl

/-- A stored version shows what became of it. -/
@[mk_iff]
structure Agrees (v : Kv2Version) (fate : Fate) : Prop where
  destroyed : v.destroyed = true ↔ fate = .destroyed
  data : v.data = none ↔ v.destroyed = true
  deletion : v.destroyed = false → v.deletionTime = fate.deletionTime

lemma Agrees.apply {v : Kv2Version} {fate : Fate} (agrees : Agrees v fate) (change : VersionChange) :
    Agrees (change.apply v) (fate.turn change) := by
  rw [agrees_iff] at agrees ⊢
  cases change with
  | deleted time => cases fate <;> simp_all [VersionChange.apply, Fate.turn, Fate.deletionTime]
  | undeleted =>
    cases known : v.destroyed with
    | true =>
      have ended : fate = .destroyed := agrees.1.mp known
      simp_all [VersionChange.apply, Fate.turn]
    | false => cases fate <;> simp_all [VersionChange.apply, Fate.turn, Fate.deletionTime]
  | destroyed => cases fate <;> simp [VersionChange.apply, Fate.turn]

lemma Agrees.gone {v : Kv2Version} {fate : Fate} {now : ℤ} (agrees : Agrees v fate) (gone : fate.Gone now) :
    v.destroyed = true ∨ ∃ time < now, v.deletionTime = some time := by
  cases fate with
  | live => exact gone.elim
  | deleted time =>
    have kept : v.destroyed = false := by
      rw [Bool.eq_false_iff, Ne, agrees.destroyed]
      nofun
    exact .inr ⟨time, gone, agrees.deletion kept⟩
  | destroyed => exact .inl (agrees.destroyed.mpr rfl)

namespace Kv2Secret

/-- The numbers are those of consecutive writes, and there are at most ten of them. -/
structure Numbered (checks : Bool) (secret : Kv2Secret) (count first : ℕ) : Prop where
  maxVersions : secret.maxVersions = 10
  current : secret.currentVersion = count % 2 ^ 64
  fits : checks = true → count < 2 ^ 64
  range : first ≤ count + 1 ∧ count + 1 ≤ first + 10
  numbers : secret.numbers = (List.range' first (count + 1 - first)).map (· % 2 ^ 64)

namespace Numbered

variable {checks : Bool} {secret : Kv2Secret} {count first : ℕ}

lemma nodup (numbered : secret.Numbered checks count first) : secret.numbers.Nodup := by
  rw [numbered.numbers]
  refine List.Nodup.map_on ?_ (List.nodup_range' ..)
  intro a mem b mem' eq
  obtain ⟨le, near⟩ := numbered.range
  rw [List.mem_range'_1] at mem mem'
  omega

lemma next_notMem (numbered : secret.Numbered checks count first) :
    (count + 1) % 2 ^ 64 ∉ secret.numbers := by
  rw [numbered.numbers]
  intro mem
  obtain ⟨a, mem, eq⟩ := List.mem_map.mp mem
  obtain ⟨le, near⟩ := numbered.range
  rw [List.mem_range'_1] at mem
  omega

lemma le_current (numbered : secret.Numbered checks count first) {v : Kv2Version} (mem : v ∈ secret.versions)
    (checked : checks = true) : v.version ≤ secret.currentVersion := by
  have mem : v.version ∈ secret.numbers := List.mem_map_of_mem mem
  have fits := numbered.fits checked
  rw [numbered.numbers] at mem
  obtain ⟨a, mem, eq⟩ := List.mem_map.mp mem
  rw [List.mem_range'_1] at mem
  rw [numbered.current]
  omega

lemma default (checks : Bool) (created updated : ℤ) :
    (Kv2Secret.default created updated).Numbered checks 0 1 where
  maxVersions := rfl
  current := rfl
  fits := fun _ => by decide
  range := by decide
  numbers := rfl

lemma newVersion (numbered : secret.Numbered checks count first) {newVersion : ℕ}
    (number : addU64 checks secret.currentVersion 1 = some newVersion) :
    newVersion = (count + 1) % 2 ^ 64 ∧ (checks = true → count + 1 < 2 ^ 64) := by
  rw [numbered.current] at number
  constructor
  · rw [addU64_mod number, Nat.mod_add_mod]
  · intro checked
    have fits := numbered.fits checked
    rw [checked] at number
    have small := (addU64_checked number).1
    omega

lemma write (numbered : secret.Numbered checks count first) {secret' : Kv2Secret} {newVersion : ℕ}
    {data : Table Bytes Json} {now : ℤ} (wrote : secret.Wrote checks newVersion data now secret') :
    ∃ first, secret'.Numbered checks (count + 1) first := by
  obtain ⟨eq, fits⟩ := numbered.newVersion wrote.number
  obtain ⟨le, near⟩ := numbered.range
  have length : secret.versions.length = count + 1 - first := by
    have eq := congrArg List.length numbered.numbers
    rwa [Kv2Secret.numbers, List.length_map, List.length_map, List.length_range'] at eq
  refine ⟨first + (secret.versions.length + 1 - 10), ?_⟩
  refine ⟨wrote.maxVersions.trans numbered.maxVersions, wrote.current.trans eq, fits, by omega, ?_⟩
  have all : secret.numbers ++ [newVersion] =
      (List.range' first (count + 1 + 1 - first)).map (· % 2 ^ 64) := by
    have len : count + 1 + 1 - first = count + 1 - first + 1 := by omega
    have last : first + (count + 1 - first) = count + 1 := by omega
    rw [len, List.range'_1_concat, List.map_append, numbered.numbers, eq, last]
    rfl
  rw [wrote.numbers, all, numbered.maxVersions, ← List.map_drop, List.drop_range', Nat.mul_one, Nat.sub_add_eq]

end Numbered

variable {secret : Kv2Secret} {n : ℕ} {f : Kv2Version → Kv2Version}

/-- Where no number is there twice, `get_version_mut` changes every version with the number. -/
lemma versions_updateVersion (nodup : secret.numbers.Nodup) :
    (secret.updateVersion n f).versions = secret.versions.map fun v => if v.version = n then f v else v := by
  unfold updateVersion
  unfold numbers at nodup
  dsimp only
  generalize secret.versions = versions at nodup
  induction versions with
  | nil => rfl
  | cons v versions ih =>
    rw [List.map_cons, List.nodup_cons] at nodup
    rw [List.map_cons, List.replaceF]
    by_cases here : v.version = n
    · have rest : versions.map (fun v => if v.version = n then f v else v) = versions := by
        conv_rhs => rw [← List.map_id versions]
        refine List.map_congr_left fun w mem => if_neg fun same => nodup.1 ?_
        rw [here, ← same]
        exact List.mem_map_of_mem mem
      rw [if_pos here, if_pos here, rest]
    · rw [if_neg here, if_neg here, ih nodup.2]

lemma numbers_updateVersion (nodup : secret.numbers.Nodup) (change : VersionChange) :
    (secret.updateVersion n change.apply).numbers = secret.numbers := by
  rw [numbers, versions_updateVersion nodup, List.map_map]
  refine List.map_congr_left fun v _ => ?_
  by_cases here : v.version = n
  · simp [here]
  · simp [here]

/-- The invariant of a secret: its versions have numbers of their own, and each shows what became of it. -/
structure Tracked (checks : Bool) (log : List VersionEvent) (path : Bytes) (secret : Kv2Secret) : Prop where
  numbered : ∃ count first, secret.Numbered checks count first
  agrees : ∀ v ∈ secret.versions, Agrees v (fate path v.version log)

namespace Tracked

variable {checks : Bool} {log : List VersionEvent} {path : Bytes}

lemma default (checks : Bool) (log : List VersionEvent) (path : Bytes) (created updated : ℤ) :
    (Kv2Secret.default created updated).Tracked checks log path :=
  ⟨⟨0, 1, .default checks created updated⟩, nofun⟩

lemma other (tracked : secret.Tracked checks log path) {e : VersionEvent} (ne : e.path ≠ path) :
    secret.Tracked checks (log ++ [e]) path := by
  refine ⟨tracked.numbered, fun v mem => ?_⟩
  rw [fate_append_ne fun same => ne same.1]
  exact tracked.agrees v mem

lemma change (tracked : secret.Tracked checks log path) (change : VersionChange) :
    (secret.updateVersion n change.apply).Tracked checks (log ++ [⟨path, n, some change⟩]) path := by
  obtain ⟨count, first, numbered⟩ := tracked.numbered
  have nodup := numbered.nodup
  refine ⟨⟨count, first, { numbered with numbers := (numbers_updateVersion nodup change).trans numbered.numbers }⟩, ?_⟩
  intro v mem
  rw [versions_updateVersion nodup, List.mem_map] at mem
  obtain ⟨w, mem, rfl⟩ := mem
  have agrees := tracked.agrees w mem
  by_cases here : w.version = n
  · rw [if_pos here, VersionChange.apply_version, here, fate_append_self]
    rw [here] at agrees
    exact agrees.apply change
  · rw [if_neg here, fate_append_ne fun same => here same.2.symm]
    exact agrees

lemma write (tracked : secret.Tracked checks log path) {secret' : Kv2Secret} {newVersion : ℕ}
    {data : Table Bytes Json} {now : ℤ} (wrote : secret.Wrote checks newVersion data now secret') :
    secret'.Tracked checks (log ++ [⟨path, newVersion, none⟩]) path := by
  obtain ⟨count, first, numbered⟩ := tracked.numbered
  refine ⟨⟨count + 1, numbered.write wrote⟩, ?_⟩
  intro v mem
  rw [wrote.versions] at mem
  rcases List.mem_append.mp (List.mem_of_mem_drop mem) with mem | mem
  · have ne : newVersion ≠ v.version := by
      intro eq
      have mem : v.version ∈ secret.numbers := List.mem_map_of_mem mem
      rw [← eq, (numbered.newVersion wrote.number).1] at mem
      exact numbered.next_notMem mem
    rw [fate_append_ne fun same => ne same.2]
    exact tracked.agrees v mem
  · rw [List.mem_singleton.mp mem, fate_append_self]
    exact ⟨by simp, by simp, fun _ => rfl⟩

lemma changes (change : ℕ → VersionChange) (named : List (ℕ × ℕ)) (tracked : secret.Tracked checks log path) :
    (named.foldl (fun secret v => secret.updateVersion v.1 (change v.2).apply) secret).Tracked checks
      (log ++ named.map fun v => ⟨path, v.1, some (change v.2)⟩) path := by
  induction named generalizing secret log with
  | nil => rwa [List.map_nil, List.append_nil]
  | cons v named ih =>
    rw [List.foldl_cons, List.map_cons, List.append_cons]
    exact ih (tracked.change (change v.2))

lemma others (tracked : secret.Tracked checks log path) {events : List VersionEvent}
    (ne : ∀ e ∈ events, e.path ≠ path) : secret.Tracked checks (log ++ events) path := by
  induction events generalizing log with
  | nil => rwa [List.append_nil]
  | cons e events ih =>
    rw [List.append_cons]
    exact ih (tracked.other (ne e List.mem_cons_self)) fun e mem => ne e (List.mem_cons_of_mem _ mem)

end Tracked

end Kv2Secret

/-! ## Requests to a mount -/

/-- The two handlers that read data. -/
inductive Kv2Read where
  | readSecret
  | readSecretVersion (version : Option Bytes)

namespace Kv2Read

/-- The version that is read. -/
def version (secret : Kv2Secret) : Kv2Read → ℕ
  | .readSecret => secret.currentVersion
  | .readSecretVersion version => Kv2.versionNum secret version

/-- The answer. -/
def handle (rfc3339 : ℤ → Bytes) (clock : ℕ → ℤ) (store : Kv2Store) (mount path : Bytes) :
    Kv2Read → Except Failure VaultResponse
  | .readSecret => Kv2.readSecret rfc3339 clock store mount path
  | .readSecretVersion version => Kv2.readSecretVersion rfc3339 store mount path version

end Kv2Read

/-- The data of an answer. -/
def dataOf (answer : Except Failure VaultResponse) : Option Json :=
  match answer with
  | .ok r => r.data.bind (Json.get "data")
  | .error _ => none

/-- The answer is an error, or its data is `null`. -/
def Withheld (answer : Except Failure VaultResponse) : Prop := ∀ d ∈ dataOf answer, d = .null

section Reads

variable {rfc3339 : ℤ → Bytes} {clock : ℕ → ℤ} {store : Kv2Store} {mount path : Bytes} {secret : Kv2Secret}
  {v : Kv2Version}

lemma withheld_error (failure : Failure) : Withheld (.error failure) := nofun

lemma withheld_ok {d : Json} {fields : List (String × Json)} :
    Withheld (.ok (.withFields (("data", d) :: fields))) ↔ d = .null := by
  simp only [Withheld, dataOf, VaultResponse.withFields, Option.bind_some, Json.get_obj_head, Option.mem_def,
    Option.some.injEq, forall_eq']

lemma readSecretVersion_withheld {version : Option Bytes} (found : store.get mount path = some secret)
    (stored : secret.getVersion (Kv2.versionNum secret version) = some v) (data : v.data = none ↔ v.destroyed = true) :
    Withheld (Kv2.readSecretVersion rfc3339 store mount path version) ↔ v.destroyed = true := by
  simp only [Kv2.readSecretVersion, Refusal.okOr, found, stored, bind, Except.bind, pure, Except.pure]
  cases destroyed : v.destroyed with
  | true => simp only [if_true, withheld_ok]
  | false =>
    cases there : v.data with
    | none =>
      rw [data.mp there] at destroyed
      cases destroyed
    | some table => simp [withheld_ok, Json.ofTable]

lemma readSecret_withheld (found : store.get mount path = some secret)
    (stored : secret.getVersion secret.currentVersion = some v)
    (gone : v.destroyed = true ∨ ∃ time < clock 0, v.deletionTime = some time) :
    Withheld (Kv2.readSecret rfc3339 clock store mount path) := by
  have refused : (v.destroyed || v.deletionTime.any (· < clock 0)) = true := by
    rcases gone with destroyed | ⟨time, before, deleted⟩
    · rw [destroyed, Bool.true_or]
    · rw [deleted, Bool.or_eq_true]
      exact .inr (decide_eq_true before)
  simp only [Kv2.readSecret, Refusal.okOr, found, stored, bind, Except.bind, refused, if_true]
  exact withheld_error _

lemma Kv2Read.withheld_of_absent (read : Kv2Read) (absent : ∀ secret, store.get mount path = some secret →
    secret.getVersion (read.version secret) = none) :
    Withheld (read.handle rfc3339 clock store mount path) := by
  cases found : store.get mount path with
  | none =>
    cases read with
    | readSecret =>
      simp only [handle, Kv2.readSecret, Refusal.okOr, found, bind, Except.bind]
      exact withheld_error _
    | readSecretVersion version =>
      simp only [handle, Kv2.readSecretVersion, Refusal.okOr, found, bind, Except.bind]
      exact withheld_error _
  | some secret =>
    have none := absent secret found
    cases read with
    | readSecret =>
      simp only [version] at none
      simp only [handle, Kv2.readSecret, Refusal.okOr, found, none, bind, Except.bind]
      exact withheld_error _
    | readSecretVersion version =>
      simp only [Kv2Read.version] at none
      simp only [handle, Kv2.readSecretVersion, Refusal.okOr, found, none, bind, Except.bind]
      exact withheld_error _

end Reads

namespace Kv2Mount

/-- The store, with what the requests have said about versions of the mount so far. -/
structure State where
  store : Kv2Store
  log : List VersionEvent

/-- A request to the mount. -/
inductive Event where
  | write (clock : ℕ → ℤ) (path : Bytes) (cas : Option ℕ) (data : Table Bytes Json)
  | deleteSecret (clock : ℕ → ℤ) (path : Bytes)
  | deleteVersions (clock : ℕ → ℤ) (path : Bytes) (versions : List ℕ)
  | undeleteVersions (path : Bytes) (versions : List ℕ)
  | destroyVersions (path : Bytes) (versions : List ℕ)
  | read (clock : ℕ → ℤ) (path : Bytes) (read : Kv2Read)

/-- The changes that a request asks for, in its order. -/
def changes (path : Bytes) (versions : List ℕ) (change : ℕ → VersionChange) : List VersionEvent :=
  versions.zipIdx.map fun v => ⟨path, v.1, some (change v.2)⟩

/-- One request. -/
def step (checks : Bool) (rfc3339 : ℤ → Bytes) (mount : Bytes) (s : State) : Event → Option State
  | .write clock path cas data =>
    let (answer, store) := Kv2.writeSecret checks rfc3339 clock s.store mount path cas data
    match versionOf answer with
    | none => some { s with store }
    | some version => some ⟨store, s.log ++ [⟨path, version, none⟩]⟩
  | .deleteSecret clock path =>
    let current := (s.store.get mount path).toList.map (·.currentVersion)
    some ⟨Kv2.deleteSecret clock s.store mount path, s.log ++ changes path current fun _ => .deleted (clock 0)⟩
  | .deleteVersions clock path versions =>
    some ⟨Kv2.deleteVersions clock s.store mount path versions,
      s.log ++ changes path versions fun i => .deleted (clock i)⟩
  | .undeleteVersions path versions =>
    some ⟨Kv2.undeleteVersions s.store mount path versions, s.log ++ changes path versions fun _ => .undeleted⟩
  | .destroyVersions path versions =>
    some ⟨Kv2.destroyVersions s.store mount path versions, s.log ++ changes path versions fun _ => .destroyed⟩
  | .read _ _ _ => some s

/-- Every secret of the mount shows what became of its versions. -/
def Inv (checks : Bool) (mount : Bytes) (s : State) : Prop :=
  ∀ path secret, s.store.get mount path = some secret → secret.Tracked checks s.log path

section Steps

variable {checks : Bool} {rfc3339 : ℤ → Bytes} {mount : Bytes} {s s' : State}

lemma path_of_mem_changes {path : Bytes} {versions : List ℕ} {change : ℕ → VersionChange} {e : VersionEvent}
    (mem : e ∈ changes path versions change) : e.path = path := by
  obtain ⟨v, -, rfl⟩ := List.mem_map.mp mem
  rfl

section

variable (inv : Inv checks mount s)

include inv

lemma Inv.onSecret (path : Bytes) (versions : List ℕ) (change : ℕ → VersionChange) :
    Inv checks mount ⟨Kv2.updateVersions s.store mount path versions fun i => (change i).apply,
      s.log ++ changes path versions change⟩ := by
  intro path' secret' found
  rw [Kv2.updateVersions, Kv2Store.get_onSecret] at found
  by_cases here : path' = path
  · subst here
    rw [if_pos rfl] at found
    obtain ⟨secret, there, rfl⟩ := Option.map_eq_some_iff.mp found
    exact (inv path' secret there).changes change versions.zipIdx
  · rw [if_neg here] at found
    exact (inv path' secret' found).others fun e mem => by
      rw [path_of_mem_changes mem]
      exact Ne.symm here

lemma Inv.deleteSecret {clock : ℕ → ℤ} {path : Bytes}
    (st : step checks rfc3339 mount s (.deleteSecret clock path) = some s') : Inv checks mount s' := by
  cases st
  intro path' secret' found
  rw [Kv2.deleteSecret, Kv2Store.get_onSecret] at found
  by_cases here : path' = path
  · subst here
    rw [if_pos rfl] at found
    obtain ⟨secret, there, rfl⟩ := Option.map_eq_some_iff.mp found
    rw [there]
    exact (inv path' secret there).change (.deleted (clock 0))
  · rw [if_neg here] at found
    exact (inv path' secret' found).others fun e mem => by
      rw [path_of_mem_changes mem]
      exact Ne.symm here

lemma Inv.secretOr (clock : ℕ → ℤ) (path : Bytes) :
    (s.store.secretOr clock mount path).Tracked checks s.log path := by
  cases found : s.store.get mount path with
  | none =>
    rw [Kv2Store.secretOr, found]
    exact .default checks s.log path _ _
  | some secret =>
    rw [Kv2Store.secretOr_of_get found]
    exact inv path secret found

lemma Inv.write {clock : ℕ → ℤ} {path : Bytes} {cas : Option ℕ}
    {data : Table Bytes Json} (st : step checks rfc3339 mount s (.write clock path cas data) = some s') :
    Inv checks mount s' := by
  have tracked := inv.secretOr clock path
  obtain ⟨count, first, numbered⟩ := tracked.numbered
  obtain ⟨after, found, outcome⟩ := @writeSecret_outcome checks rfc3339 clock s.store mount path cas data
    (fun v mem checked => numbered.le_current mem checked) (by rw [numbered.maxVersions]; decide)
  cases outcome with
  | refused none same =>
    simp only [step, none, Option.some.injEq] at st
    subst st
    intro path' secret' found'
    by_cases here : path' = path
    · subst here
      cases found.symm.trans found'
      rw [same]
      exact tracked
    · rw [writeSecret_get_ne here] at found'
      exact inv path' secret' found'
  | @wrote newVersion compared some wrote =>
    simp only [step, some, Option.some.injEq] at st
    subst st
    intro path' secret' found'
    by_cases here : path' = path
    · subst here
      cases found.symm.trans found'
      exact tracked.write wrote
    · rw [writeSecret_get_ne here] at found'
      exact (inv path' secret' found').other (Ne.symm here)

lemma Inv.step {e : Event} (st : Kv2Mount.step checks rfc3339 mount s e = some s') :
    Inv checks mount s' := by
  cases e with
  | write clock path cas data => exact inv.write st
  | deleteSecret clock path => exact inv.deleteSecret st
  | deleteVersions clock path versions =>
    cases st
    exact inv.onSecret path versions fun i => .deleted (clock i)
  | undeleteVersions path versions =>
    cases st
    exact inv.onSecret path versions fun _ => .undeleted
  | destroyVersions path versions =>
    cases st
    exact inv.onSecret path versions fun _ => .destroyed
  | read clock path read =>
    cases st
    exact inv

end

lemma Inv.start {store : Kv2Store} (fresh : store.lookup mount = none) : Inv checks mount ⟨store, []⟩ := by
  intro path secret found
  rw [Kv2Store.get, fresh] at found
  cases found

/-- A read of a version that is gone is refused exactly if it goes through `read_secret`, or the version was
destroyed, or it is not stored. -/
theorem withheld_iff {es : List Event} {store : Kv2Store} (fresh : store.lookup mount = none)
    (ran : run (Kv2Mount.step checks rfc3339 mount) ⟨store, []⟩ es = some s) (clock : ℕ → ℤ) {path : Bytes}
    (read : Kv2Read) (gone : ∀ secret, s.store.get mount path = some secret →
      (fate path (read.version secret) s.log).Gone (clock 0)) :
    Withheld (read.handle rfc3339 clock s.store mount path) ↔
      read = .readSecret ∨ ∀ secret, s.store.get mount path = some secret →
        fate path (read.version secret) s.log = .destroyed ∨ secret.getVersion (read.version secret) = none := by
  have inv : Inv checks mount s := invariant_of_run (fun inv st => Inv.step inv st) ran (Inv.start fresh)
  cases found : s.store.get mount path with
  | none => exact ⟨fun _ => .inr nofun, fun _ => read.withheld_of_absent fun _ there => by simp [found] at there⟩
  | some secret =>
    have gone := gone secret found
    have only : ∀ {P : Kv2Secret → Prop}, P secret → ∀ secret', some secret = some secret' → P secret' := by
      rintro P holds secret' ⟨⟩
      exact holds
    cases stored : secret.getVersion (read.version secret) with
    | none => exact ⟨fun _ => .inr (only (.inr stored)), fun _ => read.withheld_of_absent (found ▸ only stored)⟩
    | some v =>
      have agrees := (inv path secret found).agrees v (List.mem_of_find?_eq_some stored)
      have number : v.version = read.version secret := by simpa using List.find?_some stored
      rw [number] at agrees
      cases read with
      | readSecret => exact ⟨fun _ => .inl rfl, fun _ => readSecret_withheld found stored (agrees.gone gone)⟩
      | readSecretVersion version =>
        rw [Kv2Read.handle, readSecretVersion_withheld found stored agrees.data, agrees.destroyed]
        constructor
        · exact fun ended => .inr (only (.inl ended))
        · rintro (eq | ended)
          · cases eq
          · rcases ended secret rfl with ended | none
            · exact ended
            · rw [stored] at none
              cases none

/-- Two versions, one of them deleted and the other destroyed. -/
def goneVersions : List Event :=
  [.write (fun _ => 0) [] none ∅, .write (fun _ => 1) [] (some 1) ∅, .deleteSecret (fun _ => 2) [],
   .destroyVersions [] [1], .undeleteVersions [] [1]]

/-- `read_secret` does not answer with a version that was deleted, and neither handler with one that was
destroyed. -/
theorem withheld_of_gone :
    ∃ s secret, run (Kv2Mount.step true (fun _ => []) []) ⟨∅, []⟩ goneVersions = some s ∧
      s.store.get [] [] = some secret ∧
      fate [] 2 s.log = .deleted 2 ∧ Withheld (Kv2Read.readSecret.handle (fun _ => []) (fun _ => 3) s.store [] []) ∧
      fate [] 1 s.log = .destroyed ∧
      Withheld ((Kv2Read.readSecretVersion (some (word "1"))).handle (fun _ => []) (fun _ => 3) s.store [] []) := by
  refine ⟨_, _, rfl, rfl, rfl, ?_, rfl, ?_⟩
  · refine (@withheld_iff true (fun _ => []) [] _ goneVersions ∅ rfl rfl (fun _ => 3) [] .readSecret ?_).mpr (.inl rfl)
    rintro secret ⟨⟩
    exact (by decide : (2 : ℤ) < 3)
  · refine (@withheld_iff true (fun _ => []) [] _ goneVersions ∅ rfl rfl (fun _ => 3) []
      (.readSecretVersion (some (word "1"))) ?_).mpr (.inr ?_)
    · rintro secret ⟨⟩
      trivial
    · rintro secret ⟨⟩
      exact .inl rfl

/-- The route for reading data answers with the data of a version that was deleted, whether it is named or
the current one. -/
theorem deleted_data_read :
    ∃ s, run (Kv2Mount.step true (fun _ => []) []) ⟨∅, []⟩
        [.write (fun _ => 0) [] none (AList.insert (word "password") (.string (word "hunter2")) ∅),
         .deleteSecret (fun _ => 1) []] = some s ∧
      fate [] 1 s.log = .deleted 1 ∧
      dataOf ((Kv2Read.readSecretVersion none).handle (fun _ => []) (fun _ => 2) s.store [] []) =
        some (.object [(word "password", .string (word "hunter2"))]) ∧
      dataOf ((Kv2Read.readSecretVersion (some (word "1"))).handle (fun _ => []) (fun _ => 2) s.store [] []) =
        some (.object [(word "password", .string (word "hunter2"))]) :=
  ⟨_, rfl, rfl, rfl, rfl⟩

end Steps

end Kv2Mount

end Vault
