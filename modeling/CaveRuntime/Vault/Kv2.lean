import CaveRuntime.Common.Json
import CaveRuntime.Common.MachineInt
import CaveRuntime.Common.Refusal
import CaveRuntime.Vault.Shamir

/-!
# The vault: the KV v2 engine

Model of the handlers of `cave-vault/src/engines/kv2.rs` that read, write, delete and destroy versions, of
`write_metadata`, and of `read_secret`, which no router mounts, after the token is taken from the header. Each
of them holds the lock of the store from its first look to its answer. A handler gets the readings of the
clock in the order in which it takes them, and `to_rfc3339` of `chrono` is a parameter.

`write_secret` makes the entry of a path before it compares the version, so that a write that fails can
leave an empty secret behind.
-/

namespace Vault
open MachineInt Refusal Text Utf8

/-- `VaultResponse`: the field that the handlers set. -/
structure VaultResponse where
  data : Option Json := none

/-- `VaultResponse::new().with_data(json!({ … }))`. -/
def VaultResponse.withFields (fields : List (String × Json)) : VaultResponse := ⟨some (Json.obj fields)⟩

structure Kv2Version where
  version : ℕ
  data : Option (Table Bytes Json)
  createdTime : ℤ
  deletionTime : Option ℤ
  destroyed : Bool

structure Kv2Secret where
  versions : List Kv2Version
  currentVersion : ℕ
  oldestVersion : ℕ
  createdTime : ℤ
  updatedTime : ℤ
  maxVersions : ℕ
  casRequired : Bool
  deleteVersionAfter : ℤ
  customMetadata : Table Bytes Bytes

namespace Kv2Secret

/-- `Kv2Secret::default`, at two readings of the clock. -/
def default (created updated : ℤ) : Kv2Secret where
  versions := []
  currentVersion := 0
  oldestVersion := 0
  createdTime := created
  updatedTime := updated
  maxVersions := 10
  casRequired := false
  deleteVersionAfter := 0
  customMetadata := ∅

def getVersion (secret : Kv2Secret) (n : ℕ) : Option Kv2Version := secret.versions.find? (·.version = n)

/-- Change the version that `get_version_mut` finds. -/
def updateVersion (secret : Kv2Secret) (n : ℕ) (f : Kv2Version → Kv2Version) : Kv2Secret :=
  { secret with versions := secret.versions.replaceF fun v => if v.version = n then some (f v) else none }

/-- Add a version and make it the current one. -/
def push (secret : Kv2Secret) (newVersion : ℕ) (data : Table Bytes Json) (now : ℤ) : Kv2Secret :=
  { secret with
    versions := secret.versions ++ [⟨newVersion, some data, now, none, false⟩]
    currentVersion := newVersion
    updatedTime := now }

/-- The loop of `write_secret` that removes the oldest versions: whether it ends without a panic, and what
is left. -/
def evict (checks : Bool) : ℕ → Kv2Secret → Bool × Kv2Secret
  | 0, secret => (true, secret)
  | n + 1, secret =>
    match secret.versions with
    | [] => evict checks n secret
    | v :: versions =>
      match addU64 checks v.version 1 with
      | none => (false, secret)
      | some oldestVersion => evict checks n { secret with oldestVersion, versions }

end Kv2Secret

/-- `Kv2Store`: mount, path, secret. -/
abbrev Kv2Store := Table Bytes (Table Bytes Kv2Secret)

namespace Kv2Store

/-- `data.get(&mount).and_then(|m| m.get(&path))`. -/
def get (store : Kv2Store) (mount path : Bytes) : Option Kv2Secret :=
  (store.lookup mount).bind fun secrets => secrets.lookup path

/-- Put a secret under a path. -/
def put (store : Kv2Store) (mount path : Bytes) (secret : Kv2Secret) : Kv2Store :=
  store.insert mount (((store.lookup mount).getD ∅).insert path secret)

/-- `entry(mount).or_default().entry(path).or_default()`: the secret, and the store that has it. -/
def entry (clock : ℕ → ℤ) (store : Kv2Store) (mount path : Bytes) : Kv2Secret × Kv2Store :=
  match store.get mount path with
  | some secret => (secret, store)
  | none =>
    let secret := Kv2Secret.default (clock 0) (clock 1)
    (secret, store.put mount path secret)

/-- Change a secret that is there. -/
def onSecret (store : Kv2Store) (mount path : Bytes) (f : Kv2Secret → Kv2Secret) : Kv2Store :=
  store.modify mount fun secrets => secrets.modify path f

end Kv2Store

/-- `UpdateMetadataRequest`; nothing reads `delete_version_after`. -/
structure UpdateMetadataRequest where
  maxVersions : Option ℕ := none
  casRequired : Option Bool := none
  customMetadata : Option (Table Bytes Bytes) := none

namespace Kv2

section Handlers

variable (checks : Bool) (rfc3339 : ℤ → Bytes) (clock : ℕ → ℤ) (store : Kv2Store) (mount path : Bytes)

/-- The `deletion_time` of an answer. -/
def deletionText (v : Kv2Version) : Json := .string ((v.deletionTime.map rfc3339).getD [])

/-- The version that a read asks for. -/
def versionNum (secret : Kv2Secret) (version : Option Bytes) : ℕ :=
  (version.bind parseU64).getD secret.currentVersion

/-- `read_secret`, which no route leads to. -/
def readSecret : Except Failure VaultResponse := do
  let secret ← okOr (.error .secretNotFound) (store.get mount path)
  let v ← okOr (.error .secretNotFound) (secret.getVersion secret.currentVersion)
  if v.destroyed || v.deletionTime.any (· < clock 0) then throw (.error .secretNotFound)
  return .withFields [
    ("data", (v.data.map Json.ofTable).getD .null),
    ("metadata", .obj [
      ("version", .number v.version),
      ("created_time", .string (rfc3339 v.createdTime)),
      ("deletion_time", deletionText rfc3339 v),
      ("destroyed", .bool v.destroyed)])]

def readSecretVersion (version : Option Bytes) : Except Failure VaultResponse := do
  let secret ← okOr (.error .secretNotFound) (store.get mount path)
  let v ← okOr (.error .secretNotFound) (secret.getVersion (versionNum secret version))
  if v.destroyed then
    return .withFields [
      ("data", .null),
      ("metadata", .obj [("version", .number v.version), ("destroyed", .bool true)])]
  else
    return .withFields [
      ("data", (v.data.map Json.ofTable).getD .null),
      ("metadata", .obj [
        ("version", .number v.version),
        ("created_time", .string (rfc3339 v.createdTime)),
        ("deletion_time", deletionText rfc3339 v),
        ("destroyed", .bool v.destroyed)])]

def writeSecret (cas : Option ℕ) (data : Table Bytes Json) : Except Failure VaultResponse × Kv2Store :=
  let (secret, store) := store.entry clock mount path
  if cas.any (· ≠ secret.currentVersion) then (.error (.error .casFailed), store)
  else
    match addU64 checks secret.currentVersion 1 with
    | none => (.error .panic, store)
    | some newVersion =>
      let now := clock 2
      let secret := secret.push newVersion data now
      let (fine, secret) := secret.evict checks (secret.versions.length - secret.maxVersions)
      let store := store.put mount path secret
      if fine then
        (.ok (.withFields [("version", .number newVersion), ("created_time", .string (rfc3339 now))]), store)
      else (.error .panic, store)

def deleteSecret : Kv2Store :=
  store.onSecret mount path fun secret =>
    secret.updateVersion secret.currentVersion fun v => { v with deletionTime := some (clock 0) }

/-- Change the versions of a request, one after the other. -/
def updateVersions (versions : List ℕ) (f : ℕ → Kv2Version → Kv2Version) : Kv2Store :=
  store.onSecret mount path fun secret =>
    versions.zipIdx.foldl (fun secret v => secret.updateVersion v.1 (f v.2)) secret

/-- `delete_versions`; the clock is read for each of them. -/
def deleteVersions (versions : List ℕ) : Kv2Store :=
  updateVersions store mount path versions fun i v => { v with deletionTime := some (clock i) }

def undeleteVersions (versions : List ℕ) : Kv2Store :=
  updateVersions store mount path versions fun _ v =>
    if v.destroyed then v else { v with deletionTime := none }

def destroyVersions (versions : List ℕ) : Kv2Store :=
  updateVersions store mount path versions fun _ v => { v with destroyed := true, data := none }

def writeMetadata (body : UpdateMetadataRequest) : Kv2Store :=
  let (secret, store) := store.entry clock mount path
  store.put mount path { secret with
    maxVersions := body.maxVersions.getD secret.maxVersions
    casRequired := body.casRequired.getD secret.casRequired
    customMetadata := body.customMetadata.getD secret.customMetadata }

end Handlers

end Kv2

end Vault
