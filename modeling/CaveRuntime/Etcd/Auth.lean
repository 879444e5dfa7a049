import CaveRuntime.Common.Run
import CaveRuntime.Etcd.Store

/-!
# The etcd-compatible store: authentication

Model of `crates/compute/cave-etcd/src/store.rs`, lines 826-1092 (users, roles, tokens and
`check_auth_token`), and of the permission evaluator of `rbac_deeper.rs`, lines 77-133. The responses hold
the store's header and nothing else unless said otherwise, and only the rest of them is returned here. A
call that draws a random salt or a random token has it as an argument.
-/

namespace Etcd
open Utf8

/-- The `bcrypt` crate; `hash` is given the salt that it draws. -/
structure Bcrypt where
  hash : ℕ → String → Except String String
  verify : String → String → Except String Bool

/-- The store with its users, roles and tokens. -/
structure AuthStore where
  kv : KvStore := {}
  authEnabled : Bool := false
  users : Table String AuthUser := ∅
  roles : Table String AuthRole := ∅
  authTokens : Table String String := ∅

namespace AuthStore

def new : AuthStore := {}

variable (s : AuthStore)

def authEnable : Except EtcdError AuthStore :=
  if s.authEnabled then .error .authAlreadyEnabled else .ok { s with authEnabled := true }

def authDisable : Except EtcdError AuthStore :=
  if s.authEnabled then .ok { s with authEnabled := false } else .error .authNotEnabled

/-- The check of `authenticate`, which is made only while auth is enabled. -/
def checkPassword (bcrypt : Bcrypt) (s : AuthStore) (name password : String) : Except EtcdError Unit :=
  if s.authEnabled then
    match s.users.lookup name with
    | none => .error (.userNotFound name)
    | some user =>
      match bcrypt.verify password user.password with
      | .error e => .error (.internal e)
      | .ok valid => if valid then .ok () else .error .invalidPassword
  else .ok ()

/-- Rust `authenticate`: the token, and the store that knows it. -/
def authenticate (bcrypt : Bcrypt) (s : AuthStore) (name password token : String) :
    Except EtcdError (String × AuthStore) :=
  match s.checkPassword bcrypt name password with
  | .error e => .error e
  | .ok () => .ok (token, { s with authTokens := s.authTokens.insert token name })

def userAdd (bcrypt : Bcrypt) (s : AuthStore) (name password : String) (salt : ℕ) :
    Except EtcdError AuthStore :=
  if (s.users.lookup name).isSome then .error (.userAlreadyExists name)
  else
    match bcrypt.hash salt password with
    | .error e => .error (.internal e)
    | .ok hashed => .ok { s with users := s.users.insert name ⟨name, hashed, []⟩ }

/-- Rust `user_delete`: the tokens of the user stay. -/
def userDelete (name : String) : Except EtcdError AuthStore :=
  match s.users.lookup name with
  | none => .error (.userNotFound name)
  | some _ => .ok { s with users := s.users.erase name }

/-- Rust `user_get`: the roles of a user. -/
def userGet (name : String) : Except EtcdError (List String) :=
  match s.users.lookup name with
  | none => .error (.userNotFound name)
  | some user => .ok user.roles

def userChangePassword (bcrypt : Bcrypt) (s : AuthStore) (name password : String) (salt : ℕ) :
    Except EtcdError AuthStore :=
  match s.users.lookup name with
  | none => .error (.userNotFound name)
  | some user =>
    match bcrypt.hash salt password with
    | .error e => .error (.internal e)
    | .ok hashed => .ok { s with users := s.users.insert name { user with password := hashed } }

def userGrantRole (user role : String) : Except EtcdError AuthStore :=
  if (s.roles.lookup role).isNone then .error (.roleNotFound role)
  else
    match s.users.lookup user with
    | none => .error (.userNotFound user)
    | some u =>
      if role ∈ u.roles then .ok s
      else .ok { s with users := s.users.insert user { u with roles := u.roles ++ [role] } }

def userRevokeRole (name role : String) : Except EtcdError AuthStore :=
  match s.users.lookup name with
  | none => .error (.userNotFound name)
  | some user =>
    if role ∈ user.roles then
      .ok { s with users := s.users.insert name { user with roles := user.roles.filter (· ≠ role) } }
    else .error .roleNotGranted

def roleAdd (name : String) : Except EtcdError AuthStore :=
  if (s.roles.lookup name).isSome then .error (.roleAlreadyExists name)
  else .ok { s with roles := s.roles.insert name ⟨name, []⟩ }

/-- Rust `role_delete`: users keep the name of the role. -/
def roleDelete (role : String) : Except EtcdError AuthStore :=
  match s.roles.lookup role with
  | none => .error (.roleNotFound role)
  | some _ => .ok { s with roles := s.roles.erase role }

/-- Rust `role_get`: the name and the permissions of a role. -/
def roleGet (role : String) : Except EtcdError (String × List Permission) :=
  match s.roles.lookup role with
  | none => .error (.roleNotFound role)
  | some r => .ok (r.name, r.keyPermission)

/-- The permissions that are not for the given keys. -/
def otherPermissions (key : Str) (rangeEnd : Option Str) (ps : List Permission) : List Permission :=
  ps.filter fun p => !(p.key = key && p.rangeEnd = rangeEnd)

def roleGrantPermission (name : String) (perm : Permission) :
    Except EtcdError AuthStore :=
  match s.roles.lookup name with
  | none => .error (.roleNotFound name)
  | some role =>
    let kept := otherPermissions perm.key perm.rangeEnd role.keyPermission
    .ok { s with roles := s.roles.insert name { role with keyPermission := kept ++ [perm] } }

def roleRevokePermission (role : String) (key : Str) (rangeEnd : Option Str) :
    Except EtcdError AuthStore :=
  match s.roles.lookup role with
  | none => .error (.roleNotFound role)
  | some r =>
    let kept := otherPermissions key rangeEnd r.keyPermission
    if kept.length = r.keyPermission.length then .error .permissionAlreadyGranted
    else .ok { s with roles := s.roles.insert role { r with keyPermission := kept } }

end AuthStore

/-! ## Permissions -/

namespace Permission

/-- The permission is for the wanted kind of access. -/
def covers (p : Permission) (desired : PermType) : Bool :=
  p.permType = desired || p.permType = .readwrite

/-- The test of a permission in `check_auth_token`. -/
def permits (p : Permission) (key : Bytes) (desired : PermType) : Bool :=
  p.covers desired && inRange p.key.asBytes (p.rangeEnd.map (·.asBytes)) key

/-- Rust `permission_matches_key`, of `rbac_deeper`: the range end of one zero byte stands for a prefix. -/
def matchesKey (p : Permission) (key : Bytes) (desired : PermType) : Bool :=
  p.covers desired &&
    match p.rangeEnd with
    | none => key = p.key.asBytes
    | some rangeEnd =>
      if rangeEnd.asBytes = [0] then p.key.asBytes.isPrefixOf key
      else p.key.asBytes ≤ key && key < rangeEnd.asBytes

end Permission

/-- What `effective_permissions` distinguishes permissions by. -/
abbrev PermissionKey := Bytes × Option Bytes × String

def Permission.byKey (p : Permission) : PermissionKey :=
  (p.key.asBytes, p.rangeEnd.map (·.asBytes), p.permType.debug)

/-- The order of `Option`s of strings. -/
def optionLt : Option Bytes → Option Bytes → Bool
  | none, some _ => true
  | some a, some b => a < b
  | _, _ => false

/-- The order of the keys of a `BTreeMap` of permissions. -/
def PermissionKey.le (a b : PermissionKey) : Bool :=
  a.1 < b.1 ||
    (a.1 = b.1 && (optionLt a.2.1 b.2.1 || (a.2.1 = b.2.1 && decide (a.2.2 ≤ b.2.2))))

namespace AuthStore

/-- The loops of `check_auth_token`: a role that does not exist is passed over. -/
def rolesPermit (s : AuthStore) (roles : List String) (key : Bytes) (perm : PermType) : Bool :=
  roles.any fun roleName =>
    match s.roles.lookup roleName with
    | none => false
    | some role => role.keyPermission.any (·.permits key perm)

def checkAuthToken (s : AuthStore) (token : Option String) (key : Bytes) (perm : PermType) :
    Except EtcdError Unit :=
  if !s.authEnabled then .ok ()
  else
    match token with
    | none => .error .invalidToken
    | some token =>
      match s.authTokens.lookup token with
      | none => .error .invalidToken
      | some username =>
        if username = "root" then .ok ()
        else
          match s.users.lookup username with
          | none => .error (.userNotFound username)
          | some user =>
            if s.rolesPermit user.roles key perm then .ok () else .error .permissionDenied

/-- The loop of `effective_permissions`: a role that does not exist is an error. -/
def collect (s : AuthStore) : List String → Table PermissionKey Permission →
    Except EtcdError (Table PermissionKey Permission)
  | [], byKey => .ok byKey
  | roleName :: roleNames, byKey =>
    match s.roleGet roleName with
    | .error e => .error e
    | .ok (_, perms) => s.collect roleNames (perms.foldl (fun t p => t.insert p.byKey p) byKey)

def intoValues (byKey : Table PermissionKey Permission) : List Permission :=
  (byKey.entries.insertionSort fun a b => PermissionKey.le a.1 b.1).map Sigma.snd

/-- Rust `effective_permissions`, of `rbac_deeper`. -/
def effectivePermissions (s : AuthStore) (username : String) : Except EtcdError (List Permission) :=
  match s.userGet username with
  | .error e => .error e
  | .ok roles => (s.collect roles ∅).map intoValues

/-- Rust `user_can_access`, of `rbac_deeper`. -/
def userCanAccess (s : AuthStore) (username : String) (key : Bytes) (desired : PermType) :
    Except EtcdError Bool :=
  if username = "root" then .ok true
  else (s.effectivePermissions username).map fun perms => perms.any (·.matchesKey key desired)

end AuthStore

/-! ## Runs -/

/-- A call that changes users, roles or tokens. -/
inductive AuthOp where
  | authEnable
  | authDisable
  | userAdd (name password : String) (salt : ℕ)
  | userDelete (name : String)
  | userChangePassword (name password : String) (salt : ℕ)
  | userGrantRole (user role : String)
  | userRevokeRole (name role : String)
  | roleAdd (name : String)
  | roleDelete (role : String)
  | roleGrantPermission (name : String) (perm : Permission)
  | roleRevokePermission (role : String) (key : Str) (rangeEnd : Option Str)
  | authenticate (name password token : String)

namespace AuthOp

/-- The result of a call. -/
def result (bcrypt : Bcrypt) (s : AuthStore) : AuthOp → Except EtcdError AuthStore
  | .authEnable => s.authEnable
  | .authDisable => s.authDisable
  | .userAdd name password salt => s.userAdd bcrypt name password salt
  | .userDelete name => s.userDelete name
  | .userChangePassword name password salt => s.userChangePassword bcrypt name password salt
  | .userGrantRole user role => s.userGrantRole user role
  | .userRevokeRole name role => s.userRevokeRole name role
  | .roleAdd name => s.roleAdd name
  | .roleDelete role => s.roleDelete role
  | .roleGrantPermission name perm => s.roleGrantPermission name perm
  | .roleRevokePermission role key rangeEnd => s.roleRevokePermission role key rangeEnd
  | .authenticate name password token => (s.authenticate bcrypt name password token).map Prod.snd

/-- The store after a call; a call that fails leaves it as it was. -/
def apply (bcrypt : Bcrypt) (s : AuthStore) (op : AuthOp) : AuthStore :=
  (op.result bcrypt s).toOption.getD s

end AuthOp

/-- A call, as a step of a run. -/
def AuthStore.step (bcrypt : Bcrypt) (s : AuthStore) (op : AuthOp) : Option AuthStore :=
  some (op.apply bcrypt s)

end Etcd
