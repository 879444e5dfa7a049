import CaveRuntime.Common.MachineInt
import CaveRuntime.Common.Text
import CaveRuntime.Vault.Lease
import CaveRuntime.Vault.Seal

/-!
# The vault: tokens

Model of `cave-vault/src/token.rs` and of `create_token` and `create_orphan_token` in `auth/token.rs`.
`create` takes the policies and the id of the new token from the request: it compares the policies with
nothing, and under an id that is taken it replaces the token that is there. Whoever has a token gets every
policy they name, unless every request keeps to the policies of the token it comes with and to an id that is
not yet taken.

Times are in nanoseconds. A call that fails or panics has not written to the store.
-/

namespace Vault
open MachineInt Run Text Utf8

/-! ## Durations -/

/-- An ASCII letter. The source also ends the number at another letter; what starts with one is no unit,
and what ends before a later one is no number, so that both give 0. -/
def isLetter (c : UInt8) : Bool := (65 ≤ c && c ≤ 90) || (97 ≤ c && c ≤ 122)

/-- `parse_duration`; `none` if a product panics. -/
def parseDuration (checks : Bool) (s : Bytes) : Option ℤ :=
  if s = [] then some 0
  else
    let s := trim s
    match parseI64 s with
    | some n => some n
    | none =>
      let (numStr, unit) := s.span (fun c => !isLetter c)
      let num := (parseI64 numStr).getD 0
      if unit = word "s" then some num
      else if unit = word "m" then mul checks i64Max num 60
      else if unit = word "h" then mul checks i64Max num 3600
      else if unit = word "d" then mul checks i64Max num 86400
      else some 0

example : parseDuration true (word " 12h ") = some 43200 := by decide

/-! ## Tokens -/

inductive TokenType where
  | service
  | batch
  | default
deriving DecidableEq, Repr

/-- The `Display` of a token type. -/
def TokenType.display : TokenType → Bytes
  | .service | .default => word "service"
  | .batch => word "batch"

structure VaultToken where
  id : Bytes
  accessor : Bytes
  policies : List String
  metadata : Table Bytes Bytes
  ttl : ℤ
  maxTtl : ℤ
  createdAt : ℤ
  expiresAt : Option ℤ
  renewable : Bool
  orphan : Bool
  displayName : Bytes
  numUses : ℤ
  usesRemaining : ℤ
  tokenType : TokenType
  parent : Option Bytes
  entityId : Bytes
  isRoot : Bool
  period : Option ℤ
  explicitMaxTtl : ℤ
  boundCidrs : List Bytes
  roleName : Option Bytes

structure AuthInfo where
  clientToken : Bytes
  accessor : Bytes
  policies : List String
  tokenPolicies : List String
  metadata : Table Bytes Bytes
  leaseDuration : ℤ
  renewable : Bool
  entityId : Bytes
  tokenType : Bytes
  orphan : Bool

namespace VaultToken

def isExpired (token : VaultToken) (now : ℤ) : Bool := token.expiresAt.any (· < now)

def remainingTtl (token : VaultToken) (now : ℤ) : ℤ :=
  match token.expiresAt with
  | some exp => max ((exp - now).tdiv second) 0
  | none => 0

/-- The increment of a renewal, capped by the maximum lifetime. -/
def increment (token : VaultToken) (incrementSecs : ℤ) : ℤ :=
  if 0 < token.maxTtl then min incrementSecs token.maxTtl else incrementSecs

lemma increment_le (token : VaultToken) (incrementSecs : ℤ) :
    token.increment incrementSecs ≤ incrementSecs := by
  unfold increment
  split
  · exact min_le_left _ _
  · exact le_refl _

def toAuthInfo (token : VaultToken) (now : ℤ) : AuthInfo where
  clientToken := token.id
  accessor := token.accessor
  policies := token.policies
  tokenPolicies := token.policies
  metadata := token.metadata
  leaseDuration := token.remainingTtl now
  renewable := token.renewable
  entityId := token.entityId
  tokenType := token.tokenType.display
  orphan := token.orphan

end VaultToken

/-- `CreateTokenParams`; nothing reads the alias of an entity. -/
structure CreateTokenParams where
  id : Option Bytes := none
  policies : Option (List String) := none
  metadata : Option (Table Bytes Bytes) := none
  noParent : Option Bool := none
  noDefaultPolicy : Option Bool := none
  renewable : Option Bool := none
  ttl : Option Bytes := none
  explicitMaxTtl : Option Bytes := none
  displayName : Option Bytes := none
  numUses : Option ℤ := none
  period : Option Bytes := none
  roleName : Option Bytes := none
  tokenType : Option Bytes := none
  boundCidrs : Option (List Bytes) := none

namespace CreateTokenParams

/-- A duration of the request, if there is one and it is positive; the outer `none` is a panic. -/
def positive (checks : Bool) : Option Bytes → Option (Option ℤ)
  | none => some none
  | some s => (parseDuration checks s).map fun t => if 0 < t then some t else none

/-- The lifetime of the new token. -/
def ttlSecs (checks : Bool) (params : CreateTokenParams) : Option ℤ :=
  (positive checks params.ttl).map (·.getD 3600)

/-- Its maximum lifetime. -/
def maxTtlSecs (checks : Bool) (params : CreateTokenParams) : Option ℤ := do
  let ttl ← params.ttlSecs checks
  match ← positive checks params.explicitMaxTtl with
  | some t => return t
  | none => mul checks i64Max ttl 8

/-- Its policies. -/
def newPolicies (params : CreateTokenParams) (parent : Option VaultToken) : List String :=
  let policies := params.policies.getD []
  let policies :=
    if params.noDefaultPolicy.getD false = false ∧ "default" ∉ policies then policies ++ ["default"]
    else policies
  match policies, parent with
  | [], some parent => parent.policies
  | policies, _ => policies

/-- The new token; `none` if something panics. -/
def token (checks : Bool) (chrono : Chrono) (now : ℤ) (id accessor : Bytes) (params : CreateTokenParams)
    (parent : Option VaultToken) : Option VaultToken := do
  let ttl ← params.ttlSecs checks
  let maxTtl ← params.maxTtlSecs checks
  let expiresAt ← (if 0 < ttl then (chrono.add now ttl).map some else some none)
  let orphan := params.noParent.getD false || parent.isNone
  let period ← positive checks params.period
  return {
    id
    accessor
    policies := params.newPolicies parent
    metadata := params.metadata.getD ∅
    ttl
    maxTtl
    createdAt := now
    expiresAt
    renewable := params.renewable.getD true
    orphan
    displayName := params.displayName.getD (word "token")
    numUses := params.numUses.getD 0
    usesRemaining := params.numUses.getD 0
    tokenType := if params.tokenType = some (word "batch") then .batch else .service
    parent := if orphan then none else parent.map (·.id)
    entityId := []
    isRoot := false
    period
    explicitMaxTtl := maxTtl
    boundCidrs := params.boundCidrs.getD []
    roleName := params.roleName }

end CreateTokenParams

/-! ## The store -/

structure TokenStore where
  tokens : Table Bytes VaultToken := ∅
  accessors : Table Bytes Bytes := ∅
  children : Table Bytes (List Bytes) := ∅

namespace TokenStore

def genTokenId (codec : Codec) (rng : Rng) : Except Failure Bytes := do
  let bytes ← SealState.random rng 0 16
  return word "hvs." ++ codec.urlSafeNoPad bytes

def genAccessor (codec : Codec) (rng : Rng) : Except Failure Bytes := do
  let bytes ← SealState.random rng 1 12
  return codec.hexEncode bytes

/-- The id of a new token: the one of the request, or a drawn one. -/
def newId (codec : Codec) (rng : Rng) (params : CreateTokenParams) : Except Failure Bytes :=
  match params.id with
  | some id => return id
  | none => genTokenId codec rng

/-- Enter a new token. -/
def enter (store : TokenStore) (token : VaultToken) : TokenStore where
  tokens := store.tokens.insert token.id token
  accessors := store.accessors.insert token.accessor token.id
  children :=
    match token.parent with
    | some parent => store.children.insert parent ((store.children.lookup parent).getD [] ++ [token.id])
    | none => store.children

def create (checks : Bool) (codec : Codec) (chrono : Chrono) (rng : Rng) (now : ℤ) (store : TokenStore)
    (params : CreateTokenParams) (parent : Option VaultToken) : Except Failure (VaultToken × TokenStore) := do
  let id ← newId codec rng params
  let accessor ← genAccessor codec rng
  match params.token checks chrono now id accessor parent with
  | none => throw .panic
  | some token => return (token, store.enter token)

def createRoot (now : ℤ) (store : TokenStore) (rootTokenId : Bytes) : VaultToken × TokenStore :=
  let token : VaultToken := {
    id := rootTokenId
    accessor := word "root-accessor"
    policies := ["root"]
    metadata := ∅
    ttl := 0
    maxTtl := 0
    createdAt := now
    expiresAt := none
    renewable := false
    orphan := true
    displayName := word "root"
    numUses := 0
    usesRemaining := 0
    tokenType := .service
    parent := none
    entityId := []
    isRoot := true
    period := none
    explicitMaxTtl := 0
    boundCidrs := []
    roleName := none }
  (token, store.enter token)

def lookup (store : TokenStore) (now : ℤ) (id : Bytes) : Option VaultToken :=
  (store.tokens.lookup id).filter fun token => !token.isExpired now

def renew (chrono : Chrono) (now : ℤ) (store : TokenStore) (id : Bytes) (incrementSecs : ℤ) :
    Except Failure (VaultToken × TokenStore) :=
  match store.tokens.lookup id with
  | none => .error (.error .tokenNotFound)
  | some token =>
    if token.renewable = false then .error (.error (.invalidRequest "token is not renewable"))
    else
      let increment := token.increment incrementSecs
      match chrono.add now increment with
      | none => .error .panic
      | some expiresAt =>
        let token := { token with expiresAt := some expiresAt, ttl := increment }
        .ok (token, { store with tokens := store.tokens.insert id token })

def revoke (store : TokenStore) (id : Bytes) : Bool × TokenStore :=
  match store.tokens.lookup id with
  | some token =>
    (true, { store with tokens := store.tokens.erase id, accessors := store.accessors.erase token.accessor })
  | none => (false, store)

end TokenStore

end Vault
