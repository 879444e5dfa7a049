import CaveRuntime.Vault.Tokens

/-!
# The vault: tokens made with tokens

Model of `create_token` and `create_orphan_token` in `cave-vault/src/auth/token.rs`, and of sequences of
their requests that start from one token. Each request comes with that token or with one that an earlier
answer has given. If every request names only policies of the token it comes with, and no id under which
there is a token of others, then nothing is gained: no token of the sequence has a policy that the first
does not have, other than `default`, and the tokens of others are as they were.
-/

namespace Vault
open Run Text Utf8

/-- `extract_token`; the header is given as `to_str` reads it, if it reads it. -/
def extractToken (header : Option Bytes) : Except Failure Bytes :=
  match header with
  | some token => .ok token
  | none => .error (.error .badToken)

/-- A request to one of the two endpoints, the times at which it is handled and the generator it draws
from. -/
structure CreateRequest where
  orphan : Bool
  header : Option Bytes
  params : CreateTokenParams
  lookedUpAt : ℤ
  createdAt : ℤ
  answeredAt : ℤ
  rng : Rng

section Handlers

variable (checks : Bool) (codec : Codec) (chrono : Chrono)

/-- What both endpoints do: look up the token of the header and make a new one, with or without it as the
parent. -/
def issue (store : TokenStore) (r : CreateRequest) (params : CreateTokenParams)
    (parent : VaultToken → Option VaultToken) : Except Failure (AuthInfo × TokenStore) := do
  let tokenStr ← extractToken r.header
  match store.lookup r.lookedUpAt tokenStr with
  | none => throw (.error .badToken)
  | some caller =>
    let (token, store) ← store.create checks codec chrono r.rng r.createdAt params (parent caller)
    return (token.toAuthInfo r.answeredAt, store)

def createToken (store : TokenStore) (r : CreateRequest) : Except Failure (AuthInfo × TokenStore) :=
  issue checks codec chrono store r r.params some

def createOrphanToken (store : TokenStore) (r : CreateRequest) : Except Failure (AuthInfo × TokenStore) :=
  issue checks codec chrono store r { r.params with noParent := some true } fun _ => none

/-- The answer of the endpoint. -/
def CreateRequest.handle (store : TokenStore) (r : CreateRequest) : Except Failure (AuthInfo × TokenStore) :=
  if r.orphan then createOrphanToken checks codec chrono store r else createToken checks codec chrono store r

end Handlers

/-- The store, and the ids of the tokens that the answers have given so far. -/
structure Issuing where
  store : TokenStore
  obtained : List Bytes := []

/-- A request that comes with the first token or one of those obtained. -/
def Issuing.step (checks : Bool) (codec : Codec) (chrono : Chrono) (first : Bytes) (s : Issuing)
    (r : CreateRequest) : Option Issuing :=
  if r.header.any (first :: s.obtained).contains then
    match r.handle checks codec chrono s.store with
    | .ok (auth, store) => some ⟨store, auth.clientToken :: s.obtained⟩
    | .error _ => some s
  else none

/-! ## What a request does -/

section Outcome

variable {checks : Bool} {codec : Codec} {chrono : Chrono}

variable {params : CreateTokenParams} {parent : Option VaultToken} {now : ℤ} {token : VaultToken}
  {store store' : TokenStore}

/-- The policies of a new token come from the request, the parent or the default. -/
lemma CreateTokenParams.mem_newPolicies {p : String}
    (mem : p ∈ params.newPolicies parent) :
    p ∈ params.policies.getD [] ∨ p = "default" ∨ ∃ token ∈ parent, p ∈ token.policies := by
  unfold newPolicies at mem
  dsimp only at mem
  split at mem
  · rename_i token _
    exact .inr (.inr ⟨token, rfl, mem⟩)
  split at mem
  · obtain named | added := List.mem_append.mp mem
    · exact .inl named
    · exact .inr (.inl (List.mem_singleton.mp added))
  · exact .inl mem

/-- What a new token has. -/
structure CreateTokenParams.Made (checks : Bool) (chrono : Chrono) (now : ℤ) (id : Bytes)
    (params : CreateTokenParams) (parent : Option VaultToken) (token : VaultToken) : Prop where
  id : token.id = id
  policies : token.policies = params.newPolicies parent
  createdAt : token.createdAt = now
  maxTtl : params.maxTtlSecs checks = some token.maxTtl
  explicitMaxTtl : token.explicitMaxTtl = token.maxTtl
  ends : ∃ ttl expiresAt, params.ttlSecs checks = some ttl ∧ chrono.add now ttl = some expiresAt ∧
    token.expiresAt = some expiresAt

lemma CreateTokenParams.ttlSecs_pos {ttl : ℤ}
    (secs : params.ttlSecs checks = some ttl) : 0 < ttl := by
  obtain ⟨t, read, rfl⟩ := Option.map_eq_some_iff.mp secs
  cases given : params.ttl with
  | none =>
    rw [given] at read
    cases read
    decide
  | some s =>
    rw [given] at read
    obtain ⟨n, -, rfl⟩ := Option.map_eq_some_iff.mp read
    split
    · assumption
    · decide

lemma CreateTokenParams.made_of_token {id accessor : Bytes}
    (made : params.token checks chrono now id accessor parent = some token) :
    params.Made checks chrono now id parent token := by
  obtain ⟨ttl, secs, made⟩ := Option.bind_eq_some_iff.mp made
  obtain ⟨maxTtl, max, made⟩ := Option.bind_eq_some_iff.mp made
  obtain ⟨expiresAt, ends, made⟩ := Option.bind_eq_some_iff.mp made
  obtain ⟨period, -, made⟩ := Option.bind_eq_some_iff.mp made
  cases made
  rw [if_pos (ttlSecs_pos secs)] at ends
  obtain ⟨t, added, rfl⟩ := Option.map_eq_some_iff.mp ends
  exact ⟨rfl, rfl, rfl, max, rfl, ttl, t, secs, added, rfl⟩

/-- A creation that succeeds has named the new token, made it and entered it. -/
lemma TokenStore.create_inv {rng : Rng}
    (done : store.create checks codec chrono rng now params parent = .ok (token, store')) :
    ∃ id accessor, newId codec rng params = .ok id ∧
      params.token checks chrono now id accessor parent = some token ∧ store' = store.enter token := by
  unfold create at done
  cases name : newId codec rng params with
  | error e =>
    rw [name] at done
    cases done
  | ok id =>
    rw [name] at done
    cases drawn : genAccessor codec rng with
    | error e =>
      rw [drawn] at done
      cases done
    | ok accessor =>
      rw [drawn] at done
      simp only [bind, Except.bind] at done
      split at done
      · cases done
      · rename_i token' made
        cases done
        exact ⟨id, accessor, rfl, made, rfl⟩

lemma TokenStore.create_ok {rng : Rng}
    (done : store.create checks codec chrono rng now params parent = .ok (token, store')) :
    store' = store.enter token ∧ newId codec rng params = .ok token.id ∧
      params.Made checks chrono now token.id parent token := by
  obtain ⟨id, accessor, name, made, entered⟩ := create_inv done
  have made := CreateTokenParams.made_of_token made
  obtain rfl := made.id
  exact ⟨entered, name, made⟩

lemma TokenStore.lookup_enter (store : TokenStore) (token : VaultToken) (id : Bytes) :
    (store.enter token).tokens.lookup id = if id = token.id then some token else store.tokens.lookup id :=
  Table.lookup_insert_eq _ _ _ _

/-- What an accepted request has made. -/
structure CreateRequest.Accepted (codec : Codec) (store : TokenStore) (r : CreateRequest) (auth : AuthInfo)
    (store' : TokenStore) (id : Bytes) (caller token : VaultToken) : Prop where
  header : r.header = some id
  found : store.lookup r.lookedUpAt id = some caller
  newId : TokenStore.newId codec r.rng r.params = .ok token.id
  answer : auth.clientToken = token.id
  entered : store' = store.enter token
  policies : ∀ p ∈ token.policies, p ∈ r.params.policies.getD [] ∨ p = "default" ∨ p ∈ caller.policies

lemma issue_ok {r : CreateRequest}
    {parent : VaultToken → Option VaultToken} {auth : AuthInfo}
    (done : issue checks codec chrono store r params parent = .ok (auth, store'))
    (name : params.id = r.params.id) (policies : params.policies = r.params.policies)
    (own : ∀ caller, ∀ token ∈ parent caller, token = caller) :
    ∃ id caller token, r.Accepted codec store auth store' id caller token := by
  unfold issue at done
  cases header : r.header with
  | none =>
    rw [header] at done
    cases done
  | some id =>
    rw [header] at done
    simp only [extractToken, bind, Except.bind] at done
    split at done
    · cases done
    rename_i caller found
    split at done
    · cases done
    rename_i made created
    cases done
    obtain ⟨entered, newId, made⟩ := TokenStore.create_ok created
    rw [TokenStore.newId, name] at newId
    refine ⟨id, caller, _, header, found, newId, rfl, entered, fun p mem => ?_⟩
    rw [made.policies] at mem
    obtain named | preset | ⟨token, isParent, has⟩ := CreateTokenParams.mem_newPolicies mem
    · exact .inl (policies ▸ named)
    · exact .inr (.inl preset)
    · exact .inr (.inr (own caller token isParent ▸ has))

lemma CreateRequest.accepted_of_handle {r : CreateRequest} {auth : AuthInfo}
    (done : r.handle checks codec chrono store = .ok (auth, store')) :
    ∃ id caller token, r.Accepted codec store auth store' id caller token := by
  unfold handle at done
  split at done
  · exact issue_ok done rfl rfl fun _ _ orphan => by cases orphan
  · exact issue_ok done rfl rfl fun _ _ same => (Option.some.inj same).symm

end Outcome

/-! ## Sequences of requests -/

namespace Issuing

variable {checks : Bool} {codec : Codec} {chrono : Chrono} {before : TokenStore} {first : Bytes}
  {start : VaultToken} {s s' : Issuing} {r : CreateRequest}

/-- The policy is one of the token's, or the default. -/
def Has (token : VaultToken) (p : String) : Prop := p ∈ token.policies ∨ p = "default"
deriving Decidable

/-- The request names only policies of the token it comes with, and its new token replaces none but those
of the sequence. -/
def Modest (codec : Codec) (s : Issuing) (r : CreateRequest) : Prop :=
  (∀ id ∈ r.header, ∀ caller ∈ s.store.lookup r.lookedUpAt id, ∀ p ∈ r.params.policies.getD [],
    Has caller p) ∧
  ∀ id ∈ (TokenStore.newId codec r.rng r.params).toOption,
    id ∈ s.obtained ∨ s.store.tokens.lookup id = none
deriving Decidable

/-- Nothing is gained: the tokens obtained are new and have policies of the first, the others are as they
were. -/
structure Contained (before : TokenStore) (start : VaultToken) (s : Issuing) : Prop where
  within : ∀ id ∈ s.obtained, ∀ token ∈ s.store.tokens.lookup id, ∀ p ∈ token.policies, Has start p
  fresh : ∀ id ∈ s.obtained, before.tokens.lookup id = none
  kept : ∀ id ∉ s.obtained, s.store.tokens.lookup id = before.tokens.lookup id

lemma Contained.caller (c : Contained before start s) (look : before.tokens.lookup first = some start)
    {id : Bytes} (mem : id ∈ first :: s.obtained) {now : ℤ} {caller : VaultToken}
    (found : s.store.lookup now id = some caller) : ∀ p ∈ caller.policies, Has start p := by
  obtain ⟨there, -⟩ := Option.filter_eq_some_iff.mp found
  cases mem with
  | head =>
    have mine : first ∉ s.obtained := by
      intro mem
      cases (c.fresh first mem).symm.trans look
    rw [c.kept first mine, look] at there
    cases there
    exact fun p mem => .inl mem
  | tail _ mem => exact c.within id mem caller there

lemma Contained.step (c : Contained before start s) (look : before.tokens.lookup first = some start)
    (modest : s.Modest codec r) (st : s.step checks codec chrono first r = some s') :
    Contained before start s' := by
  obtain ⟨allowed, st⟩ := Option.ite_none_right_eq_some.mp st
  split at st
  case h_2 =>
    cases st
    exact c
  case h_1 auth store done =>
    cases st
    obtain ⟨id, caller, token, accepted⟩ := CreateRequest.accepted_of_handle done
    rw [accepted.header] at allowed
    have inherited := c.caller look (List.contains_iff_mem.mp allowed) accepted.found
    have policies : ∀ p ∈ token.policies, Has start p := by
      intro p mem
      obtain named | preset | has := accepted.policies p mem
      · obtain has | preset := modest.1 id accepted.header caller accepted.found p named
        · exact inherited p has
        · exact .inr preset
      · exact .inr preset
      · exact inherited p has
    have fresh : before.tokens.lookup token.id = none := by
      have name : token.id ∈ (TokenStore.newId codec r.rng r.params).toOption := by
        rw [accepted.newId]
        rfl
      obtain mine | free := modest.2 token.id name
      · exact c.fresh _ mine
      · by_cases mine : token.id ∈ s.obtained
        · exact c.fresh _ mine
        · rw [← c.kept _ mine, free]
    rw [accepted.answer, accepted.entered]
    refine ⟨fun id' mem => ?_, fun id' mem => ?_, fun id' other => ?_⟩
    · intro token' there
      rw [TokenStore.lookup_enter] at there
      split at there
      · cases there
        exact policies
      · rename_i ne
        exact c.within id' (List.mem_of_ne_of_mem ne mem) token' there
    · obtain rfl | mem := List.mem_cons.mp mem
      · exact fresh
      · exact c.fresh id' mem
    · rw [TokenStore.lookup_enter, if_neg (List.ne_of_not_mem_cons other),
        c.kept id' (List.not_mem_of_not_mem_cons other)]

/-- **Whoever names only policies of the token they come with, and no id of a token of others, gains nothing
by any sequence of requests: the tokens of the sequence have policies of the first, and every token from
before has the policies it had.** -/
theorem nothing_gained_of_modest (look : before.tokens.lookup first = some start)
    {requests : List CreateRequest}
    (modest : Guarded (step checks codec chrono first) (Modest codec) ⟨before, []⟩ requests)
    (ran : run (step checks codec chrono first) ⟨before, []⟩ requests = some s) :
    (∀ id ∈ s.obtained, ∀ token ∈ s.store.tokens.lookup id, ∀ p ∈ token.policies,
      p ∈ start.policies ∨ p = "default") ∧
    ∀ id old, before.tokens.lookup id = some old →
      ∃ token, s.store.tokens.lookup id = some token ∧ token.policies = old.policies := by
  have contained : Contained before start s :=
    invariant_of_guarded (P := Contained before start) (fun c modest st => c.step look modest st) modest ran
      ⟨nofun, nofun, fun _ _ => rfl⟩
  refine ⟨contained.within, fun id old there => ⟨old, ?_, rfl⟩⟩
  have other : id ∉ s.obtained := by
    intro mem
    cases (contained.fresh id mem).symm.trans there
  rw [contained.kept id other, there]

/-- A request that comes with the given token. -/
def request (orphan : Bool) (header : Bytes) (params : CreateTokenParams) : CreateRequest :=
  ⟨orphan, some header, params, 0, 0, 0, callRng⟩

/-- A store with a root token, and with a token `app` for one policy that was made with it. -/
def rootAndApp : TokenStore :=
  let (root, store) := TokenStore.createRoot 0 {} (word "root-id")
  match store.create true hexCodec Leases.exactTimes callRng 0
      { id := some (word "app"), policies := some ["reader"] } (some root) with
  | .ok (_, store) => store
  | .error _ => store

/-- A token made with `app`, and an orphan made with that one. -/
theorem nothing_gained_of_modest_two :
    ∃ start s, rootAndApp.tokens.lookup (word "app") = some start ∧
      run (step true hexCodec Leases.exactTimes (word "app")) ⟨rootAndApp, []⟩
        [request false (word "app") { id := some (word "child"), policies := some ["reader"] },
         request true (word "child") {}] = some s ∧ s.obtained.length = 2 ∧
      (∀ id ∈ s.obtained, ∀ token ∈ s.store.tokens.lookup id, ∀ p ∈ token.policies,
        p ∈ start.policies ∨ p = "default") ∧
      ∀ id old, rootAndApp.tokens.lookup id = some old →
        ∃ token, s.store.tokens.lookup id = some token ∧ token.policies = old.policies := by
  have modest : Guarded (step true hexCodec Leases.exactTimes (word "app")) (Modest hexCodec) ⟨rootAndApp, []⟩
    [request false (word "app") { id := some (word "child"), policies := some ["reader"] },
     request true (word "child") {}] := by decide
  exact ⟨_, _, rfl, rfl, rfl, nothing_gained_of_modest rfl modest rfl⟩

/-- With `app` one gets a token with the policy `root` by naming it, and replaces the root token by one with
the policy `default` by naming its id. -/
theorem policies_gained :
    ∃ start root, rootAndApp.tokens.lookup (word "app") = some start ∧ start.isRoot = false ∧
      start.policies = ["reader", "default"] ∧
      rootAndApp.tokens.lookup (word "root-id") = some root ∧ root.policies = ["root"] ∧
      (∃ s token, run (step true hexCodec Leases.exactTimes (word "app")) ⟨rootAndApp, []⟩
          [request false (word "app") { id := some (word "mine"), policies := some ["root"] }] = some s ∧
        word "mine" ∈ s.obtained ∧ s.store.tokens.lookup (word "mine") = some token ∧
        "root" ∈ token.policies) ∧
      ∃ s token, run (step true hexCodec Leases.exactTimes (word "app")) ⟨rootAndApp, []⟩
          [request true (word "app") { id := some (word "root-id") }] = some s ∧
        s.store.tokens.lookup (word "root-id") = some token ∧ token.policies = ["default"] :=
  ⟨_, _, rfl, rfl, rfl, rfl, rfl, ⟨_, _, rfl, by decide, rfl, by decide⟩, _, _, rfl, rfl, rfl⟩

end Issuing

end Vault
