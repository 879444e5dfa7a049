import CaveRuntime.Etcd.Auth

/-!
# The etcd-compatible store: where tokens come from

`authenticate` verifies a password only while auth is enabled, and otherwise hands out a token for any
name. Tokens are never taken back, so that a token from that time is honoured once auth is enabled. If
nobody authenticates while auth is disabled, every token that `check_auth_token` accepts goes back to a
password check.
-/

namespace Etcd
open Utf8 Run

variable {bcrypt : Bcrypt}

namespace AuthOp

variable {s s' : AuthStore} {op : AuthOp}

lemma apply_cases (bcrypt : Bcrypt) (s : AuthStore) (op : AuthOp) :
    op.result bcrypt s = .ok (op.apply bcrypt s) ∨ op.apply bcrypt s = s := by
  unfold apply
  cases done : op.result bcrypt s with
  | ok s' => exact .inl rfl
  | error e => exact .inr rfl

/-- Only `authenticate` makes a token, after the password is checked. -/
lemma result_authTokens (done : op.result bcrypt s = .ok s') :
    s'.authTokens = s.authTokens ∨ ∃ name password token, op = .authenticate name password token ∧
      s.checkPassword bcrypt name password = .ok () ∧
      s'.authTokens = s.authTokens.insert token name := by
  cases op with
  | authEnable =>
    simp only [result, AuthStore.authEnable] at done
    split at done
    · cases done
    · cases done
      exact .inl rfl
  | authDisable =>
    simp only [result, AuthStore.authDisable] at done
    split at done
    · cases done
      exact .inl rfl
    · cases done
  | userAdd name password salt =>
    simp only [result, AuthStore.userAdd] at done
    split at done
    · cases done
    · split at done
      · cases done
      · cases done
        exact .inl rfl
  | userDelete name =>
    simp only [result, AuthStore.userDelete] at done
    split at done
    · cases done
    · cases done
      exact .inl rfl
  | userChangePassword name password salt =>
    simp only [result, AuthStore.userChangePassword] at done
    split at done
    · cases done
    · split at done
      · cases done
      · cases done
        exact .inl rfl
  | userGrantRole user role =>
    simp only [result, AuthStore.userGrantRole] at done
    split at done
    · cases done
    · split at done
      · cases done
      · split at done
        · cases done
          exact .inl rfl
        · cases done
          exact .inl rfl
  | userRevokeRole name role =>
    simp only [result, AuthStore.userRevokeRole] at done
    split at done
    · cases done
    · split at done
      · cases done
        exact .inl rfl
      · cases done
  | roleAdd name =>
    simp only [result, AuthStore.roleAdd] at done
    split at done
    · cases done
    · cases done
      exact .inl rfl
  | roleDelete role =>
    simp only [result, AuthStore.roleDelete] at done
    split at done
    · cases done
    · cases done
      exact .inl rfl
  | roleGrantPermission name perm =>
    simp only [result, AuthStore.roleGrantPermission] at done
    split at done
    · cases done
    · cases done
      exact .inl rfl
  | roleRevokePermission role key rangeEnd =>
    simp only [result, AuthStore.roleRevokePermission] at done
    split at done
    · cases done
    · split at done
      · cases done
      · cases done
        exact .inl rfl
  | authenticate name password token =>
    simp only [result, AuthStore.authenticate] at done
    split at done
    · cases done
    · rename_i checked
      cases done
      exact .inr ⟨name, password, token, rfl, checked, rfl⟩

lemma apply_authTokens (bcrypt : Bcrypt) (s : AuthStore) (op : AuthOp) :
    (op.apply bcrypt s).authTokens = s.authTokens ∨
      ∃ name password token, op = .authenticate name password token ∧
        s.checkPassword bcrypt name password = .ok () ∧
        (op.apply bcrypt s).authTokens = s.authTokens.insert token name := by
  cases apply_cases bcrypt s op with
  | inl done => exact result_authTokens done
  | inr same => exact .inl (by rw [same])

end AuthOp

/-- The password is the user's, and auth is enabled. -/
def AuthStore.Verifies (bcrypt : Bcrypt) (s : AuthStore) (name password : String) : Prop :=
  s.authEnabled = true ∧
    ∃ user, s.users.lookup name = some user ∧ bcrypt.verify password user.password = .ok true

lemma AuthStore.verifies_of_checkPassword {s : AuthStore} {name password : String}
    (enabled : s.authEnabled = true) (checked : s.checkPassword bcrypt name password = .ok ()) :
    s.Verifies bcrypt name password := by
  unfold checkPassword at checked
  rw [if_pos enabled] at checked
  split at checked
  · cases checked
  · rename_i user found
    split at checked
    · cases checked
    · rename_i valid verified
      split at checked
      · rename_i yes
        rw [yes] at verified
        exact ⟨enabled, user, found, verified⟩
      · cases checked

/-- The token was returned by a call of `authenticate` that verified the password of the user while auth
was enabled. -/
def GoesBack (bcrypt : Bcrypt) (ops : List AuthOp) (token name : String) : Prop :=
  ∃ before after password s, ops = before ++ .authenticate name password token :: after ∧
    run (AuthStore.step bcrypt) .new before = some s ∧ s.Verifies bcrypt name password ∧
    (s.authenticate bcrypt name password token).map Prod.fst = .ok token

lemma GoesBack.append {ops : List AuthOp} {token name : String} (h : GoesBack bcrypt ops token name)
    (more : List AuthOp) : GoesBack bcrypt (ops ++ more) token name := by
  obtain ⟨before, after, password, s, rfl, rest⟩ := h
  refine ⟨before, after ++ more, password, s, ?_, rest⟩
  rw [List.append_assoc, List.cons_append]

/-- Nobody authenticates while auth is disabled. -/
def AuthStore.Checked (s : AuthStore) : AuthOp → Prop
  | .authenticate _ _ _ => s.authEnabled = true
  | _ => True

instance (s : AuthStore) : (op : AuthOp) → Decidable (s.Checked op)
  | .authenticate _ _ _ => inferInstanceAs (Decidable (_ = true))
  | .authEnable => inferInstanceAs (Decidable True)
  | .authDisable => inferInstanceAs (Decidable True)
  | .userAdd _ _ _ => inferInstanceAs (Decidable True)
  | .userDelete _ => inferInstanceAs (Decidable True)
  | .userChangePassword _ _ _ => inferInstanceAs (Decidable True)
  | .userGrantRole _ _ => inferInstanceAs (Decidable True)
  | .userRevokeRole _ _ => inferInstanceAs (Decidable True)
  | .roleAdd _ => inferInstanceAs (Decidable True)
  | .roleDelete _ => inferInstanceAs (Decidable True)
  | .roleGrantPermission _ _ => inferInstanceAs (Decidable True)
  | .roleRevokePermission _ _ _ => inferInstanceAs (Decidable True)

lemma GoesBack.step {before : List AuthOp} {s : AuthStore} {op : AuthOp}
    (start : run (AuthStore.step bcrypt) .new before = some s)
    (inv : ∀ token name, s.authTokens.lookup token = some name → GoesBack bcrypt before token name)
    (checked : s.Checked op) (token name : String)
    (look : (op.apply bcrypt s).authTokens.lookup token = some name) :
    GoesBack bcrypt (before ++ [op]) token name := by
  cases AuthOp.apply_authTokens bcrypt s op with
  | inl same =>
    rw [same] at look
    exact (inv token name look).append [op]
  | inr issued =>
    obtain ⟨name', password, token', rfl, ok, tokens⟩ := issued
    rw [tokens, Table.lookup_insert_eq] at look
    split at look
    · rename_i here
      subst here
      cases look
      refine ⟨before, [], password, s, rfl, start, AuthStore.verifies_of_checkPassword checked ok, ?_⟩
      simp only [AuthStore.authenticate, ok]
      rfl
    · exact (inv token name look).append [_]

lemma GoesBack.run {before ops : List AuthOp} {s s' : AuthStore}
    (start : Run.run (AuthStore.step bcrypt) .new before = some s)
    (inv : ∀ token name, s.authTokens.lookup token = some name → GoesBack bcrypt before token name)
    (checked : Guarded (AuthStore.step bcrypt) AuthStore.Checked s ops)
    (hr : Run.run (AuthStore.step bcrypt) s ops = some s') :
    ∀ token name, s'.authTokens.lookup token = some name →
      GoesBack bcrypt (before ++ ops) token name := by
  induction ops generalizing before s with
  | nil =>
    cases hr
    rw [List.append_nil]
    exact inv
  | cons op ops ih =>
    obtain ⟨t, st, hr⟩ := run_cons.mp hr
    have here : t = op.apply bcrypt s := (Option.some.inj st).symm
    have next : Run.run (AuthStore.step bcrypt) .new (before ++ [op]) = some t :=
      run_append.mpr ⟨s, start, run_cons.mpr ⟨t, st, rfl⟩⟩
    have all := ih next (here ▸ GoesBack.step start inv checked.1) (checked.2 t st) hr
    rwa [List.append_assoc] at all

lemma AuthStore.lookup_of_checkAuthToken {s : AuthStore} {token : String} {key : Bytes} {perm : PermType}
    (enabled : s.authEnabled = true) (ok : s.checkAuthToken (some token) key perm = .ok ()) :
    ∃ name, s.authTokens.lookup token = some name := by
  unfold checkAuthToken at ok
  rw [enabled] at ok
  dsimp only at ok
  split at ok
  · rename_i disabled
    cases disabled
  · split at ok
    · cases ok
    · rename_i name found
      exact ⟨name, found⟩

/-- If nobody authenticates while auth is disabled, a token that is accepted while auth is enabled was
returned by a call of `authenticate` that verified the password of the token's user. -/
theorem accepted_token_goes_back (bcrypt : Bcrypt) (ops : List AuthOp) (s : AuthStore)
    (checked : Guarded (AuthStore.step bcrypt) AuthStore.Checked .new ops)
    (hr : run (AuthStore.step bcrypt) .new ops = some s) (enabled : s.authEnabled = true)
    (token : String) (key : Bytes) (perm : PermType)
    (ok : s.checkAuthToken (some token) key perm = .ok ()) :
    ∃ name, s.authTokens.lookup token = some name ∧ GoesBack bcrypt ops token name := by
  obtain ⟨name, found⟩ := AuthStore.lookup_of_checkAuthToken enabled ok
  have none : ∀ token name, AuthStore.new.authTokens.lookup token = some name →
      GoesBack bcrypt [] token name := by rintro _ _ ⟨⟩
  exact ⟨name, found, GoesBack.run rfl none checked hr token name found⟩

/-- Passwords that are kept as they are. -/
def plainBcrypt : Bcrypt := ⟨fun _ password => .ok password, fun password hash => .ok (password = hash)⟩

/-- The user root is added and authenticates when auth is enabled. -/
def rootAuthenticates : List AuthOp :=
  [.userAdd "root" "secret" 0, .authEnable, .authenticate "root" "secret" "token"]

theorem accepted_token_goes_back_root :
    ∃ s, run (AuthStore.step plainBcrypt) .new rootAuthenticates = some s ∧ s.authEnabled = true ∧
      s.checkAuthToken (some "token") keyA.asBytes .write = .ok () ∧
      ∃ name, s.authTokens.lookup "token" = some name ∧
        GoesBack plainBcrypt rootAuthenticates "token" name := by
  refine ⟨_, rfl, rfl, rfl, ?_⟩
  exact accepted_token_goes_back plainBcrypt rootAuthenticates _ (by decide) rfl rfl "token" keyA.asBytes
    .write rfl

/-- Somebody authenticates as root, a user that does not exist, and then auth is enabled. -/
def rootBeforeAuth : List AuthOp := [.authenticate "root" "" "token", .authEnable]

/-- The token gives root access, and no password was ever verified. -/
theorem root_without_password :
    ∃ s, run (AuthStore.step plainBcrypt) .new rootBeforeAuth = some s ∧ s.authEnabled = true ∧
      s.checkAuthToken (some "token") keyA.asBytes .write = .ok () ∧
      ∀ name, ¬ GoesBack plainBcrypt rootBeforeAuth "token" name := by
  refine ⟨_, rfl, rfl, rfl, ?_⟩
  rintro name ⟨before, after, password, s, eq, hr, verifies, -⟩
  -- the call is the first one, when auth is disabled
  cases before with
  | nil =>
    cases hr
    cases verifies.1
  | cons op before =>
    cases before with
    | nil => cases eq
    | cons op' before => cases before <;> cases eq

end Etcd
