import CaveRuntime.Etcd.Tokens

/-!
# The etcd-compatible store: the two evaluators of permissions

`check_auth_token` and `user_can_access` of `rbac_deeper` decide the same question. The first evaluator
passes over a role that does not exist, which is an error for the second; and the range end of one zero
byte stands for a prefix in the second evaluator only. For each user, key and kind of access they agree
exactly when neither of the two makes the difference: a user whom a role lets in has no role that does not
exist, and a permission for a prefix of the key, of a user all of whose roles exist, is not the only one.
-/

namespace Etcd
open Utf8 Run

variable {s : AuthStore} {name token : String} {key : Bytes} {perm : PermType}

/-- Some role of the user has a permission for the key. -/
def AuthStore.Grants (s : AuthStore) (name : String) (key : Bytes) (perm : PermType) : Prop :=
  ∃ user, s.users.lookup name = some user ∧
    ∃ roleName ∈ user.roles, ∃ role, s.roles.lookup roleName = some role ∧
      ∃ p ∈ role.keyPermission, p.permits key perm = true

namespace AuthStore

lemma rolesPermit_iff {roles : List String} :
    s.rolesPermit roles key perm = true ↔
      ∃ roleName ∈ roles, ∃ role, s.roles.lookup roleName = some role ∧
        ∃ p ∈ role.keyPermission, p.permits key perm = true := by
  unfold rolesPermit
  rw [List.any_eq_true]
  refine exists_congr fun roleName => and_congr_right fun _ => ?_
  cases s.roles.lookup roleName with
  | none => simp
  | some role => simp

lemma checkAuthToken_iff (enabled : s.authEnabled = true)
    (known : s.authTokens.lookup token = some name) (user : name ≠ "root") :
    s.checkAuthToken (some token) key perm = .ok () ↔ s.Grants name key perm := by
  unfold checkAuthToken Grants
  simp only [enabled, known, user, Bool.not_true, Bool.false_eq_true, if_false]
  cases s.users.lookup name with
  | none => simp
  | some u =>
    simp only [Option.some.injEq, exists_eq_left', ← rolesPermit_iff]
    cases s.rolesPermit u.roles key perm with
    | true => simp
    | false => simp

end AuthStore

/-! ## The permissions of `effective_permissions` -/

lemma PermType.debug_injective : Function.Injective PermType.debug := by
  intro a b eq
  cases a <;> cases b <;> first | rfl | (revert eq; decide)

lemma Permission.byKey_injective : Function.Injective Permission.byKey := by
  intro p q eq
  obtain ⟨permType, key, rangeEnd⟩ := p
  obtain ⟨permType', key', rangeEnd'⟩ := q
  simp only [byKey, Prod.mk.injEq] at eq
  obtain ⟨keys, ends, types⟩ := eq
  rw [Str.asBytes_injective keys, Option.map_injective Str.asBytes_injective ends,
    PermType.debug_injective types]

/-- Every permission is stored under its own key. -/
def WellKeyed (t : Table PermissionKey Permission) : Prop := ∀ k p, t.lookup k = some p → p.byKey = k

section Collect

variable {t : Table PermissionKey Permission} {p : Permission}

lemma WellKeyed.insert (h : WellKeyed t) (q : Permission) : WellKeyed (t.insert q.byKey q) := by
  intro k p look
  rw [Table.lookup_insert_eq] at look
  split at look
  · rename_i here
    cases look
    exact here.symm
  · exact h k p look

/-- The inner loop of `effective_permissions` adds the permissions of a role. -/
lemma lookup_foldl_byKey (h : WellKeyed t) (perms : List Permission) :
    WellKeyed (perms.foldl (fun t p => t.insert p.byKey p) t) ∧
      ∀ p, (perms.foldl (fun t p => t.insert p.byKey p) t).lookup p.byKey = some p ↔
        t.lookup p.byKey = some p ∨ p ∈ perms := by
  induction perms generalizing t with
  | nil => exact ⟨h, by simp⟩
  | cons q perms ih =>
    obtain ⟨keyed, mem⟩ := ih (h.insert q)
    refine ⟨keyed, fun p => ?_⟩
    rw [List.foldl_cons, mem, Table.lookup_insert_eq, List.mem_cons]
    split
    · rename_i here
      have same := Permission.byKey_injective here
      simp [same]
    · rename_i other
      have ne : p ≠ q := fun same => other (by rw [same])
      simp [ne]

lemma AuthStore.collect_ok {roles : List String}
    (exist : ∀ r ∈ roles, (s.roles.lookup r).isSome) (h : WellKeyed t) :
    ∃ t', s.collect roles t = .ok t' ∧ WellKeyed t' ∧
      ∀ p, t'.lookup p.byKey = some p ↔ t.lookup p.byKey = some p ∨
        ∃ r ∈ roles, ∃ role, s.roles.lookup r = some role ∧ p ∈ role.keyPermission := by
  induction roles generalizing t with
  | nil => exact ⟨t, rfl, h, by simp⟩
  | cons r roles ih =>
    obtain ⟨role, found⟩ := Option.isSome_iff_exists.mp (exist r List.mem_cons_self)
    obtain ⟨keyed, mem⟩ := lookup_foldl_byKey h role.keyPermission
    obtain ⟨t', collected, keyed', mem'⟩ := ih (fun r hr => exist r (List.mem_cons_of_mem _ hr)) keyed
    refine ⟨t', ?_, keyed', fun p => ?_⟩
    · simp only [collect, roleGet, found]
      exact collected
    · rw [mem', mem, or_assoc]
      simp [found]

lemma AuthStore.mem_intoValues (h : WellKeyed t) : p ∈ intoValues t ↔ t.lookup p.byKey = some p := by
  simp only [intoValues, List.mem_map, List.mem_insertionSort]
  constructor
  · rintro ⟨⟨k, q⟩, mem, rfl⟩
    have look := Table.mem_entries.mp mem
    rw [h k q look]
    exact look
  · intro look
    exact ⟨⟨p.byKey, p⟩, Table.mem_entries.mpr look, rfl⟩

end Collect

/-! ## Agreement -/

/-- The permission is for the prefix: a range end of one zero byte stands for it. -/
def Permission.forPrefix (p : Permission) (key : Bytes) : Prop :=
  p.rangeEnd.map (·.asBytes) = some [0] ∧ p.key.asBytes <+: key

/-- The second evaluator lets in what the first one does, and what begins with a prefix: no key but the empty one
is below the range end of a prefix. -/
lemma Permission.matchesKey_iff {p : Permission} :
    p.matchesKey key perm = true ↔ p.permits key perm = true ∨ p.covers perm = true ∧ p.forPrefix key := by
  unfold matchesKey permits forPrefix
  cases ends : p.rangeEnd with
  | none => simp [inRange]
  | some rangeEnd =>
    simp only [Option.map_some, Option.some.injEq, Bool.and_eq_true, ← and_or_left]
    refine and_congr_right fun _ => ?_
    split
    · rename_i zero
      rw [zero, List.isPrefixOf_iff_prefix, eq_self, true_and, iff_or_self]
      simp only [inRange, Bool.and_eq_true, decide_eq_true_eq]
      rintro ⟨low, high⟩
      cases key with
      | nil =>
        exact List.le_antisymm low (List.nil_le _) ▸ List.prefix_refl _
      | cons b key =>
        rw [List.cons_lt_cons_iff] at high
        simp at high
    · rename_i other
      simp [inRange, other]

namespace AuthStore

/-- Some role of the user has a permission for a prefix of the key. -/
def GrantsPrefix (s : AuthStore) (name : String) (key : Bytes) (perm : PermType) : Prop :=
  ∃ user, s.users.lookup name = some user ∧
    ∃ roleName ∈ user.roles, ∃ role, s.roles.lookup roleName = some role ∧
      ∃ p ∈ role.keyPermission, p.covers perm = true ∧ p.forPrefix key

/-- Some role of the user does not exist. -/
def Dangling (s : AuthStore) (name : String) : Prop :=
  ∃ user, s.users.lookup name = some user ∧ ∃ roleName ∈ user.roles, s.roles.lookup roleName = none

lemma exist_of_collect {roles : List String} {t t' : Table PermissionKey Permission}
    (collected : s.collect roles t = .ok t') : ∀ r ∈ roles, (s.roles.lookup r).isSome := by
  induction roles generalizing t with
  | nil => exact nofun
  | cons r roles ih =>
    cases found : s.roles.lookup r with
    | none =>
      simp only [collect, roleGet, found] at collected
      cases collected
    | some role =>
      simp only [collect, roleGet, found] at collected
      intro r' mem
      cases mem with
      | head => rw [found]; rfl
      | tail _ mem => exact ih collected r' mem

/-- The second evaluator fails on a missing role, and knows prefixes. -/
lemma userCanAccess_iff (user : name ≠ "root") :
    s.userCanAccess name key perm = .ok true ↔
      ¬s.Dangling name ∧ (s.Grants name key perm ∨ s.GrantsPrefix name key perm) := by
  unfold userCanAccess effectivePermissions userGet Dangling Grants GrantsPrefix
  rw [if_neg user]
  cases found : s.users.lookup name with
  | none => simp [Except.map]
  | some u =>
    simp only [Option.some.injEq, exists_eq_left']
    by_cases exist : ∀ r ∈ u.roles, (s.roles.lookup r).isSome
    · obtain ⟨t, collected, keyed, mem⟩ := s.collect_ok (t := ∅) exist (by rintro _ _ ⟨⟩)
      have roles : ¬∃ r ∈ u.roles, s.roles.lookup r = none := by
        rintro ⟨r, hr, none⟩
        simpa [none] using exist r hr
      simp only [collected, Except.map, Except.ok.injEq, List.any_eq_true, mem_intoValues keyed, mem,
        Permission.matchesKey_iff]
      constructor
      · rintro ⟨p, old | ⟨r, hr, role, look, hp⟩, hit⟩
        · cases old
        · exact ⟨roles, hit.imp (⟨r, hr, role, look, p, hp, ·⟩) (⟨r, hr, role, look, p, hp, ·⟩)⟩
      · rintro ⟨-, ⟨r, hr, role, look, p, hp, hit⟩ | ⟨r, hr, role, look, p, hp, hit⟩⟩
        · exact ⟨p, .inr ⟨r, hr, role, look, hp⟩, .inl hit⟩
        · exact ⟨p, .inr ⟨r, hr, role, look, hp⟩, .inr hit⟩
    · -- the second evaluator stops at the role that does not exist
      refine iff_of_false (fun done => ?_) fun both => ?_
      · cases collected : s.collect u.roles ∅ with
        | error e => simp [collected, Except.map] at done
        | ok t => exact exist (exist_of_collect collected)
      · refine exist fun r hr => ?_
        by_contra none
        exact both.1 ⟨r, hr, by simpa using none⟩

end AuthStore

/-- `check_auth_token` accepts the user's token exactly if `user_can_access` says that the user can access the key,
exactly if no user who is granted the key has a role that does not exist, and no user all of whose roles exist is
granted the key by a prefix alone. -/
theorem evaluators_agree (s : AuthStore) (enabled : s.authEnabled = true) (token name : String)
    (known : s.authTokens.lookup token = some name) (user : name ≠ "root") (key : Bytes) (perm : PermType) :
    (s.checkAuthToken (some token) key perm = .ok () ↔ s.userCanAccess name key perm = .ok true) ↔
      (s.Grants name key perm → ¬s.Dangling name) ∧
        (s.GrantsPrefix name key perm → ¬s.Dangling name → s.Grants name key perm) := by
  rw [AuthStore.checkAuthToken_iff enabled known user, AuthStore.userCanAccess_iff user]
  tauto

/-- The string of one zero byte. -/
def zeroByte : Str := ⟨[0], by decide⟩

/-- A user with two roles, one of them with the permission to read the key "b", and the other with a
permission `p`. -/
def twoRoles (p : Permission) : List AuthOp :=
  [.userAdd "user" "secret" 0, .roleAdd "one", .roleAdd "two", .roleGrantPermission "one" p,
    .roleGrantPermission "two" ⟨.read, keyB, none⟩, .userGrantRole "user" "one",
    .userGrantRole "user" "two", .authEnable, .authenticate "user" "secret" "token"]

/-- The permission to write a prefix makes no difference to reading the key "b", which another role grants. -/
theorem evaluators_agree_two_roles :
    ∃ s, run (AuthStore.step plainBcrypt) .new (twoRoles ⟨.write, keyA, some zeroByte⟩) = some s ∧
      s.userCanAccess "user" keyB.asBytes .read = .ok true ∧
      (s.checkAuthToken (some "token") keyB.asBytes .read = .ok () ↔
        s.userCanAccess "user" keyB.asBytes .read = .ok true) ∧
      ¬(s.checkAuthToken (some "token") (keyA.asBytes ++ keyB.asBytes) .write = .ok () ↔
        s.userCanAccess "user" (keyA.asBytes ++ keyB.asBytes) .write = .ok true) := by
  obtain ⟨s, hr⟩ : ∃ s, run (AuthStore.step plainBcrypt) .new (twoRoles ⟨.write, keyA, some zeroByte⟩) = some s :=
    ⟨_, rfl⟩
  have enabled : s.authEnabled = true := by cases hr; rfl
  have known : s.authTokens.lookup "token" = some "user" := by cases hr; rfl
  have access : s.userCanAccess "user" keyB.asBytes .read = .ok true := by cases hr; rfl
  have roles := ((AuthStore.userCanAccess_iff (by decide)).mp access).1
  refine ⟨s, hr, access, ?_, fun agree => ?_⟩
  · refine (evaluators_agree s enabled "token" "user" known (by decide) _ _).mpr ⟨fun _ => roles, fun _ _ => ?_⟩
    cases hr
    exact ⟨_, rfl, "two", by decide, _, rfl, _, List.mem_cons_self, rfl⟩
  · obtain ⟨-, alone⟩ := (evaluators_agree s enabled "token" "user" known (by decide) _ _).mp agree
    have granted := alone (by
      cases hr
      exact ⟨_, rfl, "one", by decide, _, rfl, _, List.mem_cons_self, rfl, rfl, by decide⟩) roles
    rw [← AuthStore.checkAuthToken_iff enabled known (by decide)] at granted
    cases hr
    revert granted
    decide

/-- `user_can_access` says that a permission for the prefix "a" is one for the key "ab", and
`check_auth_token` refuses; and when the role with that permission is deleted, `check_auth_token` still
accepts the token for the key "b", and `user_can_access` fails. -/
theorem evaluators_disagree :
    ∃ s s', run (AuthStore.step plainBcrypt) .new (twoRoles ⟨.read, keyA, some zeroByte⟩) = some s ∧
      s.checkAuthToken (some "token") (keyA.asBytes ++ keyB.asBytes) .read = .error .permissionDenied ∧
      s.userCanAccess "user" (keyA.asBytes ++ keyB.asBytes) .read = .ok true ∧
      run (AuthStore.step plainBcrypt) s [.roleDelete "one"] = some s' ∧
      s'.checkAuthToken (some "token") keyB.asBytes .read = .ok () ∧
      s'.userCanAccess "user" keyB.asBytes .read = .error (.roleNotFound "one") := by
  exact ⟨_, _, rfl, rfl, by rfl, rfl, rfl, rfl⟩

end Etcd
