import CaveRuntime.Common.Run
import CaveRuntime.Common.Table

/-!
# The apiserver: the RBAC authorizer

Model of `cave-apiserver/src/rbac.rs`: `review` walks the bindings of the subject's tenant and allows by
the first one whose role has a rule for the request. What is allowed is in scope but for two cases: an
entry of `subresources` lets the subresource of every resource through, also of one that the rule does not
name, and a binding in a namespace grants the non-resource URLs of its cluster role.

Strings are compared by their characters. The fields of a review that the evaluation does not read are
left out.
-/

namespace Apiserver
open Run

structure ResourceAttributes where
  namespace_ : String
  verb : String
  group : String
  resource : String
  name : String
  subresource : String
deriving DecidableEq, Repr

structure NonResourceAttributes where
  path : String
  verb : String
deriving DecidableEq, Repr

structure SubjectAccessReviewSpec where
  user : String
  groups : List String
  tenantId : String
  resourceAttributes : Option ResourceAttributes
  nonResourceAttributes : Option NonResourceAttributes
deriving DecidableEq, Repr

structure SubjectAccessReviewStatus where
  allowed : Bool
  denied : Bool
  reason : String
  evaluationError : String
deriving DecidableEq, Repr

structure SubjectAccessReview where
  spec : SubjectAccessReviewSpec
  status : SubjectAccessReviewStatus
deriving DecidableEq, Repr

structure PolicyRule where
  apiGroups : List String := []
  resources : List String := []
  verbs : List String := []
  resourceNames : List String := []
  subresources : List String := []
  nonResourceUrls : List String := []
deriving DecidableEq, Repr

structure Subject where
  kind : String
  name : String
  namespace_ : String
deriving DecidableEq, Repr

/-- `Role`; of a cluster role the namespace is empty. -/
structure Role where
  tenantId : String
  namespace_ : String
  name : String
  rules : List PolicyRule
deriving DecidableEq, Repr

/-- `Binding`; of a cluster role binding the namespace is empty. -/
structure Binding where
  tenantId : String
  namespace_ : String
  name : String
  subjects : List Subject
  roleKind : String
  roleName : String
deriving DecidableEq, Repr

/-- The subject is the user, one of the groups or the service account. -/
def Subject.isUser (s : Subject) (user : String) (groups : List String) : Bool :=
  if s.kind = "User" then s.name == user
  else if s.kind = "Group" then groups.contains s.name
  else if s.kind = "ServiceAccount" then user == "system:serviceaccount:" ++ s.namespace_ ++ ":" ++ s.name
  else false

def subjectMatches (subjects : List Subject) (user : String) (groups : List String) : Bool :=
  subjects.any (·.isUser user groups)

/-- An entry that is the wildcard or the value itself. -/
def admits (entries : List String) (value : String) : Bool := entries.any fun x => x == "*" || x == value

/-- `res_ok` of `rule_allows`. -/
def PolicyRule.resourceOk (r : PolicyRule) (attrs : ResourceAttributes) : Bool :=
  if attrs.subresource = "" then admits r.resources attrs.resource
  else
    let combined := attrs.resource ++ "/" ++ attrs.subresource
    (r.resources.any fun x => x == "*" || x == combined || x == attrs.resource ++ "/*") ||
      admits r.subresources attrs.subresource

/-- `name_ok` of `rule_allows`. -/
def PolicyRule.nameOk (r : PolicyRule) (attrs : ResourceAttributes) : Bool :=
  r.resourceNames.isEmpty || r.resourceNames.contains attrs.name

def ruleAllows (rules : List PolicyRule) (attrs : ResourceAttributes) : Bool :=
  rules.any fun r =>
    admits r.apiGroups attrs.group && r.resourceOk attrs && admits r.verbs attrs.verb && r.nameOk attrs

/-- An entry of `non_resource_urls`, with a trailing wildcard. -/
def urlMatches (url path : String) : Bool :=
  url == "*" || url == path ||
    (url.toList.getLast? == some '*' && url.toList.dropLast.isPrefixOf path.toList)

def nonResourceRuleAllows (rules : List PolicyRule) (nra : NonResourceAttributes) : Bool :=
  rules.any fun r => admits r.verbs nra.verb && r.nonResourceUrls.any (urlMatches · nra.path)

structure RbacInner where
  roles : Table (String × String × String) Role := ∅
  clusterRoles : Table (String × String) Role := ∅
  bindings : List Binding := []

namespace RbacInner

variable (s : RbacInner)

def upsertRole (role : Role) : RbacInner :=
  if role.namespace_ = "" then
    { s with clusterRoles := s.clusterRoles.insert (role.tenantId, role.name) role }
  else { s with roles := s.roles.insert (role.tenantId, role.namespace_, role.name) role }

def upsertBinding (binding : Binding) : RbacInner :=
  { s with bindings := s.bindings ++ [binding] }

/-- The role of a binding. -/
def roleOf (b : Binding) : Option Role :=
  if b.roleKind = "ClusterRole" then s.clusterRoles.lookup (b.tenantId, b.roleName)
  else if b.roleKind = "Role" then s.roles.lookup (b.tenantId, b.namespace_, b.roleName)
  else none

/-- The binding for which the loop of `review` allows. -/
def grants (spec : SubjectAccessReviewSpec) (attrs : ResourceAttributes) (b : Binding) :
    Bool :=
  b.tenantId == spec.tenantId && (b.namespace_ == "" || b.namespace_ == attrs.namespace_) &&
    subjectMatches b.subjects spec.user spec.groups && (s.roleOf b).any (ruleAllows ·.rules attrs)

/-- The binding for which the loop of `review_non_resource` allows. -/
def grantsUrl (spec : SubjectAccessReviewSpec) (nra : NonResourceAttributes) (b : Binding) :
    Bool :=
  b.tenantId == spec.tenantId && b.roleKind == "ClusterRole" &&
    subjectMatches b.subjects spec.user spec.groups &&
      (s.clusterRoles.lookup (b.tenantId, b.roleName)).any (nonResourceRuleAllows ·.rules nra)

def reviewNonResource (sar : SubjectAccessReview) (nra : NonResourceAttributes) :
    SubjectAccessReview :=
  match s.bindings.find? (s.grantsUrl sar.spec nra) with
  | some b => { sar with
      status := ⟨true, false, "RBAC: allowed (non-resource) by ClusterRoleBinding " ++ b.name, ""⟩ }
  | none => { sar with status := ⟨false, false, "no matching non-resource policy rule", ""⟩ }

def review (sar : SubjectAccessReview) : SubjectAccessReview :=
  match sar.spec.nonResourceAttributes with
  | some nra =>
    if sar.spec.resourceAttributes.isSome then
      { sar with status := ⟨false, true,
          "exactly one of resource_attributes / non_resource_attributes required", ""⟩ }
    else s.reviewNonResource sar nra
  | none =>
    match sar.spec.resourceAttributes with
    | none => { sar with status := ⟨false, true, "no resource attributes", ""⟩ }
    | some attrs =>
      match s.bindings.find? (s.grants sar.spec attrs) with
      | some b => { sar with
          status := ⟨true, false, "RBAC: allowed by binding " ++ b.namespace_ ++ "/" ++ b.name, ""⟩ }
      | none => { sar with status := ⟨false, false, "no matching policy rule", ""⟩ }

/-- A request is allowed if a loop finds a binding, and denied if it is malformed. -/
lemma review_decision (s : RbacInner) (sar : SubjectAccessReview) :
    (s.review sar).status.allowed =
        (match sar.spec.nonResourceAttributes, sar.spec.resourceAttributes with
        | none, some attrs => (s.bindings.find? (s.grants sar.spec attrs)).isSome
        | some nra, none => (s.bindings.find? (s.grantsUrl sar.spec nra)).isSome
        | _, _ => false) ∧
      (s.review sar).status.denied =
        (sar.spec.nonResourceAttributes.isSome == sar.spec.resourceAttributes.isSome) := by
  unfold review
  cases sar.spec.nonResourceAttributes with
  | none =>
    cases sar.spec.resourceAttributes with
    | none => exact ⟨rfl, rfl⟩
    | some attrs =>
      dsimp only
      cases s.bindings.find? (s.grants sar.spec attrs) with
      | none => exact ⟨rfl, rfl⟩
      | some b => exact ⟨rfl, rfl⟩
  | some nra =>
    cases sar.spec.resourceAttributes with
    | none =>
      simp only [Option.isSome_none, Bool.false_eq_true, if_false, reviewNonResource]
      cases s.bindings.find? (s.grantsUrl sar.spec nra) with
      | none => exact ⟨rfl, rfl⟩
      | some b => exact ⟨rfl, rfl⟩
    | some attrs => exact ⟨rfl, rfl⟩

end RbacInner

/-! ## The scope of a grant -/

/-- The binding names the subject of the review. -/
def Binding.Names (b : Binding) (spec : SubjectAccessReviewSpec) : Prop :=
  ∃ s ∈ b.subjects, (s.kind = "User" ∧ s.name = spec.user) ∨ (s.kind = "Group" ∧ s.name ∈ spec.groups) ∨
    (s.kind = "ServiceAccount" ∧ spec.user = "system:serviceaccount:" ++ s.namespace_ ++ ":" ++ s.name)

/-- An entry for the value, or a wildcard. -/
def Lists (entries : List String) (value : String) : Prop := "*" ∈ entries ∨ value ∈ entries
deriving Decidable

/-- The rule has an entry for the resource of the request, with all its subresources or with the one that
is asked for. -/
def PolicyRule.CoversResource (r : PolicyRule) (attrs : ResourceAttributes) : Prop :=
  if attrs.subresource = "" then Lists r.resources attrs.resource
  else "*" ∈ r.resources ∨ attrs.resource ++ "/*" ∈ r.resources ∨
    attrs.resource ++ "/" ++ attrs.subresource ∈ r.resources ∨
    attrs.resource ++ "/" ++ attrs.subresource ∈ r.subresources ∨
    (attrs.resource ∈ r.resources ∧ Lists r.subresources attrs.subresource)
deriving Decidable

/-- The rule covers the resource, the verb, the group and the object of a request. -/
structure PolicyRule.Covers (r : PolicyRule) (attrs : ResourceAttributes) : Prop where
  resource : r.CoversResource attrs
  verb : Lists r.verbs attrs.verb
  group : Lists r.apiGroups attrs.group
  object : r.resourceNames = [] ∨ attrs.name ∈ r.resourceNames

/-- The rule covers the path and the verb of a request. -/
structure PolicyRule.CoversUrl (r : PolicyRule) (nra : NonResourceAttributes) : Prop where
  path : ∃ url ∈ r.nonResourceUrls, url = "*" ∨ url = nra.path ∨
    ∃ start, url.toList = start ++ ['*'] ∧ start <+: nra.path.toList
  verb : Lists r.verbs nra.verb

/-- A rule for the request, by a binding that applies to it. -/
def SubjectAccessReviewSpec.InScope (spec : SubjectAccessReviewSpec) (b : Binding) (r : PolicyRule) : Prop :=
  match spec.nonResourceAttributes, spec.resourceAttributes with
  | none, some attrs => (b.namespace_ = "" ∨ b.namespace_ = attrs.namespace_) ∧ r.Covers attrs
  | some nra, none => b.namespace_ = "" ∧ r.CoversUrl nra
  | _, _ => False

/-- A rule that lets the request through without covering it: it lists the subresource, for whatever
resource, and has no entry for the resource of the request; or it comes from a cluster role that is bound in
a namespace. -/
def SubjectAccessReviewSpec.Leak (spec : SubjectAccessReviewSpec) (b : Binding) (r : PolicyRule) : Prop :=
  match spec.nonResourceAttributes, spec.resourceAttributes with
  | none, some attrs => (b.namespace_ = "" ∨ b.namespace_ = attrs.namespace_) ∧
      Lists r.verbs attrs.verb ∧ Lists r.apiGroups attrs.group ∧
      (r.resourceNames = [] ∨ attrs.name ∈ r.resourceNames) ∧
      attrs.subresource ≠ "" ∧ Lists r.subresources attrs.subresource ∧ ¬ r.CoversResource attrs
  | some nra, none => b.roleKind = "ClusterRole" ∧ b.namespace_ ≠ "" ∧ r.CoversUrl nra
  | _, _ => False

/-- A rule for which the loops allow the request. -/
def SubjectAccessReviewSpec.Passes (spec : SubjectAccessReviewSpec) (b : Binding) (r : PolicyRule) : Prop :=
  match spec.nonResourceAttributes, spec.resourceAttributes with
  | none, some attrs => (b.namespace_ = "" ∨ b.namespace_ = attrs.namespace_) ∧
      Lists r.verbs attrs.verb ∧ Lists r.apiGroups attrs.group ∧
      (r.resourceNames = [] ∨ attrs.name ∈ r.resourceNames) ∧ r.resourceOk attrs = true
  | some nra, none => b.roleKind = "ClusterRole" ∧ r.CoversUrl nra
  | _, _ => False

/-- A binding of the tenant that names the subject has a role with a rule of the given kind. -/
def RbacInner.HasRule (s : RbacInner) (spec : SubjectAccessReviewSpec) (kind : Binding → PolicyRule → Prop) :
    Prop :=
  ∃ b ∈ s.bindings, b.tenantId = spec.tenantId ∧ b.Names spec ∧
    ∃ role, s.roleOf b = some role ∧ ∃ r ∈ role.rules, kind b r

lemma admits_iff {entries : List String} {value : String} :
    admits entries value = true ↔ Lists entries value := by
  simp only [admits, Lists, List.any_eq_true, Bool.or_eq_true, beq_iff_eq]
  constructor
  · rintro ⟨x, mem, rfl | rfl⟩
    · exact .inl mem
    · exact .inr mem
  · rintro (mem | mem)
    · exact ⟨_, mem, .inl rfl⟩
    · exact ⟨_, mem, .inr rfl⟩

lemma subjectMatches_iff {b : Binding} {spec : SubjectAccessReviewSpec} :
    subjectMatches b.subjects spec.user spec.groups = true ↔ b.Names spec := by
  simp only [subjectMatches, Binding.Names, List.any_eq_true]
  refine exists_congr fun s => and_congr_right fun _ => ?_
  unfold Subject.isUser
  by_cases user : s.kind = "User"
  · simp [user]
  by_cases group : s.kind = "Group"
  · simp [group]
  by_cases account : s.kind = "ServiceAccount"
  · simp [account]
  · simp [user, group, account]

/-- What `res_ok` accepts is covered, or the subresource is listed for whatever resource. -/
lemma PolicyRule.covers_or_listed {r : PolicyRule} {attrs : ResourceAttributes}
    (ok : r.resourceOk attrs = true) (covers : ¬ r.CoversResource attrs) :
    attrs.subresource ≠ "" ∧ Lists r.subresources attrs.subresource := by
  unfold resourceOk at ok
  unfold CoversResource at covers
  split at ok
  · rename_i main
    rw [if_pos main] at covers
    exact absurd (admits_iff.mp ok) covers
  · rename_i sub
    rw [if_neg sub] at covers
    cases (Bool.or_eq_true _ _).mp ok with
    | inr entry => exact ⟨sub, admits_iff.mp entry⟩
    | inl entry =>
      simp only [List.any_eq_true, Bool.or_eq_true, beq_iff_eq] at entry
      obtain ⟨x, mem, (rfl | rfl) | rfl⟩ := entry
      · exact absurd (.inl mem) covers
      · exact absurd (.inr (.inr (.inl mem))) covers
      · exact absurd (.inr (.inl mem)) covers

lemma PolicyRule.resourceOk_of_listed {r : PolicyRule} {attrs : ResourceAttributes}
    (sub : attrs.subresource ≠ "") (listed : Lists r.subresources attrs.subresource) :
    r.resourceOk attrs = true := by
  unfold resourceOk
  rw [if_neg sub]
  exact (Bool.or_eq_true _ _).mpr (.inr (admits_iff.mpr listed))

lemma ruleAllows_iff {rules : List PolicyRule} {attrs : ResourceAttributes} :
    ruleAllows rules attrs = true ↔ ∃ r ∈ rules, Lists r.verbs attrs.verb ∧ Lists r.apiGroups attrs.group ∧
      (r.resourceNames = [] ∨ attrs.name ∈ r.resourceNames) ∧ r.resourceOk attrs = true := by
  simp only [ruleAllows, List.any_eq_true, Bool.and_eq_true, admits_iff, PolicyRule.nameOk, Bool.or_eq_true,
    List.isEmpty_iff, List.contains_iff_mem]
  refine exists_congr fun r => and_congr_right fun _ => ?_
  constructor
  · rintro ⟨⟨⟨group, resource⟩, verb⟩, name⟩
    exact ⟨verb, group, name, resource⟩
  · rintro ⟨verb, group, name, resource⟩
    exact ⟨⟨⟨group, resource⟩, verb⟩, name⟩

lemma nonResourceRuleAllows_iff {rules : List PolicyRule} {nra : NonResourceAttributes} :
    nonResourceRuleAllows rules nra = true ↔ ∃ r ∈ rules, r.CoversUrl nra := by
  have url (url : String) : urlMatches url nra.path = true ↔ url = "*" ∨ url = nra.path ∨
      ∃ start, url.toList = start ++ ['*'] ∧ start <+: nra.path.toList := by
    simp only [urlMatches, Bool.or_eq_true, Bool.and_eq_true, beq_iff_eq, List.isPrefixOf_iff_prefix,
      or_assoc]
    refine or_congr_right (or_congr_right ⟨?_, ?_⟩)
    · rintro ⟨last, start⟩
      exact ⟨_, (List.dropLast_append_getLast? _ last).symm, start⟩
    · rintro ⟨start, ends, begins⟩
      rw [ends, List.getLast?_concat, List.dropLast_concat]
      exact ⟨rfl, begins⟩
  simp only [nonResourceRuleAllows, List.any_eq_true, Bool.and_eq_true, admits_iff, url]
  refine exists_congr fun r => and_congr_right fun _ => ?_
  constructor
  · rintro ⟨verb, path⟩
    exact ⟨path, verb⟩
  · rintro ⟨path, verb⟩
    exact ⟨verb, path⟩

namespace RbacInner

variable {s : RbacInner} {spec : SubjectAccessReviewSpec} {b : Binding}

lemma grants_iff {attrs : ResourceAttributes} : s.grants spec attrs b = true ↔
    b.tenantId = spec.tenantId ∧ b.Names spec ∧ ∃ role, s.roleOf b = some role ∧ ∃ r ∈ role.rules,
      (b.namespace_ = "" ∨ b.namespace_ = attrs.namespace_) ∧ Lists r.verbs attrs.verb ∧
      Lists r.apiGroups attrs.group ∧ (r.resourceNames = [] ∨ attrs.name ∈ r.resourceNames) ∧
      r.resourceOk attrs = true := by
  simp only [grants, Bool.and_eq_true, Bool.or_eq_true, beq_iff_eq, Option.any_eq_true, subjectMatches_iff,
    ruleAllows_iff]
  constructor
  · rintro ⟨⟨⟨tenant, inside⟩, names⟩, role, look, r, mem, passes⟩
    exact ⟨tenant, names, role, look, r, mem, inside, passes⟩
  · rintro ⟨tenant, names, role, look, r, mem, inside, passes⟩
    exact ⟨⟨⟨tenant, inside⟩, names⟩, role, look, r, mem, passes⟩

lemma grantsUrl_iff {nra : NonResourceAttributes} : s.grantsUrl spec nra b = true ↔
    b.tenantId = spec.tenantId ∧ b.Names spec ∧ ∃ role, s.roleOf b = some role ∧ ∃ r ∈ role.rules,
      b.roleKind = "ClusterRole" ∧ r.CoversUrl nra := by
  simp only [grantsUrl, Bool.and_eq_true, beq_iff_eq, Option.any_eq_true, subjectMatches_iff,
    nonResourceRuleAllows_iff]
  constructor
  · rintro ⟨⟨⟨tenant, kind⟩, names⟩, role, look, r, mem, covers⟩
    exact ⟨tenant, names, role, by rw [roleOf, if_pos kind, look], r, mem, kind, covers⟩
  · rintro ⟨tenant, names, role, look, r, mem, kind, covers⟩
    rw [roleOf, if_pos kind] at look
    exact ⟨⟨⟨tenant, kind⟩, names⟩, role, look, r, mem, covers⟩

lemma review_allowed_iff {sar : SubjectAccessReview} :
    (s.review sar).status.allowed = true ↔ s.HasRule sar.spec sar.spec.Passes := by
  rw [(review_decision s sar).1]
  unfold HasRule SubjectAccessReviewSpec.Passes
  cases sar.spec.nonResourceAttributes with
  | none =>
    cases sar.spec.resourceAttributes with
    | none => simp
    | some attrs => simp only [List.find?_isSome, grants_iff]
  | some nra =>
    cases sar.spec.resourceAttributes with
    | none => simp only [List.find?_isSome, grantsUrl_iff]
    | some attrs => simp

end RbacInner

section Scope

variable {spec : SubjectAccessReviewSpec} {b : Binding} {r : PolicyRule}

lemma SubjectAccessReviewSpec.Passes.inScope_or_leak (passes : spec.Passes b r) :
    spec.InScope b r ∨ spec.Leak b r := by
  obtain ⟨user, groups, tenantId, resource, nonResource⟩ := spec
  cases nonResource with
  | none =>
    cases resource with
    | none => cases passes
    | some attrs =>
      obtain ⟨inside, verb, group, object, ok⟩ := passes
      by_cases covers : r.CoversResource attrs
      · exact .inl ⟨inside, covers, verb, group, object⟩
      · obtain ⟨sub, listed⟩ := PolicyRule.covers_or_listed ok covers
        exact .inr ⟨inside, verb, group, object, sub, listed, covers⟩
  | some nra =>
    cases resource with
    | none =>
      obtain ⟨kind, covers⟩ := passes
      by_cases cluster : b.namespace_ = ""
      · exact .inl ⟨cluster, covers⟩
      · exact .inr ⟨kind, cluster, covers⟩
    | some attrs => cases passes

lemma SubjectAccessReviewSpec.Leak.passes (leak : spec.Leak b r) : spec.Passes b r := by
  obtain ⟨user, groups, tenantId, resource, nonResource⟩ := spec
  cases nonResource with
  | none =>
    cases resource with
    | none => cases leak
    | some attrs =>
      obtain ⟨inside, verb, group, object, sub, listed, -⟩ := leak
      exact ⟨inside, verb, group, object, PolicyRule.resourceOk_of_listed sub listed⟩
  | some nra =>
    cases resource with
    | none =>
      obtain ⟨kind, -, covers⟩ := leak
      exact ⟨kind, covers⟩
    | some attrs => cases leak

/-- **What `review` allows is in scope, exactly if every leak is beside a rule that is**: a binding of the
tenant names the subject and applies to the request, and a rule of its role covers it. -/
theorem review_in_scope (s : RbacInner) (sar : SubjectAccessReview) :
    ((s.review sar).status.allowed = true → s.HasRule sar.spec sar.spec.InScope) ↔
      (s.HasRule sar.spec sar.spec.Leak → s.HasRule sar.spec sar.spec.InScope) := by
  rw [RbacInner.review_allowed_iff]
  constructor
  · rintro sound ⟨b, mem, tenant, names, role, look, r, here, leak⟩
    exact sound ⟨b, mem, tenant, names, role, look, r, here, leak.passes⟩
  · rintro covered ⟨b, mem, tenant, names, role, look, r, here, passes⟩
    cases passes.inScope_or_leak with
    | inl inScope => exact ⟨b, mem, tenant, names, role, look, r, here, inScope⟩
    | inr leak => exact covered ⟨b, mem, tenant, names, role, look, r, here, leak⟩

end Scope

/-- The user "u" of tenant "t" may get the status of pods, and the path "/healthz". -/
def podStatus (namespace_ : String) : RbacInner :=
  (RbacInner.upsertRole {}
      ⟨"t", "", "r", [⟨[""], ["pods"], ["get"], [], ["status"], ["/healthz"]⟩]⟩).upsertBinding
    ⟨"t", namespace_, "b", [⟨"User", "u", ""⟩], "ClusterRole", "r"⟩

/-- The user asks for the status of an object. -/
def statusReview (resource : String) : SubjectAccessReview :=
  ⟨⟨"u", [], "t", some ⟨"n", "get", "", resource, "x", "status"⟩, none⟩, ⟨false, false, "", ""⟩⟩

/-- The user asks for "/healthz". -/
def healthReview : SubjectAccessReview :=
  ⟨⟨"u", [], "t", none, some ⟨"/healthz", "get"⟩⟩, ⟨false, false, "", ""⟩⟩

/-- The rule for the status of pods lets the status of deployments through, and a binding in a namespace
lets "/healthz" through. -/
theorem review_out_of_scope :
    (((podStatus "").review (statusReview "deployments")).status.allowed = true ∧
      ¬ (podStatus "").HasRule (statusReview "deployments").spec (statusReview "deployments").spec.InScope) ∧
    ((podStatus "n").review healthReview).status.allowed = true ∧
      ¬ (podStatus "n").HasRule healthReview.spec healthReview.spec.InScope := by
  refine ⟨⟨by decide, ?_⟩, by decide, ?_⟩
  · rintro ⟨b, mem, -, -, role, look, r, here, inScope⟩
    cases List.mem_singleton.mp mem
    cases look
    cases List.mem_singleton.mp here
    exact absurd inScope.2.resource (by decide)
  · rintro ⟨b, mem, -, -, role, look, r, here, inScope⟩
    cases List.mem_singleton.mp mem
    exact absurd inScope.1 (by decide)

end Apiserver
