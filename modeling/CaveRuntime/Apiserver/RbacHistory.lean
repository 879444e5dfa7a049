import Mathlib.Data.List.Find
import CaveRuntime.Apiserver.Rbac

/-!
# The apiserver: histories of the RBAC authorizer

Runs of `upsert_role` and `upsert_binding`. A role is replaced under its key, but a binding is only added
to the list, so that what an earlier binding of the same name has granted stays granted. The decision is
that of the latest bindings in every run in which a binding that comes again keeps its role and its
subjects. A review never depends on the calls for other tenants.
-/

namespace Apiserver
open Run

/-- The calls that change the authorizer. -/
inductive RbacCall where
  | upsertRole (role : Role)
  | upsertBinding (binding : Binding)
deriving DecidableEq, Repr

/-- The tenant of a call. -/
def RbacCall.tenantId : RbacCall → String
  | .upsertRole role => role.tenantId
  | .upsertBinding binding => binding.tenantId

/-- One call. -/
def RbacInner.step (s : RbacInner) : RbacCall → Option RbacInner
  | .upsertRole role => some (s.upsertRole role)
  | .upsertBinding binding => some (s.upsertBinding binding)

/-! ## Bindings that come again -/

/-- The tenant, the namespace and the name of a binding. -/
def Binding.key (b : Binding) : String × String × String := (b.tenantId, b.namespace_, b.name)

/-- Of each key the last binding. -/
def latestBindings : List Binding → List Binding
  | [] => []
  | b :: bs => if b.key ∈ bs.map Binding.key then latestBindings bs else b :: latestBindings bs

/-- The authorizer with only the latest binding of each key. -/
def RbacInner.latest (s : RbacInner) : RbacInner := { s with bindings := latestBindings s.bindings }

/-- The same key and role, and no subject less. -/
structure Binding.Widens (old new : Binding) : Prop where
  key : old.key = new.key
  roleKind : old.roleKind = new.roleKind
  roleName : old.roleName = new.roleName
  subjects : old.subjects ⊆ new.subjects

namespace RbacInner

variable {s s' : RbacInner}

/-- A binding that comes again keeps its role and its subjects. -/
def Widening (s : RbacInner) : RbacCall → Prop
  | .upsertRole _ => True
  | .upsertBinding new => ∀ old ∈ s.bindings, old.key = new.key →
      old.roleKind = new.roleKind ∧ old.roleName = new.roleName ∧ old.subjects ⊆ new.subjects

instance (s : RbacInner) : (call : RbacCall) → Decidable (s.Widening call)
  | .upsertRole _ => inferInstanceAs (Decidable True)
  | .upsertBinding _ => inferInstanceAs (Decidable (∀ old ∈ s.bindings, _ → _ ∧ _ ∧ _))

end RbacInner

lemma latestBindings_subset (bs : List Binding) : latestBindings bs ⊆ bs := by
  induction bs with
  | nil => exact List.Subset.refl _
  | cons b bs ih =>
    unfold latestBindings
    split
    · exact List.subset_cons_of_subset b ih
    · exact List.cons_subset_cons b ih

/-- Bindings that are wider than all earlier ones of their key. -/
def Wider (bs : List Binding) : Prop := bs.Pairwise fun old new => old.key = new.key → old.Widens new

lemma exists_latest {bs : List Binding} (wider : Wider bs) {b : Binding} (mem : b ∈ bs) :
    ∃ new ∈ latestBindings bs, b.Widens new := by
  induction bs generalizing b with
  | nil => cases mem
  | cons c bs ih =>
    obtain ⟨later, rest⟩ := List.pairwise_cons.mp wider
    unfold latestBindings
    cases List.mem_cons.mp mem with
    | inl here =>
      subst here
      split
      · rename_i again
        obtain ⟨d, hd, key⟩ := List.mem_map.mp again
        have first := later d hd key.symm
        obtain ⟨new, hnew, second⟩ := ih rest hd
        exact ⟨new, hnew, first.key.trans second.key, first.roleKind.trans second.roleKind,
          first.roleName.trans second.roleName, List.Subset.trans first.subjects second.subjects⟩
      · exact ⟨b, List.mem_cons_self, rfl, rfl, rfl, List.Subset.refl _⟩
    | inr there =>
      obtain ⟨new, hnew, wide⟩ := ih rest there
      split
      · exact ⟨new, hnew, wide⟩
      · exact ⟨new, List.mem_cons_of_mem _ hnew, wide⟩

lemma Wider.step {s s' : RbacInner} {call : RbacCall} (wider : Wider s.bindings) (widening : s.Widening call)
    (st : s.step call = some s') : Wider s'.bindings := by
  cases call with
  | upsertRole role =>
    cases st
    unfold RbacInner.upsertRole
    split
    · exact wider
    · exact wider
  | upsertBinding new =>
    cases st
    refine List.pairwise_append.mpr ⟨wider, List.pairwise_singleton _ _, fun old mem b here key => ?_⟩
    cases List.mem_singleton.mp here
    obtain ⟨kind, name, subjects⟩ := widening old mem key
    exact ⟨key, kind, name, subjects⟩

namespace Binding.Widens

variable {old new : Binding} {spec : SubjectAccessReviewSpec}

lemma names (wide : old.Widens new) (names : old.Names spec) : new.Names spec := by
  obtain ⟨subject, mem, is⟩ := names
  exact ⟨subject, wide.subjects mem, is⟩

lemma roleOf (wide : old.Widens new) (s : RbacInner) : s.roleOf old = s.roleOf new := by
  obtain ⟨tenantId, ns, name, subjects, roleKind, roleName⟩ := old
  obtain ⟨key, kind, role, -⟩ := wide
  cases key
  cases kind
  cases role
  rfl

lemma passes (wide : old.Widens new) {r : PolicyRule} (passes : spec.Passes old r) : spec.Passes new r := by
  have ns : old.namespace_ = new.namespace_ := congrArg (·.2.1) wide.key
  unfold SubjectAccessReviewSpec.Passes at passes ⊢
  rwa [← ns, ← wide.roleKind]

end Binding.Widens

/-- What some binding lets through, the latest binding of its key lets through. -/
lemma hasRule_latest {s : RbacInner} (wider : Wider s.bindings) (spec : SubjectAccessReviewSpec) :
    s.latest.HasRule spec spec.Passes ↔ s.HasRule spec spec.Passes := by
  constructor
  · rintro ⟨b, mem, rule⟩
    exact ⟨b, latestBindings_subset _ mem, rule⟩
  · rintro ⟨b, mem, tenant, names, role, look, r, here, passes⟩
    obtain ⟨new, hnew, wide⟩ := exists_latest wider mem
    refine ⟨new, hnew, ?_, wide.names names, role, ?_, r, here, wide.passes passes⟩
    · exact (congrArg Prod.fst wide.key).symm.trans tenant
    · exact (wide.roleOf s).symm.trans look

/-- **The decision is that of the latest bindings, if a binding that comes again is wider.** -/
theorem review_latest {calls : List RbacCall} {s : RbacInner}
    (widening : Guarded RbacInner.step RbacInner.Widening {} calls)
    (ran : run RbacInner.step {} calls = some s) (sar : SubjectAccessReview) :
    (s.review sar).status.allowed = (s.latest.review sar).status.allowed ∧
      (s.review sar).status.denied = (s.latest.review sar).status.denied := by
  have wider := invariant_of_guarded (P := fun s : RbacInner => Wider s.bindings) Wider.step widening ran .nil
  constructor
  · rw [Bool.eq_iff_iff, RbacInner.review_allowed_iff, RbacInner.review_allowed_iff, hasRule_latest wider]
  · rw [(s.review_decision sar).2, (s.latest.review_decision sar).2]

/-- The binding "b" of the role "r", for a user. -/
def bindUsers (users : List String) : RbacCall :=
  .upsertBinding ⟨"t", "", "b", users.map fun u => ⟨"User", u, ""⟩, "ClusterRole", "r"⟩

/-- The role "r" lets pods be read. -/
def podReader : RbacCall := .upsertRole ⟨"t", "", "r", [⟨[""], ["pods"], ["get"], [], [], []⟩]⟩

/-- A user asks for a pod. -/
def podReview (user : String) : SubjectAccessReview :=
  ⟨⟨user, [], "t", some ⟨"n", "get", "", "pods", "x", ""⟩, none⟩, ⟨false, false, "", ""⟩⟩

theorem review_latest_wider :
    ∃ s, run RbacInner.step {} [podReader, bindUsers ["u"], bindUsers ["v", "u"]] = some s ∧
      (s.review (podReview "u")).status.allowed = true ∧
      (s.review (podReview "u")).status.allowed = (s.latest.review (podReview "u")).status.allowed := by
  have widening : Guarded RbacInner.step RbacInner.Widening {}
    [podReader, bindUsers ["u"], bindUsers ["v", "u"]] := by decide
  exact ⟨_, rfl, by decide, (review_latest widening rfl (podReview "u")).1⟩

/-- A binding that comes again without its user leaves the user with the old grant. -/
theorem review_keeps_old_grant :
    ∃ s, run RbacInner.step {} [podReader, bindUsers ["u"], bindUsers []] = some s ∧
      (s.review (podReview "u")).status.allowed = true ∧
      (s.latest.review (podReview "u")).status.allowed = false :=
  ⟨_, rfl, by decide, by decide⟩

/-! ## Tenants -/

/-- The same bindings and roles for a tenant. -/
structure SameFor (t : String) (s s' : RbacInner) : Prop where
  bindings : s.bindings.filter (·.tenantId == t) = s'.bindings.filter (·.tenantId == t)
  roles : ∀ ns name, s.roles.lookup (t, ns, name) = s'.roles.lookup (t, ns, name)
  clusterRoles : ∀ name, s.clusterRoles.lookup (t, name) = s'.clusterRoles.lookup (t, name)

namespace SameFor

variable {t : String} {s s' r r' : RbacInner} {call : RbacCall}

lemma refl (s : RbacInner) : SameFor t s s := ⟨rfl, fun _ _ => rfl, fun _ => rfl⟩

lemma symm (same : SameFor t s s') : SameFor t s' s :=
  ⟨same.bindings.symm, fun ns name => (same.roles ns name).symm, fun name => (same.clusterRoles name).symm⟩

lemma trans (same : SameFor t s r) (same' : SameFor t r s') : SameFor t s s' :=
  ⟨same.bindings.trans same'.bindings, fun ns name => (same.roles ns name).trans (same'.roles ns name),
    fun name => (same.clusterRoles name).trans (same'.clusterRoles name)⟩

lemma of_step (other : call.tenantId ≠ t) (st : s.step call = some s') : SameFor t s s' := by
  cases call with
  | upsertRole role =>
    cases st
    unfold RbacInner.upsertRole
    split
    · refine ⟨rfl, fun _ _ => rfl, fun name => ?_⟩
      rw [Table.lookup_insert_eq, if_neg fun e => other (Prod.ext_iff.mp e).1.symm]
    · refine ⟨rfl, fun ns name => ?_, fun _ => rfl⟩
      rw [Table.lookup_insert_eq, if_neg fun e => other (Prod.ext_iff.mp e).1.symm]
  | upsertBinding b =>
    cases st
    refine ⟨?_, fun _ _ => rfl, fun _ => rfl⟩
    have out : (b.tenantId == t) = false := beq_eq_false_iff_ne.mpr other
    simp [RbacInner.upsertBinding, List.filter_append, out]

lemma step (same : SameFor t s r) (st : s.step call = some s') (st' : r.step call = some r') :
    SameFor t s' r' := by
  cases call with
  | upsertRole role =>
    cases st
    cases st'
    unfold RbacInner.upsertRole
    split
    · refine ⟨same.bindings, same.roles, fun name => ?_⟩
      rw [Table.lookup_insert_eq, Table.lookup_insert_eq, same.clusterRoles]
    · refine ⟨same.bindings, fun ns name => ?_, same.clusterRoles⟩
      rw [Table.lookup_insert_eq, Table.lookup_insert_eq, same.roles]
  | upsertBinding b =>
    cases st
    cases st'
    refine ⟨?_, same.roles, same.clusterRoles⟩
    simp only [RbacInner.upsertBinding, List.filter_append, same.bindings]

lemma run {calls : List RbacCall} (same : SameFor t s r) (ran : run RbacInner.step s calls = some s') :
    ∃ r', Run.run RbacInner.step r (calls.filter (·.tenantId == t)) = some r' ∧ SameFor t s' r' := by
  induction calls generalizing s r with
  | nil =>
    cases ran
    exact ⟨r, rfl, same⟩
  | cons call calls ih =>
    obtain ⟨s1, st, rest⟩ := run_cons.mp ran
    by_cases mine : call.tenantId = t
    · obtain ⟨r1, st'⟩ : ∃ r1, r.step call = some r1 := by
        cases call with
        | upsertRole role => exact ⟨_, rfl⟩
        | upsertBinding b => exact ⟨_, rfl⟩
      obtain ⟨r', ran', same'⟩ := ih (same.step st st') rest
      rw [List.filter_cons_of_pos (by simpa using mine)]
      exact ⟨r', run_cons.mpr ⟨r1, st', ran'⟩, same'⟩
    · rw [List.filter_cons_of_neg (by simpa using mine)]
      exact ih ((of_step mine st).symm.trans same) rest

/-- A test that only bindings of the tenant pass finds the same binding on both sides. -/
lemma find? (same : SameFor t s s') {test : Binding → Bool} (mine : ∀ b, test b = true → b.tenantId = t) :
    s.bindings.find? test = s'.bindings.find? test := by
  have slice (bs : List Binding) : bs.find? test = (bs.filter (·.tenantId == t)).find? test := by
    rw [List.find?_filter]
    refine List.find?_congr fun b _ => ?_
    rw [Bool.eq_iff_iff, decide_eq_true_eq, beq_iff_eq]
    exact ⟨fun pass => ⟨mine b pass, pass⟩, And.right⟩
  rw [slice s.bindings, slice s'.bindings, same.bindings]

lemma roleOf (same : SameFor t s s') {b : Binding} (mine : b.tenantId = t) : s.roleOf b = s'.roleOf b := by
  subst mine
  unfold RbacInner.roleOf
  rw [same.clusterRoles, same.roles]

variable {spec : SubjectAccessReviewSpec}

lemma grants (same : SameFor spec.tenantId s s') (attrs : ResourceAttributes) :
    s.grants spec attrs = s'.grants spec attrs := by
  funext b
  unfold RbacInner.grants
  by_cases mine : b.tenantId = spec.tenantId
  · rw [same.roleOf mine]
  · simp only [beq_eq_false_iff_ne.mpr mine, Bool.false_and]

lemma grantsUrl (same : SameFor spec.tenantId s s') (nra : NonResourceAttributes) :
    s.grantsUrl spec nra = s'.grantsUrl spec nra := by
  funext b
  unfold RbacInner.grantsUrl
  by_cases mine : b.tenantId = spec.tenantId
  · rw [mine, same.clusterRoles]
  · simp only [beq_eq_false_iff_ne.mpr mine, Bool.false_and]

lemma review {sar : SubjectAccessReview} (same : SameFor sar.spec.tenantId s s') :
    s.review sar = s'.review sar := by
  unfold RbacInner.review RbacInner.reviewNonResource
  have tenant {attrs : ResourceAttributes} (b : Binding) (pass : s'.grants sar.spec attrs b = true) :
      b.tenantId = sar.spec.tenantId := by
    simp only [RbacInner.grants, Bool.and_eq_true, beq_iff_eq] at pass
    exact pass.1.1.1
  have tenantUrl {nra : NonResourceAttributes} (b : Binding) (pass : s'.grantsUrl sar.spec nra b = true) :
      b.tenantId = sar.spec.tenantId := by
    simp only [RbacInner.grantsUrl, Bool.and_eq_true, beq_iff_eq] at pass
    exact pass.1.1.1
  simp only [same.grants, same.grantsUrl, same.find? tenant, same.find? tenantUrl]

end SameFor

/-- **A review of a tenant is the same after any two runs that agree on the tenant's calls.** -/
theorem review_noninterference {t : String} {calls calls' : List RbacCall} {s s' : RbacInner}
    (agree : calls.filter (·.tenantId == t) = calls'.filter (·.tenantId == t))
    (ran : run RbacInner.step {} calls = some s) (ran' : run RbacInner.step {} calls' = some s')
    {sar : SubjectAccessReview} (tenant : sar.spec.tenantId = t) :
    (s.review sar).status.allowed = (s'.review sar).status.allowed ∧
      (s.review sar).status.reason = (s'.review sar).status.reason := by
  obtain ⟨r, alone, same⟩ := (SameFor.refl (t := t) {}).run ran
  obtain ⟨r', alone', same'⟩ := (SameFor.refl (t := t) {}).run ran'
  rw [agree, alone'] at alone
  cases alone
  subst tenant
  rw [(same.trans same'.symm).review]
  exact ⟨rfl, rfl⟩

theorem review_noninterference_other_tenant :
    ∃ s s', run RbacInner.step {} [podReader, bindUsers ["u"]] = some s ∧
      run RbacInner.step {} [.upsertBinding ⟨"x", "", "b", [⟨"User", "u", ""⟩], "ClusterRole", "r"⟩, podReader,
        .upsertRole ⟨"x", "", "r", []⟩, bindUsers ["u"]] = some s' ∧
      (s.review (podReview "u")).status.allowed = true ∧
      (s.review (podReview "u")).status.reason = (s'.review (podReview "u")).status.reason := by
  have agree : [podReader, bindUsers ["u"]].filter (·.tenantId == "t") =
      [RbacCall.upsertBinding ⟨"x", "", "b", [⟨"User", "u", ""⟩], "ClusterRole", "r"⟩, podReader,
        .upsertRole ⟨"x", "", "r", []⟩, bindUsers ["u"]].filter (·.tenantId == "t") := by decide
  have tenant : (podReview "u").spec.tenantId = "t" := rfl
  exact ⟨_, _, rfl, rfl, by decide, (review_noninterference agree rfl rfl tenant).2⟩

end Apiserver
