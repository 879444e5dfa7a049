import Mathlib.Data.List.DropRight
import CaveRuntime.Common.Table
import CaveRuntime.Common.Utf8

/-!
# The vault: policies

Model of `cave-vault/src/core/policy.rs`: which paths a rule matches, the rule that decides for a policy and
the check of the policies of a token. A policy is decided by the first of its longest rules, so that the
order of the rules matters where two of them are equally long; and one policy that allows is enough, so
that `Deny` of one policy does not hold against another.

Paths are their bytes. The parameters of a rule, which the check does not read, are left out.
-/

namespace Vault
open Utf8

inductive Capability where
  | create
  | read
  | update
  | delete
  | list
  | sudo
  | deny
  | patch
deriving DecidableEq, Repr

structure PolicyRule where
  path : Bytes
  capabilities : List Capability
deriving DecidableEq, Repr

namespace PolicyRule

/-- `PolicyRule::matches`, with `*` for 42, `+` for 43 and `/` for 47. -/
def matchesPath (rule : PolicyRule) (path : Bytes) : Bool :=
  if rule.path.getLast? = some 42 then rule.path.dropLast.isPrefixOf path
  else if rule.path.getLast? = some 43 then
    match path.dropPrefix? rule.path.dropLast with
    | some rest => !rest.contains 47
    | none => false
  else rule.path == path

def allows (rule : PolicyRule) (cap : Capability) : Bool :=
  if rule.capabilities.contains .deny then false else rule.capabilities.contains cap

/-- The length by which rules are compared: `trim_end_matches('*').trim_end_matches('+').len()`. -/
def ruleLen (rule : PolicyRule) : ℕ := ((rule.path.rdropWhile (· == 42)).rdropWhile (· == 43)).length

end PolicyRule

structure Policy where
  name : String
  rules : List PolicyRule
deriving DecidableEq, Repr

namespace Policy

/-- The body of the loop of `Policy::allows`, on `best` and `best_len`. -/
def consider (path : Bytes) (best : Option PolicyRule × ℕ) (rule : PolicyRule) : Option PolicyRule × ℕ :=
  if rule.matchesPath path then
    if best.2 < rule.ruleLen then (some rule, rule.ruleLen) else best
  else best

def allows (policy : Policy) (path : Bytes) (cap : Capability) : Bool :=
  match (policy.rules.foldl (consider path) (none, 0)).1 with
  | some rule => rule.allows cap
  | none => false

/-- A rule that matches the path, and none that matches it is longer. -/
structure MostSpecific (policy : Policy) (path : Bytes) (rule : PolicyRule) : Prop where
  mem : rule ∈ policy.rules
  hit : rule.matchesPath path = true
  longest : ∀ other ∈ policy.rules, other.matchesPath path = true → other.ruleLen ≤ rule.ruleLen

/-- What the loop has found in the rules so far. A rule of length zero is never taken. -/
inductive Best (path : Bytes) (rules : List PolicyRule) : Option PolicyRule × ℕ → Prop
  | nothing : (∀ rule ∈ rules, rule.matchesPath path = true → rule.ruleLen = 0) → Best path rules (none, 0)
  | found {rule : PolicyRule} : rule ∈ rules → rule.matchesPath path = true → 0 < rule.ruleLen →
      (∀ other ∈ rules, other.matchesPath path = true → other.ruleLen ≤ rule.ruleLen) →
      Best path rules (some rule, rule.ruleLen)

/-- One more rule is compared with the best one so far. -/
lemma Best.consider {path : Bytes} {rules : List PolicyRule} {best : Option PolicyRule × ℕ}
    (h : Best path rules best) (rule : PolicyRule) :
    Best path (rules ++ [rule]) (consider path best rule) := by
  -- the longest of the rules with the new one, if it was the longest before
  have grow {n : ℕ} (old : ∀ other ∈ rules, other.matchesPath path = true → other.ruleLen ≤ n)
      (new : rule.matchesPath path = true → rule.ruleLen ≤ n) :
      ∀ other ∈ rules ++ [rule], other.matchesPath path = true → other.ruleLen ≤ n := by
    intro other mem
    cases List.mem_append.mp mem with
    | inl before => exact old other before
    | inr here => rwa [List.mem_singleton.mp here]
  have here : rule ∈ rules ++ [rule] := List.mem_append_right _ List.mem_cons_self
  unfold Policy.consider
  cases h with
  | nothing none =>
    have none' : ∀ other ∈ rules, other.matchesPath path = true → other.ruleLen ≤ 0 :=
      fun other mem hit => (none other mem hit).le
    cases hit : rule.matchesPath path with
    | false =>
      have all := grow none' (by simp [hit])
      exact .nothing fun other mem hit => Nat.le_zero.mp (all other mem hit)
    | true =>
      rw [if_pos rfl]
      split
      · rename_i pos
        exact .found here hit pos (grow (fun other mem hit => (none' other mem hit).trans (Nat.zero_le _))
          fun _ => Nat.le_refl _)
      · rename_i zero
        have all := grow none' (fun _ => Nat.not_lt.mp zero)
        exact .nothing fun other mem hit => Nat.le_zero.mp (all other mem hit)
  | @found old mem hitOld pos longest =>
    have mem' : old ∈ rules ++ [rule] := List.mem_append_left _ mem
    cases hit : rule.matchesPath path with
    | false => exact .found mem' hitOld pos (grow longest (by simp [hit]))
    | true =>
      rw [if_pos rfl]
      split
      · rename_i longer
        have longer : old.ruleLen < rule.ruleLen := longer
        exact .found here hit (by omega) (grow (fun other mem hit => (longest other mem hit).trans longer.le)
          fun _ => Nat.le_refl _)
      · rename_i shorter
        exact .found mem' hitOld pos (grow longest fun _ => Nat.not_lt.mp shorter)

lemma best_foldl (path : Bytes) (rules : List PolicyRule) :
    Best path rules (rules.foldl (consider path) (none, 0)) := by
  induction rules using List.reverseRecOn with
  | nil => exact .nothing nofun
  | append_singleton rules rule ih =>
    rw [List.foldl_append]
    exact ih.consider rule

variable {policy policy' : Policy} {path : Bytes} {cap : Capability} {rule : PolicyRule}

instance : Decidable (policy.MostSpecific path rule) :=
  decidable_of_iff (rule ∈ policy.rules ∧ rule.matchesPath path = true ∧
      ∀ other ∈ policy.rules, other.matchesPath path = true → other.ruleLen ≤ rule.ruleLen)
    ⟨fun h => ⟨h.1, h.2.1, h.2.2⟩, fun h => ⟨h.mem, h.hit, h.longest⟩⟩

/-- Some most specific rule allows. A rule of length zero is never used. -/
def SomeAllows (policy : Policy) (path : Bytes) (cap : Capability) : Prop :=
  ∃ rule, policy.MostSpecific path rule ∧ 0 < rule.ruleLen ∧ rule.allows cap = true

/-- There are most specific rules, and all of them allow. -/
def AllAllow (policy : Policy) (path : Bytes) (cap : Capability) : Prop :=
  (∃ rule, policy.MostSpecific path rule ∧ 0 < rule.ruleLen) ∧
    ∀ rule, policy.MostSpecific path rule → rule.allows cap = true

lemma MostSpecific.perm (most : policy.MostSpecific path rule) (same : policy.rules.Perm policy'.rules) :
    policy'.MostSpecific path rule :=
  ⟨same.mem_iff.mp most.mem, most.hit, fun other mem => most.longest other (same.mem_iff.mpr mem)⟩

lemma someAllows_of_allows (h : policy.allows path cap = true) : policy.SomeAllows path cap := by
  have best := best_foldl path policy.rules
  unfold allows at h
  generalize policy.rules.foldl (consider path) (none, 0) = b at best h
  cases best with
  | nothing _ => cases h
  | found mem hit pos longest => exact ⟨_, ⟨mem, hit, longest⟩, pos, h⟩

lemma AllAllow.allows (all : policy.AllAllow path cap) (same : policy.rules.Perm policy'.rules) :
    policy'.allows path cap = true := by
  obtain ⟨⟨rule, most, pos⟩, all⟩ := all
  have most' := most.perm same
  have best := best_foldl path policy'.rules
  unfold Policy.allows
  generalize policy'.rules.foldl (consider path) (none, 0) = b at best ⊢
  cases best with
  | nothing none => exact absurd (none rule most'.mem most'.hit) (Nat.ne_of_gt pos)
  | found mem hit _ longest => exact all _ (MostSpecific.perm ⟨mem, hit, longest⟩ same.symm)

/-! ### Orders of the rules -/

/-- The policy with the given rule first. -/
def withFirst (rule : PolicyRule) (policy : Policy) : Policy :=
  if rule ∈ policy.rules then { policy with rules := rule :: policy.rules.erase rule } else policy

lemma perm_withFirst (rule : PolicyRule) (policy : Policy) :
    policy.rules.Perm (policy.withFirst rule).rules := by
  unfold withFirst
  split
  · rename_i mem
    exact List.perm_cons_erase mem
  · exact .refl _

lemma foldl_consider_of_longest {best : Option PolicyRule} {n : ℕ} {rules : List PolicyRule}
    (longest : ∀ other ∈ rules, other.matchesPath path = true → other.ruleLen ≤ n) :
    rules.foldl (consider path) (best, n) = (best, n) := by
  induction rules with
  | nil => rfl
  | cons rule rules ih =>
    have keeps : consider path (best, n) rule = (best, n) := by
      unfold consider
      split
      · rename_i hit
        rw [if_neg (Nat.not_lt.mpr (longest rule List.mem_cons_self hit))]
      · rfl
    rw [List.foldl_cons, keeps]
    exact ih fun other mem => longest other (List.mem_cons_of_mem _ mem)

lemma allows_withFirst (most : policy.MostSpecific path rule) (cap : Capability) :
    (policy.withFirst rule).allows path cap = (decide (0 < rule.ruleLen) && rule.allows cap) := by
  have others : ∀ other ∈ policy.rules.erase rule, other.matchesPath path = true →
      other.ruleLen ≤ rule.ruleLen :=
    fun other mem => most.longest other (List.mem_of_mem_erase mem)
  unfold withFirst allows
  rw [if_pos most.mem]
  by_cases pos : 0 < rule.ruleLen
  · have first : consider path (none, 0) rule = (some rule, rule.ruleLen) := by
      simp only [consider, most.hit, pos, if_true]
    simp only [List.foldl_cons, first, foldl_consider_of_longest others, pos, decide_true, Bool.true_and]
  · have first : consider path (none, 0) rule = (none, 0) := by
      simp only [consider, most.hit, pos, if_true, if_false]
    have short : ∀ other ∈ policy.rules.erase rule, other.matchesPath path = true → other.ruleLen ≤ 0 :=
      fun other mem hit => (others other mem hit).trans (Nat.not_lt.mp pos)
    simp only [List.foldl_cons, first, foldl_consider_of_longest short, pos, decide_false, Bool.false_and]

/-- The policy with a most specific rule first that does not allow, if there is one. -/
def against (path : Bytes) (cap : Capability) (policy : Policy) : Policy :=
  match policy.rules.find? fun rule => decide (policy.MostSpecific path rule) && !rule.allows cap with
  | some rule => policy.withFirst rule
  | none => policy

lemma perm_against (path : Bytes) (cap : Capability) (policy : Policy) :
    policy.rules.Perm (policy.against path cap).rules := by
  unfold against
  split
  · exact perm_withFirst _ _
  · exact .refl _

lemma against_allows (some : ¬ policy.AllAllow path cap) :
    (policy.against path cap).allows path cap = false := by
  unfold against
  split
  · rename_i rule found
    have hit := List.find?_some found
    simp only [Bool.and_eq_true, decide_eq_true_eq, Bool.not_eq_true'] at hit
    rw [allows_withFirst hit.1, hit.2, Bool.and_false]
  · rename_i none
    refine Bool.eq_false_iff.mpr fun ok => some ?_
    obtain ⟨rule, most, pos, -⟩ := someAllows_of_allows ok
    refine ⟨⟨rule, most, pos⟩, fun other most' => ?_⟩
    have no := List.find?_eq_none.mp none other most'.mem
    simpa [most'] using no

end Policy

/-! ## The check -/

structure PolicyStore where
  policies : Table String Policy

namespace PolicyStore

variable {store store' : PolicyStore} {names names' : List String} {path : Bytes} {cap : Capability}

def get (store : PolicyStore) (name : String) : Option Policy := store.policies.lookup name

def put (store : PolicyStore) (policy : Policy) : PolicyStore :=
  ⟨store.policies.insert policy.name policy⟩

def check (store : PolicyStore) (policyNames : List String) (path : Bytes) (cap : Capability) : Bool :=
  if policyNames.contains "root" then true
  else policyNames.any fun name =>
    match store.get name with
    | some policy => policy.allows path cap
    | none => false

lemma check_iff (noRoot : "root" ∉ names) :
    store.check names path cap = true ↔
      ∃ name ∈ names, ∃ policy, store.get name = some policy ∧ policy.allows path cap = true := by
  unfold check
  rw [if_neg (fun h => noRoot (List.contains_iff_mem.mp h)), List.any_eq_true]
  refine exists_congr fun name => and_congr_right fun _ => ?_
  cases store.get name with
  | none => simp
  | some policy => simp

/-- The same policies, each with its rules in some order. -/
def Reordered (store store' : PolicyStore) : Prop :=
  ∀ name, Option.Rel (fun p p' : Policy => p.rules.Perm p'.rules) (store.get name) (store'.get name)

lemma Reordered.refl (store : PolicyStore) : store.Reordered store := by
  intro name
  cases store.get name with
  | none => exact .none
  | some policy => exact .some (.refl _)

lemma Reordered.symm (same : store.Reordered store') : store'.Reordered store := by
  intro name
  have rel := same name
  generalize store.get name = o, store'.get name = o' at rel
  cases rel with
  | some perm => exact .some perm.symm
  | none => exact .none

lemma Reordered.exists_get (same : store.Reordered store') {name : String} {p : Policy}
    (look : store.get name = some p) : ∃ p', store'.get name = some p' ∧ p.rules.Perm p'.rules := by
  have rel := same name
  rw [look] at rel
  generalize store'.get name = o at rel
  cases rel with
  | some perm => exact ⟨_, rfl, perm⟩

/-- A policy under one of the names. -/
def Attached (store : PolicyStore) (names : List String) (policy : Policy) : Prop :=
  ∃ name ∈ names, store.get name = some policy

/-- No attached policy has a most specific rule that allows; or one has only such rules, and none of the
attached policies has a most specific rule that denies. -/
def Unanimous (store : PolicyStore) (names : List String) (path : Bytes) (cap : Capability) : Prop :=
  (∀ policy, store.Attached names policy → ¬ policy.SomeAllows path cap) ∨
    ((∃ policy, store.Attached names policy ∧ policy.AllAllow path cap) ∧
      ∀ policy, store.Attached names policy → ∀ rule, policy.MostSpecific path rule →
        .deny ∉ rule.capabilities)

lemma Attached.reordered {policy : Policy} (att : store.Attached names policy)
    (same : store.Reordered store') (perm : names.Perm names') :
    ∃ policy', store'.Attached names' policy' ∧ policy.rules.Perm policy'.rules := by
  obtain ⟨name, mem, look⟩ := att
  obtain ⟨policy', look', rules⟩ := same.exists_get look
  exact ⟨policy', ⟨name, perm.mem_iff.mp mem, look'⟩, rules⟩

/-- The store with every policy in another order. -/
def reorder (f : Policy → Policy) (store : PolicyStore) : PolicyStore :=
  ⟨store.policies.mapWithKey fun _ policy => f policy⟩

lemma get_reorder (f : Policy → Policy) (store : PolicyStore) (name : String) :
    (store.reorder f).get name = (store.get name).map f :=
  Table.lookup_mapWithKey _ _ _

lemma reordered_reorder {f : Policy → Policy} (perm : ∀ p : Policy, p.rules.Perm (f p).rules)
    (store : PolicyStore) : store.Reordered (store.reorder f) := by
  intro name
  rw [get_reorder]
  cases store.get name with
  | none => exact .none
  | some policy => exact .some (perm policy)

/-- If no attached policy has a most specific rule that allows, nothing is allowed in any order. -/
lemma check_false (noRoot : "root" ∉ names)
    (never : ∀ policy, store.Attached names policy → ¬ policy.SomeAllows path cap)
    (same : store.Reordered store') (perm : names.Perm names') : store'.check names' path cap = false := by
  refine Bool.eq_false_iff.mpr fun ok => ?_
  obtain ⟨name, mem, policy', look, allowed⟩ := (check_iff fun h => noRoot (perm.mem_iff.mpr h)).mp ok
  obtain ⟨policy, att, rules⟩ := Attached.reordered ⟨name, mem, look⟩ same.symm perm.symm
  obtain ⟨rule, most, rest⟩ := Policy.someAllows_of_allows allowed
  exact never policy att ⟨rule, most.perm rules, rest⟩

/-- If all most specific rules of an attached policy allow, it is allowed in any order. -/
lemma check_true (noRoot : "root" ∉ names) {policy : Policy} (att : store.Attached names policy)
    (all : policy.AllAllow path cap) (same : store.Reordered store') (perm : names.Perm names') :
    store'.check names' path cap = true := by
  obtain ⟨policy', ⟨name, mem, look⟩, rules⟩ := att.reordered same perm
  exact (check_iff fun h => noRoot (perm.mem_iff.mpr h)).mpr ⟨name, mem, policy', look, all.allows rules⟩

/-- **Deny wins and the order does not matter, exactly if the attached policies are unanimous.** -/
theorem check_deny_wins_iff (noRoot : "root" ∉ names) :
    ((∀ name ∈ names, ∀ policy, store.get name = some policy →
        ∀ rule, policy.MostSpecific path rule → .deny ∈ rule.capabilities →
          store.check names path cap = false) ∧
      ∀ names' store', names.Perm names' → store.Reordered store' →
        store'.check names' path cap = store.check names path cap) ↔
      store.Unanimous names path cap := by
  constructor
  · rintro ⟨wins, order⟩
    cases now : store.check names path cap with
    | false =>
      -- a rule that allows could be put first
      refine .inl fun policy ⟨name, mem, look⟩ ⟨rule, most, pos, ok⟩ => ?_
      have first := order names _ (.refl _) (reordered_reorder (Policy.perm_withFirst rule) store)
      rw [now, Bool.eq_false_iff] at first
      refine first ((check_iff noRoot).mpr ⟨name, mem, policy.withFirst rule, ?_, ?_⟩)
      · rw [get_reorder, look, Option.map_some]
      · rw [Policy.allows_withFirst most, decide_eq_true pos, ok, Bool.and_self]
    | true =>
      refine .inr ⟨?_, fun policy ⟨name, mem, look⟩ rule most deny => ?_⟩
      · -- otherwise every policy could have a rule first that does not allow
        by_contra none
        have against := order names _ (.refl _) (reordered_reorder (Policy.perm_against path cap) store)
        rw [now] at against
        obtain ⟨name, mem, policy', look, allowed⟩ := (check_iff noRoot).mp against
        rw [get_reorder] at look
        obtain ⟨policy, was, rfl⟩ := Option.map_eq_some_iff.mp look
        rw [Policy.against_allows fun all => none ⟨policy, ⟨name, mem, was⟩, all⟩] at allowed
        cases allowed
      · rw [wins name mem policy look rule most deny] at now
        cases now
  · rintro (never | ⟨⟨policy, att, all⟩, free⟩)
    · have now : store.check names path cap = false := check_false noRoot never (.refl store) (.refl _)
      refine ⟨fun _ _ _ _ _ _ _ => now, fun names' store' perm same => ?_⟩
      rw [now, check_false noRoot never same perm]
    · have now : store.check names path cap = true := check_true noRoot att all (.refl store) (.refl _)
      refine ⟨fun name mem policy look rule most deny => ?_, fun names' store' perm same => ?_⟩
      · exact absurd deny (free policy ⟨name, mem, look⟩ rule most)
      · rw [now, check_true noRoot att all same perm]

/-- A policy that lets "s/" be read, and not "s/x". -/
def appPolicy : Policy := ⟨"app", [⟨[115, 47, 42], [.read]⟩, ⟨[115, 47, 120], [.deny]⟩]⟩

/-- A policy that lets "s/x" be read. -/
def opsPolicy : Policy := ⟨"ops", [⟨[115, 47, 120], [.read]⟩]⟩

theorem check_deny_wins_app :
    (put ⟨∅⟩ appPolicy).Unanimous ["app"] [115, 47, 120] .read ∧
      check (put ⟨∅⟩ appPolicy) ["app"] [115, 47, 120] .read = false := by
  have most : appPolicy.MostSpecific [115, 47, 120] ⟨[115, 47, 120], [.deny]⟩ := by decide
  have unanimous : (put ⟨∅⟩ appPolicy).Unanimous ["app"] [115, 47, 120] .read := by
    refine .inl ?_
    rintro policy ⟨name, mem, look⟩ ⟨rule, most', -, ok⟩
    cases List.mem_singleton.mp mem
    cases look
    have all : ∀ rule ∈ appPolicy.rules, appPolicy.MostSpecific [115, 47, 120] rule →
      rule.allows .read = false := by decide
    rw [all rule most'.mem most'] at ok
    cases ok
  have wins := (check_deny_wins_iff (show "root" ∉ ["app"] by decide)).mpr unanimous
  exact ⟨unanimous, wins.1 "app" (by decide) appPolicy rfl _ most (by decide)⟩

/-- A second policy that allows beats `Deny`; and of a glob and an exact path of the same length, the
first one decides. -/
theorem check_deny_loses :
    (∃ policy rule, ((put ⟨∅⟩ appPolicy).put opsPolicy).get "app" = some policy ∧
      policy.MostSpecific [115, 47, 120] rule ∧ .deny ∈ rule.capabilities ∧
      ((put ⟨∅⟩ appPolicy).put opsPolicy).check ["app", "ops"] [115, 47, 120] .read = true) ∧
    ∃ rules rules' : List PolicyRule, rules.Perm rules' ∧
      (put ⟨∅⟩ ⟨"tie", rules⟩).Reordered (put ⟨∅⟩ ⟨"tie", rules'⟩) ∧
      check (put ⟨∅⟩ ⟨"tie", rules⟩) ["tie"] [115, 47, 120] .read = false ∧
      check (put ⟨∅⟩ ⟨"tie", rules'⟩) ["tie"] [115, 47, 120] .read = true := by
  refine ⟨⟨appPolicy, ⟨[115, 47, 120], [.deny]⟩, rfl, by decide, by decide, by decide⟩,
    [⟨[115, 47, 120], [.deny]⟩, ⟨[115, 47, 120, 42], [.read]⟩],
    [⟨[115, 47, 120, 42], [.read]⟩, ⟨[115, 47, 120], [.deny]⟩], .swap _ _ _, ?_, by decide, by decide⟩
  intro name
  simp only [get, put, Table.lookup_insert_eq]
  split
  · exact .some (.swap _ _ _)
  · exact .none

end PolicyStore

end Vault
