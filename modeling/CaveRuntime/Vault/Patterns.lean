import CaveRuntime.Vault.Policy

/-!
# The vault: the paths of policy rules

A rule path is written in segments: `+` stands for one segment, whatever it is, and a `*` at the end for any
rest. `PolicyRule::matches` reads a `+` only at the very end of a path and takes every other one for itself,
and `Policy::allows` never takes a rule of length zero, such as the bare `*`.
-/

namespace Vault
open Utf8

/-- A segment of a rule path. -/
inductive Segment where
  | literal (s : Bytes)
  | one
deriving DecidableEq, Repr

namespace Segment

def text : Segment → Bytes
  | literal s => s
  | one => [43]

/-- The segments of a path that it stands for. -/
def Fits : Segment → Bytes → Prop
  | literal s, t => t = s
  | one, t => 47 ∉ t

end Segment

/-- Segments with `/` between them. -/
def join : List Bytes → Bytes
  | [] => []
  | [t] => t
  | t :: u :: ts => t ++ 47 :: join (u :: ts)

/-- A rule path in which every `+` is a segment, with a `*` at its end or without. -/
structure Pattern where
  segments : List Segment
  star : Bool
  plain : ∀ s, .literal s ∈ segments → 43 ∉ s ∧ 47 ∉ s
  open_ : star = false → (join (segments.map Segment.text)).getLast? ≠ some 42

namespace Pattern

def path (p : Pattern) : Bytes := join (p.segments.map Segment.text) ++ if p.star then [42] else []

/-- The path is one that the rule path stands for. -/
def Denotes (p : Pattern) (path : Bytes) : Prop :=
  ∃ ts rest, List.Forall₂ Segment.Fits p.segments ts ∧ path = join ts ++ rest ∧ (p.star = false → rest = [])

/-- The only `+` is at the very end of the rule path. -/
def Trailing (p : Pattern) : Prop := .one ∉ p.segments.dropLast ∧ (p.star = true → .one ∉ p.segments)

end Pattern

lemma join_concat (ts : List Bytes) (t : Bytes) : join (ts ++ [t]) = ts.flatMap (· ++ [47]) ++ t := by
  induction ts with
  | nil => rfl
  | cons u ts ih => cases ts <;> simp_all [join]

lemma mem_join {ts : List Bytes} {c : UInt8} (ne : c ≠ 47) : c ∈ join ts ↔ ∃ t ∈ ts, c ∈ t := by
  induction ts using List.reverseRecOn with
  | nil => simp [join]
  | append_singleton ts t _ => simp [join_concat, ne, or_and_right, exists_or]

lemma dropPrefix?_append (start rest : Bytes) : (start ++ rest).dropPrefix? start = some rest :=
  List.dropPrefix?_eq_some_iff.mpr ⟨start, rfl, beq_self_eq_true start⟩

/-- What the code matches has every byte of the rule path before the last one. -/
lemma mem_of_matchesPath {rule : PolicyRule} {path : Bytes} {c : UInt8}
    (hit : rule.matchesPath path = true) (mem : c ∈ rule.path.dropLast) : c ∈ path := by
  unfold PolicyRule.matchesPath at hit
  split at hit
  · exact (List.isPrefixOf_iff_prefix.mp hit).subset mem
  · split at hit
    · split at hit
      · rename_i rest eq
        rw [List.dropPrefix?_eq_some_iff] at eq
        obtain ⟨rest', eq, same⟩ := eq
        rw [eq]
        simp_all
      · cases hit
    · rw [← eq_of_beq hit]
      exact List.dropLast_subset _ mem

lemma forall₂_fits_append {segments rest : List Segment} {ts : List Bytes} (no : .one ∉ segments) :
    List.Forall₂ Segment.Fits (segments ++ rest) ts ↔
      ∃ us, List.Forall₂ Segment.Fits rest us ∧ ts = segments.map Segment.text ++ us := by
  induction segments generalizing ts with
  | nil => simp
  | cons seg segments ih =>
    cases seg with
    | one => exact absurd List.mem_cons_self no
    | literal s =>
      rw [List.cons_append, List.forall₂_cons_left_iff]
      simp only [ih fun mem => no (List.mem_cons_of_mem _ mem), Segment.Fits, List.map_cons, Segment.text]
      constructor
      · rintro ⟨_, _, rfl, ⟨us, fits, rfl⟩, rfl⟩
        exact ⟨us, fits, rfl⟩
      · rintro ⟨us, fits, rfl⟩
        exact ⟨s, _, rfl, ⟨us, fits, rfl⟩, rfl⟩

lemma forall₂_fits_literals {segments : List Segment} {ts : List Bytes} (no : .one ∉ segments) :
    List.Forall₂ Segment.Fits segments ts ↔ ts = segments.map Segment.text := by
  simpa using @forall₂_fits_append segments [] ts no

namespace Pattern

variable {p : Pattern}

/-- The path that has an empty segment for every `+`. -/
def blank (p : Pattern) : Bytes :=
  join (p.segments.map fun
    | .literal s => s
    | .one => [])

lemma blank_denotes (p : Pattern) : p.Denotes p.blank := by
  refine ⟨_, [], ?_, (List.append_nil _).symm, fun _ => rfl⟩
  rw [List.forall₂_map_right_iff, List.forall₂_same]
  rintro (s | _) _
  · rfl
  · exact List.not_mem_nil

lemma plus_notMem_blank (p : Pattern) : 43 ∉ p.blank := by
  rw [blank, mem_join (by decide)]
  rintro ⟨t, mem, has⟩
  obtain ⟨seg, here, rfl⟩ := List.mem_map.mp mem
  cases seg with
  | one => cases has
  | literal s => exact (p.plain s here).1 has

lemma mem_text {segments : List Segment} (mem : .one ∈ segments) : 43 ∈ join (segments.map Segment.text) :=
  (mem_join (by decide)).mpr ⟨_, List.mem_map_of_mem mem, List.mem_singleton_self _⟩

lemma plus_notMem_text (no : .one ∉ p.segments) : 43 ∉ join (p.segments.map Segment.text) := by
  rw [mem_join (by decide)]
  rintro ⟨t, mem, has⟩
  obtain ⟨seg, here, rfl⟩ := List.mem_map.mp mem
  cases seg with
  | one => exact no here
  | literal s => exact (p.plain s here).1 has

lemma plus_mem_dropLast (bad : ¬ p.Trailing) : 43 ∈ p.path.dropLast := by
  unfold Pattern.path
  cases star : p.star with
  | true =>
    have mem : .one ∈ p.segments := by
      by_contra no
      exact bad ⟨fun mem => no (List.dropLast_subset _ mem), fun _ => no⟩
    simpa using mem_text mem
  | false =>
    have early : .one ∈ p.segments.dropLast := by
      by_contra no
      exact bad ⟨no, by simp [star]⟩
    rcases List.eq_nil_or_concat p.segments with none | ⟨segments, last, eq⟩
    · rw [none] at early
      cases early
    rw [List.concat_eq_append] at eq
    rw [eq, List.dropLast_concat] at early
    obtain ⟨before, after, rfl⟩ := List.append_of_mem early
    -- it is followed by a slash
    have slash : join (p.segments.map Segment.text) = (before.map Segment.text).flatMap (· ++ [47]) ++
        43 :: 47 :: ((after.map Segment.text).flatMap (· ++ [47]) ++ last.text) := by
      rw [eq, List.map_append, List.map_singleton, join_concat]
      simp [Segment.text]
    rw [slash]
    simp [List.dropLast_append_of_ne_nil]

section Matches

variable (caps : List Capability) (path : Bytes)

lemma matchesPath_star (star : p.star = true) (no : .one ∉ p.segments) :
    PolicyRule.matchesPath ⟨p.path, caps⟩ path = true ↔ p.Denotes path := by
  have text : p.path = join (p.segments.map Segment.text) ++ [42] := by simp [Pattern.path, star]
  unfold PolicyRule.matchesPath Denotes
  simp only [text, star, List.getLast?_concat, if_true, List.dropLast_concat, List.isPrefixOf_iff_prefix,
    forall₂_fits_literals no]
  constructor
  · rintro ⟨rest, rfl⟩
    exact ⟨_, rest, rfl, rfl, nofun⟩
  · rintro ⟨_, rest, rfl, rfl, -⟩
    exact List.prefix_append _ _

lemma matchesPath_plus (star : p.star = false) {segments : List Segment} (eq : p.segments = segments ++ [.one])
    (early : .one ∉ segments) : PolicyRule.matchesPath ⟨p.path, caps⟩ path = true ↔ p.Denotes path := by
  have text : p.path = join (p.segments.map Segment.text) := by simp [Pattern.path, star]
  unfold PolicyRule.matchesPath Denotes
  simp only [text, if_neg (p.open_ star)]
  rw [eq, List.map_append, List.map_singleton, join_concat]
  simp only [Segment.text, List.getLast?_concat, if_true, List.dropLast_concat, forall₂_fits_append early]
  constructor
  · intro hit
    split at hit
    · rename_i rest found
      obtain ⟨start, rfl, same⟩ := List.dropPrefix?_eq_some_iff.mp found
      have noSlash : Segment.one.Fits rest := by simpa [Segment.Fits] using hit
      refine ⟨_, [], ⟨[rest], .cons noSlash .nil, rfl⟩, ?_, fun _ => rfl⟩
      rw [join_concat, List.append_nil, eq_of_beq same]
    · cases hit
  · rintro ⟨_, rest, ⟨us, fits, rfl⟩, rfl, none⟩
    cases fits with
    | @cons _ t _ _ noSlash fits =>
      cases fits
      rw [none star, List.append_nil, join_concat, dropPrefix?_append]
      simpa [Segment.Fits] using noSlash

lemma matchesPath_literal (star : p.star = false) (no : .one ∉ p.segments) :
    PolicyRule.matchesPath ⟨p.path, caps⟩ path = true ↔ p.Denotes path := by
  have text : p.path = join (p.segments.map Segment.text) := by simp [Pattern.path, star]
  have other : (join (p.segments.map Segment.text)).getLast? ≠ some 43 := by
    intro last
    exact plus_notMem_text no (List.mem_of_getLast? last)
  unfold PolicyRule.matchesPath Denotes
  simp only [text, if_neg (p.open_ star), if_neg other, beq_iff_eq, forall₂_fits_literals no]
  constructor
  · rintro rfl
    exact ⟨_, [], rfl, (List.append_nil _).symm, fun _ => rfl⟩
  · rintro ⟨_, rest, rfl, rfl, none⟩
    rw [none star, List.append_nil]

/-- The code agrees with the meaning of a rule path if the only `+` is at its end. -/
lemma matchesPath_of_trailing (trailing : p.Trailing) :
    PolicyRule.matchesPath ⟨p.path, caps⟩ path = true ↔ p.Denotes path := by
  cases star : p.star with
  | true => exact matchesPath_star caps path star (trailing.2 star)
  | false =>
    by_cases mem : .one ∈ p.segments
    · -- the last segment is the `+`
      rcases List.eq_nil_or_concat p.segments with none | ⟨segments, last, eq⟩
      · rw [none] at mem
        cases mem
      rw [List.concat_eq_append] at eq
      have early : .one ∉ segments := by simpa [eq] using trailing.1
      have plus : last = .one := by simpa [eq, early, eq_comm] using mem
      exact matchesPath_plus caps path star (plus ▸ eq) early
    · exact matchesPath_literal caps path star mem

end Matches

/-- The code agrees with the meaning of a rule path exactly if the only `+` is at its end. -/
lemma matchesPath_iff (p : Pattern) (caps : List Capability) :
    (∀ path, PolicyRule.matchesPath ⟨p.path, caps⟩ path = true ↔ p.Denotes path) ↔ p.Trailing := by
  refine ⟨fun agrees => ?_, fun trailing path => matchesPath_of_trailing caps path trailing⟩
  by_contra bad
  have hit := (agrees p.blank).mpr p.blank_denotes
  exact p.plus_notMem_blank (mem_of_matchesPath hit (plus_mem_dropLast bad))

end Pattern

lemma Policy.allows_of_zero {policy : Policy} {path : Bytes}
    (zero : ∀ rule ∈ policy.rules, rule.matchesPath path = true → rule.ruleLen = 0) (cap : Capability) :
    policy.allows path cap = false := by
  refine Bool.eq_false_iff.mpr fun ok => ?_
  obtain ⟨rule, most, pos, -⟩ := Policy.someAllows_of_allows ok
  exact Nat.ne_of_gt pos (zero rule most.mem most.hit)

lemma PolicyRule.allows_none_iff (rule : PolicyRule) :
    (∀ cap, rule.allows cap = false) ↔ .deny ∈ rule.capabilities ∨ rule.capabilities = [] := by
  unfold PolicyRule.allows
  by_cases deny : .deny ∈ rule.capabilities
  · simp [deny]
  · simp [deny, List.eq_nil_iff_forall_not_mem]

/-- Rule paths mean what they say exactly if the only `+` is at the very end, and a policy that only has the
bare `*` for a path grants the capabilities of that rule exactly if there are none. -/
theorem rule_paths_iff (p : Pattern) (caps : List Capability) (policy : Policy) (path : Bytes)
    (rule : PolicyRule) :
    ((∀ path, PolicyRule.matchesPath ⟨p.path, caps⟩ path = true ↔ p.Denotes path) ↔ p.Trailing) ∧
    (rule.path = [42] → rule ∈ policy.rules →
      (∀ other ∈ policy.rules, other.matchesPath path = true → other = rule) →
      ((∀ cap, rule.allows cap = true → policy.allows path cap = true) ↔
        .deny ∈ rule.capabilities ∨ rule.capabilities = [])) := by
  refine ⟨p.matchesPath_iff caps, fun bare _ only => ?_⟩
  have zero : ∀ other ∈ policy.rules, other.matchesPath path = true → other.ruleLen = 0 := by
    intro other mem hit
    rw [only other mem hit, PolicyRule.ruleLen, bare]
    decide
  simp only [Policy.allows_of_zero zero, ← rule.allows_none_iff, Bool.false_eq_true, imp_false,
    Bool.not_eq_true]

/-- The rule path "a/+/b". -/
def between : Pattern := ⟨[.literal [97], .one, .literal [98]], false, by simp, by decide⟩

/-- It does not match "a/x/b", and the bare `*` does not let anything be read. -/
theorem rule_paths_misread :
    (between.Denotes [97, 47, 120, 47, 98] ∧
      PolicyRule.matchesPath ⟨between.path, [.read]⟩ [97, 47, 120, 47, 98] = false) ∧
    PolicyRule.matchesPath ⟨[42], [.read]⟩ [97] = true ∧ PolicyRule.allows ⟨[42], [.read]⟩ .read = true ∧
      Policy.allows ⟨"all", [⟨[42], [.read]⟩]⟩ [97] .read = false := by
  have one : Segment.one.Fits [120] := by simp [Segment.Fits]
  refine ⟨⟨⟨[[97], [120], [98]], [], .cons rfl (.cons one (.cons rfl .nil)), rfl, fun _ => rfl⟩, ?_⟩, ?_⟩
  · decide
  · decide

end Vault
