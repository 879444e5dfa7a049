import CaveRuntime.Common.Table
import CaveRuntime.Common.Utf8
import Mathlib.Data.Finset.Union

/-!
# The label index

Model of `InvertedIndex` of `cave-metrics/src/tsdb/mod.rs` and of `LabelMatcher` of `model.rs`. The index has the
fingerprints of the series with each value of each label; a list of matchers is answered from it by operations on
sets of fingerprints. A regular expression is given by the strings it matches.
-/

namespace Metrics
open Utf8

abbrev Labels := Table Bytes Bytes

inductive MatchOp
  | equal
  | notEqual
  | regexMatch
  | regexNotMatch
deriving DecidableEq

structure LabelMatcher where
  name : Bytes
  op : MatchOp
  value : Bytes
  regex : Option (Bytes → Bool) := none

namespace LabelMatcher

def isMatch (m : LabelMatcher) (value : Bytes) : Bool := (m.regex.map fun r => r value).getD false

/-- An absent label reads as the empty string. -/
def «matches» (m : LabelMatcher) (labels : Labels) : Bool :=
  let value := (labels.lookup m.name).getD []
  match m.op with
  | .equal => value = m.value
  | .notEqual => value ≠ m.value
  | .regexMatch => m.isMatch value
  | .regexNotMatch => !m.isMatch value

end LabelMatcher

abbrev Postings := Table Bytes (Finset ℕ)

abbrev InvertedIndex := Table Bytes Postings

/-- What is collected from the entries of a hash map. -/
def collect {α : Type*} (sets : α → Finset ℕ) (l : List α) : Finset ℕ := l.foldl (fun all e => all ∪ sets e) ∅

lemma mem_collect {α : Type*} {sets : α → Finset ℕ} {l : List α} {fp : ℕ} :
    fp ∈ collect sets l ↔ ∃ e ∈ l, fp ∈ sets e := by
  have from_ (all : Finset ℕ) : fp ∈ l.foldl (fun all e => all ∪ sets e) all ↔ fp ∈ all ∨ ∃ e ∈ l,
    fp ∈ sets e := by
    induction l generalizing all with
    | nil => simp
    | cons e l ih =>
      rw [List.foldl_cons, ih, Finset.mem_union, or_assoc, List.exists_mem_cons_iff]
  rw [collect, from_]
  simp

namespace InvertedIndex

def addLabel (fp : ℕ) (idx : InvertedIndex) (label : Sigma fun _ : Bytes => Bytes) : InvertedIndex :=
  let vals := (idx.lookup label.1).getD ∅
  idx.insert label.1 (vals.insert label.2 (insert fp ((vals.lookup label.2).getD ∅)))

def add (idx : InvertedIndex) (labels : Labels) (fp : ℕ) : InvertedIndex := labels.entries.foldl (addLabel fp) idx

/-- The fingerprints of the whole index. -/
def all (idx : InvertedIndex) : Finset ℕ := collect (fun vals => collect (·.2) vals.2.entries) idx.entries

def posting (idx : InvertedIndex) (name value : Bytes) : Finset ℕ :=
  ((idx.lookup name).bind (·.lookup value)).getD ∅

/-- The fingerprints with a value of the label that the matcher accepts. -/
def matched (idx : InvertedIndex) (m : LabelMatcher) : Finset ℕ :=
  collect (·.2) (((idx.lookup m.name).getD ∅).entries.filter fun e => m.matches (AList.singleton m.name e.1))

def candidates (idx : InvertedIndex) (m : LabelMatcher) : Finset ℕ :=
  match m.op with
  | .equal => idx.posting m.name m.value
  | .notEqual => idx.all \ idx.posting m.name m.value
  | .regexMatch => idx.matched m
  | .regexNotMatch => idx.all \ idx.matched m

def matching (idx : InvertedIndex) (matchers : List LabelMatcher) : Finset ℕ :=
  if matchers = [] then idx.all
  else
    (matchers.foldl (fun result m =>
      some (match result with
        | none => idx.candidates m
        | some r => r ∩ idx.candidates m)) none).getD ∅

/-! ## What the index has -/

variable {idx : InvertedIndex} {fp fp' : ℕ} {name value : Bytes}

lemma mem_posting_addLabel {label : Sigma fun _ : Bytes => Bytes} :
    fp' ∈ (addLabel fp idx label).posting name value ↔
      fp' = fp ∧ (⟨name, value⟩ : Sigma fun _ : Bytes => Bytes) = label ∨ fp' ∈ idx.posting name value := by
  obtain ⟨name', value'⟩ := label
  unfold posting addLabel
  rw [Table.lookup_insert_eq]
  by_cases sameName : name = name'
  · subst sameName
    rw [if_pos rfl, Option.bind_some, Table.lookup_insert_eq]
    by_cases sameValue : value = value'
    · subst sameValue
      rw [if_pos rfl]
      cases idx.lookup name <;> simp
    · rw [if_neg sameValue]
      cases idx.lookup name <;> simp [sameValue]
  · rw [if_neg sameName]
    simp [sameName]

lemma mem_posting_foldl {labels : List (Sigma fun _ : Bytes => Bytes)} :
    fp' ∈ (labels.foldl (addLabel fp) idx).posting name value ↔
      fp' = fp ∧ ⟨name, value⟩ ∈ labels ∨ fp' ∈ idx.posting name value := by
  induction labels generalizing idx with
  | nil => simp
  | cons label labels ih =>
    rw [List.foldl_cons, ih, mem_posting_addLabel, List.mem_cons, and_or_left, ← or_assoc, or_comm
      (a := _ ∧ _ ∈ _)]

lemma mem_posting_add {labels : Labels} :
    fp' ∈ (idx.add labels fp).posting name value ↔
      fp' = fp ∧ labels.lookup name = some value ∨ fp' ∈ idx.posting name value := by
  rw [add, mem_posting_foldl, Table.mem_entries]

lemma mem_all : fp ∈ idx.all ↔ ∃ name value, fp ∈ idx.posting name value := by
  unfold all posting
  rw [mem_collect]
  constructor
  · rintro ⟨⟨name, vals⟩, mem, inner⟩
    obtain ⟨⟨value, fps⟩, mem', there⟩ := mem_collect.mp inner
    refine ⟨name, value, ?_⟩
    rw [Table.mem_entries.mp mem, Option.bind_some, Table.mem_entries.mp mem']
    exact there
  · rintro ⟨name, value, there⟩
    cases vals : idx.lookup name with
    | none => simp [vals] at there
    | some t =>
      cases fps : t.lookup value with
      | none => simp [vals, fps] at there
      | some set =>
        rw [vals, Option.bind_some, fps] at there
        exact ⟨⟨name, t⟩, Table.mem_entries.mpr vals, mem_collect.mpr ⟨⟨value, set⟩, Table.mem_entries.mpr fps,
          there⟩⟩

lemma mem_matched {m : LabelMatcher} : fp ∈ idx.matched m ↔
    ∃ value, m.matches (AList.singleton m.name value) = true ∧ fp ∈ idx.posting m.name value := by
  unfold posting
  rw [matched, mem_collect]
  constructor
  · rintro ⟨⟨value, fps⟩, mem, there⟩
    obtain ⟨mem, accepted⟩ := List.mem_filter.mp mem
    refine ⟨value, accepted, ?_⟩
    cases vals : idx.lookup m.name with
    | none => simp [vals] at mem
    | some t =>
      rw [vals] at mem
      have look : t.lookup value = some fps := Table.mem_entries.mp mem
      rw [Option.bind_some, look]
      exact there
  · rintro ⟨value, accepted, there⟩
    cases vals : idx.lookup m.name with
    | none => simp [vals] at there
    | some t =>
      cases fps : t.lookup value with
      | none => simp [vals, fps] at there
      | some set =>
        rw [vals, Option.bind_some, fps] at there
        exact ⟨⟨value, set⟩, List.mem_filter.mpr ⟨Table.mem_entries.mpr fps, accepted⟩, there⟩

lemma candidates_subset (m : LabelMatcher) (mem : fp ∈ idx.candidates m) : fp ∈ idx.all := by
  unfold candidates at mem
  split at mem
  · exact mem_all.mpr ⟨_, _, mem⟩
  · exact (Finset.mem_sdiff.mp mem).1
  · obtain ⟨value, -, there⟩ := mem_matched.mp mem
    exact mem_all.mpr ⟨_, value, there⟩
  · exact (Finset.mem_sdiff.mp mem).1

lemma mem_matching {matchers : List LabelMatcher} :
    fp ∈ idx.matching matchers ↔ fp ∈ idx.all ∧ ∀ m ∈ matchers, fp ∈ idx.candidates m := by
  have further (r : Finset ℕ) (ms : List LabelMatcher) :
      ∃ r', ms.foldl (fun result m => some (match result with
        | none => idx.candidates m
        | some r => r ∩ idx.candidates m)) (some r) = some r' ∧
          ∀ fp, fp ∈ r' ↔ fp ∈ r ∧ ∀ m ∈ ms, fp ∈ idx.candidates m := by
    induction ms generalizing r with
    | nil => exact ⟨r, rfl, by simp⟩
    | cons m ms ih =>
      obtain ⟨r', eq, mem⟩ := ih (r ∩ idx.candidates m)
      refine ⟨r', eq, fun fp => ?_⟩
      rw [mem fp, Finset.mem_inter, and_assoc, List.forall_mem_cons]
  unfold matching
  cases matchers with
  | nil => simp
  | cons m ms =>
    obtain ⟨r', eq, mem⟩ := further (idx.candidates m) ms
    rw [if_neg (List.cons_ne_nil m ms), List.foldl_cons, eq, Option.getD_some, mem fp, List.forall_mem_cons]
    exact ⟨fun h => ⟨candidates_subset m h.1, h⟩, And.right⟩

/-! ## The index of a set of series -/

/-- The index of series with their fingerprints. -/
def build (series : List (Labels × ℕ)) : InvertedIndex := series.foldl (fun idx s => idx.add s.1 s.2) ∅

variable {series : List (Labels × ℕ)} {s : Labels × ℕ}

lemma mem_posting_build :
    fp ∈ (build series).posting name value ↔ ∃ s ∈ series, s.2 = fp ∧ s.1.lookup name = some value := by
  have from_ (idx : InvertedIndex) : fp ∈ (series.foldl (fun idx s => idx.add s.1 s.2) idx).posting name value ↔
      (∃ s ∈ series, s.2 = fp ∧ s.1.lookup name = some value) ∨ fp ∈ idx.posting name value := by
    induction series generalizing idx with
    | nil => simp
    | cons s series ih =>
      rw [List.foldl_cons, ih, mem_posting_add, List.exists_mem_cons_iff, or_assoc, eq_comm (a := fp),
        or_left_comm]
  rw [build, from_ ∅]
  exact or_iff_left (Finset.notMem_empty fp)

lemma mem_posting_iff (distinct : (series.map (·.2)).Nodup) (mem : s ∈ series) :
    s.2 ∈ (build series).posting name value ↔ s.1.lookup name = some value := by
  rw [mem_posting_build]
  constructor
  · rintro ⟨s', mem', same, look⟩
    cases List.inj_on_of_nodup_map distinct mem' mem same
    exact look
  · exact fun look => ⟨s, mem, rfl, look⟩

lemma mem_all_build (labelled : ∀ s ∈ series, s.1.entries ≠ []) :
    fp ∈ (build series).all ↔ ∃ s ∈ series, s.2 = fp := by
  rw [mem_all]
  constructor
  · rintro ⟨name, value, there⟩
    obtain ⟨s, mem, same, -⟩ := mem_posting_build.mp there
    exact ⟨s, mem, same⟩
  · rintro ⟨s, mem, same⟩
    obtain ⟨⟨name, value⟩, first⟩ := List.exists_mem_of_ne_nil _ (labelled s mem)
    exact ⟨name, value, mem_posting_build.mpr ⟨s, mem, same, Table.mem_entries.mp first⟩⟩

end InvertedIndex
open InvertedIndex

namespace LabelMatcher

/-- What the matcher looks for, or looks to exclude, is there in the empty string. -/
def Blank (m : LabelMatcher) : Prop :=
  match m.op with
  | .equal | .notEqual => m.value = []
  | .regexMatch | .regexNotMatch => m.isMatch [] = true

/-- The index takes the matcher the other way round: a negated regular expression on a label that is there (it is
negated twice), and a matcher that fits the empty string on a label that is not. -/
def Inverted (m : LabelMatcher) (labels : Labels) : Prop :=
  match labels.lookup m.name with
  | some _ => m.op = .regexNotMatch
  | none => m.Blank

lemma matches_singleton (m : LabelMatcher) (value : Bytes) :
    m.matches (AList.singleton m.name value) = match m.op with
      | .equal => decide (value = m.value)
      | .notEqual => decide (value ≠ m.value)
      | .regexMatch => m.isMatch value
      | .regexNotMatch => !m.isMatch value := by
  have look : (AList.singleton m.name value : Labels).lookup m.name = some value := AList.lookup_insert ∅
  unfold «matches»
  rw [look]
  rfl

end LabelMatcher
open LabelMatcher

section
variable {series : List (Labels × ℕ)} {s : Labels × ℕ}

/-- An inverted matcher finds exactly the series that it does not match. -/
lemma mem_candidates_iff (labelled : ∀ s ∈ series, s.1.entries ≠ []) (distinct : (series.map (·.2)).Nodup)
    (mem : s ∈ series) (m : LabelMatcher) :
    s.2 ∈ (build series).candidates m ↔ (m.matches s.1 = true ↔ ¬m.Inverted s.1) := by
  have there : s.2 ∈ (build series).all := (mem_all_build labelled).mpr ⟨s, mem, rfl⟩
  have posted (value : Bytes) : s.2 ∈ (build series).posting m.name value ↔ s.1.lookup m.name = some value :=
    mem_posting_iff distinct mem
  unfold candidates
  cases op : m.op with
  | equal =>
    simp only [posted, LabelMatcher.matches, Inverted, Blank, op]
    cases s.1.lookup m.name with
    | none => simp [eq_comm]
    | some value => simp
  | notEqual =>
    simp only [Finset.mem_sdiff, there, posted, LabelMatcher.matches, Inverted, Blank, op]
    cases s.1.lookup m.name with
    | none =>
      rw [eq_comm (a := m.value)]
      simp
    | some value => simp
  | regexMatch =>
    simp only [mem_matched, posted, matches_singleton, op]
    simp only [LabelMatcher.matches, Inverted, Blank, op]
    cases s.1.lookup m.name <;> simp
  | regexNotMatch =>
    simp only [Finset.mem_sdiff, there, mem_matched, posted, matches_singleton, op]
    simp only [LabelMatcher.matches, Inverted, Blank, op]
    cases s.1.lookup m.name <;> simp

end

/-- The index returns the fingerprints of the series that satisfy every matcher. -/
def Agrees (series : List (Labels × ℕ)) (matchers : List LabelMatcher) : Prop :=
  ∀ fp, fp ∈ (build series).matching matchers ↔ ∃ s ∈ series, s.2 = fp ∧ ∀ m ∈ matchers, m.matches s.1 = true

/-- When some of the answers are inverted, two conjunctions agree if both fail. -/
lemma forall_iff_of_inverted {α : Type*} (l : List α) (right inverted : α → Prop) :
    ((∀ a ∈ l, right a ↔ ¬inverted a) ↔ ∀ a ∈ l, right a) ↔
      (∀ a ∈ l, ¬inverted a) ∨ (∃ a ∈ l, ¬right a) ∧ ∃ a ∈ l, right a ↔ inverted a := by
  constructor
  · intro same
    by_cases none : ∀ a ∈ l, ¬inverted a
    · exact .inl none
    refine .inr ?_
    have refused : ¬∀ a ∈ l, right a := fun all =>
      none fun a mem => (same.mpr all a mem).mp (all a mem)
    refine ⟨by simpa using refused, ?_⟩
    obtain ⟨a, left⟩ := not_forall.mp fun all => refused (same.mp all)
    obtain ⟨mem, ne⟩ := Classical.not_imp.mp left
    exact ⟨a, mem, by tauto⟩
  · rintro (none | ⟨⟨a, mem, refused⟩, b, mem', same⟩)
    · exact forall₂_congr fun a mem => by simp [none a mem]
    · refine iff_of_false (fun all => ?_) fun all => refused (all a mem)
      have := all b mem'
      tauto

/-- **The index and the matchers** agree exactly if, for every series, no matcher is inverted or the series is
refused on both sides. -/
theorem matching_agrees_iff (series : List (Labels × ℕ)) (labelled : ∀ s ∈ series, s.1.entries ≠ [])
    (distinct : (series.map (·.2)).Nodup) (matchers : List LabelMatcher) :
    Agrees series matchers ↔ ∀ s ∈ series, (∀ m ∈ matchers, ¬m.Inverted s.1) ∨
      (∃ m ∈ matchers, ¬m.matches s.1 = true) ∧ ∃ m ∈ matchers, m.matches s.1 = true ↔ m.Inverted s.1 := by
  have answer (s : Labels × ℕ) (mem : s ∈ series) : s.2 ∈ (build series).matching matchers ↔
      ∀ m ∈ matchers, m.matches s.1 = true ↔ ¬m.Inverted s.1 := by
    rw [mem_matching, and_iff_right ((mem_all_build labelled).mpr ⟨s, mem, rfl⟩)]
    exact forall₂_congr fun m _ => mem_candidates_iff labelled distinct mem m
  have each : Agrees series matchers ↔ ∀ s ∈ series,
      ((∀ m ∈ matchers, m.matches s.1 = true ↔ ¬m.Inverted s.1) ↔ ∀ m ∈ matchers, m.matches s.1 = true) := by
    constructor
    · intro agrees s mem
      rw [← answer s mem, agrees s.2]
      constructor
      · rintro ⟨s', mem', same, all⟩
        cases List.inj_on_of_nodup_map distinct mem' mem same
        exact all
      · exact fun all => ⟨s, mem, rfl, all⟩
    · intro each fp
      constructor
      · intro found
        obtain ⟨s, mem, rfl⟩ := (mem_all_build labelled).mp (mem_matching.mp found).1
        exact ⟨s, mem, rfl, (each s mem).mp ((answer s mem).mp found)⟩
      · rintro ⟨s, mem, rfl, all⟩
        exact (answer s mem).mpr ((each s mem).mpr all)
  rw [each]
  exact forall₂_congr fun s _ => forall_iff_of_inverted matchers _ _

/-- Three series, one of them without the label `b`. -/
def threeSeries : List (Labels × ℕ) :=
  [((AList.insert [97] [120] ∅).insert [98] [121], 1), (AList.insert [97] [120] ∅, 2),
    ((AList.insert [97] [122] ∅).insert [98] [121], 3)]

/-- `a="x"`, `a=~"x|z"`, `b!="q"` and `c!~"w"`, for a label that no series has. -/
def fourMatchers : List LabelMatcher :=
  [⟨[97], .equal, [120], none⟩, ⟨[97], .regexMatch, [120, 124, 122], some fun v => v = [120] ∨ v = [122]⟩,
    ⟨[98], .notEqual, [113], none⟩, ⟨[99], .regexNotMatch, [119], some fun v => v = [119]⟩]

theorem matching_agrees_three :
    (build threeSeries).matching fourMatchers = {1, 2} ∧ Agrees threeSeries fourMatchers := by
  have plain : ∀ s ∈ threeSeries, ∀ m ∈ fourMatchers, ¬m.Inverted s.1 := by
    intro s mem m mem'
    simp only [threeSeries, fourMatchers, List.mem_cons, List.not_mem_nil, or_false] at mem mem'
    rcases mem with rfl | rfl | rfl <;> rcases mem' with rfl | rfl | rfl | rfl <;> exact nofun
  exact ⟨by decide, (matching_agrees_iff _ (by decide) (by decide) _).mpr fun s mem => .inl (plain s mem)⟩

/-- A series without the label `b` satisfies `b=""`, and one with `a="x"` does not satisfy `a!~"x"`. -/
theorem matching_disagrees :
    ¬Agrees [(AList.singleton [97] [120], 1)] [⟨[98], .equal, [], none⟩] ∧
      ¬Agrees [(AList.singleton [97] [120], 1)] [⟨[97], .regexNotMatch, [120], some (· = [120])⟩] := by
  refine ⟨fun agrees => ?_, fun agrees => ?_⟩
  · exact absurd ((agrees 1).mpr ⟨_, List.mem_singleton_self _, rfl, by decide⟩) (by decide)
  · obtain ⟨s, mem, -, all⟩ := (agrees 1).mp (by decide)
    cases List.mem_singleton.mp mem
    exact absurd (all _ (List.mem_singleton_self _)) (by decide)

end Metrics
