import Mathlib.Data.List.Induction
import Mathlib.Data.Nat.Basic

/-!
# Multi-version maps

A multi-version map keeps for every key the list of versions that wrote it, and for every version what
it wrote. A read at a version takes the last version of the key that is not above it (`lastUpTo`). What
such a map is for is said by its views: `views r` is the plain map right after version `r`, and a map is
`Faithful` to its views from a floor on if it reads them back. A `Write` adds a version on top, and a
`Collect` drops versions below a floor; it stays faithful if it only drops what is superseded.
-/

/-- The last version of the list that is not above `t`. -/
def lastUpTo (vs : List ℕ) (t : ℕ) : Option ℕ := vs.reverse.find? (· ≤ t)

namespace lastUpTo

variable {vs : List ℕ} {v t c : ℕ}

lemma append_single : lastUpTo (vs ++ [v]) t = if v ≤ t then some v else lastUpTo vs t := by
  simp only [lastUpTo, List.reverse_append, List.reverse_cons, List.reverse_nil, List.nil_append,
    List.cons_append, List.find?_cons]
  by_cases le : v ≤ t <;> simp [le]

lemma append_of_lt (newer : t < v) : lastUpTo (vs ++ [v]) t = lastUpTo vs t := by
  rw [append_single, if_neg (Nat.not_le.mpr newer)]

lemma append_of_le (le : v ≤ t) : lastUpTo (vs ++ [v]) t = some v := by
  rw [append_single, if_pos le]

lemma mem (found : lastUpTo vs t = some v) : v ∈ vs :=
  List.mem_reverse.mp (List.mem_of_find?_eq_some found)

lemma le (found : lastUpTo vs t = some v) : v ≤ t := by
  simpa using List.find?_some found

lemma congr {t' : ℕ} (old : ∀ v ∈ vs, v ≤ t) (old' : ∀ v ∈ vs, v ≤ t') :
    lastUpTo vs t = lastUpTo vs t' := by
  induction vs using List.reverseRecOn with
  | nil => rfl
  | append_singleton vs w _ =>
    have here : w ∈ vs ++ [w] := List.mem_append_right _ (List.mem_singleton_self w)
    rw [append_of_le (old w here), append_of_le (old' w here)]

/-- In an increasing list the chosen version is the greatest that is not above `t`. -/
lemma greatest (inc : vs.Pairwise (· < ·)) (found : lastUpTo vs t = some v) {u : ℕ} (hu : u ∈ vs)
    (le : u ≤ t) : u ≤ v := by
  induction vs using List.reverseRecOn with
  | nil => cases hu
  | append_singleton vs w ih =>
    have below : ∀ x ∈ vs, x < w := fun x hx =>
      (List.pairwise_append.mp inc).2.2 x hx w (List.mem_singleton_self w)
    rw [append_single] at found
    split at found
    · cases found
      cases List.mem_append.mp hu with
      | inl old => exact Nat.le_of_lt (below u old)
      | inr new => exact Nat.le_of_eq (List.mem_singleton.mp new)
    · rename_i above
      apply ih (List.pairwise_append.mp inc).1 found
      cases List.mem_append.mp hu with
      | inl old => exact old
      | inr new =>
        rw [List.mem_singleton.mp new] at le
        exact absurd le above

/-- Dropping what is below `c` leaves a read whose choice is not below `c` alone. -/
lemma filter_of_ge (inc : vs.Pairwise (· < ·)) (found : lastUpTo vs t = some v) (ge : c ≤ v) :
    lastUpTo (vs.filter (c ≤ ·)) t = some v := by
  induction vs using List.reverseRecOn with
  | nil => cases found
  | append_singleton vs w ih =>
    have inc' := (List.pairwise_append.mp inc).1
    rw [append_single] at found
    split at found
    · rename_i le
      cases found
      simp [List.filter_append, ge, append_of_le le]
    · rename_i above
      have rest := ih inc' found
      by_cases kept : c ≤ w
      · simp [List.filter_append, kept, append_of_lt (Nat.lt_of_not_le above), rest]
      · simp [List.filter_append, kept, rest]

/-- A read that finds a version below `c` finds nothing once those are dropped. -/
lemma filter_of_lt (inc : vs.Pairwise (· < ·)) (found : lastUpTo vs t = some v) (lt : v < c) :
    lastUpTo (vs.filter (c ≤ ·)) t = none := by
  cases after : lastUpTo (vs.filter (c ≤ ·)) t with
  | none => rfl
  | some u =>
    have hu := List.mem_filter.mp (mem after)
    have := greatest inc found hu.1 (le after)
    have : c ≤ u := by simpa using hu.2
    omega

lemma append (us : List ℕ) : lastUpTo (us ++ vs) t = (lastUpTo vs t).or (lastUpTo us t) := by
  simp [lastUpTo, List.find?_append]

/-- Versions before one that is not above `t` do not matter for the read at `t`. -/
lemma drop (n : ℕ) {u : ℕ} (kept : u ∈ vs.drop n) (le : u ≤ t) :
    lastUpTo (vs.drop n) t = lastUpTo vs t := by
  have found : (lastUpTo (vs.drop n) t).isSome :=
    List.find?_isSome.mpr ⟨u, List.mem_reverse.mpr kept, by simpa using le⟩
  obtain ⟨v, hv⟩ := Option.isSome_iff_exists.mp found
  rw [← List.take_append_drop n vs, append]
  simp [hv]

end lastUpTo

/-- A multi-version map. -/
structure Mvcc (K V : Type*) where
  /-- The last version. -/
  rev : ℕ
  /-- The versions that wrote a key, oldest first. -/
  index : K → List ℕ
  /-- The value a version wrote; `none` if it deleted, or is not kept. -/
  log : ℕ → Option V

namespace Mvcc

variable {K V : Type*} {m m' : Mvcc K V} {views : ℕ → K → Option V} {k : K} {r c floor : ℕ}

/-- The value of a key as of a version. -/
def get (m : Mvcc K V) (k : K) (t : ℕ) : Option V := (lastUpTo (m.index k) t).bind m.log

/-- No key has a version above the last one. -/
def Bounded (m : Mvcc K V) : Prop := ∀ k, ∀ r ∈ m.index k, r ≤ m.rev

/-- Every key has its versions in increasing order. -/
def Increasing (m : Mvcc K V) : Prop := ∀ k, (m.index k).Pairwise (· < ·)

/-- One version on top, which gives all the keys it touches the value `v`. -/
structure Write (m m' : Mvcc K V) (touched : K → Prop) (v : Option V) : Prop where
  rev : m'.rev = m.rev + 1
  index : ∀ k, touched k → m'.index k = m.index k ++ [m.rev + 1]
  frame : ∀ k, ¬ touched k → m'.index k = m.index k
  log : ∀ k, touched k → m'.log (m.rev + 1) = v
  log_frame : ∀ r ≤ m.rev, m'.log r = m.log r

/-- Every value below `c` is superseded by a version of its key at or below `c`. -/
def Superseded (m : Mvcc K V) (c : ℕ) : Prop :=
  ∀ k, ∀ r ∈ m.index k, r < c → m.log r ≠ none → ∃ r' ∈ m.index k, r < r' ∧ r' ≤ c

lemma Bounded.get_of_ge (bd : m.Bounded) (ge : m.rev ≤ r) : m.get k r = m.get k m.rev := by
  unfold get
  rw [lastUpTo.congr (fun v hv => Nat.le_trans (bd k v hv) ge) (bd k)]

lemma Bounded.of_subset (bd : m.Bounded) (rev : m'.rev = m.rev)
    (index : ∀ k, m'.index k ⊆ m.index k) : m'.Bounded := by
  intro k r hr
  rw [rev]
  exact bd k r (index k hr)

namespace Write

variable {touched : K → Prop} {v : Option V}

variable (w : Write m m' touched v)

include w

lemma mem_index (hr : r ∈ m'.index k) : r ∈ m.index k ∨ r = m.rev + 1 := by
  by_cases hk : touched k
  · rw [w.index k hk] at hr
    simpa using hr
  · rw [w.frame k hk] at hr
    exact .inl hr

lemma bounded (bd : m.Bounded) : m'.Bounded := by
  intro k r hr
  rw [w.rev]
  cases w.mem_index hr with
  | inl old => exact Nat.le_succ_of_le (bd k r old)
  | inr new => exact Nat.le_of_eq new

lemma increasing (bd : m.Bounded) (inc : m.Increasing) : m'.Increasing := by
  intro k
  by_cases hk : touched k
  · rw [w.index k hk, List.pairwise_append]
    refine ⟨inc k, List.pairwise_singleton _ _, fun a ha b hb => ?_⟩
    rw [List.mem_singleton.mp hb]
    exact Nat.lt_succ_of_le (bd k a ha)
  · rw [w.frame k hk]
    exact inc k

lemma get_of_le (le : r ≤ m.rev) : m'.get k r = m.get k r := by
  have same : lastUpTo (m'.index k) r = lastUpTo (m.index k) r := by
    by_cases hk : touched k
    · rw [w.index k hk, lastUpTo.append_of_lt (Nat.lt_succ_of_le le)]
    · rw [w.frame k hk]
  unfold get
  rw [same]
  cases found : lastUpTo (m.index k) r with
  | none => rfl
  | some u => exact w.log_frame u (Nat.le_trans (lastUpTo.le found) le)

lemma get_touched (hk : touched k) : m'.get k m'.rev = v := by
  unfold get
  rw [w.rev, w.index k hk, lastUpTo.append_of_le (Nat.le_refl _)]
  exact w.log k hk

lemma get_untouched (bd : m.Bounded) (hk : ¬ touched k) :
    m'.get k m'.rev = m.get k m.rev := by
  rw [← w.get_of_le (Nat.le_refl m.rev)]
  unfold get
  have old : ∀ u ∈ m'.index k, u ≤ m.rev := by
    rw [w.frame k hk]
    exact bd k
  rw [lastUpTo.congr (fun u hu => w.bounded bd k u hu) old]

end Write

/-- From the floor on, and at the last version, the map reads its views back. -/
def Faithful (m : Mvcc K V) (floor : ℕ) (views : ℕ → K → Option V) : Prop :=
  ∀ r ≤ m.rev, floor ≤ r ∨ r = m.rev → ∀ k, m.get k r = views r k

/-- The views after a version whose view is `view`. -/
def extend (views : ℕ → K → Option V) (rev : ℕ) (view : K → Option V) : ℕ → K → Option V :=
  fun r => if r ≤ rev then views r else view

lemma extend_of_le {rev : ℕ} {view : K → Option V} (le : r ≤ rev) :
    extend views rev view r = views r := if_pos le

lemma extend_of_gt {rev : ℕ} {view : K → Option V} (gt : rev < r) :
    extend views rev view r = view := if_neg (Nat.not_le.mpr gt)

lemma Faithful.write {touched : K → Prop} {v : Option V} (f : Faithful m floor views)
    (w : Write m m' touched v) (bd : m.Bounded) {view : K → Option V}
    (new : ∀ k, touched k → view k = v) (old : ∀ k, ¬ touched k → view k = views m.rev k) :
    Faithful m' floor (extend views m.rev view) := by
  intro r le from_ k
  by_cases older : r ≤ m.rev
  · rw [extend_of_le older, w.get_of_le older]
    refine f r older ?_ k
    cases from_ with
    | inl above => exact .inl above
    | inr last =>
      rw [w.rev] at last
      omega
  · have last : r = m'.rev := by
      rw [w.rev] at le ⊢
      omega
    rw [extend_of_gt (Nat.not_le.mp older), last]
    by_cases hk : touched k
    · rw [w.get_touched hk, new k hk]
    · rw [w.get_untouched bd hk, old k hk]
      exact f m.rev (Nat.le_refl _) (.inr rfl) k

/-- The versions that a read at or after `c`, or at the last version, finds below `c` wrote nothing. -/
lemma Superseded.log_eq_none (sup : m.Superseded c) (bd : m.Bounded) (inc : m.Increasing) {u : ℕ}
    (from_ : c ≤ r ∨ r = m.rev) (found : lastUpTo (m.index k) r = some u) (lt : u < c) :
    m.log u = none := by
  by_contra some_
  obtain ⟨u', hu', above, le⟩ := sup k u (lastUpTo.mem found) lt some_
  have le' : u' ≤ r := by
    cases from_ with
    | inl ge => exact Nat.le_trans le ge
    | inr last => exact last ▸ bd k u' hu'
  have := lastUpTo.greatest (inc k) found hu' le'
  omega

/-- Dropping values below `c` that are superseded does not change the reads from `c` on. -/
lemma Superseded.get_drop_log (sup : m.Superseded c) (bd : m.Bounded) (inc : m.Increasing)
    (index : m'.index = m.index) (log : ∀ r, m'.log r = if r < c then none else m.log r)
    (from_ : c ≤ r ∨ r = m.rev) : m'.get k r = m.get k r := by
  unfold get
  rw [index]
  cases found : lastUpTo (m.index k) r with
  | none => rfl
  | some u =>
    show m'.log u = m.log u
    rw [log]
    split
    · rename_i lt
      exact (sup.log_eq_none bd inc from_ found lt).symm
    · rfl

/-- Dropping versions below `c` whose values are superseded does not change the reads from `c` on. -/
lemma Superseded.get_filter_index (sup : m.Superseded c) (bd : m.Bounded) (inc : m.Increasing)
    (index : m'.index k = (m.index k).filter (c ≤ ·)) (log : m'.log = m.log)
    (from_ : c ≤ r ∨ r = m.rev) : m'.get k r = m.get k r := by
  unfold get
  rw [index, log]
  cases found : lastUpTo (m.index k) r with
  | none =>
    cases after : lastUpTo ((m.index k).filter (c ≤ ·)) r with
    | none => rfl
    | some u =>
      have hu := (List.mem_filter.mp (lastUpTo.mem after)).1
      have := List.find?_eq_none.mp found u (List.mem_reverse.mpr hu)
      exact absurd (lastUpTo.le after) (by simpa using this)
  | some u =>
    by_cases lt : u < c
    · rw [lastUpTo.filter_of_lt (inc k) found lt]
      exact (sup.log_eq_none bd inc from_ found lt).symm
    · rw [lastUpTo.filter_of_ge (inc k) found (Nat.not_lt.mp lt)]

/-- What keeps the reads from a higher floor on keeps the map faithful from there. -/
lemma Faithful.of_get (f : Faithful m floor views) (up : floor ≤ c) (rev : m'.rev = m.rev)
    (same : ∀ r ≤ m.rev, c ≤ r ∨ r = m.rev → ∀ k, m'.get k r = m.get k r) :
    Faithful m' c views := by
  intro r le from_ k
  rw [rev] at le from_
  rw [same r le from_ k]
  refine f r le ?_ k
  cases from_ with
  | inl ge => exact .inl (Nat.le_trans up ge)
  | inr last => exact .inr last

lemma Write.nothing {v : Option V} (rev : m'.rev = m.rev + 1) (index : m'.index = m.index)
    (log : m'.log = m.log) : Write m m' (fun _ => False) v where
  rev := rev
  index _ := False.elim
  frame k _ := by rw [index]
  log _ := False.elim
  log_frame r _ := by rw [log]

end Mvcc
