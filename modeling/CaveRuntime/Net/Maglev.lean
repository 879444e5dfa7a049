import CaveRuntime.Common.Text
import Mathlib.Data.Fintype.EquivFin
import Mathlib.Data.Nat.ModEq
import Mathlib.Data.Nat.Prime.Basic

/-!
# Maglev hashing

Model of `MaglevTable` of `cave-net/src/cilium/maglev.rs`. The backends take turns; in its turn a backend takes the
first free slot of its own sequence, which goes through all slots in steps of one length. The hasher is the
parameter `hash`. Arithmetic on `usize` that would overflow gives `none`, as does a loop that does not end. The
share by weight, which the source computes and does not use, is left out.
-/

namespace Net
open Text Utf8

def usizeMax : ℕ := 18446744073709551615

/-- The mark of a free slot. -/
def u32Max : ℕ := 4294967295

structure Backend where
  name : Bytes
  weight : ℕ

inductive MaglevError
  | notPrime (m : ℕ)
  | noBackends

structure MaglevTable where
  m : ℕ
  backends : List Backend
  lookup : List ℕ

/-- The loop of `is_prime` over the odd numbers from `i` on. -/
def trial (n : ℕ) : ℕ → ℕ → Option Bool
  | 0, _ => none
  | fuel + 1, i =>
    if min (i * i) usizeMax ≤ n then
      if n % i = 0 then some false else trial n fuel (i + 2)
    else some true

def isPrime (n : ℕ) : Option Bool :=
  if n < 2 then some false else if n % 2 = 0 then some (n == 2) else trial n n 3

section Build

variable (hash : Bytes → Bytes → UInt64) (m : ℕ)

def permutationFor (name : Bytes) : ℕ × ℕ :=
  ((hash (word "offset") name).toNat % m, (hash (word "skip") name).toNat % (m - 1) + 1)

/-- The slot at a place of a backend's sequence. -/
def slotAt (perm : ℕ × ℕ) (next : ℕ) : Option ℕ :=
  if perm.1 + next * perm.2 ≤ usizeMax then some ((perm.1 + next * perm.2) % m) else none

/-- The inner loop: the next place whose slot is free, with that slot. -/
def probe (perm : ℕ × ℕ) (entry : List ℕ) : ℕ → ℕ → Option (ℕ × ℕ)
  | 0, _ => none
  | fuel + 1, next => do
    let c ← slotAt m perm next
    if entry[c]? = some u32Max then some (next, c) else probe perm entry fuel (next + 1)

structure Filling where
  nextIdx : List ℕ
  entry : List ℕ
  assigned : ℕ

/-- The turn of one backend. -/
def turn (permutation : List (ℕ × ℕ)) (i : ℕ) (s : Filling) : Option Filling := do
  let perm ← permutation[i]?
  let next ← s.nextIdx[i]?
  let (next, c) ← probe m perm s.entry m next
  some ⟨s.nextIdx.set i (next + 1), s.entry.set c (i % 2 ^ 32), s.assigned + 1⟩

/-- The loop over the backends: the table, as soon as it is full, or the state after it. -/
def round (permutation : List (ℕ × ℕ)) : List ℕ → Filling → Option (List ℕ ⊕ Filling)
  | [], s => some (.inr s)
  | i :: rest, s =>
    if s.assigned = m then some (.inl s.entry)
    else do
      let s ← turn m permutation i s
      round permutation rest s

/-- The outer loop. -/
def rounds (permutation : List (ℕ × ℕ)) : ℕ → Filling → Option (List ℕ)
  | 0, _ => none
  | fuel + 1, s => do
    match ← round m permutation (List.range permutation.length) s with
    | .inl entry => some entry
    | .inr s => rounds permutation fuel s

/-- The sequences of the backends. -/
def permutations (backends : List Backend) : List (ℕ × ℕ) := backends.map fun b => permutationFor hash m b.name

def MaglevTable.build (backends : List Backend) : Option (Except MaglevError MaglevTable) := do
  if !(← isPrime m) then some (.error (.notPrime m))
  else if backends.isEmpty then some (.error .noBackends)
  else
    let entry ← rounds m (permutations hash m backends) (m + 1)
      ⟨List.replicate backends.length 0, List.replicate m u32Max, 0⟩
    some (.ok ⟨m, backends, entry⟩)

end Build

/-! ## Sequences of slots -/

lemma trial_sound {n fuel i : ℕ} (accepted : trial n fuel i = some true) (small : n < usizeMax) (odd : i % 2 = 1) :
    ∀ j, i ≤ j → j % 2 = 1 → j * j ≤ n → ¬ j ∣ n := by
  induction fuel generalizing i with
  | zero => cases accepted
  | succ fuel ih =>
    rw [trial] at accepted
    intro j le odd' square dvd
    have below : i * i ≤ j * j := Nat.mul_le_mul le le
    rw [if_pos (by omega)] at accepted
    split at accepted
    · cases accepted
    · rename_i no
      rcases Nat.eq_or_lt_of_le le with rfl | lt
      · exact no (Nat.mod_eq_zero_of_dvd dvd)
      · exact ih accepted (by omega) j (by omega) odd' square dvd

lemma prime_of_isPrime {m : ℕ} (accepted : isPrime m = some true) (square : m * m ≤ usizeMax) : m.Prime := by
  unfold isPrime at accepted
  split at accepted
  · cases accepted
  rename_i two
  split at accepted
  · rw [Option.some_inj, beq_iff_eq] at accepted
    exact accepted ▸ Nat.prime_two
  rename_i odd
  have more : m < usizeMax := by
    have : m * 2 ≤ m * m := Nat.mul_le_mul_left m (by omega)
    unfold usizeMax at square ⊢
    omega
  rw [Nat.prime_def_minFac]
  refine ⟨by omega, ?_⟩
  by_contra other
  -- the least factor is odd and its square is at most the number
  have dvd := Nat.minFac_dvd m
  have notPrime : ¬ m.Prime := fun prime => other prime.minFac_eq
  have least := Nat.minFac_sq_le_self (by omega) notPrime
  have factor : m.minFac ≠ 1 := fun one => by
    have := Nat.minFac_eq_one_iff.mp one
    omega
  have positive := Nat.minFac_pos m
  have oddFactor : m.minFac % 2 = 1 := by
    by_contra even
    have : 2 ∣ m := (Nat.dvd_of_mod_eq_zero (by omega)).trans dvd
    omega
  exact trial_sound accepted more rfl m.minFac (by omega) oddFactor (by rwa [← sq]) dvd

lemma exists_place {m : ℕ} (prime : m.Prime) {skip : ℕ} (low : 0 < skip) (high : skip < m) (offset : ℕ) {c : ℕ}
    (lt : c < m) : ∃ p < m, (offset + p * skip) % m = c := by
  have positive := prime.pos
  let f : Fin m → Fin m := fun p => ⟨(offset + p * skip) % m, Nat.mod_lt _ positive⟩
  have injective : Function.Injective f := by
    intro p q same
    have modEq : offset + p * skip ≡ offset + q * skip [MOD m] := Fin.mk.inj same
    have coprime : m.gcd skip = 1 := Nat.coprime_of_lt_prime low.ne' high prime
    have cancelled := (modEq.add_left_cancel' offset).cancel_right_of_coprime coprime
    exact Fin.ext (cancelled.eq_of_lt_of_lt p.2 q.2)
  obtain ⟨p, eq⟩ := Finite.injective_iff_surjective.mp injective ⟨c, lt⟩
  exact ⟨p, p.2, Fin.mk.inj eq⟩

/-! ## Filling the table -/

section Filling

variable {m : ℕ} {perm : ℕ × ℕ} {entry : List ℕ}

/-- What is fixed: the table's size is a prime whose square fits, and the sequences have places for all slots. -/
structure Sequences (m : ℕ) (permutation : List (ℕ × ℕ)) : Prop where
  prime : m.Prime
  square : m * m ≤ usizeMax
  offset : ∀ perm ∈ permutation, perm.1 < m
  skip : ∀ perm ∈ permutation, 0 < perm.2 ∧ perm.2 < m

lemma Sequences.size_le {permutation : List (ℕ × ℕ)} (seq : Sequences m permutation) : m ≤ u32Max := by
  by_contra large
  have : (u32Max + 1) * (u32Max + 1) ≤ m * m := Nat.mul_le_mul (not_le.mp large) (not_le.mp large)
  have square := seq.square
  unfold u32Max usizeMax at *
  omega

lemma slotAt_eq {p : ℕ} (square : m * m ≤ usizeMax) (offset : perm.1 < m) (skip : perm.2 < m) (lt : p < m) :
    slotAt m perm p = some ((perm.1 + p * perm.2) % m) := by
  refine if_pos (le_trans ?_ square)
  calc perm.1 + p * perm.2 ≤ m + (m - 1) * m :=
        Nat.add_le_add offset.le (Nat.mul_le_mul (Nat.le_sub_one_of_lt lt) skip.le)
    _ = m * m := by rw [Nat.sub_one_mul, Nat.add_sub_of_le (Nat.le_mul_self m)]

/-- The loop stops at a free slot, at or before a place that is known to have one. -/
lemma probe_spec (square : m * m ≤ usizeMax) (offset : perm.1 < m) (skip : perm.2 < m) {p : ℕ} (lt : p < m)
    (free : entry[(perm.1 + p * perm.2) % m]? = some u32Max) {fuel next : ℕ} (le : next ≤ p)
    (enough : p < next + fuel) :
    ∃ p', probe m perm entry fuel next = some (p', (perm.1 + p' * perm.2) % m) ∧ p' < m ∧ next ≤ p' ∧
      entry[(perm.1 + p' * perm.2) % m]? = some u32Max ∧
      ∀ q, next ≤ q → q < p' → entry[(perm.1 + q * perm.2) % m]? ≠ some u32Max := by
  induction fuel generalizing next with
  | zero => omega
  | succ fuel ih =>
    have slot : slotAt m perm next = some ((perm.1 + next * perm.2) % m) :=
      slotAt_eq square offset skip (by omega)
    rw [probe, slot, Option.bind_eq_bind, Option.bind_some]
    split
    · rename_i here
      exact ⟨next, rfl, by omega, le_rfl, here, fun q _ _ => by omega⟩
    · rename_i taken
      have ne : next ≠ p := fun eq => taken (eq ▸ free)
      obtain ⟨p', found, small, after, there, before⟩ := ih (show next + 1 ≤ p by omega) (by omega)
      refine ⟨p', found, small, by omega, there, fun q low high => ?_⟩
      rcases Nat.eq_or_lt_of_le low with rfl | low
      · exact taken
      · exact before q low high

/-- After `k` rounds and the turns of `i` backends. -/
structure Filled (m : ℕ) (permutation : List (ℕ × ℕ)) (k i : ℕ) (s : Filling) : Prop where
  size : s.entry.length = m
  next : s.nextIdx.length = permutation.length
  assigned : s.assigned = k * permutation.length + i
  free : s.entry.count u32Max + s.assigned = m
  index : ∀ x ∈ s.entry, x = u32Max ∨ x < permutation.length
  held : ∀ j, j < permutation.length → j ≠ u32Max → s.entry.count j = k + if j < i then 1 else 0
  visited : ∀ (j : ℕ) (perm : ℕ × ℕ) (p q : ℕ), permutation[j]? = some perm → s.nextIdx[j]? = some p → q < p →
    s.entry[(perm.1 + q * perm.2) % m]? ≠ some u32Max

variable {permutation : List (ℕ × ℕ)} {k i : ℕ} {s : Filling}

lemma Filled.no_mark (filled : Filled m permutation k i s) (full : s.assigned = m) : s.entry.count u32Max = 0 := by
  have := filled.free
  omega

lemma Filled.exists_free (seq : Sequences m permutation) (filled : Filled m permutation k i s) (more : s.assigned ≠ m)
    (mem : perm ∈ permutation) : ∃ p < m, s.entry[(perm.1 + p * perm.2) % m]? = some u32Max := by
  have total := filled.free
  have there : u32Max ∈ s.entry := List.count_pos_iff.mp (by omega)
  obtain ⟨c, lt, eq⟩ := List.mem_iff_getElem.mp there
  obtain ⟨p, small, place⟩ := exists_place seq.prime (seq.skip perm mem).1 (seq.skip perm mem).2 perm.1
    (filled.size ▸ lt : c < m)
  refine ⟨p, small, ?_⟩
  rw [place, List.getElem?_eq_getElem lt, eq]

/-- A backend takes the slot `c` at the place `p` of its sequence, before which nothing was free. -/
lemma Filled.put (filled : Filled m permutation k i s) (lt : i < permutation.length) (small : i < u32Max)
    {p c : ℕ} (there : s.entry[c]? = some u32Max)
    (before : ∀ q < p, s.entry[(permutation[i].1 + q * permutation[i].2) % m]? ≠ some u32Max)
    (here : (permutation[i].1 + p * permutation[i].2) % m = c) :
    Filled m permutation k (i + 1) ⟨s.nextIdx.set i (p + 1), s.entry.set c i, s.assigned + 1⟩ := by
  have total := filled.free
  have count := filled.assigned
  obtain ⟨inside, value⟩ := List.getElem?_eq_some_iff.mp there
  have positive : 0 < s.entry.count u32Max := List.count_pos_iff.mpr (value ▸ List.getElem_mem inside)
  refine ⟨?_, ?_, ?_, ?_, ?_, ?_, ?_⟩
  · rw [List.length_set]
    exact filled.size
  · rw [List.length_set]
    exact filled.next
  · dsimp only
    omega
  · dsimp only
    rw [List.count_set inside, value]
    simp only [beq_self_eq_true, if_true, beq_iff_eq, small.ne, if_false]
    omega
  · intro x mem
    rcases List.mem_or_eq_of_mem_set mem with mem | rfl
    · exact filled.index x mem
    · exact .inr lt
  · intro j ltj ne
    rw [List.count_set inside, value, filled.held j ltj ne]
    simp only [beq_iff_eq, Ne.symm ne, if_false, Nat.sub_zero]
    split_ifs <;> omega
  · intro j perm p' q seq next lt'
    dsimp only at next ⊢
    rw [List.getElem?_set]
    split
    · exact fun eq => small.ne (Option.some.inj eq)
    rename_i other
    rw [List.getElem?_set] at next
    split at next
    · rename_i eq
      subst eq
      split at next
      · cases next
        rw [List.getElem?_eq_getElem lt, Option.some_inj] at seq
        subst seq
        rcases Nat.eq_or_lt_of_le (Nat.le_of_lt_succ lt') with rfl | less
        · exact absurd here.symm other
        · exact before q less
      · cases next
    · exact filled.visited j perm p' q seq next lt'

/-- The turn of a backend takes its next free slot. -/
lemma Filled.turn (seq : Sequences m permutation) (filled : Filled m permutation k i s)
    (lt : i < permutation.length) (more : s.assigned ≠ m) :
    ∃ s', turn m permutation i s = some s' ∧ Filled m permutation k (i + 1) s' := by
  have mem : permutation[i] ∈ permutation := List.getElem_mem lt
  have place : i < s.nextIdx.length := filled.next.symm ▸ lt
  have bound := seq.size_le
  have total := filled.free
  have count := filled.assigned
  have small : i < u32Max := by
    have : k * permutation.length + i < m := by omega
    omega
  have visited (q : ℕ) := filled.visited i _ _ q (List.getElem?_eq_getElem lt) (List.getElem?_eq_getElem place)
  obtain ⟨p, below, free⟩ := filled.exists_free seq more mem
  -- places that were visited have no free slot, so that the free one is still ahead
  have ahead : s.nextIdx[i] ≤ p := by
    by_contra behind
    exact visited p (not_le.mp behind) free
  obtain ⟨p', found, -, after, there, before⟩ :=
    probe_spec seq.square (seq.offset _ mem) (seq.skip _ mem).2 below free ahead
      (show p < s.nextIdx[i] + m by omega)
  refine ⟨_, ?_, filled.put lt small there (fun q less => ?_) rfl⟩
  · have same : i % 2 ^ 32 = i := Nat.mod_eq_of_lt (by unfold u32Max at small; omega)
    unfold Net.turn
    rw [List.getElem?_eq_getElem lt, List.getElem?_eq_getElem place, Option.bind_eq_bind, Option.bind_some,
      Option.bind_eq_bind, Option.bind_some, found, Option.bind_some, same]
  · rcases Nat.lt_or_ge q s.nextIdx[i] with early | late
    · exact visited q early
    · exact before q late less

/-- What the loop over the backends gives: the full table, or the state after one more round. -/
lemma Filled.round (seq : Sequences m permutation) (filled : Filled m permutation k i s)
    {rest : List ℕ} (split : List.range permutation.length = List.range i ++ rest) :
    (∃ i' s', round m permutation rest s = some (.inl s'.entry) ∧ Filled m permutation k i' s' ∧
      s'.assigned = m) ∨
    ∃ s', round m permutation rest s = some (.inr s') ∧ Filled m permutation k permutation.length s' := by
  induction rest generalizing i s with
  | nil =>
    have all := congrArg List.length split
    rw [List.append_nil, List.length_range, List.length_range] at all
    exact .inr ⟨s, rfl, all ▸ filled⟩
  | cons a rest ih =>
    have lt : i < permutation.length := by
      have := congrArg List.length split
      simp only [List.length_range, List.length_append, List.length_cons] at this
      omega
    have head : a = i := by
      have here := congrArg (·[i]?) split
      simp [lt] at here
      exact here.symm
    subst head
    rw [Net.round]
    split
    · rename_i full
      exact .inl ⟨a, s, rfl, filled, full⟩
    · rename_i more
      obtain ⟨s', eq, filled'⟩ := filled.turn seq lt more
      rw [eq, Option.bind_eq_bind, Option.bind_some]
      refine ih filled' ?_
      rw [split, List.range_succ, List.append_assoc, List.singleton_append]

lemma Filled.next_round (filled : Filled m permutation k permutation.length s) : Filled m permutation (k + 1) 0 s := by
  refine { filled with assigned := ?_, held := ?_ }
  · rw [filled.assigned, Nat.succ_mul, Nat.add_zero]
  · intro j lt ne
    rw [filled.held j lt ne, if_pos lt, if_neg (Nat.not_lt_zero j)]

lemma Filled.rounds (seq : Sequences m permutation) (some_ : 0 < permutation.length) {fuel : ℕ}
    (filled : Filled m permutation k 0 s) (enough : m < fuel + k) :
    ∃ k' i' s', rounds m permutation fuel s = some s'.entry ∧ Filled m permutation k' i' s' ∧
      s'.assigned = m := by
  induction fuel generalizing k s with
  | zero =>
    have total := filled.free
    have count := filled.assigned
    have : k * 1 ≤ k * permutation.length := Nat.mul_le_mul_left k some_
    omega
  | succ fuel ih =>
    rw [Net.rounds]
    rcases filled.round seq (List.nil_append _).symm with ⟨i', s', eq, filled', full⟩ | ⟨s', eq, filled'⟩
    · refine ⟨k, i', s', ?_, filled', full⟩
      rw [eq]
      rfl
    · rw [eq, Option.bind_eq_bind, Option.bind_some]
      exact ih filled'.next_round (by omega)

lemma Filled.balanced (seq : Sequences m permutation) (filled : Filled m permutation k i s)
    (full : s.assigned = m) {j j' : ℕ} (lt : j < permutation.length) (lt' : j' < permutation.length) :
    s.entry.count j ≤ s.entry.count j' + 1 := by
  by_cases mark : j = u32Max
  · rw [mark, filled.no_mark full]
    exact Nat.zero_le _
  rw [filled.held j lt mark]
  by_cases mark' : j' = u32Max
  · -- so many backends are more than there are slots
    have total := filled.assigned
    have zero : k = 0 := by
      by_contra pos
      have : 1 * permutation.length ≤ k * permutation.length := Nat.mul_le_mul_right _ (Nat.pos_of_ne_zero pos)
      have bound := seq.size_le
      omega
    split <;> omega
  · rw [filled.held j' lt' mark']
    split <;> split <;> omega

variable (hash : Bytes → Bytes → UInt64) (backends : List Backend)

lemma length_permutations : (permutations hash m backends).length = backends.length := List.length_map _

lemma sequences (prime : m.Prime) (square : m * m ≤ usizeMax) : Sequences m (permutations hash m backends) := by
  have two := prime.two_le
  refine ⟨prime, square, ?_, ?_⟩
  · intro perm mem
    obtain ⟨b, -, rfl⟩ := List.mem_map.mp mem
    exact Nat.mod_lt _ prime.pos
  · intro perm mem
    obtain ⟨b, -, rfl⟩ := List.mem_map.mp mem
    have := Nat.mod_lt (hash (word "skip") b.name).toNat (show 0 < m - 1 by omega)
    exact ⟨Nat.succ_pos _, by dsimp only [permutationFor]; omega⟩

lemma Filled.start : Filled m (permutations hash m backends) 0 0
    ⟨List.replicate backends.length 0, List.replicate m u32Max, 0⟩ := by
  refine ⟨List.length_replicate, by simp [length_permutations], by simp, by simp, ?_, ?_, ?_⟩
  · exact fun x mem => .inl (List.eq_of_mem_replicate mem)
  · intro j _ ne
    simp [List.count_replicate, Ne.symm ne]
  · intro j perm p q _ next lt
    obtain ⟨_, zero⟩ := List.getElem?_eq_some_iff.mp next
    rw [List.getElem_replicate] at zero
    omega

end Filling

/-- For every prime size whose square fits, every hasher and every list of backends that is not empty, the table is
full, and the shares of two backends differ by one at most. -/
theorem build_full_balanced (hash : Bytes → Bytes → UInt64) {m : ℕ} (accepted : isPrime m = some true)
    (square : m * m ≤ usizeMax) {backends : List Backend} (nonempty : backends ≠ []) :
    ∃ table, MaglevTable.build hash m backends = some (.ok table) ∧ table.lookup.length = m ∧
      (∀ x ∈ table.lookup, x < backends.length) ∧
      ∀ j j', j < backends.length → j' < backends.length → table.lookup.count j ≤ table.lookup.count j' + 1 := by
  have seq := sequences hash backends (prime_of_isPrime accepted square) square
  have some_ : 0 < (permutations hash m backends).length := by
    rw [length_permutations]
    exact List.length_pos_iff.mpr nonempty
  obtain ⟨k, i, s, eq, filled, full⟩ := (Filled.start hash backends).rounds seq some_ (Nat.lt_succ_self m)
  have index := filled.index
  have balanced := fun j j' => @Filled.balanced m _ k i s seq filled full j j'
  rw [length_permutations] at index balanced
  refine ⟨⟨m, backends, s.entry⟩, ?_, filled.size, ?_, balanced⟩
  · unfold MaglevTable.build
    rw [accepted, Option.bind_eq_bind, Option.bind_some, if_neg (by decide), if_neg (by simpa using nonempty)]
    rw [eq]
    rfl
  · intro x mem
    refine (index x mem).resolve_left fun mark => ?_
    exact List.count_eq_zero.mp (filled.no_mark full) (mark ▸ mem)

/-- Two backends whose sequences are the same. -/
theorem build_full_balanced_three :
    ∃ table, MaglevTable.build (fun _ _ => 0) 3 [⟨[97], 1⟩, ⟨[98], 1⟩] = some (.ok table) ∧
      table.lookup.length = 3 ∧ (∀ x ∈ table.lookup, x < 2) ∧
      ∀ j j', j < 2 → j' < 2 → table.lookup.count j ≤ table.lookup.count j' + 1 :=
  build_full_balanced (fun _ _ => 0) (by decide) (by decide) (List.cons_ne_nil _ _)

end Net
