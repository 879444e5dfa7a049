import CaveRuntime.Vault.Shamir

/-!
# The vault: what shares of a secret tell

Any shares of `split_secret` that are enough give the secret back, in any order. One share less tells
nothing: for two secrets of the same length, equally many choices of the coefficients give the shares in
question any particular values, since adding to each polynomial one that vanishes at their coordinates
turns the choices for the one secret into those for the other.
-/

namespace Vault
open Utf8

section Split

variable {rng : Rng} {n k : UInt8}

/-- The polynomials for a secret, with the coefficients of each call. -/
def polysOf (rows : ℕ → Bytes) (call : ℕ) (secret : Bytes) : List Bytes :=
  secret.mapIdx fun i secretByte => secretByte :: rows (call + i)

lemma splitLoop_eq {rows : ℕ → Bytes} (drawn : ∀ call, rng.fill call (k - 1).toNat = some (rows call))
    (call : ℕ) (secret : Bytes) (before : List Bytes) :
    splitLoop rng k call secret before = .ok (before.mapIdx fun i share =>
      share ++ (polysOf rows call secret).map (evalAt · (UInt8.ofNat (i + 1)))) := by
  induction secret generalizing call before with
  | nil =>
    rw [splitLoop]
    exact congrArg Except.ok (List.ext_getElem (by simp) fun i _ _ => by simp [polysOf])
  | cons secretByte secret ih =>
    rw [splitLoop, drawn]
    dsimp only
    rw [ih, List.mapIdx_mapIdx]
    simp [polysOf, List.mapIdx_cons, Function.comp_def, Nat.add_assoc, Nat.add_comm 1]

lemma splitSecret_eq (two : 2 ≤ k) (le : k ≤ n) {rows : ℕ → Bytes}
    (drawn : ∀ call, rng.fill call (k - 1).toNat = some (rows call)) (call : ℕ) (secret : Bytes) :
    splitSecret rng call secret n k = .ok ((coordinates n).map (shareAt (polysOf rows call secret))) := by
  have valid : ¬ (k < 2 ∨ n < k) := by
    rintro (few | many)
    · exact UInt8.not_lt.mpr two few
    · exact UInt8.not_lt.mpr le many
  rw [splitSecret, if_neg valid, splitLoop_eq drawn]
  refine congrArg Except.ok (List.ext_getElem (by simp [coordinates]) fun i _ _ => ?_)
  simp [coordinates, shareAt]

/-- A secret is split into `n` shares, and at least `k` of them, no two with one coordinate, give it back. -/
theorem shares_recover (checks : Bool) (two : 2 ≤ k) (le : k ≤ n)
    (drawn : ∀ call, (rng.fill call (k - 1).toNat).isSome) (call : ℕ) (secret : Bytes) :
    ∃ shares, splitSecret rng call secret n k = .ok shares ∧ shares.length = n.toNat ∧
      ∀ picked, picked ⊆ shares → k.toNat ≤ picked.length → (picked.map (·.headD 0)).Nodup →
        combineShares checks picked = .ok secret := by
  have done := splitSecret_eq two le (fun call => (Option.some_get (drawn call)).symm) call secret
  obtain ⟨-, -, polys, rfl, lens, shares⟩ := splitSecret_ok done
  refine ⟨_, done.trans (congrArg Except.ok shares), by simp [coordinates], fun picked mine enough nodup => ?_⟩
  have eq : picked = (picked.map (·.headD 0)).map (shareAt polys) := by
    rw [List.map_map]
    conv_lhs => rw [← List.map_id picked]
    refine List.map_congr_left fun share mem => ?_
    obtain ⟨x, -, rfl⟩ := List.mem_map.mp (mine mem)
    rfl
  have pos : 2 ≤ k.toNat := UInt8.le_iff_toNat_le.mp two
  have some : picked.map (·.headD 0) ≠ [] := by
    intro none
    rw [List.map_eq_nil_iff.mp none, List.length_nil] at enough
    omega
  rw [eq]
  refine combineShares_shareAt some nodup fun p hp => ⟨(lens p hp).1, ?_⟩
  rw [List.length_map, (lens p hp).2]
  exact enough

end Split

/-- Random bytes that are all 7. -/
def sevens : Rng := ⟨fun _ len => some (List.replicate len 7), fun eq => by cases eq; simp⟩

theorem shares_recover_sevens :
    splitSecret sevens 0 [1, 2] 3 2 = .ok [[1, 6, 5], [2, 15, 12], [3, 8, 11]] ∧
      combineShares true [[3, 8, 11], [1, 6, 5]] = .ok [1, 2] := by
  obtain ⟨shares, done, -, recover⟩ := @shares_recover sevens 3 2 true (by decide) (by decide)
    (fun _ => rfl) 0 [1, 2]
  have split : splitSecret sevens 0 [1, 2] 3 2 = .ok [[1, 6, 5], [2, 15, 12], [3, 8, 11]] := by decide +kernel
  cases done.symm.trans split
  exact ⟨split, recover _ (by decide) (by decide) (by decide)⟩

/-! ## Secrecy -/

/-- A choice of `m` coefficients for each of `len` bytes. -/
abbrev Coefficients (len m : ℕ) := Fin len → Fin m → UInt8

namespace Coefficients

variable {len m : ℕ}

/-- The coefficients for one call of the generator. -/
def row (c : Coefficients len m) (call : ℕ) : Bytes :=
  if inside : call < len then List.ofFn (c ⟨call, inside⟩) else List.replicate m 0

@[simp] lemma length_row (c : Coefficients len m) (call : ℕ) : (c.row call).length = m := by
  unfold row
  split
  · exact List.length_ofFn
  · exact List.length_replicate

/-- The generator that fills in these coefficients. -/
def rng (c : Coefficients len m) : Rng where
  fill call n := if n = m then some (c.row call) else none
  length_fill {call n b} filled := by
    split at filled
    · rename_i eq
      cases filled
      rw [length_row, eq]
    · cases filled

/-- Other coefficients are added. -/
def shift (d c : Coefficients len m) : Coefficients len m := fun i j => c i j ^^^ d i j

lemma shift_shift (d c : Coefficients len m) : d.shift (d.shift c) = c := by
  funext i j
  unfold shift
  rw [UInt8.xor_assoc, UInt8.xor_self, UInt8.xor_zero]

end Coefficients

/-- `split_secret` with these coefficients gives the shares with the given indices the given values. -/
def Deals (n k : UInt8) (indices : Finset ℕ) (values : ℕ → Bytes) (secret : Bytes)
    {len : ℕ} (c : Coefficients len (k - 1).toNat) : Prop :=
  ∃ shares, splitSecret c.rng 0 secret n k = .ok shares ∧ ∀ i ∈ indices, shares[i]? = some (values i)

/-- Coefficients can be added that change the constant one, and no value at the given coordinates. -/
lemma exists_shift {xs : Finset UInt8} (zero : 0 ∉ xs) (s s' : UInt8) :
    ∃ d : Bytes, d.length = xs.card ∧ ∀ coeffs : Bytes, coeffs.length = xs.card → ∀ x ∈ xs,
      evalAt (s' :: List.zipWith (· ^^^ ·) coeffs d) x = evalAt (s :: coeffs) x := by
  have inj : Function.Injective Gf256.mk := fun a b eq => congrArg Gf256.byte eq
  have zero' : (0 : Gf256) ∉ xs.map ⟨Gf256.mk, inj⟩ := by
    intro mem
    obtain ⟨x, hx, eq⟩ := Finset.mem_map.mp mem
    have eq : x = 0 := congrArg Gf256.byte eq
    exact zero (eq ▸ hx)
  obtain ⟨d, len, vanish⟩ := Interpolation.exists_vanishing zero' (⟨s⟩ + ⟨s'⟩)
  rw [Finset.card_map] at len
  refine ⟨d.map Gf256.byte, by rw [List.length_map, len], fun coeffs long x mem => inj ?_⟩
  have sum : (s' :: List.zipWith (· ^^^ ·) coeffs (d.map Gf256.byte)).map Gf256.mk =
      List.zipWith (· + ·) ((s :: coeffs).map Gf256.mk) ((⟨s⟩ + ⟨s'⟩) :: d) := by
    have first : (⟨s'⟩ : Gf256) = ⟨s⟩ + (⟨s⟩ + ⟨s'⟩) := by
      rw [← add_assoc, Gf256.add_self, zero_add]
    rw [List.map_cons, List.map_cons, List.zipWith_cons_cons, ← first]
    refine congrArg _ (List.ext_getElem (by simp) fun i _ _ => ?_)
    simp [mk_xor]
  have none : (Interpolation.ofCoeffs ((⟨s⟩ + ⟨s'⟩) :: d)).eval (⟨x⟩ : Gf256) = 0 :=
    vanish _ (Finset.mem_map_of_mem _ mem)
  rw [mk_evalAt, mk_evalAt, sum, Interpolation.eval_zipWith (by simp [long, len]), none, add_zero]

section Secrecy

variable {n k : UInt8} {indices : Finset ℕ} {secret secret' : Bytes} {len : ℕ}

/-- The coordinate of the share with the given index. -/
def coordinateAt (i : ℕ) : UInt8 := UInt8.ofNat (i + 1)

lemma toNat_coordinateAt (inside : ∀ i ∈ indices, i < n.toNat) {i : ℕ} (mem : i ∈ indices) :
    (coordinateAt i).toNat = i + 1 := by
  have small := inside i mem
  have byte := n.toNat_lt
  rw [coordinateAt, UInt8.toNat_ofNat', Nat.mod_eq_of_lt (by omega)]

lemma deals_iff (two : 2 ≤ k) (le : k ≤ n) (inside : ∀ i ∈ indices, i < n.toNat) {values : ℕ → Bytes}
    (c : Coefficients len (k - 1).toNat) :
    Deals n k indices values secret c ↔
      ∀ i ∈ indices, shareAt (polysOf c.row 0 secret) (coordinateAt i) = values i := by
  have done : splitSecret c.rng 0 secret n k = .ok _ := splitSecret_eq two le (fun _ => if_pos rfl) 0 secret
  have share {i : ℕ} (mem : i ∈ indices) :
      ((coordinates n).map (shareAt (polysOf c.row 0 secret)))[i]? =
        some (shareAt (polysOf c.row 0 secret) (coordinateAt i)) := by
    simp [coordinates, coordinateAt, inside i mem]
  constructor
  · rintro ⟨shares, done', given⟩ i mem
    cases done.symm.trans done'
    exact Option.some.inj ((share mem).symm.trans (given i mem))
  · exact fun given => ⟨_, done, fun i mem => (share mem).trans (congrArg some (given i mem))⟩

/-- Coefficients can be added that turn the shares of one secret into those of another. -/
lemma exists_shares_eq (two : 2 ≤ k) (inside : ∀ i ∈ indices, i < n.toNat)
    (few : indices.card = k.toNat - 1) (same : secret'.length = secret.length) :
    ∃ d : Coefficients secret.length (k - 1).toNat, ∀ c : Coefficients secret.length (k - 1).toNat,
      ∀ i ∈ indices, shareAt (polysOf (d.shift c).row 0 secret') (coordinateAt i) =
        shareAt (polysOf c.row 0 secret) (coordinateAt i) := by
  have number : (indices.image coordinateAt).card = (k - 1).toNat := by
    have one : (1 : UInt8) ≤ k :=
      UInt8.le_iff_toNat_le.mpr (le_trans (by decide) (UInt8.le_iff_toNat_le.mp two))
    rw [UInt8.toNat_sub_of_le _ _ one, Finset.card_image_of_injOn, few]
    · rfl
    · intro i hi j hj eq
      have eq := congrArg UInt8.toNat eq
      rw [toNat_coordinateAt inside hi, toNat_coordinateAt inside hj] at eq
      exact Nat.succ.inj eq
  have zero : (0 : UInt8) ∉ indices.image coordinateAt := by
    intro mem
    obtain ⟨i, hi, eq⟩ := Finset.mem_image.mp mem
    have eq := congrArg UInt8.toNat eq
    rw [toNat_coordinateAt inside hi] at eq
    cases eq
  have each (b : Fin secret.length) :=
    exists_shift zero secret[b] (secret'.getD b 0)
  choose d long equal using each
  refine ⟨fun b j => (d b).getD j 0, fun c i mem => ?_⟩
  refine congrArg (List.cons _) (List.ext_getElem (by simp [polysOf, same]) fun b hb hb' => ?_)
  have inside : b < secret.length := by simpa [polysOf] using hb'
  have row : Coefficients.row (Coefficients.shift (fun b j => (d b).getD j 0) c) b =
      List.zipWith (· ^^^ ·) (c.row b) (d ⟨b, inside⟩) := by
    refine List.ext_getElem (by simp [long, number]) fun j hj _ => ?_
    have hj : j < (k - 1).toNat := by simpa using hj
    have hj' : j < (d ⟨b, inside⟩).length := by rwa [long, number]
    simp [Coefficients.row, inside, Coefficients.shift, hj']
  have now := equal ⟨b, inside⟩ (c.row b) (by rw [Coefficients.length_row, number]) _
    (Finset.mem_image_of_mem _ mem)
  have inside' : b < secret'.length := same ▸ inside
  simp only [polysOf, List.getElem_map, List.getElem_mapIdx, Nat.zero_add, row]
  simpa [inside'] using now

/-- Fewer shares than are needed tell nothing: whatever values they have, equally many choices of the
coefficients give them these values for every secret of the length. -/
theorem equally_many_choices (two : 2 ≤ k) (le : k ≤ n) (inside : ∀ i ∈ indices, i < n.toNat)
    (few : indices.card = k.toNat - 1) (same : secret'.length = secret.length) (values : ℕ → Bytes) :
    Nat.card {c : Coefficients secret.length (k - 1).toNat // Deals n k indices values secret c} =
      Nat.card {c : Coefficients secret.length (k - 1).toNat // Deals n k indices values secret' c} := by
  obtain ⟨d, equal⟩ := @exists_shares_eq n k indices secret secret' two inside few same
  have shifts : Function.Involutive d.shift := d.shift_shift
  refine Nat.card_congr (Equiv.subtypeEquiv shifts.toPerm fun c => ?_)
  rw [deals_iff two le inside, deals_iff two le inside]
  exact forall₂_congr fun i mem => by rw [shifts.coe_toPerm, equal c i mem]

end Secrecy

theorem equally_many_choices_first :
    Nat.card {c : Coefficients 1 1 // Deals 3 2 {0} (fun _ => [1, 5]) [1] c} =
      Nat.card {c : Coefficients 1 1 // Deals 3 2 {0} (fun _ => [1, 5]) [2] c} :=
  @equally_many_choices 3 2 {0} [1] [2] (by decide) (by decide) (by decide) (by decide) rfl fun _ => [1, 5]

end Vault
