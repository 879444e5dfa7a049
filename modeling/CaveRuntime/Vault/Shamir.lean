import CaveRuntime.Common.Gf256
import CaveRuntime.Common.Interpolation
import CaveRuntime.Common.Utf8
import Mathlib.Data.List.GetD

/-!
# The vault: secret sharing

Model of the field operations, `split_secret` and `combine_shares` of `cave-vault/src/core/seal.rs`. The
operations are those of the field of 256 elements, and shares of one secret give it back if there are
enough of them and no two have the same coordinate.

A panic is an outcome of its own. The subtraction `len() - 1` panics on an empty share in a build with
overflow checks and wraps in one without, so that the build is a parameter.
-/

namespace Vault
open Utf8

/-- `VaultError`, the errors of the modelled functions. `unknownKeyType` is the `InvalidRequest` whose text
ends with what the request has as the type. -/
inductive VaultError where
  | sealed
  | alreadyInitialized
  | notInitialized
  | invalidRequest (message : String)
  | unknownKeyType (name : Bytes)
  | badToken
  | tokenNotFound
  | crypto (message : String)
  | leaseNotFound
  | keyNotFound (name : Bytes)
  | secretNotFound
  | casFailed
deriving DecidableEq, Repr

/-- How a call fails. -/
inductive Failure where
  | error (e : VaultError)
  | panic
deriving DecidableEq, Repr

/-! ## The field -/

/-- One round of the loop of `gf_mul`. -/
def gfRound : UInt8 × UInt8 × UInt8 → UInt8 × UInt8 × UInt8
  | (a, b, result) =>
    let result := if b &&& 1 ≠ 0 then result ^^^ a else result
    let highBit := a &&& 0x80
    let a := a <<< 1
    let a := if highBit ≠ 0 then a ^^^ 0x1b else a
    (a, b >>> 1, result)

def gfMul (a b : UInt8) : UInt8 := (gfRound^[8] (a, b, 0)).2.2

/-- The loop of `gf_inv`. The exponent has eight bits, so that eight rounds are enough. -/
def gfInvLoop : ℕ → UInt8 → UInt8 → UInt8 → UInt8
  | 0, r, _, _ => r
  | n + 1, r, base, exp =>
    if exp = 0 then r
    else gfInvLoop n (if exp &&& 1 ≠ 0 then gfMul r base else r) (gfMul base base) (exp >>> 1)

def gfInv (a : UInt8) : UInt8 := if a = 0 then 0 else gfInvLoop 8 1 a 254

def gfDiv (a b : UInt8) : Except Failure UInt8 :=
  if b = 0 then .error .panic
  else if a = 0 then .ok 0
  else .ok (gfMul a (gfInv b))

/-! ## Splitting -/

/-- `SystemRandom`: the bytes that the call with the given number fills in, if it does not fail. -/
structure Rng where
  fill : ℕ → ℕ → Option Bytes
  length_fill : ∀ {call len b}, fill call len = some b → b.length = len

/-- The value of a polynomial, by the loop of `split_secret`. -/
def evalAt (coeffs : Bytes) (x : UInt8) : UInt8 :=
  coeffs.dropLast.reverse.foldl (fun y c => gfMul y x ^^^ c) (coeffs.getLastD 0)

/-- The loop of `split_secret` over the bytes of the secret. -/
def splitLoop (rng : Rng) (k : UInt8) : ℕ → Bytes → List Bytes → Except Failure (List Bytes)
  | _, [], shares => .ok shares
  | call, secretByte :: secret, shares =>
    match rng.fill call (k - 1).toNat with
    | none => .error (.error (.crypto "rng failure"))
    | some randBytes =>
      let coeffs := secretByte :: randBytes
      splitLoop rng k (call + 1) secret
        (shares.mapIdx fun i share => share ++ [evalAt coeffs (UInt8.ofNat (i + 1))])

/-- `split_secret`; `call` is the number of its first call of the generator. -/
def splitSecret (rng : Rng) (call : ℕ) (secret : Bytes) (n k : UInt8) : Except Failure (List Bytes) :=
  if k < 2 ∨ n < k then .error (.error (.invalidRequest "invalid share parameters"))
  else splitLoop rng k call secret ((List.range n.toNat).map fun i => [UInt8.ofNat (i + 1)])

/-! ## Combining -/

/-- `len() - 1`, in a build with or without overflow checks. -/
def lenMinusOne (checks : Bool) (share : Bytes) : Except Failure ℕ :=
  match share.length with
  | 0 => if checks then .error .panic else .ok (2 ^ 64 - 1)
  | len + 1 => .ok len

/-- Whether some share has another length. -/
def inconsistent (checks : Bool) (secretLen : ℕ) : List Bytes → Except Failure Bool
  | [] => .ok false
  | share :: shares => do
    let len ← lenMinusOne checks share
    if len ≠ secretLen then .ok true else inconsistent checks secretLen shares

/-- `share[0]`. -/
def coordinate : Bytes → Except Failure UInt8
  | [] => .error .panic
  | x :: _ => .ok x

/-- The numerator and the denominator for one share. -/
def numDenom (xs : List UInt8) (i : ℕ) : UInt8 × UInt8 :=
  (List.range xs.length).foldl (fun (num, denom) j =>
    if i ≠ j then (gfMul num (xs.getD j 0), gfMul denom (xs.getD i 0 ^^^ xs.getD j 0)) else (num, denom))
    (1, 1)

/-- One byte of the secret. -/
def interpolate (xs ys : List UInt8) : Except Failure UInt8 :=
  (List.range xs.length).foldlM (fun result i => do
    let quotient ← gfDiv (numDenom xs i).1 (numDenom xs i).2
    return result ^^^ gfMul (ys.getD i 0) quotient) 0

def combineShares (checks : Bool) : List Bytes → Except Failure Bytes
  | [] => .error (.error (.invalidRequest "no shares provided"))
  | first :: rest => do
    let shares := first :: rest
    let secretLen ← lenMinusOne checks first
    if ← inconsistent checks secretLen shares then
      .error (.error (.invalidRequest "shares have inconsistent length"))
    else
      let xs ← shares.mapM coordinate
      (List.range secretLen).mapM fun byteIdx => interpolate xs (shares.map (·.getD (byteIdx + 1) 0))

/-! ## The field operations are those of the field -/

section Field

lemma gfRound_eq (a b result : UInt8) :
    gfRound (a, b, result) = (ShiftAdd.double a, b >>> 1, result ^^^ ShiftAdd.select 1 b a) := by
  simp only [gfRound, ShiftAdd.double, ShiftAdd.select]
  congr 2
  · split
    · rfl
    · exact UInt8.xor_zero.symm
  · split
    · rfl
    · exact UInt8.xor_zero.symm

lemma gfMul_eq (a b : UInt8) : gfMul a b = ShiftAdd.mul a b := by
  have rounds : ∀ n a b result, (gfRound^[n] (a, b, result)).2.2 = ShiftAdd.loop n a b result := by
    intro n
    induction n with
    | zero => exact fun _ _ _ => rfl
    | succ n ih =>
      intro a b result
      rw [Function.iterate_succ_apply, gfRound_eq, ih]
      rfl
  exact rounds 8 a b 0

lemma mk_gfMul (a b : UInt8) : (⟨gfMul a b⟩ : Gf256) = ⟨a⟩ * ⟨b⟩ := Gf256.ext (gfMul_eq a b)

lemma mk_xor (a b : UInt8) : (⟨a ^^^ b⟩ : Gf256) = ⟨a⟩ + ⟨b⟩ := rfl

lemma mk_gfInvLoop (n : ℕ) (r base exp : UInt8) (small : exp.toNat < 2 ^ n) :
    (⟨gfInvLoop n r base exp⟩ : Gf256) = ⟨r⟩ * ⟨base⟩ ^ exp.toNat := by
  induction n generalizing r base exp with
  | zero =>
    have zero : exp.toNat = 0 := by omega
    rw [zero, pow_zero, mul_one]
    rfl
  | succ n ih =>
    have half : (exp >>> 1).toNat = exp.toNat / 2 := by
      simp [UInt8.toNat_shiftRight, Nat.shiftRight_eq_div_pow]
    have bit : (exp &&& 1).toNat = exp.toNat % 2 := by
      simp [UInt8.toNat_and]
    unfold gfInvLoop
    split
    · rename_i zero
      rw [zero]
      exact (mul_one _).symm
    · rw [ih _ _ _ (by omega), half, mk_gfMul]
      have parts := Nat.div_add_mod exp.toNat 2
      split
      · rename_i odd
        have one : exp.toNat % 2 = 1 := by
          have ne : exp.toNat % 2 ≠ 0 := by
            rw [← bit]
            exact fun zero => odd (UInt8.toNat_inj.mp zero)
          omega
        rw [one] at parts
        conv_rhs => rw [← parts]
        rw [mk_gfMul]
        ring
      · rename_i even
        have zero : exp.toNat % 2 = 0 := by
          rw [← bit, not_not.mp even]
          rfl
        rw [zero] at parts
        conv_rhs => rw [← parts]
        ring

lemma mk_gfInv (a : UInt8) : (⟨gfInv a⟩ : Gf256) = ⟨a⟩⁻¹ := by
  unfold gfInv
  split
  · rename_i zero
    rw [zero]
    exact inv_zero.symm
  · rw [mk_gfInvLoop 8 1 a 254 (by decide)]
    exact one_mul _

lemma gfDiv_ok {a b : UInt8} (ne : b ≠ 0) : gfDiv a b = .ok ((⟨a⟩ / ⟨b⟩ : Gf256)).byte := by
  unfold gfDiv
  rw [if_neg ne]
  split
  · rename_i zero
    rw [zero]
    exact congrArg (fun c : Gf256 => Except.ok c.byte) (zero_div (⟨b⟩ : Gf256)).symm
  · rw [div_eq_mul_inv, ← mk_gfInv, ← mk_gfMul]

end Field

/-! ## Interpolation -/

section Interpolation

variable {xs : List UInt8}

/-- A coordinate as an element of the field. -/
def node (xs : List UInt8) (i : ℕ) : Gf256 := ⟨xs.getD i 0⟩

lemma node_injOn (nodup : xs.Nodup) : Set.InjOn (node xs) (Finset.range xs.length : Finset ℕ) := by
  intro i hi j hj eq
  have hi : i < xs.length := Finset.mem_range.mp hi
  have hj : j < xs.length := Finset.mem_range.mp hj
  have eq : xs.getD i 0 = xs.getD j 0 := congrArg Gf256.byte eq
  rw [List.getD_eq_getElem _ _ hi, List.getD_eq_getElem _ _ hj] at eq
  exact (List.Nodup.getElem_inj_iff nodup).mp eq

lemma numDenom_eq (xs : List UInt8) (i : ℕ) :
    numDenom xs i = ((∏ j ∈ (Finset.range xs.length).erase i, node xs j).byte,
      (∏ j ∈ (Finset.range xs.length).erase i, (node xs i + node xs j)).byte) := by
  have loop : ∀ n, (List.range n).foldl (fun (num, denom) j =>
      if i ≠ j then (gfMul num (xs.getD j 0), gfMul denom (xs.getD i 0 ^^^ xs.getD j 0)) else (num, denom))
      (1, 1) = ((∏ j ∈ Finset.range n, if j ≠ i then node xs j else 1).byte,
        (∏ j ∈ Finset.range n, if j ≠ i then node xs i + node xs j else 1).byte) := by
    intro n
    induction n with
    | zero => rfl
    | succ n ih =>
      rw [List.range_succ, List.foldl_append, ih, Finset.prod_range_succ, Finset.prod_range_succ]
      simp only [List.foldl_cons, List.foldl_nil, ne_comm (a := i)]
      split
      · rw [gfMul_eq, gfMul_eq]
        rfl
      · rw [mul_one, mul_one]
  rw [numDenom, loop, ← Finset.prod_filter, ← Finset.prod_filter, Finset.filter_ne']

/-- The part of the sum for one share. -/
def part (xs ys : List UInt8) (i : ℕ) : Gf256 :=
  ⟨ys.getD i 0⟩ * ∏ j ∈ (Finset.range xs.length).erase i, -node xs j / (node xs i - node xs j)

lemma denom_ne_zero (nodup : xs.Nodup) {i : ℕ} (hi : i < xs.length) : (numDenom xs i).2 ≠ 0 := by
  rw [numDenom_eq]
  have ne : ∏ j ∈ (Finset.range xs.length).erase i, (node xs i + node xs j) ≠ 0 := by
    refine Finset.prod_ne_zero_iff.mpr fun j hj => ?_
    obtain ⟨other, hj⟩ := Finset.mem_erase.mp hj
    intro zero
    have same : node xs i = node xs j := (add_eq_zero_iff_eq_neg.mp zero)
    exact other (node_injOn nodup hj (Finset.mem_coe.mpr (Finset.mem_range.mpr hi)) same.symm)
  exact fun zero => ne (Gf256.ext zero)

lemma interpolate_eq (nodup : xs.Nodup) (ys : List UInt8) :
    interpolate xs ys = .ok (∑ i ∈ Finset.range xs.length, part xs ys i).byte := by
  have one {i : ℕ} (hi : i < xs.length) : ∃ quotient, gfDiv (numDenom xs i).1 (numDenom xs i).2 =
      .ok quotient ∧ (⟨gfMul (ys.getD i 0) quotient⟩ : Gf256) = part xs ys i := by
    refine ⟨_, gfDiv_ok (denom_ne_zero nodup hi), ?_⟩
    rw [mk_gfMul, part, Finset.prod_div_distrib, numDenom_eq]
    rfl
  have loop : ∀ n ≤ xs.length, (List.range n).foldlM (fun result i => do
      let quotient ← gfDiv (numDenom xs i).1 (numDenom xs i).2
      return result ^^^ gfMul (ys.getD i 0) quotient) 0 =
        Except.ok (∑ i ∈ Finset.range n, part xs ys i).byte := by
    intro n
    induction n with
    | zero => exact fun _ => rfl
    | succ n ih =>
      intro le
      obtain ⟨quotient, eq, value⟩ := one le
      rw [List.range_succ, List.foldlM_append, ih (Nat.le_of_succ_le le), Finset.sum_range_succ, ← value]
      simp only [List.foldlM_cons, List.foldlM_nil, bind, Except.bind, eq]
      rfl
  exact loop _ (le_refl _)

lemma mk_evalAt (coeffs : Bytes) (x : UInt8) :
    (⟨evalAt coeffs x⟩ : Gf256) = (Interpolation.ofCoeffs (coeffs.map Gf256.mk)).eval ⟨x⟩ := by
  rw [Interpolation.eval_ofCoeffs, evalAt, List.foldl_reverse]
  induction coeffs with
  | nil => rfl
  | cons c coeffs ih =>
    cases coeffs with
    | nil =>
      simp only [List.dropLast_singleton, List.foldr_nil, List.getLastD_cons, List.getLastD_nil,
        List.map_cons, List.map_nil, List.foldr_cons, mul_zero, add_zero]
    | cons c' coeffs =>
      rw [List.map_cons, List.foldr_cons, ← ih]
      simp only [List.dropLast_cons_cons, List.foldr_cons, List.getLastD_cons, mk_xor, mk_gfMul]
      ring

/-- Enough values of a polynomial give its constant coefficient back. -/
theorem interpolate_evalAt (nodup : xs.Nodup) {c : UInt8} {coeffs : Bytes}
    (enough : (c :: coeffs).length ≤ xs.length) : interpolate xs (xs.map (evalAt (c :: coeffs))) = .ok c := by
  rw [interpolate_eq nodup]
  let f := Interpolation.ofCoeffs ((c :: coeffs).map Gf256.mk)
  have degree : f.degree < (Finset.range xs.length).card := by
    refine lt_of_lt_of_le (Interpolation.degree_ofCoeffs_lt _) ?_
    rw [List.length_map, Finset.card_range]
    exact_mod_cast enough
  have parts : ∑ i ∈ Finset.range xs.length, part xs (xs.map (evalAt (c :: coeffs))) i = f.eval 0 := by
    rw [← Interpolation.sum_eq_eval_zero (node_injOn nodup) degree]
    refine Finset.sum_congr rfl fun i hi => ?_
    have hi : i < xs.length := Finset.mem_range.mp hi
    have value : (⟨(xs.map (evalAt (c :: coeffs))).getD i 0⟩ : Gf256) = f.eval (node xs i) := by
      rw [List.getD_eq_getElem _ _ (by rwa [List.length_map]), List.getElem_map, mk_evalAt, node,
        List.getD_eq_getElem _ _ hi]
    rw [part, value]
  have constant : f.eval 0 = ⟨c⟩ := by
    rw [Interpolation.eval_ofCoeffs, List.map_cons, List.foldr_cons, zero_mul, add_zero]
  rw [parts, constant]

end Interpolation

/-! ## Shares -/

/-- The share with the given coordinate, of a secret that is the constant coefficients. -/
def shareAt (polys : List Bytes) (x : UInt8) : Bytes := x :: polys.map (evalAt · x)

/-- The secret. -/
def secretOf (polys : List Bytes) : Bytes := polys.map (·.headD 0)

section Combine

variable {α β : Type} {checks : Bool} {secretLen : ℕ} {shares : List Bytes}

lemma mapM_ok {f : α → Except Failure β} {g : α → β} {l : List α} (ok : ∀ a ∈ l, f a = .ok (g a)) :
    l.mapM f = .ok (l.map g) := by
  induction l with
  | nil => rfl
  | cons a l ih =>
    rw [List.mapM_cons, ok a List.mem_cons_self, ih fun b hb => ok b (List.mem_cons_of_mem _ hb)]
    rfl

lemma lenMinusOne_ok {share : Bytes} (len : share.length = secretLen + 1) :
    lenMinusOne checks share = .ok secretLen := by
  rw [lenMinusOne, len]

lemma inconsistent_false (len : ∀ share ∈ shares, share.length = secretLen + 1) :
    inconsistent checks secretLen shares = .ok false := by
  induction shares with
  | nil => rfl
  | cons share shares ih =>
    rw [inconsistent, lenMinusOne_ok (len share List.mem_cons_self),
      ih fun s hs => len s (List.mem_cons_of_mem _ hs)]
    simp only [bind, Except.bind, ne_eq, not_true_eq_false, if_false]

lemma coordinate_ok {share : Bytes} (len : share.length = secretLen + 1) :
    coordinate share = .ok (share.headD 0) := by
  cases share with
  | nil => cases len
  | cons x share => rfl

lemma combineShares_eq (some : shares ≠ []) (len : ∀ share ∈ shares, share.length = secretLen + 1)
    (nodup : (shares.map (·.headD 0)).Nodup) :
    combineShares checks shares = .ok ((List.range secretLen).map fun byteIdx =>
      (∑ i ∈ Finset.range shares.length,
        part (shares.map (·.headD 0)) (shares.map (·.getD (byteIdx + 1) 0)) i).byte) := by
  cases shares with
  | nil => exact absurd rfl some
  | cons first rest =>
    have xs := mapM_ok fun share hs => coordinate_ok (len share hs)
    have bytes := mapM_ok (l := List.range secretLen) fun byteIdx _ =>
      interpolate_eq nodup ((first :: rest).map (·.getD (byteIdx + 1) 0))
    rw [List.length_map] at bytes
    simp only [combineShares, lenMinusOne_ok (len first List.mem_cons_self), inconsistent_false len, xs, bind,
      Except.bind, Bool.false_eq_true, if_false]
    exact bytes

/-- Enough shares of a secret with different coordinates give it back. -/
theorem combineShares_shareAt {xs : List UInt8} {polys : List Bytes} (some : xs ≠ []) (nodup : xs.Nodup)
    (enough : ∀ p ∈ polys, p ≠ [] ∧ p.length ≤ xs.length) :
    combineShares checks (xs.map (shareAt polys)) = .ok (secretOf polys) := by
  have coords : (xs.map (shareAt polys)).map (·.headD 0) = xs := by
    rw [List.map_map]
    exact List.map_id xs
  have len : ∀ share ∈ xs.map (shareAt polys), share.length = polys.length + 1 := by
    intro share mem
    obtain ⟨x, -, rfl⟩ := List.mem_map.mp mem
    rw [shareAt, List.length_cons, List.length_map]
  rw [combineShares_eq (by simpa using some) len (by rwa [coords])]
  congr 1
  apply List.ext_getElem
  · rw [List.length_map, List.length_range, secretOf, List.length_map]
  intro b hb hb'
  have inside : b < polys.length := by simpa [secretOf] using hb'
  have column : (xs.map (shareAt polys)).map (·.getD (b + 1) 0) = xs.map (evalAt polys[b]) := by
    rw [List.map_map]
    refine List.map_congr_left fun x _ => ?_
    simp [shareAt, inside]
  obtain ⟨nonempty, long⟩ := enough polys[b] (List.getElem_mem inside)
  have byte : interpolate xs (xs.map (evalAt polys[b])) = .ok (polys[b].headD 0) := by
    cases h : polys[b] with
    | nil => exact absurd h nonempty
    | cons c coeffs => exact interpolate_evalAt nodup (by rwa [h] at long)
  rw [interpolate_eq nodup] at byte
  simp only [List.getElem_map, List.getElem_range, coords, column, List.length_map, secretOf]
  exact Except.ok.inj byte

end Combine

section Split

variable {rng : Rng} {n k : UInt8}

/-- The coordinates of the shares. -/
def coordinates (n : UInt8) : List UInt8 := (List.range n.toNat).map fun i => UInt8.ofNat (i + 1)

lemma splitLoop_ok {call : ℕ} {secret : Bytes} {before shares : List Bytes}
    (done : splitLoop rng k call secret before = .ok shares) :
    ∃ polys, secretOf polys = secret ∧ (∀ p ∈ polys, p ≠ [] ∧ p.length = (k - 1).toNat + 1) ∧
      shares = before.mapIdx fun i share => share ++ polys.map (evalAt · (UInt8.ofNat (i + 1))) := by
  induction secret generalizing call before with
  | nil =>
    cases done
    refine ⟨[], rfl, nofun, List.ext_getElem (by simp) fun i _ _ => ?_⟩
    simp
  | cons secretByte secret ih =>
    rw [splitLoop] at done
    split at done
    · cases done
    · rename_i randBytes filled
      obtain ⟨polys, eq, lens, rfl⟩ := ih done
      refine ⟨(secretByte :: randBytes) :: polys, ?_, ?_, ?_⟩
      · rw [← eq]
        rfl
      · intro p hp
        cases List.mem_cons.mp hp with
        | inl here =>
          rw [here]
          exact ⟨List.cons_ne_nil _ _, congrArg (· + 1) (rng.length_fill filled)⟩
        | inr rest => exact lens p rest
      · rw [List.mapIdx_mapIdx]
        simp [Function.comp_def]

/-- What `split_secret` returns. -/
theorem splitSecret_ok {call : ℕ} {secret : Bytes} {shares : List Bytes}
    (done : splitSecret rng call secret n k = .ok shares) :
    2 ≤ k ∧ k ≤ n ∧ ∃ polys, secretOf polys = secret ∧ (∀ p ∈ polys, p ≠ [] ∧ p.length = k.toNat) ∧
      shares = (coordinates n).map (shareAt polys) := by
  unfold splitSecret at done
  split at done
  · cases done
  rename_i valid
  have two : 2 ≤ k := UInt8.not_lt.mp fun h => valid (.inl h)
  have some : k ≤ n := UInt8.not_lt.mp fun h => valid (.inr h)
  obtain ⟨polys, eq, lens, rfl⟩ := splitLoop_ok done
  have pred : (k - 1).toNat + 1 = k.toNat := by
    have two : 2 ≤ k.toNat := UInt8.le_iff_toNat_le.mp two
    rw [UInt8.toNat_sub_of_le _ _ (UInt8.le_iff_toNat_le.mpr (le_trans (by decide) two))]
    exact Nat.sub_add_cancel (le_trans (by decide) two)
  refine ⟨two, some, polys, eq, fun p hp => ⟨(lens p hp).1, (lens p hp).2.trans pred⟩, ?_⟩
  apply List.ext_getElem
  · simp [coordinates]
  · intro i _ _
    simp [coordinates, shareAt]

end Split

end Vault
