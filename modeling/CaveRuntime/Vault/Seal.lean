import CaveRuntime.Common.Run
import CaveRuntime.Vault.Shamir

/-!
# The vault: sealing and unsealing

Model of `SealState` of `cave-vault/src/core/seal.rs`. `unseal` collects what is submitted and combines it
once there are as many pieces as the threshold, without asking whether they are shares at all: pieces that
are not give a master key that is not the real one, two with one coordinate make the interpolation panic,
and pieces of different lengths stay in the way until the vault is sealed. If every piece has the length
of a share and a coordinate of its own, no call panics and the vault unseals; if every piece is one of the
shares and a new one, it unseals with the real key.

The state is behind a lock that a panic does not poison, so that a call that panics leaves what it has
written. The nonce, which nothing reads, is left out.
-/

namespace Vault
open Utf8 Run

/-- The crates `hex` and `base64`. -/
structure Codec where
  hexEncode : Bytes → Bytes
  hexDecode : Bytes → Option Bytes
  hexDecode_hexEncode : ∀ b, hexDecode (hexEncode b) = some b
  urlSafeNoPad : Bytes → Bytes

inductive SealStatus where
  | sealed
  | unsealed
deriving DecidableEq, Repr

structure SealState where
  status : SealStatus := .sealed
  initialized : Bool := false
  threshold : UInt8 := 0
  shares : UInt8 := 0
  unsealProgress : UInt8 := 0
  pendingShares : List Bytes := []
  masterKey : Option Bytes := none
  rootToken : Option Bytes := none
  keyShares : List Bytes := []

namespace SealState

def validateThreshold (shares threshold : UInt8) : Except Failure Unit :=
  if shares = 0 then .error (.error (.invalidRequest "shares must be >= 1"))
  else if threshold < 2 then .error (.error (.invalidRequest "threshold must be >= 2"))
  else if shares < threshold then .error (.error (.invalidRequest "threshold cannot exceed shares"))
  else .ok ()

/-- One call of the random number generator. -/
def random (rng : Rng) (call len : ℕ) : Except Failure Bytes :=
  match rng.fill call len with
  | none => .error (.error (.crypto "rng failure"))
  | some b => .ok b

/-- `initialize`: the root token, the shares and the new state. -/
def initializeVault (codec : Codec) (rng : Rng) (s : SealState) (shares threshold : UInt8) :
    Except Failure (Bytes × List Bytes × SealState) :=
  if s.initialized then .error (.error .alreadyInitialized)
  else do
    validateThreshold shares threshold
    let masterKey ← random rng 0 32
    let shareBytes ← splitSecret rng 1 masterKey shares threshold
    let hexShares := shareBytes.map codec.hexEncode
    let rootTokenBytes ← random rng 33 16
    -- "hvs."
    let rootToken := [104, 118, 115, 46] ++ codec.urlSafeNoPad rootTokenBytes
    return (rootToken, hexShares, { s with
      initialized := true
      threshold := threshold
      shares := shares
      keyShares := hexShares
      rootToken := some rootToken })

/-- The state with one more piece. -/
def push (s : SealState) (share : Bytes) : SealState :=
  { s with
    pendingShares := s.pendingShares ++ [share]
    unsealProgress := UInt8.ofNat (s.pendingShares.length + 1) }

/-- The state once the pieces are combined. -/
def openWith (s : SealState) (masterKey : Bytes) : SealState :=
  { s with
    masterKey := some masterKey
    pendingShares := []
    unsealProgress := 0
    status := .unsealed }

/-- `unseal`. The words `initialize`, `unseal` and `seal` are Lean's. -/
def unsealShare (codec : Codec) (checks : Bool) (s : SealState) (shareHex : Bytes) :
    Except Failure Bool × SealState :=
  if s.initialized = false then (.error (.error .notInitialized), s)
  else if s.status ≠ .sealed then (.ok false, s)
  else
    match codec.hexDecode shareHex with
    | none => (.error (.error (.invalidRequest "invalid share encoding")), s)
    | some share =>
      let s := s.push share
      if s.threshold ≤ s.unsealProgress then
        match combineShares checks s.pendingShares with
        | .error e => (.error e, s)
        | .ok masterKey => (.ok true, s.openWith masterKey)
      else (.ok false, s)

/-- `seal`. -/
def sealVault (s : SealState) : SealState :=
  { s with
    status := .sealed
    masterKey := none
    pendingShares := []
    unsealProgress := 0 }

/-- The shares that `initialize` has given out. -/
def genuine (codec : Codec) (s : SealState) : List Bytes := s.keyShares.filterMap codec.hexDecode

end SealState

/-- The calls of an initialised vault. -/
inductive SealCall where
  | unsealShare (shareHex : Bytes)
  | sealVault
deriving DecidableEq, Repr

/-- The vault, and what has been submitted since it was last sealed. -/
structure Submissions where
  state : SealState
  submitted : List Bytes

/-- One call. -/
def Submissions.step (codec : Codec) (checks : Bool) (r : Submissions) : SealCall → Option Submissions
  | .unsealShare shareHex => some ⟨(r.state.unsealShare codec checks shareHex).2, r.submitted ++ [shareHex]⟩
  | .sealVault => some ⟨r.state.sealVault, []⟩

section Config

variable (codec : Codec) (checks : Bool) (s : SealState) (shareHex : Bytes)

lemma SealState.unsealShare_config :
    (s.unsealShare codec checks shareHex).2.keyShares = s.keyShares ∧
      (s.unsealShare codec checks shareHex).2.threshold = s.threshold := by
  unfold unsealShare
  split
  · exact ⟨rfl, rfl⟩
  split
  · exact ⟨rfl, rfl⟩
  cases codec.hexDecode shareHex with
  | none => exact ⟨rfl, rfl⟩
  | some share =>
    dsimp only
    split
    · cases combineShares checks (s.push share).pendingShares with
      | error e => exact ⟨rfl, rfl⟩
      | ok masterKey => exact ⟨rfl, rfl⟩
    · exact ⟨rfl, rfl⟩

end Config

/-! ## Pieces that fit -/

/-- The length of a share: its coordinate, and a byte for each byte of the master key. -/
def shareLen : ℕ := 33

namespace SealState

variable {codec : Codec} {checks : Bool} {s : SealState} {shareHex : Bytes}

/-- Fewer pieces than the threshold wait, each with the length of a share and a coordinate of its own. -/
structure Ready (s : SealState) : Prop where
  initialized : s.initialized = true
  few : s.pendingShares.length < s.threshold.toNat
  len : ∀ p ∈ s.pendingShares, p.length = shareLen
  nodup : (s.pendingShares.map (·.headD 0)).Nodup

/-- A sealed vault gets a piece with the length of a share and a coordinate that no other piece has, or
one that is not decoded. -/
def Fits (codec : Codec) (s : SealState) (shareHex : Bytes) : Prop :=
  s.status = .sealed → ∀ share ∈ codec.hexDecode shareHex,
    share.length = shareLen ∧ share.headD 0 ∉ s.pendingShares.map (·.headD 0)
deriving Decidable

/-- What `unseal` does with a piece that fits. -/
inductive UnsealOutcome (codec : Codec) (checks : Bool) (s : SealState) (shareHex : Bytes) :
    Except Failure Bool × SealState → Prop
  | idle : s.status = .unsealed → UnsealOutcome codec checks s shareHex (.ok false, s)
  | rejected : s.status = .sealed → codec.hexDecode shareHex = none →
      UnsealOutcome codec checks s shareHex
        (.error (.error (.invalidRequest "invalid share encoding")), s)
  | waits {share : Bytes} : s.status = .sealed → codec.hexDecode shareHex = some share →
      (s.push share).Ready → UnsealOutcome codec checks s shareHex (.ok false, s.push share)
  | opens {share masterKey : Bytes} : s.status = .sealed → codec.hexDecode shareHex = some share →
      s.pendingShares.length + 1 = s.threshold.toNat →
      combineShares checks (s.pendingShares ++ [share]) = .ok masterKey →
      UnsealOutcome codec checks s shareHex (.ok true, (s.push share).openWith masterKey)

/-- What a share that is submitted leads to. -/
lemma unsealShare_outcome (checks : Bool) (ready : s.Ready) (fits : s.Fits codec shareHex) :
    UnsealOutcome codec checks s shareHex (s.unsealShare codec checks shareHex) := by
  unfold unsealShare
  rw [ready.initialized, if_neg (by decide)]
  cases status : s.status with
  | unsealed => exact .idle status
  | sealed =>
    rw [if_neg (by decide)]
    cases dec : codec.hexDecode shareHex with
    | none => exact .rejected status dec
    | some share =>
      obtain ⟨long, new⟩ := fits status share dec
      have len : ∀ p ∈ s.pendingShares ++ [share], p.length = 32 + 1 := by
        intro p hp
        cases List.mem_append.mp hp with
        | inl old => exact ready.len p old
        | inr here => rwa [List.mem_singleton.mp here]
      have nodup : ((s.pendingShares ++ [share]).map (·.headD 0)).Nodup := by
        rw [List.map_append, List.nodup_append_comm]
        exact List.nodup_cons.mpr ⟨new, ready.nodup⟩
      have progress : (s.push share).unsealProgress.toNat = s.pendingShares.length + 1 :=
        UInt8.toNat_ofNat_of_lt' (lt_of_le_of_lt ready.few s.threshold.toNat_lt)
      have few := ready.few
      dsimp only
      split
      · rename_i enough
        have enough : s.threshold.toNat ≤ s.pendingShares.length + 1 := by
          rw [← progress]
          exact UInt8.le_iff_toNat_le.mp enough
        have combined : combineShares checks (s.pendingShares ++ [share]) = _ :=
          combineShares_eq (by simp) len nodup
        rw [show (s.push share).pendingShares = s.pendingShares ++ [share] from rfl, combined]
        exact .opens status dec (by omega) combined
      · rename_i more
        have more : s.pendingShares.length + 1 < s.threshold.toNat := by
          rw [← progress]
          exact UInt8.lt_iff_toNat_lt.mp (UInt8.not_le.mp more)
        exact .waits status dec ⟨ready.initialized, by simpa [push] using more, len, nodup⟩

lemma Ready.unsealShare (ready : s.Ready) (fits : s.Fits codec shareHex) (checks : Bool) :
    (s.unsealShare codec checks shareHex).2.Ready := by
  have out := unsealShare_outcome checks ready fits
  generalize s.unsealShare codec checks shareHex = result at out ⊢
  cases out with
  | idle _ => exact ready
  | rejected _ _ => exact ready
  | waits _ _ next => exact next
  | opens _ _ _ _ => exact ⟨ready.initialized, Nat.zero_lt_of_lt ready.few, nofun, List.nodup_nil⟩

lemma Ready.sealVault (ready : s.Ready) : s.sealVault.Ready :=
  ⟨ready.initialized, Nat.zero_lt_of_lt ready.few, nofun, List.nodup_nil⟩

end SealState

/-! ## Initialisation -/

/-- What `initialize` leaves: the shares of a secret that is the master key. -/
structure Dealt (codec : Codec) (masterKey : Bytes) (polys : List Bytes) (s : SealState) : Prop where
  secret : secretOf polys = masterKey
  keyLen : masterKey.length = 32
  polyLen : ∀ p ∈ polys, p ≠ [] ∧ p.length = s.threshold.toNat
  two : 2 ≤ s.threshold.toNat
  decoded : ∀ g ∈ s.keyShares, (codec.hexDecode g).isSome
  genuine : s.genuine codec = (coordinates s.shares).map (shareAt polys)

/-- What initialisation leaves: the shares of a drawn key. -/
lemma initializeVault_ok {codec : Codec} {rng : Rng} {shares threshold : UInt8} {token : Bytes}
    {keys : List Bytes} {s : SealState}
    (done : SealState.initializeVault codec rng {} shares threshold = .ok (token, keys, s)) :
    s = { initialized := true, threshold := threshold, shares := shares, keyShares := keys,
          rootToken := some token } ∧
      ∃ masterKey polys, rng.fill 0 32 = some masterKey ∧ Dealt codec masterKey polys s := by
  simp only [SealState.initializeVault, Bool.false_eq_true, if_false, bind, Except.bind] at done
  split at done
  · cases done
  split at done
  · cases done
  rename_i masterKey drawn
  split at done
  · cases done
  rename_i shareBytes split
  split at done
  · cases done
  cases done
  have filled : rng.fill 0 32 = some masterKey := by
    unfold SealState.random at drawn
    split at drawn
    · cases drawn
    · rename_i b filled
      cases drawn
      exact filled
  obtain ⟨two, -, polys, secret, lens, rfl⟩ := splitSecret_ok split
  refine ⟨rfl, masterKey, polys, filled, secret, rng.length_fill filled, lens, ?_, ?_, ?_⟩
  · exact UInt8.le_iff_toNat_le.mp two
  · intro g hg
    obtain ⟨b, -, rfl⟩ := List.mem_map.mp hg
    rw [codec.hexDecode_hexEncode, Option.isSome_some]
  · have all : codec.hexDecode ∘ codec.hexEncode = some := funext codec.hexDecode_hexEncode
    unfold SealState.genuine
    rw [List.filterMap_map, all, List.filterMap_some]

/-- A new vault is sealed, nothing waits and it is ready. -/
structure SealState.New (keys : List Bytes) (threshold : UInt8) (s : SealState) : Prop where
  ready : s.Ready
  status : s.status = .sealed
  nothing : s.pendingShares = []
  keyShares : s.keyShares = keys
  needed : s.threshold = threshold

lemma initializeVault_new {codec : Codec} {rng : Rng} {shares threshold : UInt8} {token : Bytes}
    {keys : List Bytes} {s : SealState}
    (done : SealState.initializeVault codec rng {} shares threshold = .ok (token, keys, s)) :
    s.New keys threshold ∧
      ∃ masterKey polys, rng.fill 0 32 = some masterKey ∧ Dealt codec masterKey polys s := by
  obtain ⟨rfl, masterKey, polys, filled, dealt⟩ := initializeVault_ok done
  refine ⟨⟨?_, rfl, rfl, rfl, rfl⟩, masterKey, polys, filled, dealt⟩
  exact ⟨rfl, Nat.zero_lt_of_lt dealt.two, nofun, List.nodup_nil⟩

namespace Dealt

variable {codec : Codec} {masterKey : Bytes} {polys : List Bytes} {s : SealState}

lemma length_polys (d : Dealt codec masterKey polys s) : polys.length = 32 := by
  rw [← d.keyLen, ← d.secret, secretOf, List.length_map]

lemma eq_shareAt (d : Dealt codec masterKey polys s) {share : Bytes} (mine : share ∈ s.genuine codec) :
    share = shareAt polys (share.headD 0) := by
  rw [d.genuine] at mine
  obtain ⟨x, -, rfl⟩ := List.mem_map.mp mine
  rfl

lemma length_share (d : Dealt codec masterKey polys s) {share : Bytes} (mine : share ∈ s.genuine codec) :
    share.length = shareLen := by
  rw [d.eq_shareAt mine, shareAt, List.length_cons, List.length_map, d.length_polys]
  rfl

end Dealt

/-! ## An encoding and a generator -/

/-- A digit of `hex::encode`. -/
def hexDigit (n : ℕ) : UInt8 := if n < 10 then UInt8.ofNat (48 + n) else UInt8.ofNat (87 + n)

/-- The value of a digit, in either case. -/
def hexValue (c : UInt8) : Option ℕ :=
  if 48 ≤ c ∧ c ≤ 57 then some (c.toNat - 48)
  else if 65 ≤ c ∧ c ≤ 70 then some (c.toNat - 55)
  else if 97 ≤ c ∧ c ≤ 102 then some (c.toNat - 87)
  else none

/-- `hex::decode`: two digits a byte. -/
def hexPairs : Bytes → Option Bytes
  | [] => some []
  | [_] => none
  | c :: d :: rest => do
    let hi ← hexValue c
    let lo ← hexValue d
    let rest ← hexPairs rest
    return UInt8.ofNat (hi * 16 + lo) :: rest

lemma hexValue_hexDigit : ∀ n < 16, hexValue (hexDigit n) = some n := by decide

/-- Hexadecimal digits; nothing reads the token. -/
def hexCodec : Codec where
  hexEncode b := b.flatMap fun c => [hexDigit (c.toNat / 16), hexDigit (c.toNat % 16)]
  hexDecode := hexPairs
  hexDecode_hexEncode b := by
    induction b with
    | nil => rfl
    | cons c b ih =>
      have lt := c.toNat_lt
      have back : UInt8.ofNat (c.toNat / 16 * 16 + c.toNat % 16) = c := by
        rw [Nat.div_add_mod', UInt8.ofNat_toNat]
      simp only [List.flatMap_cons, List.cons_append, List.nil_append, hexPairs, ih,
        hexValue_hexDigit (c.toNat / 16) (by omega), hexValue_hexDigit (c.toNat % 16) (by omega)]
      show some (UInt8.ofNat (c.toNat / 16 * 16 + c.toNat % 16) :: b) = _
      rw [back]
  urlSafeNoPad := id

/-- A generator that fills with the number of the call. -/
def callRng : Rng where
  fill call len := some (List.replicate len (UInt8.ofNat call))
  length_fill h := by
    cases h
    exact List.length_replicate

end Vault
