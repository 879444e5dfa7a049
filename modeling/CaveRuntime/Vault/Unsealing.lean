import CaveRuntime.Vault.Seal

/-!
# The vault: runs of `unseal` and `seal`

Two conditions on what is submitted to a sealed vault, and what holds in every run of an initialised vault
that keeps to them. If every piece fits, no call panics, and after a rejected one enough shares still open
the vault. If every piece is a share that does not wait yet, an open vault has the real master key.
-/

namespace Vault
open Utf8 Run

/-! ## A vault with three shares -/

/-- A vault with three shares, two of which open it. -/
def threeShares : SealState :=
  match SealState.initializeVault hexCodec callRng {} 3 2 with
  | .ok (_, _, s) => s
  | .error _ => {}

/-- One of its shares. -/
def threeShares.key (i : ℕ) : Bytes := threeShares.keyShares.getD i []

namespace Submissions

variable {codec : Codec} {checks : Bool} {r r' : Submissions}

/-! ## Pieces that fit -/

/-- Every piece fits. -/
def Fitting (codec : Codec) (r : Submissions) : SealCall → Prop
  | .unsealShare shareHex => r.state.Fits codec shareHex
  | .sealVault => True

instance (codec : Codec) (r : Submissions) : (call : SealCall) → Decidable (r.Fitting codec call)
  | .unsealShare shareHex => inferInstanceAs (Decidable (r.state.Fits codec shareHex))
  | .sealVault => inferInstanceAs (Decidable True)

lemma ready_step {call : SealCall} {threshold : UInt8}
    (h : r.state.Ready ∧ r.state.threshold = threshold) (fitting : r.Fitting codec call)
    (st : r.step codec checks call = some r') : r'.state.Ready ∧ r'.state.threshold = threshold := by
  cases call with
  | unsealShare shareHex =>
    cases st
    exact ⟨h.1.unsealShare fitting checks, (SealState.unsealShare_config codec checks _ _).2.trans h.2⟩
  | sealVault =>
    cases st
    exact ⟨h.1.sealVault, h.2⟩

/-- As many shares as the threshold asks for open the vault. -/
lemma opens_of_shares {gs : List Bytes} (ready : r.state.Ready)
    (decoded : ∀ g ∈ gs, (codec.hexDecode g).isSome)
    (enough : r.state.status = .sealed → r.state.threshold.toNat ≤ r.state.pendingShares.length + gs.length)
    (fitting : Guarded (step codec checks) (Fitting codec) r (gs.map .unsealShare)) :
    ∃ r', run (step codec checks) r (gs.map .unsealShare) = some r' ∧ r'.state.status = .unsealed := by
  induction gs generalizing r with
  | nil =>
    refine ⟨r, rfl, ?_⟩
    cases status : r.state.status with
    | unsealed => rfl
    | sealed => exact absurd ready.few (Nat.not_lt.mpr (enough status))
  | cons g gs ih =>
    obtain ⟨fits, rest⟩ := fitting
    have next := ready.unsealShare fits checks
    have out := SealState.unsealShare_outcome checks ready fits
    have more : (r.state.unsealShare codec checks g).2.status = .sealed →
        (r.state.unsealShare codec checks g).2.threshold.toNat ≤
          (r.state.unsealShare codec checks g).2.pendingShares.length + gs.length := by
      intro status
      generalize r.state.unsealShare codec checks g = result at out status ⊢
      cases out with
      | idle opened =>
        rw [opened] at status
        cases status
      | rejected _ none =>
        have some := decoded g List.mem_cons_self
        rw [none] at some
        cases some
      | waits was _ _ =>
        have le := enough was
        simp only [SealState.push, List.length_append, List.length_cons] at le ⊢
        omega
      | opens _ _ _ _ => cases status
    obtain ⟨r', hr, opened⟩ := ih (r := ⟨(r.state.unsealShare codec checks g).2, r.submitted ++ [g]⟩) next
      (fun h hh => decoded h (List.mem_cons_of_mem _ hh)) more (rest _ rfl)
    exact ⟨r', run_cons.mpr ⟨_, rfl, hr⟩, opened⟩

/-- **No call with a piece that fits panics, and after a rejected one enough shares open the vault.** -/
theorem unseal_recovers {rng : Rng} {shares threshold : UInt8} {token : Bytes} {keys : List Bytes}
    {s : SealState}
    (done : SealState.initializeVault codec rng {} shares threshold = .ok (token, keys, s))
    {calls : List SealCall}
    (fitting : Guarded (step codec checks) (Fitting codec) ⟨s, []⟩ calls)
    (ran : run (step codec checks) ⟨s, []⟩ calls = some r)
    {shareHex : Bytes} (fits : r.state.Fits codec shareHex) :
    (r.state.unsealShare codec checks shareHex).1 ≠ .error .panic ∧
      ∀ e, (r.state.unsealShare codec checks shareHex).1 = .error e →
        ∀ next, r.step codec checks (.unsealShare shareHex) = some next →
          ∀ gs : List Bytes, gs.Nodup → gs ⊆ keys → gs.length = threshold.toNat →
            Guarded (step codec checks) (Fitting codec) next (gs.map .unsealShare) →
              ∃ r', run (step codec checks) next (gs.map .unsealShare) = some r' ∧
                r'.state.status = .unsealed := by
  obtain ⟨new, masterKey, polys, -, dealt⟩ := initializeVault_new done
  have now := invariant_of_guarded ready_step fitting ran ⟨new.ready, new.needed⟩
  refine ⟨?_, ?_⟩
  · have out := SealState.unsealShare_outcome checks now.1 fits
    generalize r.state.unsealShare codec checks shareHex = result at out
    cases out <;> simp
  · intro e _ next st gs _ mine enough more
    have later := ready_step now (show r.Fitting codec (.unsealShare shareHex) from fits) st
    refine opens_of_shares later.1 (fun g hg => dealt.decoded g (new.keyShares ▸ mine hg)) (fun _ => ?_) more
    rw [later.2, enough]
    exact Nat.le_add_left _ _

theorem unseal_recovers_after_rejection :
    ∃ r next r' : Submissions,
      run (step hexCodec true) ⟨threeShares, []⟩ [.unsealShare (threeShares.key 0)] = some r ∧
      (r.state.unsealShare hexCodec true [122]).1 ≠ .error .panic ∧
      (r.state.unsealShare hexCodec true [122]).1 =
        .error (.error (.invalidRequest "invalid share encoding")) ∧
      r.step hexCodec true (.unsealShare [122]) = some next ∧
      run (step hexCodec true) next ([threeShares.key 1, threeShares.key 2].map .unsealShare) = some r' ∧
      r'.state.status = .unsealed := by
  have done : SealState.initializeVault hexCodec callRng {} 3 2 =
    .ok (_, threeShares.keyShares, threeShares) := rfl
  have fitting : Guarded (step hexCodec true) (Fitting hexCodec) ⟨threeShares, []⟩
    [.unsealShare (threeShares.key 0)] := by decide
  have recovers := unseal_recovers done fitting rfl (show SealState.Fits hexCodec _ [122] by decide)
  obtain ⟨r', hr, opened⟩ := recovers.2 _ rfl _ rfl [threeShares.key 1, threeShares.key 2]
    (by decide) (by decide) rfl (by decide)
  exact ⟨_, _, r', rfl, recovers.1, rfl, rfl, hr, opened⟩

/-- One share twice makes `unseal` panic; and once a piece of another length waits, the shares no longer
open the vault. -/
theorem unseal_panics_or_stays_sealed :
    (∃ token, SealState.initializeVault hexCodec callRng {} 3 2 =
      .ok (token, threeShares.keyShares, threeShares)) ∧
    ∀ checks : Bool, (∃ r : Submissions,
      run (step hexCodec checks) ⟨threeShares, []⟩ [.unsealShare (threeShares.key 0)] = some r ∧
      (r.state.unsealShare hexCodec checks (threeShares.key 0)).1 = .error .panic) ∧
    ∃ r next r' : Submissions,
      run (step hexCodec checks) ⟨threeShares, []⟩ [.unsealShare [48, 48]] = some r ∧
      (r.state.unsealShare hexCodec checks (threeShares.key 0)).1 =
        .error (.error (.invalidRequest "shares have inconsistent length")) ∧
      r.step hexCodec checks (.unsealShare (threeShares.key 0)) = some next ∧
      run (step hexCodec checks) next ([threeShares.key 1, threeShares.key 2].map .unsealShare) = some r' ∧
      r'.state.status = .sealed := by
  refine ⟨⟨_, rfl⟩, fun checks => ?_⟩
  cases checks with
  | false => exact ⟨⟨_, rfl, rfl⟩, _, _, _, rfl, rfl, rfl, rfl, rfl⟩
  | true => exact ⟨⟨_, rfl, rfl⟩, _, _, _, rfl, rfl, rfl, rfl, rfl⟩

/-! ## Shares -/

/-- Every piece is one of the shares, and a new one. -/
def Genuine (codec : Codec) (r : Submissions) : SealCall → Prop
  | .unsealShare shareHex => r.state.status = .sealed → ∀ share ∈ codec.hexDecode shareHex,
      share ∈ r.state.genuine codec ∧ share ∉ r.state.pendingShares
  | .sealVault => True

instance (codec : Codec) (r : Submissions) : (call : SealCall) → Decidable (r.Genuine codec call)
  | .unsealShare _ => inferInstanceAs (Decidable (_ → ∀ share ∈ _, _))
  | .sealVault => inferInstanceAs (Decidable True)

/-- The shares among what was submitted since the vault was last sealed. -/
def genuineSubmitted (codec : Codec) (keys : List Bytes) (r : Submissions) : Finset Bytes :=
  (r.submitted.filterMap codec.hexDecode).toFinset ∩ (keys.filterMap codec.hexDecode).toFinset

/-- The invariant: only shares wait, and an open vault has the real key, from enough shares. -/
structure Real (codec : Codec) (masterKey : Bytes) (polys keys : List Bytes) (threshold : UInt8)
    (r : Submissions) : Prop where
  ready : r.state.Ready
  dealt : Dealt codec masterKey polys r.state
  same_keys : r.state.keyShares = keys
  same_threshold : r.state.threshold = threshold
  waiting : ∀ p ∈ r.state.pendingShares, p ∈ r.genuineSubmitted codec keys
  opened : r.state.status = .unsealed → r.state.masterKey = some masterKey ∧
    threshold.toNat ≤ (r.genuineSubmitted codec keys).card

section Real

variable {masterKey : Bytes} {polys keys : List Bytes} {threshold : UInt8}

lemma mem_genuineSubmitted {b : Bytes} :
    b ∈ r.genuineSubmitted codec keys ↔
      (∃ h ∈ r.submitted, codec.hexDecode h = some b) ∧ b ∈ keys.filterMap codec.hexDecode := by
  simp only [genuineSubmitted, Finset.mem_inter, List.mem_toFinset, List.mem_filterMap]

lemma genuineSubmitted_subset {r' : Submissions} (more : ∀ h ∈ r.submitted, h ∈ r'.submitted) :
    r.genuineSubmitted codec keys ⊆ r'.genuineSubmitted codec keys := by
  intro b hb
  obtain ⟨⟨h, hh, dec⟩, mine⟩ := mem_genuineSubmitted.mp hb
  exact mem_genuineSubmitted.mpr ⟨⟨h, more h hh, dec⟩, mine⟩

namespace Real

section

variable (real : Real codec masterKey polys keys threshold r)

include real

lemma genuine_eq :
    r.state.genuine codec = keys.filterMap codec.hexDecode := by
  rw [SealState.genuine, real.same_keys]

lemma mine_of_waiting {p : Bytes}
    (hp : p ∈ r.state.pendingShares) : p ∈ r.state.genuine codec := by
  rw [real.genuine_eq]
  exact (mem_genuineSubmitted.mp (real.waiting p hp)).2

lemma fits {shareHex : Bytes}
    (genuine : r.Genuine codec (.unsealShare shareHex)) : r.state.Fits codec shareHex := by
  intro status share dec
  obtain ⟨mine, new⟩ := genuine status share dec
  refine ⟨real.dealt.length_share mine, fun mem => new ?_⟩
  -- shares with the same coordinate are the same
  obtain ⟨p, hp, same⟩ := List.mem_map.mp mem
  have eq : p = share := by
    rw [real.dealt.eq_shareAt (real.mine_of_waiting hp), real.dealt.eq_shareAt mine, same]
  rwa [← eq]

end

lemma combine (checks : Bool) (real : Real codec masterKey polys keys threshold r) {ps : List Bytes}
    (mine : ∀ p ∈ ps, p ∈ r.state.genuine codec) (nodup : ps.Nodup)
    (enough : ps.length = r.state.threshold.toNat) : combineShares checks ps = .ok masterKey := by
  have shares : ps = (ps.map (·.headD 0)).map (shareAt polys) := by
    rw [List.map_map]
    conv_lhs => rw [← List.map_id ps]
    exact List.map_congr_left fun p hp => real.dealt.eq_shareAt (mine p hp)
  have some : ps.map (·.headD 0) ≠ [] := by
    intro none
    have two := real.dealt.two
    rw [List.map_eq_nil_iff.mp none] at enough
    simp only [List.length_nil] at enough
    omega
  have coords : (ps.map (·.headD 0)).Nodup := by
    rw [shares] at nodup
    exact nodup.of_map _
  rw [shares, combineShares_shareAt some coords, real.dealt.secret]
  intro p hp
  rw [List.length_map, enough]
  exact ⟨(real.dealt.polyLen p hp).1, (real.dealt.polyLen p hp).2.le⟩

/-- A genuine share waits, or opens the vault with the real key. -/
lemma unsealShare (real : Real codec masterKey polys keys threshold r) {shareHex : Bytes}
    (genuine : r.Genuine codec (.unsealShare shareHex)) :
    Real codec masterKey polys keys threshold
      ⟨(r.state.unsealShare codec checks shareHex).2, r.submitted ++ [shareHex]⟩ := by
  have fits := real.fits genuine
  have ready := real.ready.unsealShare fits checks
  have config := SealState.unsealShare_config codec checks r.state shareHex
  rw [real.same_keys, real.same_threshold] at config
  have out := SealState.unsealShare_outcome checks real.ready fits
  have old {s' : SealState} :
      r.genuineSubmitted codec keys ⊆ genuineSubmitted codec keys ⟨s', r.submitted ++ [shareHex]⟩ :=
    genuineSubmitted_subset fun h hh => List.mem_append_left _ hh
  -- the shares are those from before and the new one
  have both {share : Bytes} (status : r.state.status = .sealed)
      (dec : codec.hexDecode shareHex = some share) (s' : SealState) :
      ∀ p ∈ r.state.pendingShares ++ [share],
        p ∈ genuineSubmitted codec keys ⟨s', r.submitted ++ [shareHex]⟩ := by
    intro p hp
    cases List.mem_append.mp hp with
    | inl waited => exact old (real.waiting p waited)
    | inr here =>
      rw [List.mem_singleton.mp here, mem_genuineSubmitted, ← real.genuine_eq]
      exact ⟨⟨shareHex, List.mem_append_right _ List.mem_cons_self, dec⟩, (genuine status share dec).1⟩
  generalize r.state.unsealShare codec checks shareHex = result at out ready config ⊢
  cases out with
  | idle opened =>
    refine ⟨ready, real.dealt, config.1, config.2, fun p hp => old (real.waiting p hp), fun _ => ?_⟩
    obtain ⟨key, enough⟩ := real.opened opened
    exact ⟨key, enough.trans (Finset.card_le_card old)⟩
  | rejected status _ =>
    refine ⟨ready, real.dealt, config.1, config.2, fun p hp => old (real.waiting p hp), fun opened => ?_⟩
    rw [status] at opened
    cases opened
  | waits status dec _ =>
    refine ⟨ready, { real.dealt with }, config.1, config.2, both status dec _, fun opened => ?_⟩
    rw [show (r.state.push _).status = r.state.status from rfl, status] at opened
    cases opened
  | @opens share key status dec last combined =>
    refine ⟨ready, { real.dealt with }, config.1, config.2, nofun, fun _ => ?_⟩
    have mine := both status dec ((r.state.push share).openWith key)
    have nodup : (r.state.pendingShares ++ [share]).Nodup := by
      rw [List.nodup_append_comm]
      exact List.nodup_cons.mpr ⟨(genuine status share dec).2, real.ready.nodup.of_map _⟩
    have len : (r.state.pendingShares ++ [share]).length = r.state.threshold.toNat := by
      rw [List.length_append, ← last, List.length_singleton]
    have real_key := real.combine checks
      (fun p hp => real.genuine_eq ▸ (mem_genuineSubmitted.mp (mine p hp)).2) nodup len
    rw [real_key] at combined
    cases combined
    refine ⟨rfl, ?_⟩
    rw [← real.same_threshold, ← len, ← List.toFinset_card_of_nodup nodup]
    exact Finset.card_le_card fun p hp => mine p (List.mem_toFinset.mp hp)

lemma step {call : SealCall} (real : Real codec masterKey polys keys threshold r)
    (genuine : r.Genuine codec call) (st : r.step codec checks call = some r') :
    Real codec masterKey polys keys threshold r' := by
  cases call with
  | unsealShare shareHex =>
    cases st
    exact real.unsealShare genuine
  | sealVault =>
    cases st
    exact ⟨real.ready.sealVault, { real.dealt with }, real.same_keys, real.same_threshold, nofun, nofun⟩

end Real

end Real

/-- **A vault that was only given shares, each once, is open with the real key and from enough of them.** -/
theorem unsealed_with_master_key {rng : Rng} {shares threshold : UInt8} {token : Bytes} {keys : List Bytes}
    {s : SealState}
    (done : SealState.initializeVault codec rng {} shares threshold = .ok (token, keys, s))
    {calls : List SealCall}
    (genuine : Guarded (step codec checks) (Genuine codec) ⟨s, []⟩ calls)
    (ran : run (step codec checks) ⟨s, []⟩ calls = some r) (opened : r.state.status = .unsealed) :
    (∃ masterKey, rng.fill 0 32 = some masterKey ∧ r.state.masterKey = some masterKey) ∧
      threshold.toNat ≤ (r.genuineSubmitted codec keys).card := by
  obtain ⟨new, masterKey, polys, filled, dealt⟩ := initializeVault_new done
  have start : Real codec masterKey polys keys threshold ⟨s, []⟩ :=
    { ready := new.ready
      dealt
      same_keys := new.keyShares
      same_threshold := new.needed
      waiting := by rw [new.nothing]; nofun
      opened := by rw [new.status]; nofun }
  obtain ⟨key, enough⟩ := (invariant_of_guarded Real.step genuine ran start).opened opened
  exact ⟨⟨masterKey, filled, key⟩, enough⟩

theorem unsealed_with_master_key_two_shares :
    ∃ r : Submissions,
      run (step hexCodec true) ⟨threeShares, []⟩
        [.unsealShare (threeShares.key 0), .unsealShare (threeShares.key 2)] = some r ∧
      r.state.status = .unsealed ∧
      (∃ masterKey, callRng.fill 0 32 = some masterKey ∧ r.state.masterKey = some masterKey) ∧
      2 ≤ (r.genuineSubmitted hexCodec threeShares.keyShares).card := by
  have done : SealState.initializeVault hexCodec callRng {} 3 2 =
    .ok (_, threeShares.keyShares, threeShares) := rfl
  have genuine : Guarded (step hexCodec true) (Genuine hexCodec) ⟨threeShares, []⟩
    [.unsealShare (threeShares.key 0), .unsealShare (threeShares.key 2)] := by decide
  exact ⟨_, rfl, rfl, unsealed_with_master_key done genuine rfl rfl⟩

/-- Two empty pieces open the vault, with an empty key and without any share. -/
theorem unsealed_without_shares :
    (∃ token, SealState.initializeVault hexCodec callRng {} 3 2 =
      .ok (token, threeShares.keyShares, threeShares)) ∧
    ∃ r : Submissions,
      run (step hexCodec true) ⟨threeShares, []⟩ [.unsealShare [48, 48], .unsealShare [48, 48]] = some r ∧
      r.state.status = .unsealed ∧ r.state.masterKey = some [] ∧ callRng.fill 0 32 ≠ some [] ∧
      r.genuineSubmitted hexCodec threeShares.keyShares = ∅ :=
  ⟨⟨_, rfl⟩, _, rfl, rfl, rfl, by decide, by decide⟩

end Submissions

end Vault
