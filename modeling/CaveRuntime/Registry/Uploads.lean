import CaveRuntime.Registry.Storage

/-!
# The registry: uploads in chunks

Model of the upload sessions of `RegistryStorage` in `cave-artifacts/src/harbor/storage.rs`. A session collects
chunks until it is completed with the digest of all of them. When the digest does not fit, the session is put back
for another attempt, but with the final chunk of the failed one; so an attempt leaves the session as it was only if
its final chunk is empty.
-/

namespace Registry
open Text Utf8

structure UploadState where
  uuid : Bytes
  repository : Bytes
  data : Bytes := []

/-- "upload session not found" and "digest mismatch". -/
inductive UploadError
  | sessionNotFound
  | digestMismatch

/-- What uploads read and write of `RegistryStorage`. -/
structure RegistryStorage where
  blobs : Table Bytes Bytes := ∅
  blobRefs : Table Bytes (Finset Bytes) := ∅
  uploads : Table Bytes UploadState := ∅

section Uploads

variable (hash : Bytes → Bytes)

/-- `verify_digest`; what is expected may come without its algorithm. -/
def verifyDigest (data expected : Bytes) : Bool :=
  hash data == (if isDigest expected then expected.drop (word "sha256:").length else expected)

namespace RegistryStorage

variable (s : RegistryStorage)

def storeBlob (digest data repo : Bytes) : RegistryStorage :=
  { s with
    blobs := s.blobs.insert digest data
    blobRefs := s.blobRefs.insert digest (insert repo ((s.blobRefs.lookup digest).getD ∅)) }

/-- `start_upload`, with the identifier that is drawn. -/
def startUpload (uuid repo : Bytes) : RegistryStorage :=
  { s with uploads := s.uploads.insert uuid ⟨uuid, repo, []⟩ }

def patchUpload (uuid data : Bytes) : Option ℕ × RegistryStorage :=
  match s.uploads.lookup uuid with
  | none => (none, s)
  | some session =>
    let session := { session with data := session.data ++ data }
    (some session.data.length, { s with uploads := s.uploads.insert uuid session })

def completeUpload (uuid finalChunk expected : Bytes) : Except UploadError (Bytes × Bytes) × RegistryStorage :=
  match s.uploads.lookup uuid with
  | none => (.error .sessionNotFound, s)
  | some session =>
    let removed := { s with uploads := s.uploads.erase uuid }
    let session := { session with data := session.data ++ finalChunk }
    if !verifyDigest hash session.data expected then
      (.error .digestMismatch, { removed with uploads := removed.uploads.insert uuid session })
    else
      let digest := computeDigest hash session.data
      (.ok (digest, session.repository), removed.storeBlob digest session.data session.repository)

/-- The bytes of a session. -/
def bytesOf (uuid : Bytes) : Option Bytes := (s.uploads.lookup uuid).map (·.data)

end RegistryStorage

/-! ## Sequences of calls -/

/-- A call on one session. -/
inductive UploadCall
  | patch (data : Bytes)
  | complete (finalChunk expected : Bytes)

def RegistryStorage.after (uuid : Bytes) (s : RegistryStorage) : UploadCall → RegistryStorage
  | .patch data => (s.patchUpload uuid data).2
  | .complete finalChunk expected => (s.completeUpload hash uuid finalChunk expected).2

/-- The storage after a session was started and some calls were made on it. -/
def RegistryStorage.run (s : RegistryStorage) (uuid repo : Bytes) (calls : List UploadCall) : RegistryStorage :=
  calls.foldl (RegistryStorage.after hash uuid) (s.startUpload uuid repo)

/-- All chunks that were patched. -/
def patched : List UploadCall → Bytes
  | [] => []
  | .patch data :: calls => data ++ patched calls
  | .complete _ _ :: calls => patched calls

/-- What a session should have: a failed attempt changes nothing, a successful one ends it. -/
def content (calls : List UploadCall) : Option Bytes :=
  calls.foldl (fun c call => c.bind fun data =>
    match call with
    | .patch more => some (data ++ more)
    | .complete finalChunk expected => if verifyDigest hash (data ++ finalChunk) expected then none else some data)
    (some [])

/-- What the calls on a session promise, at each attempt to complete it. -/
def Retriable (s : RegistryStorage) (uuid repo : Bytes) (calls : List UploadCall) : Prop :=
  ∀ before finalChunk expected r s', before ++ [.complete finalChunk expected] <+: calls →
    (s.run hash uuid repo before).completeUpload hash uuid finalChunk expected = (r, s') →
    (r = .error .digestMismatch → s'.bytesOf uuid = (s.run hash uuid repo before).bytesOf uuid) ∧
    ∀ digest repo', r = .ok (digest, repo') → s'.blobs.lookup digest = some (patched before ++ finalChunk)

/-- Every attempt that finds the session open either fits, counted from the patched chunks alone, or has an empty
final chunk. -/
def Careful (calls : List UploadCall) : Prop :=
  ∀ before finalChunk expected data, before ++ [.complete finalChunk expected] <+: calls →
    content hash before = some data → verifyDigest hash (data ++ finalChunk) expected = true ∨ finalChunk = []

variable {hash} {s : RegistryStorage} {uuid repo : Bytes}

lemma patched_append (calls calls' : List UploadCall) :
    patched (calls ++ calls') = patched calls ++ patched calls' := by
  induction calls with
  | nil => rfl
  | cons call calls ih =>
    cases call with
    | patch data => rw [List.cons_append, patched, patched, ih, List.append_assoc]
    | complete finalChunk expected => rw [List.cons_append, patched, patched, ih]

lemma content_concat (calls : List UploadCall) (call : UploadCall) : content hash (calls ++ [call]) =
    (content hash calls).bind fun data =>
      match call with
      | .patch more => some (data ++ more)
      | .complete finalChunk expected =>
        if verifyDigest hash (data ++ finalChunk) expected then none else some data :=
  List.foldl_concat _ _ _ _

variable {calls : List UploadCall} {data : Bytes}

lemma eq_patched_of_content (here : content hash calls = some data) :
    data = patched calls := by
  induction calls using List.reverseRecOn generalizing data with
  | nil => exact (Option.some.inj here).symm
  | append_singleton calls call ih =>
    rw [content_concat] at here
    obtain ⟨c, before, eq⟩ := Option.bind_eq_some_iff.mp here
    rw [patched_append, ← ih before]
    cases call with
    | patch more =>
      rw [patched, patched, List.append_nil]
      exact (Option.some.inj eq).symm
    | complete finalChunk expected =>
      dsimp only at eq
      split at eq
      · cases eq
      · cases eq
        exact (List.append_nil _).symm

/-! ## One call -/

lemma bytesOf_patch (data : Bytes) :
    (s.patchUpload uuid data).2.bytesOf uuid = (s.bytesOf uuid).map (· ++ data) := by
  unfold RegistryStorage.patchUpload RegistryStorage.bytesOf
  cases look : s.uploads.lookup uuid with
  | none => simp [look]
  | some session => simp

lemma completeUpload_misfit {finalChunk expected : Bytes} (here : s.bytesOf uuid = some data)
    (misfit : verifyDigest hash (data ++ finalChunk) expected = false) :
    ∃ s', s.completeUpload hash uuid finalChunk expected = (.error .digestMismatch, s') ∧
      s'.bytesOf uuid = some (data ++ finalChunk) := by
  obtain ⟨session, look, rfl⟩ := Option.map_eq_some_iff.mp here
  unfold RegistryStorage.completeUpload
  rw [look]
  dsimp only
  rw [misfit]
  exact ⟨_, rfl, by simp [RegistryStorage.bytesOf]⟩

lemma completeUpload_fits {finalChunk expected : Bytes} (here : s.bytesOf uuid = some data)
    (fits : verifyDigest hash (data ++ finalChunk) expected = true) :
    ∃ repo s', s.completeUpload hash uuid finalChunk expected =
        (.ok (computeDigest hash (data ++ finalChunk), repo), s') ∧ s'.bytesOf uuid = none ∧
      s'.blobs.lookup (computeDigest hash (data ++ finalChunk)) = some (data ++ finalChunk) := by
  obtain ⟨session, look, rfl⟩ := Option.map_eq_some_iff.mp here
  unfold RegistryStorage.completeUpload
  rw [look]
  dsimp only
  rw [fits]
  refine ⟨session.repository, _, rfl, ?_, ?_⟩
  · simp [RegistryStorage.bytesOf, RegistryStorage.storeBlob]
  · simp [RegistryStorage.storeBlob]

lemma completeUpload_of_none (none : s.bytesOf uuid = none) (finalChunk expected : Bytes) :
    s.completeUpload hash uuid finalChunk expected = (.error .sessionNotFound, s) := by
  unfold RegistryStorage.completeUpload
  rw [Option.map_eq_none_iff.mp none]

/-! ## Whole sequences -/

lemma run_concat (calls : List UploadCall) (call : UploadCall) :
    s.run hash uuid repo (calls ++ [call]) = (s.run hash uuid repo calls).after hash uuid call :=
  List.foldl_concat _ _ _ _

/-- Where the attempts that fail have no final chunk, the session has what it should have. -/
lemma bytesOf_run
    (careful : ∀ before finalChunk expected data, before ++ [.complete finalChunk expected] <+: calls →
      content hash before = some data → (s.run hash uuid repo before).bytesOf uuid = some data →
      verifyDigest hash (data ++ finalChunk) expected = false → finalChunk = [])
    {before : List UploadCall} (sub : before <+: calls) :
    (s.run hash uuid repo before).bytesOf uuid = content hash before := by
  induction before using List.reverseRecOn with
  | nil => simp [RegistryStorage.run, RegistryStorage.startUpload, RegistryStorage.bytesOf, content]
  | append_singleton before call ih =>
    have same := ih ((List.prefix_append _ _).trans sub)
    rw [run_concat, content_concat]
    cases call with
    | patch data =>
      rw [RegistryStorage.after, bytesOf_patch, same]
      cases content hash before with
      | none => rfl
      | some c => rfl
    | complete finalChunk expected =>
      rw [RegistryStorage.after]
      cases here : content hash before with
      | none =>
        rw [here] at same
        rw [completeUpload_of_none same]
        exact same
      | some data =>
        rw [here] at same
        rw [Option.bind_some]
        dsimp only
        cases fits : verifyDigest hash (data ++ finalChunk) expected with
        | false =>
          obtain ⟨s', eq, grown⟩ := completeUpload_misfit same fits
          rw [eq, if_neg Bool.false_ne_true, grown, careful before finalChunk expected data sub here same fits,
            List.append_nil]
        | true =>
          obtain ⟨repo, s', eq, gone, -⟩ := completeUpload_fits same fits
          rw [eq, if_pos rfl]
          exact gone

lemma Careful.of_retriable (retriable : Retriable hash s uuid repo calls) :
    Careful hash calls := by
  have empty : ∀ before finalChunk expected data, before ++ [.complete finalChunk expected] <+: calls →
      (s.run hash uuid repo before).bytesOf uuid = some data →
      verifyDigest hash (data ++ finalChunk) expected = false → finalChunk = [] := by
    intro before finalChunk expected data sub same misfit
    obtain ⟨s', eq, grown⟩ := completeUpload_misfit same misfit
    have kept := (retriable before finalChunk expected _ s' sub eq).1 rfl
    rw [grown, same, Option.some_inj] at kept
    exact List.append_right_eq_self.mp kept
  intro before finalChunk expected data sub here
  cases fits : verifyDigest hash (data ++ finalChunk) expected with
  | true => exact .inl rfl
  | false =>
    refine .inr (empty before finalChunk expected data sub ?_ fits)
    rw [← here]
    exact bytesOf_run (fun b f e d sub _ => empty b f e d sub) ((List.prefix_append _ _).trans sub)

/-- Careful calls keep what a session promises. -/
lemma Careful.retriable (careful : Careful hash calls) :
    Retriable hash s uuid repo calls := by
  intro before finalChunk expected r s' sub eq
  have empty : ∀ before finalChunk expected data, before ++ [.complete finalChunk expected] <+: calls →
      content hash before = some data → verifyDigest hash (data ++ finalChunk) expected = false →
      finalChunk = [] := by
    intro before finalChunk expected data sub here misfit
    refine (careful before finalChunk expected data sub here).resolve_left ?_
    rw [misfit]
    exact Bool.false_ne_true
  have same : (s.run hash uuid repo before).bytesOf uuid = content hash before :=
    bytesOf_run (fun b f e d sub here _ => empty b f e d sub here) ((List.prefix_append _ _).trans sub)
  cases here : content hash before with
  | none =>
    rw [here] at same
    rw [completeUpload_of_none same] at eq
    cases eq
    exact ⟨nofun, nofun⟩
  | some data =>
    rw [here] at same
    cases fits : verifyDigest hash (data ++ finalChunk) expected with
    | false =>
      obtain ⟨s'', eq', grown⟩ := completeUpload_misfit same fits
      cases eq'.symm.trans eq
      refine ⟨fun _ => ?_, nofun⟩
      rw [grown, same, empty before finalChunk expected data sub here fits, List.append_nil]
    | true =>
      obtain ⟨repo', s'', eq', -, stored⟩ := completeUpload_fits same fits
      cases eq'.symm.trans eq
      refine ⟨nofun, fun digest repo'' ok => ?_⟩
      cases ok
      rw [← eq_patched_of_content here]
      exact stored

end Uploads

/-- The calls on a session keep their promise exactly if they are careful, whatever the hash. -/
theorem retriable_iff (hash : Bytes → Bytes) (s : RegistryStorage) (uuid repo : Bytes) (calls : List UploadCall) :
    Retriable hash s uuid repo calls ↔ Careful hash calls :=
  ⟨Careful.of_retriable, Careful.retriable⟩

/-- The final chunk of an attempt that fails stays in the session, and the next attempt stores it too. -/
theorem not_retriable :
    ¬ Retriable id {} [117] [114] [.complete [1] [], .complete [2] [1, 2]] := by
  intro retriable
  have stored := (retriable [.complete [1] []] [2] [1, 2] _ _ List.prefix_rfl rfl).2 _ _ rfl
  exact absurd stored (by decide)

end Registry
