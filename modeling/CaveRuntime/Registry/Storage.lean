import CaveRuntime.Common.Table
import CaveRuntime.Common.Text
import Mathlib.Algebra.Ring.Int.Defs
import Mathlib.Data.Finset.Basic

/-!
# The registry: the index of manifests

Model of `ManifestIndex` of `cave-artifacts/src/harbor/storage.rs`. The text of a SHA-256 in hexadecimal is the
parameter `hash`.
-/

namespace Registry
open Text Utf8

/-! ## Digests -/

section Digest

variable (hash : Bytes → Bytes)

def computeDigest (data : Bytes) : Bytes := word "sha256:" ++ hash data

end Digest

/-- `reference.starts_with("sha256:")`. -/
def isDigest (reference : Bytes) : Bool := (word "sha256:").isPrefixOf reference

/-! ## The index of manifests -/

/-- What a client stores under a reference. -/
structure Manifest where
  contentType : Bytes
  data : Bytes
  subjectDigest : Option Bytes
  artifactType : Option Bytes
  deriving DecidableEq

structure ManifestEntry extends Manifest where
  digest : Bytes
  createdAt : ℤ

/-- `ManifestIndex`: a manifest by repository and digest, a digest by repository and tag. -/
structure ManifestIndex where
  byDigest : Table (Bytes × Bytes) ManifestEntry := ∅
  byTag : Table (Bytes × Bytes) Bytes := ∅
  referrers : Table Bytes (List Bytes) := ∅
  repos : Finset Bytes := ∅

namespace ManifestIndex

variable (hash : Bytes → Bytes) (idx : ManifestIndex) (repo reference : Bytes)

def getManifest : Option ManifestEntry :=
  if isDigest reference then idx.byDigest.lookup (repo, reference)
  else (idx.byTag.lookup (repo, reference)).bind fun digest => idx.byDigest.lookup (repo, digest)

/-- `store_manifest`, at a reading of the clock. -/
def storeManifest (m : Manifest) (now : ℤ) : ManifestIndex :=
  let digest := computeDigest hash m.data
  { repos := insert repo idx.repos
    byDigest := idx.byDigest.insert (repo, digest) { m with digest, createdAt := now }
    byTag := if isDigest reference then idx.byTag else idx.byTag.insert (repo, reference) digest
    referrers :=
      match m.subjectDigest with
      | none => idx.referrers
      | some subj => idx.referrers.insert subj ((idx.referrers.lookup subj).getD [] ++ [digest]) }

/-- Take a manifest out, and the repository with the last one. -/
def removeDigest (digest : Bytes) : ManifestIndex :=
  let byDigest := idx.byDigest.erase (repo, digest)
  { idx with
    byDigest
    repos := if byDigest.keys.any (·.1 == repo) then idx.repos else idx.repos.erase repo }

def deleteManifest : Bool × ManifestIndex :=
  if isDigest reference then
    ((idx.byDigest.lookup (repo, reference)).isSome, idx.removeDigest repo reference)
  else
    match idx.byTag.lookup (repo, reference) with
    | none => (false, idx)
    | some digest =>
      ((idx.byDigest.lookup (repo, digest)).isSome,
        { idx with byTag := idx.byTag.erase (repo, reference) }.removeDigest repo digest)

def listTags : List Bytes :=
  ((idx.byTag.keys.filter fun k => k.1 == repo).map Prod.snd).insertionSort (· ≤ ·)

section After

variable {hash idx repo reference} {m : Manifest} {now : ℤ} {digest : Bytes}

lemma lookup_byDigest_store (r d : Bytes) :
    (idx.storeManifest hash repo reference m now).byDigest.lookup (r, d) =
      if (r, d) = (repo, computeDigest hash m.data) then
        some { m with digest := computeDigest hash m.data, createdAt := now }
      else idx.byDigest.lookup (r, d) :=
  Table.lookup_insert_eq _ _ _ _

lemma lookup_byTag_store (r t : Bytes) :
    (idx.storeManifest hash repo reference m now).byTag.lookup (r, t) =
      if isDigest reference = false ∧ (r, t) = (repo, reference) then some (computeDigest hash m.data)
      else idx.byTag.lookup (r, t) := by
  unfold storeManifest
  cases isDigest reference with
  | true => simp
  | false => simp [Table.lookup_insert_eq]

lemma lookup_byDigest_remove (r d : Bytes) : (idx.removeDigest repo digest).byDigest.lookup (r, d) =
    if (r, d) = (repo, digest) then none else idx.byDigest.lookup (r, d) :=
  Table.lookup_erase_eq _ _ _

/-- How a deletion ends: a digest is taken out, by itself or with a tag that has it. -/
inductive Deleted (idx : ManifestIndex) (repo reference : Bytes) : ManifestIndex → Prop
  | byDigest : isDigest reference = true → Deleted idx repo reference (idx.removeDigest repo reference)
  | nothing : isDigest reference = false → idx.byTag.lookup (repo, reference) = none →
      Deleted idx repo reference idx
  | byTag {digest : Bytes} : isDigest reference = false → idx.byTag.lookup (repo, reference) = some digest →
      Deleted idx repo reference
        ({ idx with byTag := idx.byTag.erase (repo, reference) }.removeDigest repo digest)

lemma deleted (idx : ManifestIndex) (repo reference : Bytes) :
    idx.Deleted repo reference (idx.deleteManifest repo reference).2 := by
  unfold deleteManifest
  cases kind : isDigest reference with
  | true => exact .byDigest kind
  | false =>
    cases found : idx.byTag.lookup (repo, reference) with
    | none => exact .nothing kind found
    | some digest => exact .byTag kind found

end After

end ManifestIndex

end Registry
