import CaveRuntime.Common.Run
import CaveRuntime.Registry.Storage

/-!
# The registry: what tags resolve to

A tag has a digest and the digest has a manifest, and several tags of a repository can have one digest. Three
calls do not look at the other tags. Deleting by a tag takes the manifest out from under all tags that share
its digest, deleting by a digest leaves the tags that have it, and storing the same bytes with another content
type, subject or artifact type changes what every tag of the digest resolves to. Each state of a sequence of
calls resolves all its tags to what was last stored under them exactly if no call of the sequence does this.
-/

namespace Registry
open Run Text Utf8

/-- The calls that change the index of manifests. -/
inductive ManifestCall where
  | store (repo reference : Bytes) (m : Manifest) (now : ℤ)
  | delete (repo reference : Bytes)

/-- The index, with what was last stored under each tag. -/
structure Tags where
  index : ManifestIndex := {}
  stored : Table (Bytes × Bytes) Manifest := ∅

/-! ## Tags in the index -/

namespace ManifestIndex

variable {idx : ManifestIndex} {repo tag digest : Bytes}

/-- The tags of a repository that have a digest. -/
def tagsOf (idx : ManifestIndex) (repo digest : Bytes) : List Bytes :=
  (idx.byTag.entries.filter fun e => e.1.1 == repo && e.2 == digest).map fun e => e.1.2

lemma mem_tagsOf : tag ∈ idx.tagsOf repo digest ↔ idx.byTag.lookup (repo, tag) = some digest := by
  rw [tagsOf, ← Table.mem_entries, List.mem_map]
  constructor
  · rintro ⟨⟨⟨r, t⟩, d⟩, mem, rfl⟩
    rw [List.mem_filter, Bool.and_eq_true, beq_iff_eq, beq_iff_eq] at mem
    obtain ⟨mem, rfl, rfl⟩ := mem
    exact mem
  · intro mem
    exact ⟨⟨(repo, tag), digest⟩, List.mem_filter.mpr ⟨mem, by simp⟩, rfl⟩

lemma mem_listTags : tag ∈ idx.listTags repo ↔ ∃ digest, idx.byTag.lookup (repo, tag) = some digest := by
  rw [listTags, List.mem_insertionSort, List.mem_map, ← Option.isSome_iff_exists, Table.lookup_isSome]
  constructor
  · rintro ⟨⟨r, t⟩, mem, rfl⟩
    rw [List.mem_filter, beq_iff_eq] at mem
    obtain ⟨mem, rfl⟩ := mem
    exact mem
  · intro mem
    exact ⟨(repo, tag), List.mem_filter.mpr ⟨mem, by simp⟩, rfl⟩

lemma getManifest_of_tag (isTag : isDigest tag = false) : idx.getManifest repo tag =
    (idx.byTag.lookup (repo, tag)).bind fun digest => idx.byDigest.lookup (repo, digest) := by
  rw [getManifest, isTag]
  rfl

end ManifestIndex

namespace Tags

variable {hash : Bytes → Bytes} {s : Tags}

/-- The state after a call. -/
def next (hash : Bytes → Bytes) (s : Tags) : ManifestCall → Tags
  | .store repo reference m now =>
    { index := s.index.storeManifest hash repo reference m now
      stored := if isDigest reference then s.stored else s.stored.insert (repo, reference) m }
  | .delete repo reference => { s with index := (s.index.deleteManifest repo reference).2 }

def step (hash : Bytes → Bytes) (s : Tags) (c : ManifestCall) : Option Tags := some (s.next hash c)

/-- Every tag that is listed resolves to what was last stored under it. -/
def Resolves (s : Tags) : Prop :=
  ∀ repo, ∀ tag ∈ s.index.listTags repo, ∃ entry, s.index.getManifest repo tag = some entry ∧
    s.stored.lookup (repo, tag) = some entry.toManifest

/-- Deleting by a tag leaves what the other tags of the repository resolve to. -/
def Independent (s : Tags) : ManifestCall → Prop
  | .store .. => True
  | .delete repo tag => isDigest tag = false → ∀ other, other ≠ tag → isDigest other = false →
      (s.index.deleteManifest repo tag).2.getManifest repo other = s.index.getManifest repo other

/-- A call that does nothing to other tags: what is stored is what other tags of the digest have, and what is
deleted no other tag has. -/
def Careful (hash : Bytes → Bytes) (s : Tags) : ManifestCall → Prop
  | .store repo reference m _ => ∀ tag ∈ s.index.tagsOf repo (computeDigest hash m.data), tag ≠ reference →
      (s.index.byDigest.lookup (repo, computeDigest hash m.data)).map ManifestEntry.toManifest = some m
  | .delete repo reference =>
    if isDigest reference then s.index.tagsOf repo reference = []
    else ∀ digest ∈ s.index.byTag.lookup (repo, reference), ∀ tag ∈ s.index.tagsOf repo digest, tag = reference

/-! ## The invariant -/

/-- Nothing that reads like a digest is a tag. -/
def Plain (s : Tags) : Prop :=
  ∀ {repo tag digest}, s.index.byTag.lookup (repo, tag) = some digest → isDigest tag = false

lemma resolves_iff (plain : s.Plain) : s.Resolves ↔ ∀ repo tag digest,
    s.index.byTag.lookup (repo, tag) = some digest → ∃ entry, s.index.byDigest.lookup (repo, digest) = some entry ∧
      s.stored.lookup (repo, tag) = some entry.toManifest := by
  constructor
  · intro res repo tag digest has
    obtain ⟨entry, found, last⟩ := res repo tag (ManifestIndex.mem_listTags.mpr ⟨digest, has⟩)
    rw [ManifestIndex.getManifest_of_tag (plain has), has] at found
    exact ⟨entry, found, last⟩
  · intro res repo tag mem
    obtain ⟨digest, has⟩ := ManifestIndex.mem_listTags.mp mem
    obtain ⟨entry, found, last⟩ := res repo tag digest has
    refine ⟨entry, ?_, last⟩
    rw [ManifestIndex.getManifest_of_tag (plain has), has]
    exact found

lemma plain_next (plain : s.Plain) (c : ManifestCall) : (s.next hash c).Plain := by
  intro repo tag digest has
  cases c with
  | store r reference m now =>
    change (s.index.storeManifest hash r reference m now).byTag.lookup (repo, tag) = some digest at has
    rw [ManifestIndex.lookup_byTag_store] at has
    split at has
    · rename_i here
      cases here.2
      exact here.1
    · exact plain has
  | delete r reference =>
    change (s.index.deleteManifest r reference).2.byTag.lookup (repo, tag) = some digest at has
    have del := s.index.deleted r reference
    generalize (s.index.deleteManifest r reference).2 = idx at del has
    cases del with
    | byDigest => exact plain has
    | nothing => exact plain has
    | byTag =>
      change (s.index.byTag.erase (r, reference)).lookup (repo, tag) = some digest at has
      rw [Table.lookup_erase_eq] at has
      split at has
      · cases has
      · exact plain has

section Store

variable {repo reference : Bytes} {m : Manifest} {now : ℤ} (r t : Bytes)

lemma byTag_store : (s.next hash (.store repo reference m now)).index.byTag.lookup (r, t) =
    if isDigest reference = false ∧ (r, t) = (repo, reference) then some (computeDigest hash m.data)
    else s.index.byTag.lookup (r, t) :=
  ManifestIndex.lookup_byTag_store r t

lemma byDigest_store : (s.next hash (.store repo reference m now)).index.byDigest.lookup (r, t) =
    if (r, t) = (repo, computeDigest hash m.data) then
      some { m with digest := computeDigest hash m.data, createdAt := now }
    else s.index.byDigest.lookup (r, t) :=
  ManifestIndex.lookup_byDigest_store r t

lemma stored_store : (s.next hash (.store repo reference m now)).stored.lookup (r, t) =
    if isDigest reference = false ∧ (r, t) = (repo, reference) then some m else s.stored.lookup (r, t) := by
  change (if isDigest reference then s.stored else s.stored.insert (repo, reference) m).lookup (r, t) = _
  cases isDigest reference with
  | true => simp
  | false => simp [Table.lookup_insert_eq]

end Store

/-- A push keeps all tags resolvable exactly if it is careful. -/
lemma resolves_store_iff (plain : s.Plain) (res : s.Resolves) (repo reference : Bytes) (m : Manifest) (now : ℤ) :
    (s.next hash (.store repo reference m now)).Resolves ↔ s.Careful hash (.store repo reference m now) := by
  rw [resolves_iff (plain_next plain _)]
  rw [resolves_iff plain] at res
  constructor
  · intro after tag shares ne
    have has := ManifestIndex.mem_tagsOf.mp shares
    have other : ¬ (isDigest reference = false ∧ (repo, tag) = (repo, reference)) :=
      fun same => ne (congrArg Prod.snd same.2)
    obtain ⟨entry, found, last⟩ := res repo tag _ has
    obtain ⟨entry', found', last'⟩ := after repo tag (computeDigest hash m.data) (by rwa [byTag_store, if_neg other])
    rw [byDigest_store, if_pos rfl] at found'
    cases found'
    rw [stored_store, if_neg other, last] at last'
    rw [found]
    exact last'
  · intro careful r tag digest has
    rw [byTag_store] at has
    rw [byDigest_store, stored_store]
    split at has
    · rename_i here
      cases has
      cases here.2
      exact ⟨_, if_pos rfl, if_pos here⟩
    · rename_i other
      rw [if_neg other]
      obtain ⟨entry, found, last⟩ := res r tag digest has
      by_cases here : (r, digest) = (repo, computeDigest hash m.data)
      · -- a tag that already has the digest: the new entry differs from the old one in its time only
        cases here
        refine ⟨_, if_pos rfl, ?_⟩
        by_cases same : tag = reference
        · subst same
          exact absurd ⟨plain has, rfl⟩ other
        · have unchanged := careful tag (ManifestIndex.mem_tagsOf.mpr has) same
          rw [found] at unchanged
          rw [last]
          exact unchanged
      · exact ⟨entry, by rw [if_neg here]; exact found, last⟩

/-- Taking out a digest leaves everything resolved exactly if no tag has it. -/
lemma resolves_remove_iff (plain : s.Plain) (res : s.Resolves) (repo digest : Bytes) :
    Resolves { s with index := s.index.removeDigest repo digest } ↔ s.index.tagsOf repo digest = [] := by
  have plain' : Plain { s with index := s.index.removeDigest repo digest } := plain
  rw [resolves_iff plain', List.eq_nil_iff_forall_not_mem]
  rw [resolves_iff plain] at res
  constructor
  · intro after tag mem
    obtain ⟨entry, found, -⟩ := after repo tag digest (ManifestIndex.mem_tagsOf.mp mem)
    rw [ManifestIndex.lookup_byDigest_remove, if_pos rfl] at found
    cases found
  · intro alone r tag d has
    obtain ⟨entry, found, last⟩ := res r tag d has
    refine ⟨entry, ?_, last⟩
    rw [ManifestIndex.lookup_byDigest_remove, if_neg]
    · exact found
    · rintro ⟨⟩
      exact alone tag (ManifestIndex.mem_tagsOf.mpr has)

lemma resolves_erase (plain : s.Plain) (res : s.Resolves) (repo reference : Bytes) :
    Plain { s with index := { s.index with byTag := s.index.byTag.erase (repo, reference) } } ∧
      Resolves { s with index := { s.index with byTag := s.index.byTag.erase (repo, reference) } } := by
  have before : ∀ {r tag digest}, (s.index.byTag.erase (repo, reference)).lookup (r, tag) = some digest →
      s.index.byTag.lookup (r, tag) = some digest := by
    intro r tag digest has
    rw [Table.lookup_erase_eq] at has
    split at has
    · cases has
    · exact has
  have plain' : Plain { s with index := { s.index with byTag := s.index.byTag.erase (repo, reference) } } :=
    fun has => plain (before has)
  refine ⟨plain', (resolves_iff plain').mpr fun r tag digest has => ?_⟩
  exact (resolves_iff plain).mp res r tag digest (before has)

lemma tagsOf_erase_eq_nil (repo reference digest : Bytes) :
    ManifestIndex.tagsOf { s.index with byTag := s.index.byTag.erase (repo, reference) } repo digest = [] ↔
      ∀ tag ∈ s.index.tagsOf repo digest, tag = reference := by
  rw [List.eq_nil_iff_forall_not_mem]
  refine forall_congr' fun tag => ?_
  rw [ManifestIndex.mem_tagsOf, ManifestIndex.mem_tagsOf, Table.lookup_erase_eq]
  by_cases here : tag = reference
  · simp [here]
  · simp [here]

/-- A deletion leaves everything resolved exactly if no other tag has what is deleted. -/
lemma resolves_delete_iff (plain : s.Plain) (res : s.Resolves) (repo reference : Bytes) :
    (s.next hash (.delete repo reference)).Resolves ↔ s.Careful hash (.delete repo reference) := by
  change Resolves { s with index := (s.index.deleteManifest repo reference).2 } ↔
    if isDigest reference then _ else _
  have del := s.index.deleted repo reference
  generalize (s.index.deleteManifest repo reference).2 = idx at del
  cases del with
  | byDigest kind =>
    rw [if_pos kind]
    exact resolves_remove_iff plain res repo reference
  | nothing kind absent =>
    rw [if_neg (by simp [kind]), absent]
    exact ⟨fun _ digest has => (Option.not_mem_none digest has).elim, fun _ => res⟩
  | @byTag digest kind has =>
    obtain ⟨plain', res'⟩ := resolves_erase plain res repo reference
    rw [if_neg (by simp [kind]), has]
    refine (resolves_remove_iff plain' res' repo digest).trans ((tagsOf_erase_eq_nil repo reference digest).trans ?_)
    simp only [Option.mem_some_iff, forall_eq']

lemma independent_of_careful {c : ManifestCall} (careful : s.Careful hash c) : s.Independent c := by
  cases c with
  | store => trivial
  | delete repo tag =>
    intro kind other ne otherTag
    change if isDigest tag then _ else _ at careful
    rw [if_neg (by simp [kind])] at careful
    rw [ManifestIndex.getManifest_of_tag otherTag, ManifestIndex.getManifest_of_tag otherTag]
    have del := s.index.deleted repo tag
    generalize (s.index.deleteManifest repo tag).2 = idx at del
    cases del with
    | byDigest kind' => exact absurd kind' (by simp [kind])
    | nothing => rfl
    | @byTag digest _ has =>
      change ((s.index.byTag.erase (repo, tag)).lookup (repo, other)).bind _ = _
      rw [AList.lookup_erase_ne fun same => ne (congrArg Prod.snd same)]
      cases otherHas : s.index.byTag.lookup (repo, other) with
      | none => rfl
      | some d =>
        change (ManifestIndex.removeDigest _ repo digest).byDigest.lookup (repo, d) = s.index.byDigest.lookup (repo, d)
        rw [ManifestIndex.lookup_byDigest_remove, if_neg]
        rintro ⟨⟩
        exact ne (careful digest has other (ManifestIndex.mem_tagsOf.mpr otherHas))

/-- What is asked of a call: the tags resolve after it, and it leaves other tags alone. -/
def Kept (hash : Bytes → Bytes) (s : Tags) (c : ManifestCall) : Prop :=
  (s.next hash c).Resolves ∧ s.Independent c

lemma kept_iff_careful (plain : s.Plain) (res : s.Resolves) (c : ManifestCall) :
    s.Kept hash c ↔ s.Careful hash c := by
  have resolved : (s.next hash c).Resolves ↔ s.Careful hash c := by
    cases c with
    | store repo reference m now => exact resolves_store_iff plain res repo reference m now
    | delete repo reference => exact resolves_delete_iff plain res repo reference
  exact ⟨fun kept => resolved.mp kept.1, fun careful => ⟨resolved.mpr careful, independent_of_careful careful⟩⟩

/-- In a sequence of calls on an empty registry, every tag resolves to what was last stored under it in every
state, and deletions by tag leave the other tags alone, exactly if every call is careful. -/
theorem tags_kept_iff (hash : Bytes → Bytes) (calls : List ManifestCall) :
    Guarded (step hash) (Kept hash) {} calls ↔ Guarded (step hash) (Careful hash) {} calls := by
  refine guarded_iff (P := fun s => s.Plain ∧ s.Resolves) (fun ⟨plain, res⟩ => kept_iff_careful plain res _) ?_
    ⟨?_, ?_⟩
  · rintro s c s' ⟨plain, -⟩ kept st
    cases st
    exact ⟨plain_next plain c, kept.1⟩
  · intro repo tag digest has
    cases has
  · intro repo tag mem
    cases mem

/-- One manifest under two tags: deleting by the first tag leaves the second without a manifest, deleting by the
digest leaves both, and storing the bytes under a second tag with another content type changes the first. -/
theorem tags_broken :
    let repo := word "app"
    let m : Manifest := ⟨word "application/json", word "m", none, none⟩
    let two (c : ManifestCall) : List ManifestCall :=
      [.store repo (word "latest") m 0, .store repo (word "v1") m 1, c]
    let last : Bytes → Option Tags → Option (List Bytes × Option Manifest × Option Manifest) := fun tag s =>
      s.map fun s => (s.index.listTags repo, (s.index.getManifest repo tag).map ManifestEntry.toManifest,
        s.stored.lookup (repo, tag))
    last (word "v1") (run (step id) {} (two (.delete repo (word "latest")))) =
        some ([word "v1"], none, some m) ∧
      last (word "v1") (run (step id) {} (two (.delete repo (word "sha256:m")))) =
        some ([word "latest", word "v1"], none, some m) ∧
      last (word "latest") (run (step id) {} (two (.store repo (word "v2") { m with contentType := word "text" } 2))) =
        some ([word "latest", word "v1", word "v2"], some { m with contentType := word "text" }, some m) := by
  decide

end Tags

end Registry
