import Mathlib.Data.List.AList
import Mathlib.Data.List.Sort

/-!
# Tables

Finite maps with an executable lookup: Mathlib's association lists at a constant value type, with the
bulk operations that programs use on hash maps and ordered maps. A hash map visits its keys in no
particular order, which is an `Order`: any rearrangement of the keys.
-/

/-- A finite map. -/
abbrev Table (α β : Type*) := AList fun _ : α => β

/-- The order in which an iterator visits the elements of a collection. -/
structure Order (α : Type*) where
  visit : List α → List α
  perm : ∀ l, (visit l).Perm l

/-- The order of the representation. -/
def Order.asIs {α : Type*} : Order α := ⟨id, .refl⟩

@[simp] lemma Order.mem_visit {α : Type*} (o : Order α) {l : List α} {a : α} :
    a ∈ o.visit l ↔ a ∈ l :=
  (o.perm l).mem_iff

namespace Table

variable {α β γ : Type*}

/-- Change every value, given its key. -/
def mapWithKey (f : α → β → γ) (t : Table α β) : Table α γ where
  entries := t.entries.map fun e => ⟨e.1, f e.1 e.2⟩
  nodupKeys := by
    have same : (t.entries.map fun e => (⟨e.1, f e.1 e.2⟩ : Sigma fun _ : α => γ)).keys = t.keys := by
      simp [List.keys, AList.keys]
    unfold List.NodupKeys
    rw [same]
    exact t.nodupKeys

variable [DecidableEq α]

/-- Change the value of a key, if it is there. -/
def modify (a : α) (f : β → β) (t : Table α β) : Table α β :=
  match t.lookup a with
  | none => t
  | some b => t.insert a (f b)

/-- Remove all the given keys. -/
def eraseAll (ks : List α) (t : Table α β) : Table α β := ks.foldl (fun t k => t.erase k) t

lemma lookup_insert_eq (t : Table α β) (a a' : α) (b : β) :
    (t.insert a b).lookup a' = if a' = a then some b else t.lookup a' := by
  split
  · subst a'
    exact AList.lookup_insert t
  · rename_i ne
    exact AList.lookup_insert_ne ne

lemma lookup_erase_eq (t : Table α β) (a a' : α) :
    (t.erase a).lookup a' = if a' = a then none else t.lookup a' := by
  split
  · subst a'
    exact AList.lookup_erase a t
  · rename_i ne
    exact AList.lookup_erase_ne ne

lemma lookup_mapWithKey (f : α → β → γ) (t : Table α β) (a : α) :
    (mapWithKey f t).lookup a = (t.lookup a).map (f a) := by
  obtain ⟨es, nd⟩ := t
  induction es with
  | nil => rfl
  | cons e es ih =>
    have ih := ih (List.nodupKeys_cons.mp nd).2
    simp only [mapWithKey, AList.lookup, List.map_cons] at ih ⊢
    by_cases same : e.1 = a
    · subst same
      rw [List.dlookup_cons_eq, List.dlookup_cons_eq]
      rfl
    · rw [List.dlookup_cons_ne _ e (Ne.symm same), ← ih]
      exact List.dlookup_cons_ne _ _ (Ne.symm same)

lemma lookup_modify (t : Table α β) (a a' : α) (f : β → β) :
    (t.modify a f).lookup a' = if a' = a then (t.lookup a').map f else t.lookup a' := by
  unfold modify
  cases h : t.lookup a with
  | none =>
    by_cases here : a' = a
    · subst here
      simp [h]
    · simp [here]
  | some b =>
    by_cases here : a' = a
    · subst here
      simp [h]
    · simp [here]

lemma lookup_eraseAll (t : Table α β) (ks : List α) (a : α) :
    (t.eraseAll ks).lookup a = if a ∈ ks then none else t.lookup a := by
  induction ks generalizing t with
  | nil => simp [eraseAll]
  | cons k ks ih =>
    show (eraseAll ks (t.erase k)).lookup a = _
    rw [ih, lookup_erase_eq]
    by_cases here : a = k
    · simp [here]
    · simp [here]

lemma lookup_foldl_insert (key : β → α) {l : List β} (nodup : (l.map key).Nodup) (t : Table α β) {a : α}
    {b : β} : (l.foldl (fun t b => t.insert (key b) b) t).lookup a = some b ↔
      (b ∈ l ∧ key b = a) ∨ (a ∉ l.map key ∧ t.lookup a = some b) := by
  induction l generalizing t with
  | nil => simp
  | cons c l ih =>
    rw [List.map_cons, List.nodup_cons] at nodup
    rw [List.foldl_cons, ih nodup.2, lookup_insert_eq]
    by_cases here : a = key c
    · subst here
      simp only [nodup.1, not_false_eq_true, if_true, true_and, Option.some.injEq, List.mem_cons,
        List.map_cons, not_true_eq_false, false_and, or_false]
      constructor
      · rintro (⟨mem, eq⟩ | rfl)
        · exact ⟨.inr mem, eq⟩
        · exact ⟨.inl rfl, rfl⟩
      · rintro ⟨rfl | mem, eq⟩
        · exact .inr rfl
        · exact .inl ⟨mem, eq⟩
    · simp only [here, if_false, List.mem_cons, List.map_cons, false_or]
      constructor
      · rintro (⟨mem, eq⟩ | rest)
        · exact .inl ⟨.inr mem, eq⟩
        · exact .inr rest
      · rintro (⟨rfl | mem, eq⟩ | rest)
        · exact absurd eq.symm here
        · exact .inl ⟨mem, eq⟩
        · exact .inr rest

/-- The entries in the order of their keys, as an ordered map iterates. -/
def ascending (t : Table ℕ β) : List (Sigma fun _ : ℕ => β) :=
  t.entries.insertionSort fun a b => a.1 ≤ b.1

lemma mem_ascending {t : Table ℕ β} {e : Sigma fun _ : ℕ => β} : e ∈ ascending t ↔ e ∈ t.entries :=
  (List.perm_insertionSort _ _).mem_iff

lemma pairwise_ascending (t : Table ℕ β) : (ascending t).Pairwise (·.1 < ·.1) := by
  have : Std.Total (α := Sigma fun _ : ℕ => β) (fun a b => a.1 ≤ b.1) := ⟨fun a b => Nat.le_total _ _⟩
  have : IsTrans (Sigma fun _ : ℕ => β) (fun a b => a.1 ≤ b.1) := ⟨fun a b c => Nat.le_trans⟩
  have le : (ascending t).Pairwise (·.1 ≤ ·.1) := List.pairwise_insertionSort _ _
  have ne : (ascending t).Pairwise (·.1 ≠ ·.1) := by
    have perm : ((ascending t).map Sigma.fst).Perm t.keys := (List.perm_insertionSort _ _).map _
    exact List.pairwise_map.mp (perm.nodup_iff.mpr t.keys_nodup)
  exact (le.and ne).imp fun h => Nat.lt_of_le_of_ne h.1 h.2

lemma ascending_insert_last {t : Table ℕ β} {a : ℕ} (b : β) (above : ∀ e ∈ t.entries, e.1 < a) :
    ascending (t.insert a b) = ascending t ++ [⟨a, b⟩] := by
  have fresh : a ∉ t := by
    intro mem
    obtain ⟨e, he, eq⟩ := List.mem_map.mp (AList.mem_keys.mp mem)
    have := above e he
    omega
  have sorted : ∀ l : List (Sigma fun _ : ℕ => β), (∀ e ∈ l, e.1 < a) →
      l.orderedInsert (fun a b => a.1 ≤ b.1) ⟨a, b⟩ = l ++ [⟨a, b⟩] := by
    intro l
    induction l with
    | nil => exact fun _ => rfl
    | cons e l ih =>
      intro below
      have first : ¬ a ≤ e.1 := Nat.not_le.mpr (below e List.mem_cons_self)
      rw [List.orderedInsert_cons, if_neg first, ih fun x hx => below x (List.mem_cons_of_mem _ hx)]
      rfl
  unfold ascending
  rw [AList.entries_insert_of_notMem fresh, List.insertionSort_cons]
  exact sorted _ fun e he => above e (mem_ascending.mp he)

lemma lookup_isSome {t : Table α β} {a : α} : (t.lookup a).isSome ↔ a ∈ t.keys := by
  rw [AList.lookup_isSome, AList.mem_keys]

lemma perm_of_lookup_eq {t t' : Table α β} (h : ∀ a, t.lookup a = t'.lookup a) : t.entries.Perm t'.entries :=
  List.lookup_ext t.nodupKeys t'.nodupKeys fun a _ => by
    rw [← AList.lookup, ← AList.lookup, h a]

lemma mem_entries {t : Table α β} {a : α} {b : β} : ⟨a, b⟩ ∈ t.entries ↔ t.lookup a = some b :=
  AList.mem_lookup_iff.symm

/-- Every value is under the key it has itself. -/
def Filed (key : β → α) (t : Table α β) : Prop := ∀ a b, t.lookup a = some b → key b = a

namespace Filed

variable {key : β → α} {t t' : Table α β}

lemma insert (h : t.Filed key) (b : β) : Filed key (t.insert (key b) b) := by
  intro a b' found
  rw [lookup_insert_eq] at found
  split at found
  · rename_i here
    cases found
    exact here.symm
  · exact h a b' found

lemma foldl_insert (h : t.Filed key) (l : List β) :
    Filed key (l.foldl (fun t b => t.insert (key b) b) t) := by
  induction l generalizing t with
  | nil => exact h
  | cons b l ih => exact ih (h.insert b)

lemma of_le (h : t.Filed key)
    (le : ∀ a b', t'.lookup a = some b' → ∃ b, t.lookup a = some b ∧ key b' = key b) : t'.Filed key := by
  intro a b' found
  obtain ⟨b, before, same⟩ := le a b' found
  rw [same]
  exact h a b before

lemma lookup_rebuild (h : t.Filed key) {l : List β} (perm : l.Perm (t.entries.map Sigma.snd)) (a : α) :
    AList.lookup a (l.foldl (fun t b => t.insert (key b) b) (∅ : Table α β)) = t.lookup a := by
  have keys : (t.entries.map Sigma.snd).map key = t.keys := by
    rw [List.map_map]
    exact List.map_congr_left fun e he => h e.1 e.2 (mem_entries.mp he)
  have nodup : (l.map key).Nodup := by
    rw [(perm.map key).nodup_iff, keys]
    exact t.keys_nodup
  refine Option.ext fun b => ?_
  rw [lookup_foldl_insert key nodup, perm.mem_iff, List.mem_map]
  simp only [AList.lookup_empty, reduceCtorEq, and_false, or_false]
  constructor
  · rintro ⟨⟨⟨a', b'⟩, mem, rfl⟩, rfl⟩
    have found := mem_entries.mp mem
    rwa [h a' b' found]
  · intro found
    exact ⟨⟨⟨a, b⟩, mem_entries.mpr found, rfl⟩, h a b found⟩

end Filed

/-- The entry with the smallest key, the first one of an ordered map. -/
def first (t : Table ℕ β) : Option (ℕ × β) := (ascending t).head?.map fun e => (e.1, e.2)

section First

variable {t : Table ℕ β} {a a' : ℕ} {b b' : β}

lemma lookup_of_first (h : t.first = some (a, b)) : t.lookup a = some b := by
  obtain ⟨e, head, eq⟩ := Option.map_eq_some_iff.mp h
  cases eq
  exact mem_entries.mp (mem_ascending.mp (List.mem_of_head? head))

lemma first_le (h : t.first = some (a, b)) (look : t.lookup a' = some b') : a ≤ a' := by
  obtain ⟨e, head, eq⟩ := Option.map_eq_some_iff.mp h
  cases eq
  have mem := mem_ascending.mpr (mem_entries.mpr look)
  have sorted := pairwise_ascending t
  cases list : ascending t with
  | nil =>
    rw [list] at mem
    cases mem
  | cons e' rest =>
    rw [list] at head mem sorted
    cases head
    cases List.mem_cons.mp mem with
    | inl eq => exact le_of_eq (congrArg Sigma.fst eq).symm
    | inr mem => exact le_of_lt ((List.pairwise_cons.mp sorted).1 _ mem)

lemma exists_first (look : t.lookup a = some b) : ∃ e, t.first = some e := by
  have mem := mem_ascending.mpr (mem_entries.mpr look)
  unfold first
  cases list : ascending t with
  | nil =>
    rw [list] at mem
    cases mem
  | cons e rest => exact ⟨_, rfl⟩

lemma first_eq_some_iff : t.first = some (a, b) ↔
    t.lookup a = some b ∧ ∀ a' b', t.lookup a' = some b' → a ≤ a' := by
  constructor
  · exact fun h => ⟨lookup_of_first h, fun a' b' look => first_le h look⟩
  · rintro ⟨look, least⟩
    obtain ⟨⟨a', b'⟩, h⟩ := exists_first look
    have look' := lookup_of_first h
    have same : a = a' := Nat.le_antisymm (least a' b' look') (first_le h look)
    subst same
    rw [h, Option.some.inj (look.symm.trans look')]

lemma lookup_of_first_none (h : t.first = none) (a : ℕ) : t.lookup a = none := by
  cases look : t.lookup a with
  | none => rfl
  | some b =>
    obtain ⟨e, some⟩ := exists_first look
    rw [h] at some
    cases some

lemma first_insert_of_none (h : t.first = none) : first (t.insert a b) = some (a, b) := by
  refine first_eq_some_iff.mpr ⟨AList.lookup_insert t, fun a' b' look => ?_⟩
  rw [lookup_insert_eq] at look
  split at look
  · rename_i here
    exact le_of_eq here.symm
  · rw [lookup_of_first_none h] at look
    cases look

lemma first_insert_of_lt (h : t.first = some (a, b)) (above : a < a') :
    first (t.insert a' b') = some (a, b) := by
  refine first_eq_some_iff.mpr ⟨?_, fun a'' b'' look => ?_⟩
  · rw [lookup_insert_eq, if_neg (Nat.ne_of_lt above)]
    exact lookup_of_first h
  · rw [lookup_insert_eq] at look
    split at look
    · rename_i here
      exact here ▸ le_of_lt above
    · exact first_le h look

lemma first_eraseAll (h : t.first = some (a, b)) {ks : List ℕ} (other : a ∉ ks) :
    first (t.eraseAll ks) = some (a, b) := by
  refine first_eq_some_iff.mpr ⟨?_, fun a' b' look => ?_⟩
  · rw [lookup_eraseAll, if_neg other]
    exact lookup_of_first h
  · rw [lookup_eraseAll] at look
    split at look
    · cases look
    · exact first_le h look

end First

end Table
