import CaveRuntime.Cache.Types
import Mathlib.Logic.Function.Iterate

/-!
# Positions in lists

Model of `LRANGE`, `LINDEX`, `LSET`, `LREM` and `LTRIM` of `cave-cache/src/commands/lists.rs` and of
`normalize_index` of `types.rs`. The commands are compared with what they do on a list by positions (`between`)
and by occurrences (`without`). `normalize_index` takes a position before the head for the head.
-/

namespace Cache
open MachineInt Text Utf8

/-! ## The commands -/

def normalizeIndex (idx : ℤ) (len : ℕ) : ℕ :=
  if idx < 0 then (if (len : ℤ) + idx < 0 then 0 else ((len : ℤ) + idx).toNat) else idx.toNat

variable (clock : Clock)

/-- The list of a key is looked up and given to the rest of a command. -/
def onList (key : Bytes) (absent : Except Failure Resp) (f : List Bytes → Db → Outcome)
    (db : Db) :
    Outcome :=
  match db.getTyped (clock.instant 0) key .list with
  | (.error e, db) => (.error e, db)
  | (.ok none, db) => (absent, db)
  | (.ok (some e), db) =>
    match e.value with
    | .list l => f l db
    -- `unreachable!`
    | _ => (.error .panic, db)

/-- The list is changed in place, and its key removed if nothing is left. -/
def putBack (key : Bytes) (l : List Bytes) (db : Db) : Db :=
  if l = [] then (db.remove key).2 else db.write key (.list l)

def lrange (start stop : ℤ) (l : List Bytes) : List Bytes :=
  let start := normalizeIndex start l.length
  let stop := normalizeIndex stop l.length
  if stop < start ∨ l.length ≤ start then []
  else
    let stop := min stop (l.length - 1)
    (l.drop start).take (stop - start + 1)

def cmdLrange (args : List Bytes) (db : Db) : Outcome :=
  match args with
  | [_, key, a, b] =>
    match bytesToI64 a, bytesToI64 b with
    | some start, some stop =>
      onList clock key (.ok (.array (some []))) (fun l db =>
        (.ok (.array (some ((lrange start stop l).map Resp.bulk))), db)) db
    | _, _ => (.error (.error .notInteger), db)
  | _ => (.error (.error (.wrongArity "lrange")), db)

def cmdLindex (args : List Bytes) (db : Db) : Outcome :=
  match args with
  | [_, key, a] =>
    match bytesToI64 a with
    | some index =>
      onList clock key (.ok .nil) (fun l db =>
        (.ok (.bulkString l[normalizeIndex index l.length]?), db)) db
    | none => (.error (.error .notInteger), db)
  | _ => (.error (.error (.wrongArity "lindex")), db)

def cmdLset (args : List Bytes) (db : Db) : Outcome :=
  match args with
  | [_, key, a, value] =>
    match bytesToI64 a with
    | some index =>
      onList clock key (.error (.error (.generic "ERR no such key"))) (fun l db =>
        let idx := normalizeIndex index l.length
        if l.length ≤ idx then (.error (.error .outOfRange), db)
        else (.ok .ok, db.write key (.list (l.set idx value)))) db
    | none => (.error (.error .notInteger), db)
  | _ => (.error (.error (.wrongArity "lset")), db)

/-- The first loop of `LREM`: the index stands before the rest of the list. -/
def removeFirst (element : Bytes) (count : ℤ) : ℤ → List Bytes → List Bytes × ℤ
  | removed, [] => ([], removed)
  | removed, x :: rest =>
    if removed < count then
      if x = element then removeFirst element count (removed + 1) rest
      else (x :: (removeFirst element count removed rest).1, (removeFirst element count removed rest).2)
    else (x :: rest, removed)

/-- The list that is left and the number that is returned; the second loop goes from the tail to the head. -/
def lrem (checks : Bool) (element : Bytes) (count : ℤ) (l : List Bytes) : Option (List Bytes × ℤ) :=
  if 0 < count then some (removeFirst element count 0 l)
  else if count < 0 then
    (fit checks i64Max (-count)).map fun negated =>
      let r := removeFirst element (asU64 negated) 0 l.reverse
      (r.1.reverse, r.2)
  else some (l.filter (· ≠ element), 0)

def cmdLrem (checks : Bool) (clock : Clock) (args : List Bytes) (db : Db) : Outcome :=
  match args with
  | [_, key, a, element] =>
    match bytesToI64 a with
    | some count =>
      onList clock key (.ok (.integer 0)) (fun l db =>
        match lrem checks element count l with
        | none => (.error .panic, db)
        | some (rest, removed) => (.ok (.integer removed), putBack key rest db)) db
    | none => (.error (.error .notInteger), db)
  | _ => (.error (.error (.wrongArity "lrem")), db)

def ltrim (start stop : ℤ) (l : List Bytes) : List Bytes :=
  let start := normalizeIndex start l.length
  let stop := min (normalizeIndex stop l.length) (l.length - 1)
  if stop < start ∨ l.length ≤ start then [] else (l.drop start).take (stop - start + 1)

def cmdLtrim (args : List Bytes) (db : Db) : Outcome :=
  match args with
  | [_, key, a, b] =>
    match bytesToI64 a, bytesToI64 b with
    | some start, some stop =>
      onList clock key (.ok .ok) (fun l db => (.ok .ok, putBack key (ltrim start stop l) db)) db
    | _, _ => (.error (.error .notInteger), db)
  | _ => (.error (.error (.wrongArity "ltrim")), db)

/-! ## By positions -/

/-- A negative position counts from the end. -/
def position (len : ℕ) (i : ℤ) : ℤ := if i < 0 then len + i else i

/-- The elements whose positions lie between two others. -/
def between (start stop : ℤ) (l : List Bytes) : List Bytes :=
  (l.zipIdx.filter fun p => position l.length start ≤ p.2 ∧ (p.2 : ℤ) ≤ position l.length stop).map (·.1)

section
variable {l : List Bytes} {start stop index : ℤ}

lemma filter_zipIdx (l : List Bytes) (k : ℕ) (a b : ℤ) :
    ((l.zipIdx k).filter fun p => a ≤ p.2 ∧ (p.2 : ℤ) ≤ b).map (·.1) =
      (l.take (b + 1 - k).toNat).drop (a - k).toNat := by
  induction l generalizing k with
  | nil => simp
  | cons x l ih =>
    rw [List.zipIdx_cons, List.filter_cons]
    have later := ih (k + 1)
    by_cases above : (k : ℤ) ≤ b
    · obtain ⟨n, room⟩ : ∃ n, (b + 1 - k).toNat = n + 1 := ⟨(b - k).toNat, by omega⟩
      have room' : (b + 1 - (k + 1 : ℕ)).toNat = n := by omega
      rw [room, List.take_succ_cons]
      rw [room'] at later
      by_cases below : a ≤ k
      · have none : (a - k).toNat = 0 := by omega
        have none' : (a - (k + 1 : ℕ)).toNat = 0 := by omega
        rw [if_pos (by simp [above, below]), List.map_cons, later, none, none']
        rfl
      · obtain ⟨m, skip⟩ : ∃ m, (a - k).toNat = m + 1 := ⟨(a - k - 1).toNat, by omega⟩
        have skip' : (a - (k + 1 : ℕ)).toNat = m := by omega
        rw [if_neg (by simp [below]), later, skip, skip', List.drop_succ_cons]
    · have none : (b + 1 - k).toNat = 0 := by omega
      have none' : (b + 1 - (k + 1 : ℕ)).toNat = 0 := by omega
      rw [if_neg (by simp [above]), later, none, none']
      simp

lemma between_eq (start stop : ℤ) (l : List Bytes) :
    between start stop l =
      (l.take (position l.length stop + 1).toNat).drop (position l.length start).toNat := by
  have := filter_zipIdx l 0 (position l.length start) (position l.length stop)
  simpa [between] using this

lemma lrange_eq (start stop : ℤ) (l : List Bytes) :
    lrange start stop l = (l.take (normalizeIndex stop l.length + 1)).drop (normalizeIndex start l.length) := by
  unfold lrange
  dsimp only
  split
  · rename_i out
    rw [List.drop_eq_nil_of_le]
    rw [List.length_take]
    omega
  · rename_i inside
    rw [List.drop_take]
    -- an end behind the list is cut to it on one side and has no effect on the other
    by_cases within : normalizeIndex stop l.length ≤ l.length - 1
    · rw [Nat.min_eq_left within]
      congr 1
      omega
    · rw [Nat.min_eq_right (by omega), List.take_of_length_le (by rw [List.length_drop]; omega),
        List.take_of_length_le (by rw [List.length_drop]; omega)]

lemma ltrim_eq_lrange (start stop : ℤ) (l : List Bytes) : ltrim start stop l = lrange start stop l := by
  unfold ltrim lrange
  dsimp only
  by_cases out : normalizeIndex stop l.length < normalizeIndex start l.length ∨
      l.length ≤ normalizeIndex start l.length
  · rw [if_pos out, if_pos (by omega)]
  · rw [if_neg out, if_neg (by omega)]

lemma lrange_eq_between_iff (start stop : ℤ) (l : List Bytes) :
    lrange start stop l = between start stop l ↔
      l = [] ∨ -(l.length : ℤ) ≤ stop ∨ 0 < position l.length start := by
  have first : normalizeIndex start l.length = (position l.length start).toNat := by
    unfold normalizeIndex position
    split_ifs <;> omega
  rw [lrange_eq, between_eq, first]
  by_cases inside : -(l.length : ℤ) ≤ stop
  · have last : normalizeIndex stop l.length + 1 = (position l.length stop + 1).toNat := by
      unfold normalizeIndex position
      split_ifs <;> omega
    rw [last]
    exact iff_of_true rfl (.inr (.inl inside))
  · have last : normalizeIndex stop l.length = 0 := by
      unfold normalizeIndex
      split_ifs <;> omega
    have none : (position l.length stop + 1).toNat = 0 := by
      unfold position
      split_ifs <;> omega
    rw [last, none, List.take_zero, List.drop_nil, List.drop_eq_nil_iff, List.length_take]
    constructor
    · intro short
      by_cases empty : l = []
      · exact .inl empty
      · have := List.length_pos_of_ne_nil empty
        exact .inr (.inr (by omega))
    · rintro (rfl | low | pos)
      · exact Nat.zero_le _
      · exact absurd low inside
      · omega

lemma normalizeIndex_lt_iff (outside : position l.length index < 0 ∨ (l.length : ℤ) ≤ position l.length index) :
    l.length ≤ normalizeIndex index l.length ↔ l = [] ∨ -(l.length : ℤ) ≤ index := by
  unfold position at outside
  unfold normalizeIndex
  rw [← List.length_eq_zero_iff]
  split_ifs at outside ⊢ <;> omega

end

/-! ## By occurrences -/

/-- How many elements are to be removed. -/
def occurrences (element : Bytes) (count : ℤ) (l : List Bytes) : ℕ :=
  if count = 0 then l.count element else min count.natAbs (l.count element)

/-- The list without its first occurrences, or its last ones if the count is negative. -/
def without (element : Bytes) (count : ℤ) (l : List Bytes) : List Bytes :=
  if count < 0 then ((·.erase element)^[occurrences element count l] l.reverse).reverse
  else (·.erase element)^[occurrences element count l] l

section
variable {checks : Bool} {element : Bytes} {count : ℤ} {l : List Bytes}

lemma iterate_erase_cons {x : Bytes} (ne : x ≠ element) {n : ℕ} :
    (·.erase element)^[n] (x :: l) = x :: (·.erase element)^[n] l := by
  induction n generalizing l with
  | zero => rfl
  | succ n ih =>
    rw [Function.iterate_succ_apply, Function.iterate_succ_apply, List.erase_cons_tail (by simpa using ne), ih]

/-- The loop removes the first occurrences until there are enough or no more. -/
lemma removeFirst_eq (element : Bytes) (count removed : ℤ) (l : List Bytes) :
    removeFirst element count removed l =
      ((·.erase element)^[min (count - removed).toNat (l.count element)] l,
        removed + (min (count - removed).toNat (l.count element) : ℕ)) := by
  fun_induction removeFirst element count removed l with
  | case1 removed => simp
  | case2 removed rest less ih =>
    have room : (count - removed).toNat = (count - (removed + 1)).toNat + 1 := by omega
    rw [ih, List.count_cons_self, room, Nat.add_min_add_right, Function.iterate_succ_apply, List.erase_cons_head]
    congr 1
    omega
  | case3 removed x rest less ne ih =>
    rw [ih, List.count_cons_of_ne ne, iterate_erase_cons ne]
  | case4 removed x rest enough =>
    have none : (count - removed).toNat = 0 := by omega
    rw [none, Nat.zero_min]
    simp

lemma iterate_erase_count (element : Bytes) (l : List Bytes) :
    (·.erase element)^[l.count element] l = l.filter (· ≠ element) := by
  induction l with
  | nil => rfl
  | cons x l ih =>
    by_cases same : x = element
    · subst same
      rw [List.count_cons_self, Function.iterate_succ_apply, List.erase_cons_head, ih,
        List.filter_cons_of_neg (by simp)]
    · rw [List.count_cons_of_ne same, iterate_erase_cons same, ih, List.filter_cons_of_pos (by simpa using same)]

lemma asU64_neg (least : -i64Max - 1 ≤ count) (neg : count < 0) (possible : checks = true → count ≠ -i64Max - 1) :
    ∃ n, fit checks i64Max (-count) = some n ∧ asU64 n = count.natAbs := by
  have top : i64Max = 9223372036854775807 := rfl
  by_cases min : count = -i64Max - 1
  · cases checks with
    | true => exact absurd min (possible rfl)
    | false =>
      subst min
      exact ⟨-9223372036854775808, by decide +kernel, by decide +kernel⟩
  · refine ⟨-count, if_pos (by omega), ?_⟩
    unfold asU64
    omega

lemma lrem_eq (least : -i64Max - 1 ≤ count) (possible : checks = true → count ≠ -i64Max - 1) :
    lrem checks element count l =
      some (without element count l, ((if count = 0 then 0 else occurrences element count l : ℕ) : ℤ)) := by
  unfold lrem without
  rcases lt_trichotomy count 0 with neg | zero | pos
  · obtain ⟨n, negated, target⟩ := asU64_neg least neg possible
    rw [if_neg (by omega), if_pos neg, if_pos neg, if_neg neg.ne, negated, Option.map_some, removeFirst_eq,
      target,
      List.count_reverse, occurrences, if_neg neg.ne, Int.sub_zero, Int.toNat_natCast, Int.zero_add]
  · subst zero
    rw [if_neg (by omega), if_neg (by omega), if_neg (by omega), if_pos rfl, occurrences, if_pos rfl,
      iterate_erase_count]
    rfl
  · have target : (count - 0).toNat = count.natAbs := by omega
    rw [if_pos pos, if_neg (by omega), if_neg pos.ne', removeFirst_eq, occurrences, if_neg pos.ne', target,
      Int.zero_add]

lemma lrem_min : lrem true element (-i64Max - 1) l = none := by
  rw [lrem, if_neg (by decide), if_pos (by decide)]
  rfl

/-- Nothing is removed and counted as removed, or a count of zero is answered with zero. -/
lemma returned_eq_iff :
    (if count = 0 then 0 else occurrences element count l) = occurrences element count l ↔
      ¬(count = 0 ∧ element ∈ l) := by
  by_cases zero : count = 0
  · rw [if_pos zero, occurrences, if_pos zero, eq_comm, List.count_eq_zero]
    exact ⟨fun out h => out h.2, fun h mem => h ⟨zero, mem⟩⟩
  · rw [if_neg zero]
    exact iff_of_true rfl fun h => zero h.1

end

/-! ## The commands on a stored list -/

/-- The key holds a list that has not expired. -/
def HoldsList (db : Db) (key : Bytes) (l : List Bytes) : Prop :=
  ∃ e, db.lookup key = some e ∧ e.value = .list l ∧ e.isExpired (clock.instant 0) = false

lemma bytesToI64_least {b : Bytes} {n : ℤ} (parsed : bytesToI64 b = some n) : -i64Max - 1 ≤ n := by
  have top : i64Max = 9223372036854775807 := rfl
  unfold bytesToI64 at parsed
  split at parsed
  · unfold parseI64 at parsed
    split at parsed
    all_goals
      obtain ⟨k, -, bound⟩ := Option.bind_eq_some_iff.mp parsed
      split at bound
      · cases bound
        omega
      · cases bound
  · cases parsed

section
variable {clock : Clock} {db : Db} {key : Bytes} {l l' l'' : List Bytes}

lemma onList_of_holds (holds : HoldsList clock db key l) (absent : Except Failure Resp)
    (f : List Bytes → Db → Outcome) : onList clock key absent f db = f l db := by
  obtain ⟨e, look, value, fresh⟩ := holds
  simp only [onList, Db.getTyped, Db.get, Db.live, look, Option.any_some, fresh, Bool.false_eq_true, if_false,
    value, Value.typeName, if_true]

lemma putBack_inj (holds : HoldsList clock db key l) : putBack key l' db = putBack key l'' db ↔ l' = l'' := by
  obtain ⟨e, look, -⟩ := holds
  have stored (m : List Bytes) : (putBack key m db).lookup key =
      if m = [] then none else some { e with value := .list m } := by
    unfold putBack
    split
    · exact AList.lookup_erase key db
    · rw [Db.write, Table.lookup_modify, if_pos rfl, look]
      rfl
  refine ⟨fun same => ?_, fun same => by rw [same]⟩
  have at_key : (putBack key l' db).lookup key = (putBack key l'' db).lookup key := by rw [same]
  rw [stored, stored] at at_key
  by_cases empty : l' = []
  · by_cases empty' : l'' = []
    · rw [empty, empty']
    · rw [if_pos empty, if_neg empty'] at at_key
      cases at_key
  · by_cases empty' : l'' = []
    · rw [if_neg empty, if_pos empty'] at at_key
      cases at_key
    · rw [if_neg empty, if_neg empty'] at at_key
      injection at_key with at_key
      injection at_key with at_key
      exact Value.list.inj at_key

end

section
variable {clock : Clock} {db : Db} {key : Bytes} {l : List Bytes} {a b : Bytes} {m n : ℤ}

lemma cmdLrange_iff (holds : HoldsList clock db key l) (first : bytesToI64 a = some m)
    (second : bytesToI64 b = some n) (name : Bytes) :
    cmdLrange clock [name, key, a, b] db = (.ok (.array (some ((between m n l).map Resp.bulk))), db) ↔
      l = [] ∨ -(l.length : ℤ) ≤ n ∨ 0 < position l.length m := by
  simp only [cmdLrange, first, second, onList_of_holds holds]
  rw [← lrange_eq_between_iff]
  constructor
  · intro same
    injection same with same
    injection same with same
    injection same with same
    injection same with same
    exact List.map_injective_iff.mpr (fun x y e => by cases e; rfl) same
  · intro same
    rw [same]

lemma cmdLtrim_iff (holds : HoldsList clock db key l) (first : bytesToI64 a = some m)
    (second : bytesToI64 b = some n) (name : Bytes) :
    cmdLtrim clock [name, key, a, b] db = (.ok .ok, putBack key (between m n l) db) ↔
      l = [] ∨ -(l.length : ℤ) ≤ n ∨ 0 < position l.length m := by
  simp only [cmdLtrim, first, second, onList_of_holds holds]
  rw [← lrange_eq_between_iff, ltrim_eq_lrange, ← putBack_inj holds]
  exact ⟨fun same => congrArg Prod.snd same, fun same => by rw [same]⟩

lemma le_of_inside (inside : ¬(position l.length m < 0 ∨ l.length ≤ position l.length m)) :
    -(l.length : ℤ) ≤ m := by
  unfold position at inside
  split_ifs at inside <;> omega

lemma cmdLindex_iff (holds : HoldsList clock db key l) (first : bytesToI64 a = some m) (name : Bytes) :
    (position l.length m < 0 ∨ l.length ≤ position l.length m → cmdLindex clock [name, key, a] db =
      (.ok .nil, db)) ↔ l = [] ∨ -(l.length : ℤ) ≤ m := by
  simp only [cmdLindex, first, onList_of_holds holds]
  by_cases outside : position l.length m < 0 ∨ l.length ≤ position l.length m
  · rw [← normalizeIndex_lt_iff outside, ← List.getElem?_eq_none_iff]
    constructor
    · intro nil
      have nil := nil outside
      injection nil with nil
      injection nil with nil
      injection nil
    · intro none _
      rw [none]
      rfl
  · exact iff_of_true (fun out => absurd out outside) (.inr (le_of_inside outside))

lemma cmdLset_iff (holds : HoldsList clock db key l) (first : bytesToI64 a = some m) (name value : Bytes) :
    (position l.length m < 0 ∨ l.length ≤ position l.length m →
      ∃ e, cmdLset clock [name, key, a, value] db = (.error (.error e), db)) ↔ l = [] ∨ -(l.length : ℤ) ≤ m := by
  simp only [cmdLset, first, onList_of_holds holds]
  by_cases outside : position l.length m < 0 ∨ l.length ≤ position l.length m
  · rw [← normalizeIndex_lt_iff outside]
    constructor
    · intro fails
      by_contra inside
      obtain ⟨e, failed⟩ := fails outside
      rw [if_neg inside] at failed
      cases congrArg Prod.fst failed
    · intro out _
      exact ⟨.outOfRange, if_pos out⟩
  · exact iff_of_true (fun out => absurd out outside) (.inr (le_of_inside outside))

lemma cmdLrem_iff (checks : Bool) (holds : HoldsList clock db key l) (first : bytesToI64 a = some m)
    (name value : Bytes) :
    cmdLrem checks clock [name, key, a, value] db =
        (.ok (.integer (occurrences value m l)), putBack key (without value m l) db) ↔
      ¬(m = 0 ∧ value ∈ l) ∧ (checks = true → m ≠ -i64Max - 1) := by
  simp only [cmdLrem, first, onList_of_holds holds]
  by_cases possible : checks = true → m ≠ -i64Max - 1
  · rw [lrem_eq (bytesToI64_least first) possible, ← returned_eq_iff]
    dsimp only
    constructor
    · intro same
      injection same with same
      injection same with same
      injection same with same
      exact ⟨Int.ofNat.inj same, possible⟩
    · rintro ⟨same, -⟩
      rw [same]
  · obtain ⟨rfl, rfl⟩ := Classical.not_imp.mp possible |>.imp id not_not.mp
    rw [lrem_min]
    refine iff_of_false (fun same => ?_) fun h => possible h.2
    cases congrArg Prod.fst same

end

/-- **The list commands** do what they say exactly where no end or index lies before the head of a list with
elements, and `LREM` is not asked to remove all of something that is there (nor, with overflow checks, given the
least count). -/
theorem lists_meet_iff (checks : Bool) {clock : Clock} {db : Db} {key : Bytes} {l : List Bytes}
    (holds : HoldsList clock db key l) {a b : Bytes} {m n : ℤ} (first : bytesToI64 a = some m)
    (second : bytesToI64 b = some n) (name value : Bytes) :
    (cmdLrange clock [name, key, a, b] db = (.ok (.array (some ((between m n l).map Resp.bulk))), db) ↔
        l = [] ∨ -(l.length : ℤ) ≤ n ∨ 0 < position l.length m) ∧
      (cmdLtrim clock [name, key, a, b] db = (.ok .ok, putBack key (between m n l) db) ↔
        l = [] ∨ -(l.length : ℤ) ≤ n ∨ 0 < position l.length m) ∧
      ((position l.length m < 0 ∨ l.length ≤ position l.length m → cmdLindex clock [name, key, a] db =
        (.ok .nil, db)) ↔
        l = [] ∨ -(l.length : ℤ) ≤ m) ∧
      ((position l.length m < 0 ∨ l.length ≤ position l.length m →
          ∃ e, cmdLset clock [name, key, a, value] db = (.error (.error e), db)) ↔
        l = [] ∨ -(l.length : ℤ) ≤ m) ∧
      (cmdLrem checks clock [name, key, a, value] db =
          (.ok (.integer (occurrences value m l)), putBack key (without value m l) db) ↔
        ¬(m = 0 ∧ value ∈ l) ∧ (checks = true → m ≠ -i64Max - 1)) :=
  ⟨cmdLrange_iff holds first second name, cmdLtrim_iff holds first second name, cmdLindex_iff holds first name,
    cmdLset_iff holds first name value, cmdLrem_iff checks holds first name value⟩

/-- A database with one list. -/
def oneList (key : Bytes) (l : List Bytes) : Db := Db.put key (Entry.new 0 (.list l)) ∅

lemma holds_oneList (key : Bytes) (l : List Bytes) : HoldsList ⟨fun _ => 0, fun _ => 0⟩ (oneList key l) key l :=
  ⟨_, AList.lookup_insert ∅, rfl, rfl⟩

theorem lists_meet_whole :
    cmdLrange ⟨fun _ => 0, fun _ => 0⟩ [[], [107], word "0", word "-1"] (oneList [107] [[1], [2]]) =
      (.ok (.array (some [.bulk [1], .bulk [2]])), oneList [107] [[1], [2]]) :=
  (lists_meet_iff true (holds_oneList [107] [[1], [2]]) (show bytesToI64 (word "0") = some 0 by decide)
    (show bytesToI64 (word "-1") = some (-1) by decide) [] []).1.mpr (.inr (.inl (by decide)))

/-- `LRANGE k 0 -9` of two elements returns the head, `LINDEX k -9` too, and `LREM k 0 x` that removes one answers
zero. -/
theorem lists_not_meet :
    cmdLrange ⟨fun _ => 0, fun _ => 0⟩ [[], [107], word "0", word "-9"] (oneList [107] [[1], [2]]) ≠
        (.ok (.array (some ((between 0 (-9) [[1], [2]]).map Resp.bulk))), oneList [107] [[1], [2]]) ∧
      cmdLindex ⟨fun _ => 0, fun _ => 0⟩ [[], [107], word "-9"] (oneList [107] [[1], [2]]) ≠
        (.ok .nil, oneList [107] [[1], [2]]) ∧
      cmdLrem true ⟨fun _ => 0, fun _ => 0⟩ [[], [107], word "0", [1]] (oneList [107] [[1], [2]]) ≠
        (.ok (.integer (occurrences [1] 0 [[1], [2]])), putBack [107] (without [1] 0 [[1], [2]])
          (oneList [107] [[1], [2]])) := by
  refine ⟨fun same => ?_, fun same => ?_, fun same => ?_⟩
  · cases congrArg Prod.fst same
  · cases congrArg Prod.fst same
  · cases congrArg Prod.fst same

end Cache
