import Mathlib.Data.List.Induction
import CaveRuntime.Common.BigEndian
import CaveRuntime.Common.MachineInt
import CaveRuntime.Common.Table
import CaveRuntime.Streams.SegmentLog

/-!
# The streams broker: compaction and retention

Model of `cave-streams/src/log_compaction.rs`. `compact_log` truncates the whole log and appends the records
that survive, which gives them new offsets, so that no record is ever at its offset afterwards. A record
without a key is filed under its payload, where a later record hides it, and appending evicts segments. The
age of an entry is cast to `u64` in `apply_retention`, so that an entry from the future is taken for a very
old one.

Logs are those that the calls of `SegmentLog` reach. A log that is in memory has less than `2 ^ 64` bytes.
-/

namespace Streams.Segments
open Utf8 Run

structure KeyedRecord where
  key : Bytes
  value : Option Bytes
deriving DecidableEq, Repr

/-- `i32::from_be_bytes`. -/
def i32OfBytes (b : Bytes) : ℤ := MachineInt.wrap MachineInt.i32Max (BigEndian.decode b)

def KeyedRecord.decode (payload : Bytes) : Option KeyedRecord :=
  if payload.length < 8 then none
  else
    let keyLen := BigEndian.decode (payload.take 4)
    if payload.length < 4 + keyLen + 4 then none
    else
      let key := (payload.drop 4).take keyLen
      let valueLen := i32OfBytes ((payload.drop (4 + keyLen)).take 4)
      if valueLen < 0 then some ⟨key, none⟩
      else if payload.length < 4 + keyLen + 4 + valueLen.toNat then none
      else some ⟨key, some ((payload.drop (4 + keyLen + 4)).take valueLen.toNat)⟩

def usizeMax : ℕ := 2 ^ 64 - 1

structure CompactionStats where
  entriesBefore : ℕ
  entriesAfter : ℕ
  bytesBefore : ℕ
  bytesAfter : ℕ
  tombstonesRemoved : ℕ
deriving DecidableEq, Repr

/-- One round of the loop of `compact_log`. -/
def latestStep (latest : Table Bytes LogEntry) (e : LogEntry) : Table Bytes LogEntry :=
  match KeyedRecord.decode e.payload with
  | none => latest.insert e.payload e
  | some ⟨key, none⟩ => latest.erase key
  | some ⟨key, some _⟩ => latest.insert key e

def isTombstone (e : LogEntry) : Bool := (KeyedRecord.decode e.payload).any (·.value.isNone)

/-- The values of the map, sorted by their offsets, which differ. -/
def surviving (entries : List LogEntry) : List LogEntry :=
  ((entries.foldl latestStep ∅).entries.map Sigma.snd).insertionSort (·.offset ≤ ·.offset)

namespace SegmentLog

def compactLog (s : SegmentLog) : Except ReadError (CompactionStats × SegmentLog) := do
  let entries ← s.read s.logStart usizeMax
  let log := (surviving entries).foldl (fun log e => (log.append e.payload e.timestampMs).2)
    (s.truncateBefore s.nextOffset)
  return (⟨entries.length, (surviving entries).length, payloadBytes entries, payloadBytes (surviving entries),
    (entries.filter isTombstone).length⟩, log)

/-- The entries that can be read. -/
def content (s : SegmentLog) : List LogEntry := s.entries.filter (s.logStart ≤ ·.offset)

lemma collect_all {maxBytes bytes : ℕ} {entries : List LogEntry}
    (fits : bytes + payloadBytes entries ≤ maxBytes) : collect maxBytes bytes entries = entries := by
  induction entries generalizing bytes with
  | nil => rfl
  | cons e entries ih =>
    simp only [payloadBytes, List.map_cons, List.sum_cons] at fits
    rw [collect, if_neg (by omega), ih]
    unfold payloadBytes
    omega

lemma payloadBytes_filter_le (p : LogEntry → Bool) (entries : List LogEntry) :
    payloadBytes (entries.filter p) ≤ payloadBytes entries := by
  unfold payloadBytes
  induction entries with
  | nil => rfl
  | cons e entries ih =>
    rw [List.filter_cons]
    split <;> simp only [List.map_cons, List.sum_cons] <;> omega

/-- A read from the start without a limit returns everything that can be read. -/
lemma read_all {s : SegmentLog} (fits : payloadBytes s.entries ≤ usizeMax) :
    s.read s.logStart usizeMax = .ok s.content := by
  have le := (payloadBytes_filter_le (s.logStart ≤ ·.offset) s.entries).trans fits
  rw [read, if_neg (lt_irrefl _)]
  unfold content
  cases eq : s.entries.filter (s.logStart ≤ ·.offset) with
  | nil => rfl
  | cons e rest =>
    rw [eq] at le
    exact congrArg (fun l => Except.ok (e :: l)) (collect_all (by simpa [payloadBytes] using le))

lemma Sound.content_pairwise {s : SegmentLog} (sound : s.Sound) : s.content.Pairwise (·.offset < ·.offset) :=
  sound.consecutive.pairwise.filter _

end SegmentLog

/-! ## What is kept -/

/-- Neither a value nor a tombstone of a key. -/
def isKeyless (e : LogEntry) : Bool := (KeyedRecord.decode e.payload).isNone

/-- The entry is the last record of its key and has a value. -/
def Live (entries : List LogEntry) (e : LogEntry) : Prop :=
  e ∈ entries ∧ ∃ key value, KeyedRecord.decode e.payload = some ⟨key, some value⟩ ∧
    ∀ e' ∈ entries, (KeyedRecord.decode e'.payload).map (·.key) = some key → e'.offset ≤ e.offset

/-- What compaction promises: the records with a key are the live ones, at their offsets, and the records
without a key are all there. -/
structure Compacted (before after : List LogEntry) : Prop where
  keyed : ∀ e, isKeyless e = false → (e ∈ after ↔ Live before e)
  keyless : ((after.filter isKeyless).map (·.payload)).Perm ((before.filter isKeyless).map (·.payload))

/-- The key that `compact_log` files an entry under. -/
def fileKey (e : LogEntry) : Bytes := ((KeyedRecord.decode e.payload).map (·.key)).getD e.payload

/-- The entry is the last one that is filed under its key, and not a tombstone. -/
def Survives (entries : List LogEntry) (e : LogEntry) : Prop :=
  e ∈ entries ∧ isTombstone e = false ∧ ∀ e' ∈ entries, fileKey e' = fileKey e → e'.offset ≤ e.offset

lemma latestStep_eq (latest : Table Bytes LogEntry) (e : LogEntry) : latestStep latest e =
    if isTombstone e then latest.erase (fileKey e) else latest.insert (fileKey e) e := by
  unfold latestStep isTombstone fileKey
  split <;> rename_i eq <;> simp [eq]

variable {e : LogEntry} {s : SegmentLog}

lemma fileKey_of_keyless (keyless : isKeyless e) : fileKey e = e.payload := by
  rw [fileKey, Option.isNone_iff_eq_none.mp keyless]
  rfl

lemma isTombstone_of_keyless (keyless : isKeyless e) : isTombstone e = false := by
  rw [isTombstone, Option.isNone_iff_eq_none.mp keyless]
  rfl

lemma Survives.live {entries : List LogEntry} (sur : Survives entries e)
    (keyed : isKeyless e = false) : Live entries e := by
  obtain ⟨mem, value, last⟩ := sur
  unfold isKeyless at keyed
  unfold isTombstone at value
  cases eq : KeyedRecord.decode e.payload with
  | none => simp [eq] at keyed
  | some rec =>
    obtain ⟨key, _ | val⟩ := rec
    · simp [eq] at value
    · refine ⟨mem, key, val, eq, fun e' mem' same => last e' mem' ?_⟩
      simp [fileKey, same, eq]

/-- The map of compaction has the last entry of a key, unless that is a tombstone. -/
lemma lookup_latest {entries : List LogEntry} (sorted : entries.Pairwise (·.offset < ·.offset)) {k : Bytes} :
    (entries.foldl latestStep ∅).lookup k = some e ↔ fileKey e = k ∧ Survives entries e := by
  induction entries using List.reverseRecOn with
  | nil => exact ⟨nofun, fun sur => nomatch sur.2.1⟩
  | append_singleton entries x ih =>
    obtain ⟨before, -, later⟩ := List.pairwise_append.mp sorted
    -- an entry that is filed under the key of the last one does not survive
    have hidden (mem : e ∈ entries) (same : fileKey x = fileKey e)
        (last : ∀ e' ∈ entries ++ [x], fileKey e' = fileKey e → e'.offset ≤ e.offset) : False :=
      absurd (last x (by simp) same) (Nat.not_le.mpr (later e mem x (List.mem_singleton_self x)))
    rw [List.foldl_append, List.foldl_cons, List.foldl_nil, latestStep_eq]
    by_cases here : fileKey x = k
    · subst here
      split
      · rename_i tombstone
        rw [Table.lookup_erase_eq, if_pos rfl]
        refine ⟨nofun, fun ⟨filed, mem, value, last⟩ => ?_⟩
        rcases List.mem_append.mp mem with old | new
        · exact (hidden old filed.symm last).elim
        · rw [List.mem_singleton.mp new, tombstone] at value
          cases value
      · rename_i value
        rw [Table.lookup_insert_eq, if_pos rfl]
        constructor
        · rintro ⟨⟩
          refine ⟨rfl, by simp, by simpa using value, fun e' mem' _ => ?_⟩
          rcases List.mem_append.mp mem' with old | new
          · exact (later e' old e (List.mem_singleton_self e)).le
          · rw [List.mem_singleton.mp new]
        · rintro ⟨filed, mem, -, last⟩
          rcases List.mem_append.mp mem with old | new
          · exact (hidden old filed.symm last).elim
          · rw [List.mem_singleton.mp new]
    · have same : (if isTombstone x then (entries.foldl latestStep ∅).erase (fileKey x)
          else (entries.foldl latestStep ∅).insert (fileKey x) x).lookup k =
          (entries.foldl latestStep ∅).lookup k := by
        split
        · rw [Table.lookup_erase_eq, if_neg (Ne.symm here)]
        · rw [Table.lookup_insert_eq, if_neg (Ne.symm here)]
      rw [same, ih before]
      refine and_congr_right fun filed => ?_
      have other : e ≠ x := fun eq => here (eq ▸ filed)
      have differs : fileKey x ≠ fileKey e := fun eq => here (eq.trans filed)
      simp [Survives, other, differs, or_imp, forall_and]

section Surviving

variable {entries : List LogEntry} (sorted : entries.Pairwise (·.offset < ·.offset))
include sorted

lemma mem_surviving {e : LogEntry} : e ∈ surviving entries ↔ Survives entries e := by
  rw [surviving, List.mem_insertionSort, List.mem_map]
  constructor
  · rintro ⟨⟨k, e⟩, mem, rfl⟩
    exact ((lookup_latest sorted).mp (Table.mem_entries.mp mem)).2
  · intro sur
    exact ⟨⟨fileKey e, e⟩, Table.mem_entries.mpr ((lookup_latest sorted).mpr ⟨rfl, sur⟩), rfl⟩

lemma nodup_surviving : (surviving entries).Nodup := by
  rw [surviving, (List.perm_insertionSort _ _).nodup_iff]
  refine (entries.foldl latestStep ∅).nodupKeys.nodup.map_on ?_
  rintro ⟨k, e⟩ mem ⟨k', e'⟩ mem' same
  dsimp only at same
  subst same
  -- an entry is filed under its own key only
  have own := ((lookup_latest sorted).mp (Table.mem_entries.mp mem)).1
  have own' := ((lookup_latest sorted).mp (Table.mem_entries.mp mem')).1
  rw [← own, ← own']

lemma surviving_eq {kept : List LogEntry} (sub : kept.Sublist entries)
    (same : ∀ e, Survives entries e ↔ e ∈ kept) : surviving entries = kept := by
  have order : kept.Pairwise (·.offset < ·.offset) := sorted.sublist sub
  have nodup : kept.Nodup := order.imp fun lt eq => (lt.trans_eq (congrArg LogEntry.offset eq.symm)).false
  have perm : (surviving entries).Perm kept :=
    (List.perm_ext_iff_of_nodup (nodup_surviving sorted) nodup).mpr fun e => (mem_surviving sorted).trans (same e)
  have offsets : (kept.map (·.offset)).Nodup := List.pairwise_map.mpr (order.imp ne_of_lt)
  refine perm.eq_of_pairwise (fun e e' mem mem' le ge => ?_) (List.pairwise_insertionSort _ _) (order.imp le_of_lt)
  exact List.inj_on_of_nodup_map offsets (perm.mem_iff.mp mem) mem' (Nat.le_antisymm le ge)

end Surviving

/-! ## The rewritten log -/

/-- Records appended to a log without any need more than one segment. -/
def Splits (maxSegmentBytes : ℕ) (l : List LogEntry) : Prop :=
  ∃ j < l.length, 0 < payloadBytes (l.take j) ∧ maxSegmentBytes < payloadBytes (l.take (j + 1))

/-- Records appended to a log without any are too many for its retention. -/
def Crowded (s : SegmentLog) (l : List LogEntry) : Prop :=
  0 < s.retentionBytes ∧ s.retentionBytes < payloadBytes l ∧ Splits s.maxSegmentBytes l

@[simp] lemma payloadBytes_append (l l' : List LogEntry) :
    payloadBytes (l ++ l') = payloadBytes l + payloadBytes l' := by
  simp [payloadBytes]

lemma splits_concat {maxSegmentBytes : ℕ} {l : List LogEntry} :
    Splits maxSegmentBytes (l ++ [e]) ↔ Splits maxSegmentBytes l ∨
      (0 < payloadBytes l ∧ maxSegmentBytes < payloadBytes l + e.payload.length) := by
  have last : payloadBytes (l ++ [e]) = payloadBytes l + e.payload.length := by simp [payloadBytes]
  constructor
  · rintro ⟨j, lt, pos, large⟩
    rw [List.length_append, List.length_singleton] at lt
    rcases Nat.lt_succ_iff_lt_or_eq.mp lt with lt | rfl
    · rw [List.take_append_of_le_length lt.le] at pos
      rw [List.take_append_of_le_length lt] at large
      exact .inl ⟨j, lt, pos, large⟩
    · rw [List.take_left] at pos
      rw [List.take_of_length_le (by simp), last] at large
      exact .inr ⟨pos, large⟩
  · rintro (⟨j, lt, pos, large⟩ | ⟨pos, large⟩)
    · refine ⟨j, by rw [List.length_append]; omega, ?_, ?_⟩
      · rwa [List.take_append_of_le_length lt.le]
      · rwa [List.take_append_of_le_length lt]
    · refine ⟨l.length, by simp, ?_, ?_⟩
      · rwa [List.take_left]
      · rwa [List.take_of_length_le (by simp), last]

lemma Crowded.concat {l : List LogEntry} (crowded : Crowded s l) (e : LogEntry) :
    Crowded s (l ++ [e]) :=
  ⟨crowded.1, crowded.2.1.trans_le (by rw [payloadBytes_append]; omega), splits_concat.mpr (.inl crowded.2.2)⟩

/-- The log `s` after the records `l` were appended to the empty log `s₀`, and nothing was evicted. -/
structure Rewritten (s₀ : SegmentLog) (l : List LogEntry) (s : SegmentLog) : Prop where
  retention : s.retentionBytes = s₀.retentionBytes
  max : s.maxSegmentBytes = s₀.maxSegmentBytes
  start : s.logStart = s₀.logStart
  payloads : s.entries.map (·.payload) = l.map (·.payload)
  total : s.totalBytes = payloadBytes l
  closed : ∀ seg ∈ s.front, seg.closed = true ∧ seg.entries ≠ []
  size : s.active.entries = [] → s.active.byteSize = 0
  single : s.front = [] → s.active.byteSize = payloadBytes l
  splits : s.front ≠ [] ↔ Splits s.maxSegmentBytes l

namespace SegmentLog

variable {s s₀ : SegmentLog} {l : List LogEntry}

/-- The number of segments that one `append` evicts is zero exactly if the records are not too many. -/
lemma evicted_eq_zero_iff (closed : ∀ seg ∈ s.front, seg.closed = true) :
    s.evicted = 0 ↔ ¬ (0 < s.retentionBytes ∧ s.retentionBytes < s.totalBytes ∧ s.front ≠ []) := by
  unfold evicted
  split
  · rename_i exceeds
    cases front : s.front with
    | nil => simp [evictions]
    | cons head rest =>
      have shut := closed head (by rw [front]; exact List.mem_cons_self)
      simp [evictions, exceeds, shut]
  · rename_i under
    exact iff_of_true rfl fun ⟨pos, lt, _⟩ => under ⟨pos, lt⟩

lemma evict_of_zero (none : s.evicted = 0) : s.evict = s := by
  simp [evict, none]

lemma length_evict (filled : ∀ seg ∈ s.front, seg.entries ≠ []) (some : s.evicted ≠ 0) (front : s.front ≠ []) :
    s.evict.entries.length < s.entries.length := by
  obtain ⟨head, rest, eq⟩ := List.exists_cons_of_ne_nil front
  obtain ⟨n, count⟩ := Nat.exists_eq_succ_of_ne_zero some
  have first := List.length_pos_of_ne_nil (filled head (by rw [eq]; exact List.mem_cons_self))
  rw [s.entries_evict, count, eq, List.take_succ_cons, List.flatMap_cons]
  simp only [List.length_append]
  omega

end SegmentLog

namespace Rewritten

variable {s s₀ : SegmentLog} {l : List LogEntry}

/-- An entry that is kept is appended, after a roll where one is due. -/
lemma push (rew : Rewritten s₀ l s) (e : LogEntry) :
    Rewritten s₀ (l ++ [e]) ((s.roll e.payload.length).push e.payload e.timestampMs) := by
  have bytes : payloadBytes (l ++ [e]) = payloadBytes l + e.payload.length := by simp [payloadBytes]
  have entries := s.entries_append e.payload e.timestampMs
  have payloads : ((s.roll e.payload.length).push e.payload e.timestampMs).entries.map (·.payload) =
      (l ++ [e]).map (·.payload) := by
    rw [entries, List.map_append, List.map_append, rew.payloads]
    rfl
  have total := rew.total
  unfold SegmentLog.totalBytes at total
  rw [List.map_append, List.sum_append] at total
  have start := s.logStart_push e.payload e.timestampMs
  by_cases full : 0 < s.active.byteSize ∧ s.maxSegmentBytes < s.active.byteSize + e.payload.length
  · have splits : Splits s.maxSegmentBytes (l ++ [e]) := by
      rw [splits_concat]
      by_cases first : s.front = []
      · rw [rew.single first] at full
        exact .inr full
      · exact .inl (rew.splits.mp first)
    have filled : s.active.entries ≠ [] := fun none => full.1.ne' (rew.size none)
    rw [SegmentLog.roll, if_pos full] at *
    refine ⟨rew.retention, rew.max, rew.start, payloads, ?_, ?_, ?_, ?_, ?_⟩
    · rw [bytes]
      simp [SegmentLog.totalBytes, SegmentLog.push] at total ⊢
      omega
    · intro seg mem
      rcases List.mem_append.mp mem with old | new
      · exact rew.closed seg old
      · rw [List.mem_singleton.mp new]
        exact ⟨rfl, filled⟩
    · simp [SegmentLog.push]
    · simp [SegmentLog.push]
    · exact iff_of_true (by simp [SegmentLog.push]) splits
  · rw [SegmentLog.roll, if_neg full] at *
    refine ⟨rew.retention, rew.max, rew.start, payloads, ?_, rew.closed, ?_, fun none => ?_, ?_⟩
    · rw [bytes]
      simp [SegmentLog.totalBytes, SegmentLog.push] at total ⊢
      omega
    · simp [SegmentLog.push]
    · rw [bytes, ← rew.single none]
      rfl
    · refine (rew.splits.trans ?_).trans splits_concat.symm
      refine ⟨.inl, ?_⟩
      rintro (splits | large)
      · exact splits
      · by_contra no
        have first : s.front = [] := not_not.mp (mt rew.splits.mp no)
        exact full (by rwa [rew.single first])

lemma crowded_iff (rew : Rewritten s₀ l s) : Crowded s₀ l ↔ s.evicted ≠ 0 := by
  rw [Ne, SegmentLog.evicted_eq_zero_iff fun seg mem => (rew.closed seg mem).1, not_not, rew.retention, rew.total,
    rew.splits, rew.max]
  rfl

/-- Records that are appended to the empty log are all in it, unless they are too many: then some are
missing. -/
lemma foldl (rew : Rewritten s₀ [] s₀) (l : List LogEntry) :
    let s := l.foldl (fun log e => (SegmentLog.append log e.payload e.timestampMs).2) s₀
    (Crowded s₀ l ∧ s.entries.length < l.length) ∨ (¬ Crowded s₀ l ∧ Rewritten s₀ l s) := by
  induction l using List.reverseRecOn with
  | nil => exact .inr ⟨fun crowded => Nat.not_lt_zero _ crowded.2.1, rew⟩
  | append_singleton l e ih =>
    rw [List.foldl_append, List.foldl_cons, List.foldl_nil]
    generalize l.foldl (fun log e => (SegmentLog.append log e.payload e.timestampMs).2) s₀ = s at ih
    rcases ih with ⟨crowded, fewer⟩ | ⟨-, rew⟩
    · refine .inl ⟨crowded.concat e, ?_⟩
      have entries := congrArg List.length (s.entries_append e.payload e.timestampMs)
      rw [SegmentLog.entries_evict] at entries
      simp only [List.length_append, List.length_singleton] at entries ⊢
      unfold SegmentLog.append
      dsimp only
      omega
    · have pushed := rew.push e
      by_cases crowded : Crowded s₀ (l ++ [e])
      · have number := congrArg List.length pushed.payloads
        rw [List.length_map, List.length_map] at number
        have front := pushed.splits.mpr (pushed.max ▸ crowded.2.2)
        have less := SegmentLog.length_evict (fun seg mem => (pushed.closed seg mem).2)
          (pushed.crowded_iff.mp crowded) front
        exact .inl ⟨crowded, number ▸ less⟩
      · refine .inr ⟨crowded, ?_⟩
        have none := not_not.mp (mt pushed.crowded_iff.mpr crowded)
        rw [SegmentLog.append, SegmentLog.evict_of_zero none]
        exact pushed

end Rewritten

/-! ## Compaction -/

/-- All entries are at offsets from `low` on. -/
structure Above (low : ℕ) (s : SegmentLog) : Prop where
  next : low ≤ s.nextOffset
  entries : ∀ e ∈ s.entries, low ≤ e.offset

lemma Above.append {low : ℕ} (above : Above low s) (payload : Bytes) (timestampMs : Int64) :
    Above low (s.append payload timestampMs).2 := by
  refine ⟨(Nat.le_succ_of_le above.next).trans (s.nextOffset_push payload timestampMs).ge, fun e mem => ?_⟩
  have old : e ∈ s.entries ++ [⟨s.nextOffset, timestampMs, payload⟩] := by
    rw [← s.entries_append, SegmentLog.entries_evict]
    exact List.mem_append_right _ mem
  rcases List.mem_append.mp old with old | new
  · exact above.entries e old
  · rw [List.mem_singleton.mp new]
    exact above.next

lemma Above.foldl {low : ℕ} (above : Above low s) (l : List LogEntry) :
    Above low (l.foldl (fun log e => (log.append e.payload e.timestampMs).2) s) := by
  induction l generalizing s with
  | nil => exact above
  | cons e l ih => exact ih (above.append e.payload e.timestampMs)

namespace SegmentLog

variable {s : SegmentLog}

lemma dropBelow_nil {low : ℕ} {front : List Segment}
    (below : ∀ seg ∈ front, ∃ last, seg.entries.getLast? = some last ∧ last.offset < low) :
    dropBelow low front = [] := by
  induction front with
  | nil => rfl
  | cons first front ih =>
    obtain ⟨last, look, lt⟩ := below first List.mem_cons_self
    rw [dropBelow, look, if_pos (by simpa using lt)]
    exact ih fun seg mem => below seg (List.mem_cons_of_mem first mem)

lemma Sound.truncated (sound : s.Sound) (up : s.logStart < s.nextOffset) :
    s.truncateBefore s.nextOffset = { s with
      front := [], active := { s.active with entries := [], byteSize := 0 }, logStart := s.nextOffset } := by
  have front : dropBelow s.nextOffset s.front = [] := by
    refine dropBelow_nil fun seg mem => ?_
    have last := List.getLast?_eq_some_getLast (sound.filled seg mem)
    refine ⟨_, last, sound.consecutive.lt (List.mem_append_left _ (List.mem_flatMap.mpr ⟨seg, mem, ?_⟩))⟩
    exact List.getLast_mem _
  have active : s.active.entries.filter (s.nextOffset ≤ ·.offset) = [] := by
    rw [List.filter_eq_nil_iff]
    intro e mem
    simpa using sound.consecutive.lt (List.mem_append_right _ mem)
  rw [SegmentLog.truncateBefore, if_neg (Nat.not_le.mpr up), front]
  simp [trim, active, payloadBytes]

lemma rewritten_nil {base : ℕ} {shut : Bool} {max retention next : ℕ} :
    let s₀ : SegmentLog := ⟨max, retention, [], ⟨base, 0, [], shut⟩, next, next⟩
    Rewritten s₀ [] s₀ where
  retention := rfl
  max := rfl
  start := rfl
  payloads := rfl
  total := rfl
  closed := nofun
  size := fun _ => rfl
  single := fun _ => rfl
  splits := ⟨fun none => absurd rfl none, fun ⟨_, lt, _⟩ => absurd lt (Nat.not_lt_zero _)⟩

/-- What a compacted log has: the survivors, unless they are too many, at new offsets. -/
lemma Sound.compactLog (sound : s.Sound) (fits : payloadBytes s.entries ≤ usizeMax) :
    ∃ stats s', s.compactLog = .ok (stats, s') ∧ (∀ e ∈ s'.content, s.nextOffset ≤ e.offset) ∧
      ((Crowded s (surviving s.content) ∧ s'.content.length < (surviving s.content).length) ∨
        (¬ Crowded s (surviving s.content) ∧
          s'.content.map (·.payload) = (surviving s.content).map (·.payload))) := by
  unfold SegmentLog.compactLog
  rw [read_all fits]
  refine ⟨_, _, rfl, ?_⟩
  rcases Nat.lt_or_ge s.logStart s.nextOffset with up | le
  · rw [sound.truncated up]
    generalize eq : ({ s with
      front := [], active := { s.active with entries := [], byteSize := 0 }, logStart := s.nextOffset } :
        SegmentLog) = s₀
    have start : Rewritten s₀ [] s₀ := eq ▸ rewritten_nil
    have above : Above s.nextOffset s₀ := by
      rw [← eq]
      exact ⟨le_rfl, fun e mem => absurd mem List.not_mem_nil⟩
    have same : Crowded s₀ = Crowded s := by
      rw [← eq]
      rfl
    have low : s₀.logStart = s.nextOffset := by rw [← eq]
    have above' := above.foldl (surviving s.content)
    have rewritten := start.foldl (surviving s.content)
    rw [same] at rewritten
    generalize (surviving s.content).foldl (fun log e => (log.append e.payload e.timestampMs).2) s₀ = s'
      at above' rewritten
    refine ⟨fun e mem => above'.entries e (List.mem_of_mem_filter mem), ?_⟩
    rcases rewritten with ⟨crowded, fewer⟩ | ⟨room, rew⟩
    · exact .inl ⟨crowded, (List.length_filter_le _ _).trans_lt fewer⟩
    · refine .inr ⟨room, ?_⟩
      rw [← rew.payloads, content, List.filter_eq_self.mpr]
      intro e mem
      simpa [rew.start, low] using above'.entries e mem
  · -- the start is past the end: there is no record, and the log is left as it is
    have none : s.content = [] := by
      rw [content, List.filter_eq_nil_iff]
      intro e mem
      simpa using (sound.consecutive.lt mem).trans_le le
    have gone : surviving s.content = [] := by
      rw [none]
      rfl
    rw [gone, List.foldl_nil, SegmentLog.truncateBefore, if_pos le, none]
    exact ⟨fun e mem => absurd mem List.not_mem_nil, .inr ⟨fun crowded => Nat.not_lt_zero _ crowded.2.1, rfl⟩⟩

end SegmentLog

/-- No key has a value at the end, no record without a key is followed by one that is filed under it, and
the records without a key are not too many for the retention of the log. -/
structure Compactable (s : SegmentLog) : Prop where
  noLive : ∀ e, ¬ Live s.content e
  unshadowed : ∀ e ∈ s.content, isKeyless e = true →
    ∀ e' ∈ s.content, fileKey e' = e.payload → e'.offset ≤ e.offset
  room : ¬ Crowded s (s.content.filter isKeyless)

section Keyless

variable {entries : List LogEntry}

lemma isKeyless_of_survives (noLive : ∀ e, ¬ Live entries e) {e : LogEntry} (sur : Survives entries e) :
    isKeyless e = true := by
  by_contra keyed
  exact noLive e (sur.live (Bool.eq_false_iff.mpr keyed))

/-- If no key has a value, the survivors are the records without a key exactly if none of them is followed
by one that is filed under it. -/
lemma survivors_keyless_iff (noLive : ∀ e, ¬ Live entries e) :
    (∀ e, Survives entries e ↔ e ∈ entries.filter isKeyless) ↔
      ∀ e ∈ entries, isKeyless e = true → ∀ e' ∈ entries, fileKey e' = e.payload → e'.offset ≤ e.offset := by
  constructor
  · intro same e mem keyless
    have sur := (same e).mpr (List.mem_filter.mpr ⟨mem, keyless⟩)
    rw [← fileKey_of_keyless keyless]
    exact sur.2.2
  · intro last e
    rw [List.mem_filter]
    refine ⟨fun sur => ⟨sur.1, isKeyless_of_survives noLive sur⟩, fun ⟨mem, keyless⟩ => ?_⟩
    refine ⟨mem, isTombstone_of_keyless keyless, ?_⟩
    rw [fileKey_of_keyless keyless]
    exact last e mem keyless

end Keyless

/-- Compaction keeps its promise exactly for logs in which it has to move no record of a key and to drop no
record without one. -/
theorem compaction_keeps_iff {maxSegmentBytes : ℕ} {calls : List LogCall} {h : History}
    (hr : run History.step (History.new maxSegmentBytes) calls = some h)
    (fits : payloadBytes h.log.entries ≤ usizeMax) :
    ∃ stats after, h.log.compactLog = .ok (stats, after) ∧
      (Compacted h.log.content after.content ↔ Compactable h.log) := by
  have sound := History.sound_of_run hr
  have sorted := sound.content_pairwise
  obtain ⟨stats, after, done, above, result⟩ := sound.compactLog fits
  refine ⟨stats, after, done, fun com => ?_, fun ⟨noLive, unshadowed, room⟩ => ?_⟩
  · have noLive (e : LogEntry) : ¬ Live h.log.content e := by
      intro live
      obtain ⟨mem, key, value, keyed, -⟩ := id live
      -- a live record would be at its old offset
      have new := above e ((com.keyed e (by simp [isKeyless, keyed])).mpr live)
      exact absurd (sound.consecutive.lt (List.mem_of_mem_filter mem)) (Nat.not_lt.mpr new)
    -- all records without a key are among the survivors
    have many : (h.log.content.filter isKeyless).length ≤ after.content.length := by
      have number := com.keyless.length_eq
      rw [List.length_map, List.length_map] at number
      exact number ▸ List.length_filter_le _ _
    have sub : surviving h.log.content ⊆ h.log.content.filter isKeyless := fun e mem => by
      have sur := (mem_surviving sorted).mp mem
      exact List.mem_filter.mpr ⟨sur.1, isKeyless_of_survives noLive sur⟩
    have part := List.subperm_of_subset (nodup_surviving sorted) sub
    have few := part.length_le
    rcases result with ⟨-, fewer⟩ | ⟨room, same⟩
    · omega
    · have number := congrArg List.length same
      rw [List.length_map, List.length_map] at number
      have perm := part.perm_of_length_le (number ▸ many)
      have all (e : LogEntry) : Survives h.log.content e ↔ e ∈ h.log.content.filter isKeyless :=
        (mem_surviving sorted).symm.trans perm.mem_iff
      rw [surviving_eq sorted List.filter_sublist all] at room
      exact ⟨noLive, (survivors_keyless_iff noLive).mp all, room⟩
  · have eq := surviving_eq sorted List.filter_sublist ((survivors_keyless_iff noLive).mpr unshadowed)
    rw [eq] at result
    rcases result with ⟨crowded, -⟩ | ⟨-, same⟩
    · exact absurd crowded room
    · have keyless (e : LogEntry) (mem : e ∈ after.content) : isKeyless e = true := by
        have copy : e.payload ∈ after.content.map (·.payload) := List.mem_map_of_mem mem
        rw [same] at copy
        obtain ⟨e₀, mem₀, payload⟩ := List.mem_map.mp copy
        have plain : isKeyless e₀ = true := List.of_mem_filter mem₀
        rwa [isKeyless, payload] at plain
      refine ⟨fun e keyed => iff_of_false (fun mem => ?_) (noLive e), ?_⟩
      · rw [keyless e mem] at keyed
        cases keyed
      · rw [List.filter_eq_self.mpr keyless, same]

/-- A record without a key is kept, and a tombstone goes. -/
theorem compaction_keeps_iff_tombstone :
    ∃ h stats after, run History.step (History.new 100)
        [.append [5] 1, .append [0, 0, 0, 1, 7, 255, 255, 255, 255] 2] = some h ∧
      h.log.compactLog = .ok (stats, after) ∧ Compacted h.log.content after.content := by
  obtain ⟨h, hr⟩ : ∃ h, run History.step (History.new 100)
    [.append [5] 1, .append [0, 0, 0, 1, 7, 255, 255, 255, 255] 2] = some h := ⟨_, rfl⟩
  obtain ⟨stats, after, done, iff⟩ := compaction_keeps_iff hr (by cases hr; decide)
  refine ⟨h, stats, after, hr, done, iff.mpr ⟨?_, by cases hr; decide, fun crowded => ?_⟩⟩
  rotate_left
  · cases hr
    exact absurd crowded.1 (by decide)
  have noValue : ∀ e ∈ h.log.content, (KeyedRecord.decode e.payload).bind (·.value) = none := by
    cases hr
    decide
  rintro e ⟨mem, key, value, keyed, -⟩
  have none := noValue e mem
  rw [keyed] at none
  cases none

/-- What can be read after the payloads were appended, and after the log was then compacted. -/
def compacted (payloads : List Bytes) : List LogEntry × Except ReadError (List LogEntry) :=
  let log : SegmentLog :=
    payloads.foldl (fun log payload => (SegmentLog.append log payload 0).2) { maxSegmentBytes := 100 }
  (log.content, log.compactLog.map (·.2.content))

/-- The only record of a key gets another offset. One of two equal records without a key is lost, and so is
one that is the key of a later tombstone. -/
theorem compaction_moves_records :
    compacted [[0, 0, 0, 1, 7, 0, 0, 0, 1, 9]] =
      ([⟨0, 0, [0, 0, 0, 1, 7, 0, 0, 0, 1, 9]⟩], .ok [⟨1, 0, [0, 0, 0, 1, 7, 0, 0, 0, 1, 9]⟩]) ∧
    KeyedRecord.decode [0, 0, 0, 1, 7, 0, 0, 0, 1, 9] = some ⟨[7], some [9]⟩ ∧
    compacted [[5], [5]] = ([⟨0, 0, [5]⟩, ⟨1, 0, [5]⟩], .ok [⟨2, 0, [5]⟩]) ∧
    compacted [[5], [0, 0, 0, 1, 5, 255, 255, 255, 255]] =
      ([⟨0, 0, [5]⟩, ⟨1, 0, [0, 0, 0, 1, 5, 255, 255, 255, 255]⟩], .ok []) := by
  decide

/-! ## Retention -/

structure RetentionPolicy where
  timeMs : UInt64
  bytes : UInt64
deriving DecidableEq, Repr

structure RetentionStats where
  entriesDropped : ℕ
  bytesDropped : ℕ
  lowWatermark : ℕ
deriving DecidableEq, Repr

/-- The exact age. -/
def age (now : Int64) (e : LogEntry) : ℤ := now.toInt - e.timestampMs.toInt

/-- `too_old`; `none` is the panic of a subtraction that overflows. -/
def tooOld (checks : Bool) (policy : RetentionPolicy) (now : Int64) (e : LogEntry) : Option Bool :=
  if 0 < policy.timeMs then
    (MachineInt.fit checks MachineInt.i64Max (age now e)).map (policy.timeMs.toNat < MachineInt.asU64 ·)
  else some false

/-- The loop of `apply_retention`: how many entries are dropped. -/
def sweep (checks : Bool) (policy : RetentionPolicy) (now : Int64) : ℕ → List LogEntry → Option ℕ
  | _, [] => some 0
  | currentBytes, e :: entries =>
    match tooOld checks policy now e with
    | none => none
    | some old =>
      if old ∨ (0 < policy.bytes ∧ policy.bytes.toNat < currentBytes) then
        (sweep checks policy now (currentBytes - e.payload.length) entries).map (· + 1)
      else some 0

/-- The log after the first entries were dropped, with the new start. -/
def SegmentLog.dropFirst (s : SegmentLog) (entries : List LogEntry) (dropped : ℕ) : ℕ × SegmentLog :=
  let newLow := ((entries.take dropped).getLast?.map (·.offset + 1)).getD s.logStart
  (newLow, if 0 < dropped then s.truncateBefore newLow else s)

def SegmentLog.applyRetention (checks : Bool) (s : SegmentLog) (policy : RetentionPolicy) (now : Int64) :
    Option (Except ReadError (RetentionStats × SegmentLog)) :=
  match s.read s.logStart usizeMax with
  | .error err => some (.error err)
  | .ok entries => (sweep checks policy now (payloadBytes entries) entries).map fun dropped =>
      let (newLow, log) := s.dropFirst entries dropped
      .ok (⟨dropped, payloadBytes (entries.take dropped), newLow⟩, log)

/-- The policy demands to drop the first one of the entries. -/
def Demanded (policy : RetentionPolicy) (now : Int64) (entries : List LogEntry) : Prop :=
  (∃ e ∈ entries.head?, 0 < policy.timeMs ∧ (policy.timeMs.toNat : ℤ) < age now e) ∨
    (0 < policy.bytes ∧ policy.bytes.toNat < payloadBytes entries)

/-- Entries are dropped from the front, each one because the policy demands it, and what remains is within
the limit. -/
def Retained (policy : RetentionPolicy) (now : Int64) (before after : List LogEntry) : Prop :=
  ∃ n, after = before.drop n ∧ (∀ i < n, i < before.length → Demanded policy now (before.drop i)) ∧
    (0 < policy.bytes → payloadBytes after ≤ policy.bytes.toNat ∨ after = [])

/-- Up to the first entry that the policy does not demand to drop, no age overflows in a build that checks
it, and that entry is not from a future so far that its age, cast to `u64`, exceeds the limit. -/
def Judged (checks : Bool) (policy : RetentionPolicy) (now : Int64) : List LogEntry → Prop
  | [] => True
  | e :: entries =>
    (0 < policy.timeMs → checks → -MachineInt.i64Max - 1 ≤ age now e ∧ age now e ≤ MachineInt.i64Max) ∧
    (Demanded policy now (e :: entries) → Judged checks policy now entries) ∧
    (¬ Demanded policy now (e :: entries) → 0 < policy.timeMs → age now e < 0 →
      age now e + ((2 ^ 64 : ℕ) : ℤ) ≤ policy.timeMs.toNat)

section Retention

variable {checks : Bool} {policy : RetentionPolicy} {now : Int64}

lemma age_bounds (now : Int64) (e : LogEntry) :
    -((2 ^ 64 : ℕ) : ℤ) < age now e ∧ age now e < ((2 ^ 64 : ℕ) : ℤ) := by
  have now_lt := now.toInt_lt
  have le_now := now.le_toInt
  have ts_lt := e.timestampMs.toInt_lt
  have le_ts := e.timestampMs.le_toInt
  unfold age
  omega

/-- The cast to `u64` is the same whether or not the subtraction wrapped around. -/
lemma asU64_fit {n m : ℤ} (fit : MachineInt.fit checks MachineInt.i64Max n = some m) :
    MachineInt.asU64 m = (n % ((2 ^ 64 : ℕ) : ℤ)).toNat := by
  unfold MachineInt.fit at fit
  split at fit
  · cases fit
    rfl
  · split at fit
    · cases fit
    · cases fit
      unfold MachineInt.asU64 MachineInt.wrap MachineInt.i64Max
      omega

variable {e : LogEntry} {entries : List LogEntry} {n : ℕ}

/-- The code takes the entry for too old: its age is, or it is negative and exceeds the limit as a `u64`. -/
lemma tooOld_cases {old : Bool} (eq : tooOld checks policy now e = some old) :
    (0 < policy.timeMs → checks → -MachineInt.i64Max - 1 ≤ age now e ∧ age now e ≤ MachineInt.i64Max) ∧
    (old = true ↔ 0 < policy.timeMs ∧ ((policy.timeMs.toNat : ℤ) < age now e ∨
      (age now e < 0 ∧ (policy.timeMs.toNat : ℤ) < age now e + ((2 ^ 64 : ℕ) : ℤ)))) := by
  unfold tooOld at eq
  split at eq
  · rename_i pos
    obtain ⟨m, fit, rfl⟩ := Option.map_eq_some_iff.mp eq
    refine ⟨fun _ on => ?_, ?_⟩
    · unfold MachineInt.fit at fit
      rw [if_pos on] at fit
      split at fit
      · assumption
      · cases fit
    · have bounds := age_bounds now e
      rw [asU64_fit fit, decide_eq_true_iff]
      simp only [pos, true_and]
      omega
  · rename_i zero
    cases eq
    exact ⟨fun pos => absurd pos zero, by simp [zero]⟩

lemma tooOld_isSome (fits : 0 < policy.timeMs → checks →
    -MachineInt.i64Max - 1 ≤ age now e ∧ age now e ≤ MachineInt.i64Max) :
    ∃ old, tooOld checks policy now e = some old := by
  unfold tooOld
  split
  · rename_i pos
    cases checks with
    | true => exact ⟨_, by rw [MachineInt.fit, if_pos (fits pos rfl)]; rfl⟩
    | false =>
      unfold MachineInt.fit
      split <;> exact ⟨_, rfl⟩
  · exact ⟨_, rfl⟩

lemma demanded_cons : Demanded policy now (e :: entries) ↔
    (0 < policy.timeMs ∧ (policy.timeMs.toNat : ℤ) < age now e) ∨
      (0 < policy.bytes ∧ policy.bytes.toNat < payloadBytes (e :: entries)) := by
  simp [Demanded]

lemma payloadBytes_tail (e : LogEntry) (entries : List LogEntry) :
    payloadBytes (e :: entries) - e.payload.length = payloadBytes entries := by
  simp [payloadBytes]

lemma sweep_le {bytes : ℕ} (eq : sweep checks policy now bytes entries = some n) :
    n ≤ entries.length := by
  induction entries generalizing bytes n with
  | nil => cases eq; exact le_rfl
  | cons e entries ih =>
    rw [sweep] at eq
    split at eq
    · cases eq
    · split at eq
      · obtain ⟨m, rest, rfl⟩ := Option.map_eq_some_iff.mp eq
        exact Nat.succ_le_succ (ih rest)
      · cases eq
        exact Nat.zero_le _

/-- Retention drops from the front as long as it is demanded. -/
lemma sweep_of_judged (judged : Judged checks policy now entries) :
    ∃ n, sweep checks policy now (payloadBytes entries) entries = some n ∧
      (∀ i < n, Demanded policy now (entries.drop i)) ∧
      (0 < policy.bytes → payloadBytes (entries.drop n) ≤ policy.bytes.toNat ∨ entries.drop n = []) := by
  induction entries with
  | nil => exact ⟨0, rfl, nofun, fun _ => .inr rfl⟩
  | cons e entries ih =>
    obtain ⟨fits, next, last⟩ := judged
    obtain ⟨old, eq⟩ := tooOld_isSome fits
    obtain ⟨-, is_old⟩ := tooOld_cases eq
    rw [sweep, eq]
    dsimp only
    by_cases dem : Demanded policy now (e :: entries)
    · obtain ⟨n, done, demanded, within⟩ := ih (next dem)
      have drops : old = true ∨ (0 < policy.bytes ∧ policy.bytes.toNat < payloadBytes (e :: entries)) := by
        rcases demanded_cons.mp dem with ⟨pos, exceeds⟩ | big
        · exact .inl (is_old.mpr ⟨pos, .inl exceeds⟩)
        · exact .inr big
      rw [if_pos drops, payloadBytes_tail, done]
      refine ⟨n + 1, rfl, fun i lt => ?_, within⟩
      cases i with
      | zero => exact dem
      | succ i => exact demanded i (Nat.lt_of_succ_lt_succ lt)
    · have no := mt demanded_cons.mpr dem
      have stays : ¬ (old = true ∨ (0 < policy.bytes ∧ policy.bytes.toNat < payloadBytes (e :: entries))) := by
        rintro (was | big)
        · obtain ⟨pos, exceeds | ⟨neg, exceeds⟩⟩ := is_old.mp was
          · exact no (.inl ⟨pos, exceeds⟩)
          · exact absurd (last dem pos neg) (not_le.mpr exceeds)
        · exact no (.inr big)
      rw [if_neg stays]
      refine ⟨0, rfl, nofun, fun pos => .inl (not_lt.mp fun big => stays (.inr ⟨pos, big⟩))⟩

lemma judged_of_sweep
    (eq : sweep checks policy now (payloadBytes entries) entries = some n)
    (demanded : ∀ i < n, Demanded policy now (entries.drop i)) : Judged checks policy now entries := by
  induction entries generalizing n with
  | nil => trivial
  | cons e entries ih =>
    rw [sweep] at eq
    split at eq
    · cases eq
    · rename_i old was
      obtain ⟨fits, is_old⟩ := tooOld_cases was
      split at eq
      · obtain ⟨m, rest, rfl⟩ := Option.map_eq_some_iff.mp eq
        rw [payloadBytes_tail] at rest
        have dem := demanded 0 (Nat.succ_pos m)
        refine ⟨fits, fun _ => ih rest fun i lt => ?_, fun no => absurd dem no⟩
        exact demanded (i + 1) (Nat.succ_lt_succ lt)
      · rename_i stays
        refine ⟨fits, fun dem => ?_, fun _ pos neg => ?_⟩
        · refine absurd ?_ stays
          rcases demanded_cons.mp dem with ⟨pos, exceeds⟩ | big
          · exact .inl (is_old.mpr ⟨pos, .inl exceeds⟩)
          · exact .inr big
        · exact not_lt.mp fun exceeds => stays (.inl (is_old.mpr ⟨pos, .inr ⟨neg, exceeds⟩⟩))

lemma filter_above {before after : List LogEntry} {last : LogEntry}
    (sorted : (before ++ last :: after).Pairwise (·.offset < ·.offset)) :
    (before ++ last :: after).filter (last.offset + 1 ≤ ·.offset) = after := by
  obtain ⟨-, later, earlier⟩ := List.pairwise_append.mp sorted
  have none : before.filter (last.offset + 1 ≤ ·.offset) = [] := by
    rw [List.filter_eq_nil_iff]
    intro e mem
    simpa using (earlier e mem last List.mem_cons_self).trans (Nat.lt_succ_self _)
  have all : after.filter (last.offset + 1 ≤ ·.offset) = after := by
    rw [List.filter_eq_self]
    intro e mem
    exact decide_eq_true ((List.pairwise_cons.mp later).1 e mem)
  rw [List.filter_append, none, List.nil_append, List.filter_cons_of_neg (by simp), all]

lemma SegmentLog.Sound.content_dropFirst {s : SegmentLog} (sound : s.Sound)
    (le : n ≤ s.content.length) : (s.dropFirst s.content n).2.content = s.content.drop n := by
  cases n with
  | zero => rfl
  | succ n =>
    -- the last entry that is dropped
    obtain ⟨last, look⟩ : ∃ last, s.content[n]? = some last := ⟨_, List.getElem?_eq_getElem le⟩
    have parts : s.content.take n ++ last :: s.content.drop (n + 1) = s.content := by
      rw [← List.getElem?_eq_some_iff.mp look |>.2, List.getElem_cons_drop]
      exact List.take_append_drop n s.content
    have newLow : (s.dropFirst s.content (n + 1)).2 = s.truncateBefore (last.offset + 1) := by
      simp [dropFirst, List.take_add_one, look]
    have up : s.logStart < last.offset + 1 := by
      have := List.of_mem_filter (List.mem_of_getElem? look)
      simpa [Nat.lt_succ_iff] using this
    rw [newLow, content, logStart_truncateBefore up, entries_truncateBefore sound up, List.filter_filter]
    have above : s.content.filter (last.offset + 1 ≤ ·.offset) = s.content.drop (n + 1) := by
      conv_lhs => rw [← parts]
      exact filter_above (parts.symm ▸ sound.content_pairwise)
    rw [← above, content, List.filter_filter]
    refine List.filter_congr fun e _ => ?_
    simp only [Bool.and_self, ← Bool.decide_and, decide_eq_decide]
    omega

lemma SegmentLog.applyRetention_eq {s : SegmentLog} (fits : payloadBytes s.entries ≤ usizeMax) :
    s.applyRetention checks policy now =
      (sweep checks policy now (payloadBytes s.content) s.content).map fun dropped =>
        .ok (⟨dropped, payloadBytes (s.content.take dropped), (s.dropFirst s.content dropped).1⟩,
          (s.dropFirst s.content dropped).2) := by
  rw [applyRetention, read_all fits]

/-- `apply_retention` returns and drops only what the policy demands if and only if the entries are judged
right. -/
theorem retention_demanded_iff {maxSegmentBytes : ℕ} {calls : List LogCall} {h : History}
    (hr : run History.step (History.new maxSegmentBytes) calls = some h)
    (fits : payloadBytes h.log.entries ≤ usizeMax) :
    (∃ stats after, h.log.applyRetention checks policy now = some (.ok (stats, after)) ∧
      Retained policy now h.log.content after.content) ↔ Judged checks policy now h.log.content := by
  have sound := History.sound_of_run hr
  rw [SegmentLog.applyRetention_eq fits]
  constructor
  · rintro ⟨stats, after, done, n, rest, demanded, -⟩
    obtain ⟨dropped, swept, eq⟩ := Option.map_eq_some_iff.mp done
    cases eq
    have le := sweep_le swept
    -- as many entries are gone as the loop counted
    have count : dropped ≤ n := by
      have len := congrArg List.length ((sound.content_dropFirst le).symm.trans rest)
      rw [List.length_drop, List.length_drop] at len
      omega
    exact judged_of_sweep swept fun i lt => demanded i (lt.trans_le count) (lt.trans_le le)
  · intro judged
    obtain ⟨dropped, swept, demanded, within⟩ := sweep_of_judged judged
    rw [swept]
    have rest := sound.content_dropFirst (sweep_le swept)
    exact ⟨_, _, rfl, dropped, rest, fun i lt _ => demanded i lt, by rwa [rest]⟩

/-- Of two entries one is too old. -/
theorem retention_demanded_iff_old :
    ∃ h stats after, run History.step (History.new 100) [.append [1] 0, .append [2] 9] = some h ∧
      h.log.applyRetention true ⟨5, 0⟩ 10 = some (.ok (stats, after)) ∧
      Retained ⟨5, 0⟩ 10 h.log.content after.content := by
  obtain ⟨h, hr⟩ : ∃ h, run History.step (History.new 100) [.append [1] 0, .append [2] 9] = some h := ⟨_, rfl⟩
  have judged : Judged true ⟨5, 0⟩ 10 h.log.content := by
    cases hr
    refine ⟨fun _ _ => by decide, fun _ => ⟨fun _ _ => by decide, fun _ => trivial, ?_⟩, ?_⟩
    · exact fun _ _ future => absurd future (by decide)
    · exact fun _ _ future => absurd future (by decide)
  obtain ⟨stats, after, done, retained⟩ := (retention_demanded_iff hr (by cases hr; decide)).mpr judged
  exact ⟨h, stats, after, hr, done, retained⟩

/-- An entry from the future is dropped though its age is negative, and a difference that overflows panics
in a build with checks. -/
theorem retention_drops_future :
    (run History.step (History.new 100) [.append [1] 11]).map (fun h =>
      (h.log.content, (h.log.applyRetention true ⟨5, 0⟩ 10).map (·.map (·.2.content)))) =
      some ([⟨0, 11, [1]⟩], some (.ok [])) ∧
    ¬ Retained ⟨5, 0⟩ 10 [⟨0, 11, [1]⟩] [] ∧
    (run History.step (History.new 100) [.append [1] Int64.minValue]).map (fun h =>
      (h.log.applyRetention true ⟨5, 0⟩ 10).map (·.map (·.2.content))) = some none := by
  refine ⟨by decide, ?_, by decide⟩
  rintro ⟨n, rest, demanded, -⟩
  have pos : 0 < n := by
    rcases Nat.eq_zero_or_pos n with rfl | pos
    · cases rest
    · exact pos
  exact absurd (demanded 0 pos Nat.one_pos) (by rw [List.drop_zero, demanded_cons]; decide)

end Retention

end Streams.Segments
