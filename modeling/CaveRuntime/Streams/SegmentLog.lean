import Mathlib.Algebra.Ring.Nat
import CaveRuntime.Common.Run
import CaveRuntime.Common.Utf8

/-!
# The streams broker: the segment log

Model of `SegmentLog` of `cave-streams/src/segment_log.rs`. The entries of all segments have consecutive
offsets up to the next one, whatever is called: `append` adds at the end, and retention and
`truncate_before` take from the front (`Segments.Sound`). `truncate_before` takes any watermark for the new
start, also one past the end of the log: then records that are appended afterwards are below the start and
cannot be read, and the next eviction sets the start back.

The segments are the closed ones and the active one, since there always is one. Offsets and sizes do not
reach `2 ^ 64`.
-/

namespace Streams.Segments
open Utf8 Run

structure LogEntry where
  offset : ℕ
  timestampMs : Int64
  payload : Bytes
deriving DecidableEq, Repr

structure Segment where
  baseOffset : ℕ
  byteSize : ℕ := 0
  entries : List LogEntry := []
  closed : Bool := false
deriving DecidableEq, Repr

/-- The bytes of the payloads. -/
def payloadBytes (entries : List LogEntry) : ℕ := (entries.map (·.payload.length)).sum

/-- `SegmentLog`, with the segments before the active one in `front`. -/
structure SegmentLog where
  maxSegmentBytes : ℕ
  retentionBytes : ℕ := 0
  front : List Segment := []
  active : Segment := { baseOffset := 0 }
  nextOffset : ℕ := 0
  logStart : ℕ := 0
deriving DecidableEq, Repr

/-- `StreamsError::OffsetOutOfRange`; the offset is cast to `i64`. -/
inductive ReadError where
  | offsetOutOfRange (topic : String) (partition offset : ℤ)
deriving DecidableEq, Repr

namespace SegmentLog

variable (s : SegmentLog)

def setRetentionBytes (b : ℕ) : SegmentLog := { s with retentionBytes := b }

/-- A new segment is begun if the active one would get too large. -/
def roll (needed : ℕ) : SegmentLog :=
  if 0 < s.active.byteSize ∧ s.maxSegmentBytes < s.active.byteSize + needed then
    { s with
      front := s.front ++ [{ s.active with closed := true }]
      active := { baseOffset := s.nextOffset } }
  else s

/-- The entry at the next offset is put into the active segment. -/
def push (payload : Bytes) (timestampMs : Int64) : SegmentLog :=
  { s with
    active := { s.active with
      byteSize := s.active.byteSize + payload.length
      entries := s.active.entries ++ [⟨s.nextOffset, timestampMs, payload⟩] }
    nextOffset := s.nextOffset + 1 }

def totalBytes : ℕ := ((s.front ++ [s.active]).map (·.byteSize)).sum

/-- How many segments the loop of the retention removes. -/
def evictions (retention : ℕ) : ℕ → List Segment → ℕ
  | _, [] => 0
  | total, head :: front =>
    if retention < total ∧ head.closed then evictions retention (total - head.byteSize) front + 1 else 0

/-- The number of segments that the retention removes. -/
def evicted : ℕ :=
  if 0 < s.retentionBytes ∧ s.retentionBytes < s.totalBytes then
    evictions s.retentionBytes s.totalBytes s.front
  else 0

/-- Segments are removed, and the log starts after the last one of them. -/
def evict : SegmentLog :=
  { s with
    front := s.front.drop s.evicted
    logStart := ((s.front.take s.evicted).getLast?.map fun head =>
      (head.entries.getLast?.map (·.offset + 1)).getD head.baseOffset).getD s.logStart }

/-- `append`, with the offset that it returns. -/
def append (payload : Bytes) (timestampMs : Int64) : ℕ × SegmentLog :=
  (s.nextOffset, ((s.roll payload.length).push payload timestampMs).evict)

/-- All entries, oldest first. -/
def entries (s : SegmentLog) : List LogEntry := s.front.flatMap (·.entries) ++ s.active.entries

/-- The entries that a read returns after the first one. -/
def collect (maxBytes : ℕ) : ℕ → List LogEntry → List LogEntry
  | _, [] => []
  | bytes, e :: entries =>
    if maxBytes < bytes + e.payload.length then []
    else e :: collect maxBytes (bytes + e.payload.length) entries

/-- The entries that a read returns of those from its offset on. -/
def collectFirst (maxBytes : ℕ) : List LogEntry → List LogEntry
  | [] => []
  | e :: entries => e :: collect maxBytes e.payload.length entries

def read (fromOffset maxBytes : ℕ) : Except ReadError (List LogEntry) :=
  if fromOffset < s.logStart then .error (.offsetOutOfRange "" 0 (Int.bmod fromOffset (2 ^ 64)))
  else .ok (collectFirst maxBytes (s.entries.filter (fromOffset ≤ ·.offset)))

/-- The loop of `truncate_before`; it never removes the last segment. -/
def dropBelow (lowWatermark : ℕ) : List Segment → List Segment
  | [] => []
  | first :: front =>
    if (first.entries.getLast?.map (·.offset)).getD first.baseOffset < lowWatermark then
      dropBelow lowWatermark front
    else first :: front

def trim (lowWatermark : ℕ) (first : Segment) : Segment :=
  let entries := first.entries.filter (lowWatermark ≤ ·.offset)
  { first with entries, byteSize := payloadBytes entries }

def truncateBefore (lowWatermark : ℕ) : SegmentLog :=
  if lowWatermark ≤ s.logStart then s
  else
    match dropBelow lowWatermark s.front with
    | [] => { s with front := [], active := trim lowWatermark s.active, logStart := lowWatermark }
    | first :: front => { s with front := trim lowWatermark first :: front, logStart := lowWatermark }

end SegmentLog

/-! ## Consecutive offsets -/

/-- The offsets go up to the next one, one by one. -/
def Consecutive (next : ℕ) (entries : List LogEntry) : Prop :=
  ∀ i e, entries[i]? = some e → e.offset + entries.length = next + i

section Consecutive

variable {next : ℕ} {entries entries' : List LogEntry}

section

variable (con : Consecutive next entries)

include con

lemma Consecutive.suffix (suf : entries' <:+ entries) :
    Consecutive next entries' := by
  obtain ⟨before, rfl⟩ := suf
  intro i e look
  have here := con (before.length + i) e (by rw [List.getElem?_append_right (by omega)]; simpa using look)
  rw [List.length_append] at here
  omega

lemma Consecutive.concat (timestampMs : Int64) (payload : Bytes) :
    Consecutive (next + 1) (entries ++ [⟨next, timestampMs, payload⟩]) := by
  intro i e look
  rw [List.length_append, List.length_singleton]
  rcases Nat.lt_or_ge i entries.length with lt | ge
  · rw [List.getElem?_append_left lt] at look
    have := con i e look
    omega
  · rw [List.getElem?_append_right ge, List.getElem?_singleton] at look
    split at look
    · cases look
      dsimp only
      omega
    · cases look

lemma Consecutive.pairwise : entries.Pairwise (·.offset < ·.offset) := by
  rw [List.pairwise_iff_getElem]
  intro i j hi hj lt
  have first := con i _ (List.getElem?_eq_getElem hi)
  have second := con j _ (List.getElem?_eq_getElem hj)
  omega

lemma Consecutive.lt {e : LogEntry} (mem : e ∈ entries) : e.offset < next := by
  obtain ⟨i, hi, rfl⟩ := List.mem_iff_getElem.mp mem
  have := con i _ (List.getElem?_eq_getElem hi)
  omega

end

lemma filter_suffix (sorted : entries.Pairwise (·.offset < ·.offset)) (low : ℕ) :
    entries.filter (low ≤ ·.offset) <:+ entries := by
  induction entries with
  | nil => exact List.suffix_rfl
  | cons e entries ih =>
    obtain ⟨later, sorted⟩ := List.pairwise_cons.mp sorted
    by_cases le : low ≤ e.offset
    · have all : (e :: entries).filter (low ≤ ·.offset) = e :: entries := by
        rw [List.filter_eq_self]
        intro e' mem
        rcases List.mem_cons.mp mem with rfl | mem
        · simpa using le
        · simpa using le.trans (later e' mem).le
      exact all.symm ▸ List.suffix_rfl
    · rw [List.filter_cons_of_neg (by simpa using le)]
      exact (ih sorted).trans (List.suffix_cons e entries)

lemma le_getLast (sorted : entries.Pairwise (·.offset < ·.offset)) {last e : LogEntry}
    (look : entries.getLast? = some last) (mem : e ∈ entries) : e.offset ≤ last.offset := by
  obtain ⟨before, rfl⟩ := List.getLast?_eq_some_iff.mp look
  rcases List.mem_append.mp mem with old | new
  · exact ((List.pairwise_append.mp sorted).2.2 e old last (List.mem_singleton_self last)).le
  · rw [List.mem_singleton.mp new]

end Consecutive

namespace SegmentLog

/-- The segments that the loop of `truncate_before` removes have no entry from the watermark on, and those
that it does not look at have no other. -/
lemma filter_dropBelow {low : ℕ} {front : List Segment} {rest : List LogEntry}
    (filled : ∀ seg ∈ front, seg.entries ≠ [])
    (sorted : (front.flatMap (·.entries) ++ rest).Pairwise (·.offset < ·.offset)) :
    (front.flatMap (·.entries) ++ rest).filter (low ≤ ·.offset) =
      match dropBelow low front with
      | [] => rest.filter (low ≤ ·.offset)
      | first :: front => (trim low first :: front).flatMap (·.entries) ++ rest := by
  induction front with
  | nil => rfl
  | cons first front ih =>
    rw [List.flatMap_cons, List.append_assoc] at sorted ⊢
    obtain ⟨here, later, between⟩ := List.pairwise_append.mp sorted
    obtain ⟨last, look⟩ : ∃ last, first.entries.getLast? = some last :=
      Option.ne_none_iff_exists'.mp (mt List.getLast?_eq_none_iff.mp (filled first List.mem_cons_self))
    rw [List.filter_append, dropBelow, look]
    simp only [Option.map_some, Option.getD_some]
    by_cases below : last.offset < low
    · rw [if_pos below]
      have none : first.entries.filter (low ≤ ·.offset) = [] := by
        rw [List.filter_eq_nil_iff]
        intro e mem
        have := le_getLast here look mem
        simp only [decide_eq_true_eq]
        omega
      rw [none, List.nil_append, ih (fun seg mem => filled seg (List.mem_cons_of_mem _ mem)) later]
    · rw [if_neg below]
      have all : (front.flatMap (·.entries) ++ rest).filter (low ≤ ·.offset) =
          front.flatMap (·.entries) ++ rest := by
        rw [List.filter_eq_self]
        intro e mem
        have := between last (List.mem_of_getLast? look) e mem
        simp only [decide_eq_true_eq]
        omega
      rw [all]
      exact (List.append_assoc _ _ _).symm

lemma dropBelow_cons {low : ℕ} {front rest : List Segment} {first : Segment}
    (eq : dropBelow low front = first :: rest) :
    first :: rest <:+ front ∧ low ≤ (first.entries.getLast?.map (·.offset)).getD first.baseOffset := by
  induction front with
  | nil => cases eq
  | cons seg front ih =>
    unfold dropBelow at eq
    split at eq
    · obtain ⟨suffix, reaches⟩ := ih eq
      exact ⟨suffix.trans (List.suffix_cons seg front), reaches⟩
    · rename_i reaches
      cases eq
      exact ⟨List.suffix_rfl, Nat.not_lt.mp reaches⟩

/-- What holds of every log. -/
structure Sound (s : SegmentLog) : Prop where
  consecutive : Consecutive s.nextOffset s.entries
  filled : ∀ seg ∈ s.front, seg.entries ≠ []
  size : s.active.entries = [] → s.active.byteSize = 0

variable {s : SegmentLog}

lemma entries_roll (s : SegmentLog) (needed : ℕ) : (s.roll needed).entries = s.entries := by
  unfold roll
  split
  · simp [entries]
  · rfl

lemma entries_evict (s : SegmentLog) :
    s.entries = (s.front.take s.evicted).flatMap (·.entries) ++ s.evict.entries := by
  have front : s.front = s.front.take s.evicted ++ s.front.drop s.evicted := (List.take_append_drop _ _).symm
  unfold evict entries
  conv_lhs => rw [front, List.flatMap_append, List.append_assoc]

lemma nextOffset_push (s : SegmentLog) (payload : Bytes) (timestampMs : Int64) :
    ((s.roll payload.length).push payload timestampMs).nextOffset = s.nextOffset + 1 := by
  unfold roll
  split <;> rfl

lemma logStart_push (s : SegmentLog) (payload : Bytes) (timestampMs : Int64) :
    ((s.roll payload.length).push payload timestampMs).logStart = s.logStart := by
  unfold roll
  split <;> rfl

lemma entries_append (s : SegmentLog) (payload : Bytes) (timestampMs : Int64) :
    ((s.roll payload.length).push payload timestampMs).entries =
      s.entries ++ [⟨s.nextOffset, timestampMs, payload⟩] := by
  have next : (s.roll payload.length).nextOffset = s.nextOffset := by
    unfold roll
    split <;> rfl
  rw [← entries_roll s payload.length, ← next]
  simp [push, entries]

lemma nextOffset_truncateBefore (s : SegmentLog) (low : ℕ) :
    (s.truncateBefore low).nextOffset = s.nextOffset := by
  unfold truncateBefore
  split
  · rfl
  · split <;> rfl

lemma logStart_truncateBefore {s : SegmentLog} {low : ℕ} (up : s.logStart < low) :
    (s.truncateBefore low).logStart = low := by
  rw [truncateBefore, if_neg (Nat.not_le.mpr up)]
  split <;> rfl

lemma entries_truncateBefore (sound : s.Sound) {low : ℕ} (up : s.logStart < low) :
    (s.truncateBefore low).entries = s.entries.filter (low ≤ ·.offset) := by
  have cut := @filter_dropBelow low _ _ sound.filled sound.consecutive.pairwise
  unfold truncateBefore entries at *
  rw [if_neg (Nat.not_le.mpr up), cut]
  cases dropBelow low s.front <;> rfl

namespace Sound

lemma push (sound : s.Sound) (payload : Bytes) (timestampMs : Int64) :
    ((s.roll payload.length).push payload timestampMs).Sound := by
  refine ⟨?_, ?_, fun none => ?_⟩
  · rw [entries_append, nextOffset_push]
    exact sound.consecutive.concat timestampMs payload
  · show ∀ seg ∈ (s.roll payload.length).front, seg.entries ≠ []
    unfold roll
    split
    · rename_i large
      intro seg mem
      rcases List.mem_append.mp mem with old | new
      · exact sound.filled seg old
      · rw [List.mem_singleton.mp new]
        exact fun none => Nat.ne_of_gt large.1 (sound.size none)
    · exact sound.filled
  · simp [SegmentLog.push] at none

lemma evict (sound : s.Sound) : s.evict.Sound :=
  ⟨sound.consecutive.suffix ⟨_, s.entries_evict.symm⟩, fun seg mem => sound.filled seg (List.mem_of_mem_drop mem),
    sound.size⟩

lemma truncateBefore (sound : s.Sound) (low : ℕ) : (s.truncateBefore low).Sound := by
  rcases Nat.lt_or_ge s.logStart low with up | le
  · have cut := entries_truncateBefore sound up
    have suffix := filter_suffix sound.consecutive.pairwise low
    have kept := cut ▸ sound.consecutive.suffix suffix
    unfold SegmentLog.truncateBefore at kept ⊢
    rw [if_neg (Nat.not_le.mpr up)] at kept ⊢
    cases eq : dropBelow low s.front with
    | nil =>
      rw [eq] at kept
      exact ⟨kept, nofun, fun none => congrArg payloadBytes none⟩
    | cons first front =>
      rw [eq] at kept
      obtain ⟨suffix, reaches⟩ := dropBelow_cons eq
      refine ⟨kept, fun seg mem => ?_, sound.size⟩
      rcases List.mem_cons.mp mem with rfl | mem
      · -- its last entry is left
        obtain ⟨last, look⟩ := Option.ne_none_iff_exists'.mp
          (mt List.getLast?_eq_none_iff.mp (sound.filled first (suffix.subset List.mem_cons_self)))
        rw [look] at reaches
        refine List.ne_nil_of_mem (List.mem_filter.mpr ⟨List.mem_of_getLast? look, ?_⟩)
        simpa using reaches
      · exact sound.filled seg (suffix.subset (List.mem_cons_of_mem _ mem))
  · rw [SegmentLog.truncateBefore, if_pos le]
    exact sound

end Sound

end SegmentLog

/-! ## Reads -/

section Reads

variable {next low maxBytes : ℕ} {entries : List LogEntry}

lemma filter_from (con : Consecutive next entries) {e : LogEntry} (mem : e ∈ entries) :
    ∃ rest, entries.filter (e.offset ≤ ·.offset) = e :: rest := by
  have con' := con.suffix (filter_suffix con.pairwise e.offset)
  have mem' : e ∈ entries.filter (e.offset ≤ ·.offset) := List.mem_filter.mpr ⟨mem, by simp⟩
  have above : ∀ e' ∈ entries.filter (e.offset ≤ ·.offset), e.offset ≤ e'.offset := fun e' mem => by
    simpa using (List.mem_filter.mp mem).2
  generalize entries.filter (e.offset ≤ ·.offset) = rest at con' mem' above
  cases rest with
  | nil => cases mem'
  | cons e' rest =>
    obtain ⟨i, hi, eq⟩ := List.mem_iff_getElem.mp mem'
    have here := con' i e (eq ▸ List.getElem?_eq_getElem hi)
    have first := con' 0 e' rfl
    have := above e' List.mem_cons_self
    have zero : i = 0 := by omega
    subst zero
    exact ⟨rest, by rw [← eq]; rfl⟩

lemma collect_spec (bytes : ℕ) (entries : List LogEntry) :
    SegmentLog.collect maxBytes bytes entries <+: entries ∧
      (SegmentLog.collect maxBytes bytes entries = [] ∨
        bytes + payloadBytes (SegmentLog.collect maxBytes bytes entries) ≤ maxBytes) := by
  induction entries generalizing bytes with
  | nil => exact ⟨List.prefix_rfl, .inl rfl⟩
  | cons e entries ih =>
    unfold SegmentLog.collect
    split
    · exact ⟨List.nil_prefix, .inl rfl⟩
    · rename_i fits
      obtain ⟨pre, total⟩ := ih (bytes + e.payload.length)
      refine ⟨List.cons_prefix_cons.mpr ⟨rfl, pre⟩, .inr ?_⟩
      rcases total with none | total
      · simp only [none, payloadBytes, List.map_cons, List.map_nil, List.sum_cons, List.sum_nil]
        omega
      · simp only [payloadBytes, List.map_cons, List.sum_cons] at total ⊢
        omega

/-- A read returns consecutive entries, of so many bytes unless there is only one. -/
lemma collectFirst_spec (con : Consecutive next entries) :
    (∃ first, (SegmentLog.collectFirst maxBytes entries).map (·.offset) =
      List.range' first (SegmentLog.collectFirst maxBytes entries).length) ∧
    ((SegmentLog.collectFirst maxBytes entries).length ≤ 1 ∨
      payloadBytes (SegmentLog.collectFirst maxBytes entries) ≤ maxBytes) := by
  cases entries with
  | nil => exact ⟨⟨0, rfl⟩, .inl (Nat.zero_le _)⟩
  | cons e entries =>
    obtain ⟨pre, total⟩ := @collect_spec maxBytes e.payload.length entries
    have pre : SegmentLog.collectFirst maxBytes (e :: entries) <+: e :: entries :=
      List.cons_prefix_cons.mpr ⟨rfl, pre⟩
    refine ⟨⟨e.offset, List.ext_getElem (by simp) fun i hi hi' => ?_⟩, ?_⟩
    · have hi : i < (SegmentLog.collectFirst maxBytes (e :: entries)).length := by simpa using hi
      have first := con 0 e rfl
      have here := con i _ (List.getElem?_eq_getElem (hi.trans_le pre.length_le))
      rw [← pre.getElem hi] at here
      simp only [List.getElem_map, List.getElem_range']
      omega
    · rcases total with none | total
      · exact .inl (by simp [SegmentLog.collectFirst, none])
      · exact .inr (by simpa [SegmentLog.collectFirst, payloadBytes] using total)

end Reads

/-! ## Runs -/

/-- The calls that change a log. -/
inductive LogCall where
  | append (payload : Bytes) (timestampMs : Int64)
  | setRetentionBytes (b : ℕ)
  | truncateBefore (lowWatermark : ℕ)
deriving DecidableEq, Repr

/-- A log, the offsets that `append` has returned, and the records that are neither evicted nor below a
watermark that came after them. -/
structure History where
  log : SegmentLog
  returned : List ℕ := []
  owed : List LogEntry := []

namespace History

def step (h : History) : LogCall → Option History
  | .append payload timestampMs =>
    let full := (h.log.roll payload.length).push payload timestampMs
    let gone := (full.front.take full.evicted).flatMap (·.entries)
    let (offset, log) := h.log.append payload timestampMs
    let new : LogEntry := ⟨offset, timestampMs, payload⟩
    some ⟨log, h.returned ++ [offset], (h.owed ++ [new]).filter (· ∉ gone)⟩
  | .setRetentionBytes b => some { h with log := h.log.setRetentionBytes b }
  | .truncateBefore lowWatermark =>
    some { h with
      log := h.log.truncateBefore lowWatermark
      owed := h.owed.filter (lowWatermark ≤ ·.offset) }

/-- No watermark is past the end of the log. -/
def Within (h : History) : LogCall → Prop
  | .truncateBefore lowWatermark => lowWatermark ≤ h.log.nextOffset
  | _ => True

instance (h : History) : (call : LogCall) → Decidable (h.Within call)
  | .truncateBefore _ => inferInstanceAs (Decidable (_ ≤ _))
  | .append _ _ | .setRetentionBytes _ => inferInstanceAs (Decidable True)

/-- The invariant: the log starts at its first entry, and every record that is owed is there. -/
structure Kept (h : History) : Prop where
  sound : h.log.Sound
  start : h.log.logStart + h.log.entries.length = h.log.nextOffset
  returned : h.returned = List.range h.log.nextOffset
  owed : h.owed ⊆ h.log.entries

lemma evict_start {s : SegmentLog} (con : Consecutive s.nextOffset s.entries)
    (filled : ∀ seg ∈ s.front, seg.entries ≠ []) (start : s.logStart + s.entries.length = s.nextOffset) :
    s.evict.logStart + s.evict.entries.length = s.nextOffset := by
  have whole := s.entries_evict
  cases last : (s.front.take s.evicted).getLast? with
  | none =>
    rw [List.getLast?_eq_none_iff.mp last, List.flatMap_nil, List.nil_append] at whole
    have now : s.evict.logStart = s.logStart := by simp [SegmentLog.evict, last]
    rw [now, ← whole]
    exact start
  | some head =>
    obtain ⟨before, eq⟩ := List.getLast?_eq_some_iff.mp last
    have mem : head ∈ s.front := List.mem_of_mem_take (List.mem_of_getLast? last)
    obtain ⟨e, look⟩ := Option.ne_none_iff_exists'.mp (mt List.getLast?_eq_none_iff.mp (filled head mem))
    obtain ⟨init, eq'⟩ := List.getLast?_eq_some_iff.mp look
    have shape : s.entries = (before.flatMap (·.entries) ++ init) ++ e :: s.evict.entries := by
      conv_lhs => rw [whole, eq]
      simp [eq']
    have here := con (before.flatMap (·.entries) ++ init).length e (by simp [shape])
    rw [shape] at here
    have now : s.evict.logStart = e.offset + 1 := by simp [SegmentLog.evict, last, look]
    simp only [List.length_append, List.length_cons] at here
    omega

lemma filter_start {next low start : ℕ} {entries : List LogEntry} (con : Consecutive next entries)
    (first : start + entries.length = next) (up : start < low) (within : low ≤ next) :
    low + (entries.filter (low ≤ ·.offset)).length = next := by
  have con' := con.suffix (filter_suffix con.pairwise low)
  have above : ∀ e ∈ entries.filter (low ≤ ·.offset), low ≤ e.offset := fun e mem => by
    simpa using (List.mem_filter.mp mem).2
  have there : low < next → ∃ e ∈ entries.filter (low ≤ ·.offset), e.offset = low := by
    intro lt
    have hi : low - start < entries.length := by omega
    have here := con (low - start) _ (List.getElem?_eq_getElem hi)
    have eq : entries[low - start].offset = low := by omega
    exact ⟨_, List.mem_filter.mpr ⟨List.getElem_mem hi, by simp [eq]⟩, eq⟩
  generalize entries.filter (low ≤ ·.offset) = rest at con' above there
  cases rest with
  | nil =>
    rcases within.lt_or_eq with lt | eq
    · obtain ⟨e, mem, -⟩ := there lt
      cases mem
    · exact eq
  | cons e rest =>
    have lowest := above e List.mem_cons_self
    have at0 := con' 0 e rfl
    rcases within.lt_or_eq with lt | eq
    · obtain ⟨e', mem, eq⟩ := there lt
      obtain ⟨i, hi, rfl⟩ := List.mem_iff_getElem.mp mem
      have := con' i _ (List.getElem?_eq_getElem hi)
      omega
    · rw [List.length_cons] at at0 ⊢
      omega

variable {h h' : History}

lemma sound_step {call : LogCall} (sound : h.log.Sound) (st : h.step call = some h') : h'.log.Sound := by
  cases call with
  | append payload timestampMs =>
    cases st
    exact (sound.push payload timestampMs).evict
  | setRetentionBytes b =>
    cases st
    exact ⟨sound.consecutive, sound.filled, sound.size⟩
  | truncateBefore low =>
    cases st
    exact sound.truncateBefore low

lemma Kept.append (kept : h.Kept) {payload : Bytes} {timestampMs : Int64}
    (st : h.step (.append payload timestampMs) = some h') :
    h'.Kept ∧ h.log.logStart ≤ h'.log.logStart := by
  cases st
  have full := kept.sound.push payload timestampMs
  have whole := ((h.log.roll payload.length).push payload timestampMs).entries_evict
  have next := h.log.nextOffset_push payload timestampMs
  have start := evict_start full.consecutive full.filled (by
    rw [h.log.entries_append, next, h.log.logStart_push, List.length_append, List.length_singleton]
    have := kept.start
    omega)
  refine ⟨⟨full.evict, start, ?_, ?_⟩, ?_⟩
  · exact (congrArg (· ++ [h.log.nextOffset]) kept.returned).trans
      ((congrArg List.range next).trans List.range_succ).symm
  · intro e mem
    obtain ⟨mem, stays⟩ := List.mem_filter.mp mem
    have there : e ∈ h.log.entries ++ [⟨h.log.nextOffset, timestampMs, payload⟩] := by
      rcases List.mem_append.mp mem with old | new
      · exact List.mem_append_left _ (kept.owed old)
      · exact List.mem_append_right _ new
    rw [← h.log.entries_append, whole] at there
    exact (List.mem_append.mp there).resolve_left (by simpa using stays)
  · have length := congrArg List.length whole
    rw [h.log.entries_append, List.length_append, List.length_append, List.length_singleton] at length
    rw [next] at start
    have := kept.start
    show h.log.logStart ≤ ((h.log.roll payload.length).push payload timestampMs).evict.logStart
    omega

lemma Kept.truncateBefore (kept : h.Kept) {low : ℕ} (within : low ≤ h.log.nextOffset)
    (st : h.step (.truncateBefore low) = some h') : h'.Kept ∧ h.log.logStart ≤ h'.log.logStart := by
  cases st
  have sound := kept.sound.truncateBefore low
  rcases Nat.lt_or_ge h.log.logStart low with up | le
  · have cut := SegmentLog.entries_truncateBefore kept.sound up
    have start := SegmentLog.logStart_truncateBefore up
    have next := h.log.nextOffset_truncateBefore low
    refine ⟨⟨sound, ?_, ?_, fun e mem => ?_⟩, ?_⟩
    · dsimp only
      rw [cut, start, next]
      exact filter_start kept.sound.consecutive kept.start up within
    · exact kept.returned.trans (congrArg List.range next.symm)
    · obtain ⟨mem, above⟩ := List.mem_filter.mp mem
      exact cut ▸ List.mem_filter.mpr ⟨kept.owed mem, above⟩
    · exact up.le.trans start.ge
  · have same : h.log.truncateBefore low = h.log := if_pos le
    rw [same]
    exact ⟨⟨kept.sound, kept.start, kept.returned, fun e mem => kept.owed (List.mem_filter.mp mem).1⟩, le_rfl⟩

/-- One call within the log keeps the invariant, and does not set the start back. -/
lemma Kept.step {call : LogCall} (kept : h.Kept) (within : h.Within call) (st : h.step call = some h') :
    h'.Kept ∧ h.log.logStart ≤ h'.log.logStart := by
  cases call with
  | append payload timestampMs => exact kept.append st
  | truncateBefore low => exact kept.truncateBefore within st
  | setRetentionBytes b =>
    cases st
    exact ⟨⟨⟨kept.sound.consecutive, kept.sound.filled, kept.sound.size⟩, kept.start, kept.returned, kept.owed⟩,
      le_rfl⟩

/-- What `SegmentLog` promises: consecutive offsets, a start that does not go back, every record that is owed
first in a read from its offset, and reads of consecutive entries within their limit. -/
structure Readable (h : History) : Prop where
  returned : h.returned = List.range h.returned.length
  start : ∀ call h', h.Within call → h.step call = some h' → h.log.logStart ≤ h'.log.logStart
  owed : ∀ e ∈ h.owed, ∀ maxBytes, ∃ rest, h.log.read e.offset maxBytes = .ok (e :: rest)
  reads : ∀ fromOffset maxBytes out, h.log.read fromOffset maxBytes = .ok out →
    (∃ first, out.map (·.offset) = List.range' first out.length) ∧
      (out.length ≤ 1 ∨ payloadBytes out ≤ maxBytes)

lemma Kept.readable (kept : h.Kept) : h.Readable where
  returned := by rw [kept.returned, List.length_range]
  start _ _ within st := (kept.step within st).2
  owed e mem maxBytes := by
    have mem := kept.owed mem
    obtain ⟨rest, eq⟩ := filter_from kept.sound.consecutive mem
    obtain ⟨i, hi, rfl⟩ := List.mem_iff_getElem.mp mem
    have here := kept.sound.consecutive i _ (List.getElem?_eq_getElem hi)
    have start := kept.start
    have done : h.log.read h.log.entries[i].offset maxBytes =
        .ok (SegmentLog.collectFirst maxBytes (h.log.entries[i] :: rest)) := by
      rw [SegmentLog.read, if_neg (by omega), eq]
    exact ⟨_, done⟩
  reads fromOffset maxBytes out done := by
    unfold SegmentLog.read at done
    split at done
    · cases done
    · cases done
      exact collectFirst_spec (kept.sound.consecutive.suffix
        (filter_suffix kept.sound.consecutive.pairwise fromOffset))

/-- A log that was just made. -/
def new (maxSegmentBytes : ℕ) : History := ⟨{ maxSegmentBytes }, [], []⟩

lemma sound_new (maxSegmentBytes : ℕ) : (new maxSegmentBytes).log.Sound :=
  ⟨fun i e look => (by cases look), nofun, fun _ => rfl⟩

lemma sound_of_run {maxSegmentBytes : ℕ} {calls : List LogCall}
    (hr : run step (new maxSegmentBytes) calls = some h) : h.log.Sound :=
  invariant_of_run (P := fun h : History => h.log.Sound) sound_step hr (sound_new maxSegmentBytes)

/-- In every run, whatever the watermarks, the entries have consecutive offsets up to the next one. -/
theorem offsets_consecutive {maxSegmentBytes : ℕ} {calls : List LogCall}
    (hr : run step (new maxSegmentBytes) calls = some h) : Consecutive h.log.nextOffset h.log.entries :=
  (sound_of_run hr).consecutive

/-- The log rolls at each entry, evicts the first one, and goes on after a watermark past its end. -/
theorem offsets_consecutive_past_end :
    ∃ h, run step (new 1) [.setRetentionBytes 2, .append [1] 0, .append [2] 0, .append [3] 0, .truncateBefore 9,
        .append [4] 0, .append [5] 0] = some h ∧
      h.log.entries.map (·.offset) = [3, 4] ∧ Consecutive h.log.nextOffset h.log.entries :=
  have hr : run step (new 1) [.setRetentionBytes 2, .append [1] 0, .append [2] 0, .append [3] 0, .truncateBefore 9,
    .append [4] 0, .append [5] 0] = some _ := rfl
  ⟨_, hr, by decide, offsets_consecutive hr⟩

/-- In every run in which no watermark is past the end of the log, the log keeps its promises. -/
theorem appended_readable {maxSegmentBytes : ℕ} {calls : List LogCall}
    (within : Guarded step Within (new maxSegmentBytes) calls)
    (hr : run step (new maxSegmentBytes) calls = some h) : h.Readable := by
  have start : (new maxSegmentBytes).Kept :=
    ⟨sound_new maxSegmentBytes, rfl, rfl, List.Subset.refl _⟩
  exact (invariant_of_guarded (fun kept within st => (kept.step within st).1) within hr start).readable

theorem appended_readable_truncated :
    Guarded step Within (new 10) [.append [1] 0, .append [2] 0, .truncateBefore 1] ∧
      ∃ h, run step (new 10) [.append [1] 0, .append [2] 0, .truncateBefore 1] = some h ∧ h.Readable := by
  have within : Guarded step Within (new 10) [.append [1] 0, .append [2] 0, .truncateBefore 1] := by decide
  exact ⟨within, _, rfl, appended_readable within rfl⟩

/-- After a watermark past the end a record that is appended cannot be read, and an eviction sets the start
back. -/
theorem appended_unreadable :
    ((run step (new 10) [.truncateBefore 5, .append [7] 0]).map fun h =>
        (h.owed, h.log.read 0 100)) = some ([⟨0, 0, [7]⟩], .error (.offsetOutOfRange "" 0 0)) ∧
    ((run step (new 1) [.setRetentionBytes 1, .truncateBefore 5]).map (·.log.logStart)) = some 5 ∧
    ((run step (new 1) [.setRetentionBytes 1, .truncateBefore 5, .append [7] 0, .append [8] 0]).map
      (·.log.logStart)) = some 1 := by
  decide

end History

end Streams.Segments
