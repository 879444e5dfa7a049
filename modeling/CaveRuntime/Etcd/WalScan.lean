import Mathlib.Data.List.Forall2
import Mathlib.Data.List.FinRange
import Mathlib.Order.Bounds.Basic
import CaveRuntime.Etcd.Wal

/-!
# The write-ahead log of cave-etcd: the two read loops

`scan_for_valid_end` and `replay_file` read the same frames (`Framing`) but part at a frame whose CRC is
right and whose payload is no record: the scan counts it, the replay fails. On a file without such a
frame the replay of what `Wal::open` keeps returns as many records as the scan counted, with the greatest
entry index it found. On a file with one, `Wal::open` succeeds and `replay_into_store` then applies
nothing.
-/

namespace Etcd
open Utf8

variable {codec : WalCodec}

/-- The bytes start with frames that have the right CRC and the given payloads, and go on with `tail`. -/
inductive Framing (codec : WalCodec) : Bytes → List Bytes → Bytes → Prop
  | nil {b : Bytes} : Framing codec b [] b
  | cons {b payload rest tail : Bytes} {ps : List Bytes} :
      nextFrame b = some (codec.hash payload, payload, rest) → Framing codec rest ps tail →
      Framing codec b (payload :: ps) tail

/-- The number of bytes of the frames with the given payloads. -/
def framesLen (ps : List Bytes) : ℕ := (ps.map fun p => recordHeaderLen + p.length).sum

variable {b payload : Bytes} {ps : List Bytes} {s : Scan} {file : Bytes}

lemma nextFrame_eq_some {rest : Bytes} {crc : UInt32} :
    nextFrame b = some (crc, payload, rest) ↔
      recordHeaderLen + payload.length + rest.length = b.length ∧
      payload.length ≤ maxPayloadLen ∧ (fromLeBytes b).toNat = payload.length ∧
      fromLeBytes (b.drop 4) = crc ∧ b.drop recordHeaderLen = payload ++ rest := by
  unfold nextFrame
  split
  · rename_i short
    constructor
    · intro h
      cases h
    · rintro ⟨len, -⟩
      omega
  · rename_i long
    dsimp only
    split
    · rename_i large
      constructor
      · intro h
        cases h
      · rintro ⟨-, fits, len, -⟩
        omega
    · rename_i fits
      split
      · rename_i cut
        constructor
        · intro h
          cases h
        · rintro ⟨total, -, len, -⟩
          rw [List.length_drop] at cut
          omega
      · rename_i whole
        rw [Nat.not_lt] at whole
        constructor
        · intro h
          cases h
          rw [List.length_take_of_le whole, List.length_drop, List.length_drop,
            List.take_append_drop]
          rw [List.length_drop] at whole
          exact ⟨by omega, by omega, rfl, rfl, rfl⟩
        · rintro ⟨total, -, len, rfl, body⟩
          rw [body, len, List.take_left, List.drop_left]

lemma fromLeBytes_take {k : ℕ} (four : 4 ≤ k) (b : Bytes) : fromLeBytes (b.take k) = fromLeBytes b := by
  have same {i : ℕ} (lt : i < 4) : (b.take k).getD i 0 = b.getD i 0 := by
    rw [List.getD_eq_getElem?_getD, List.getElem?_take_of_lt (by omega),
      List.getD_eq_getElem?_getD]
  simp only [fromLeBytes, same (show 0 < 4 by omega), same (show 1 < 4 by omega),
    same (show 2 < 4 by omega), same (show 3 < 4 by omega)]

@[simp] lemma length_toLeBytes (x : UInt32) : (toLeBytes x).length = 4 := rfl

lemma fromLeBytes_toLeBytes (x : UInt32) (b : Bytes) : fromLeBytes (toLeBytes x ++ b) = x := by
  have lt := x.toNat_lt
  have sum : x.toNat % 2 ^ 8 + 2 ^ 8 * (x.toNat / 2 ^ 8 % 2 ^ 8) +
      2 ^ 16 * (x.toNat / 2 ^ 16 % 2 ^ 8) + 2 ^ 24 * (x.toNat / 2 ^ 24 % 2 ^ 8) = x.toNat := by
    omega
  simp only [fromLeBytes, toLeBytes, List.cons_append, List.nil_append, List.getD_cons_zero,
    List.getD_cons_succ, UInt8.toNat_ofNat', sum, UInt32.ofNat_toNat]

lemma length_frameOf (payload : Bytes) : (frameOf codec payload).length = 8 + payload.length := by
  simp [frameOf]
  omega

lemma fromLeBytes_frameOf (codec : WalCodec) (fits : payload.length ≤ maxPayloadLen)
    (tail : Bytes) :
    (fromLeBytes (frameOf codec payload ++ tail)).toNat = payload.length := by
  rw [frameOf, List.append_assoc, List.append_assoc, fromLeBytes_toLeBytes, UInt32.toNat_ofNat',
    Nat.mod_eq_of_lt]
  unfold maxPayloadLen at fits
  omega

lemma nextFrame_frameOf {tail : Bytes} (fits : payload.length ≤ maxPayloadLen) :
    nextFrame (frameOf codec payload ++ tail) = some (codec.hash payload, payload, tail) := by
  apply nextFrame_eq_some.mpr
  refine ⟨?_, fits, fromLeBytes_frameOf codec fits tail, ?_, ?_⟩
  · rw [List.length_append, length_frameOf]
    rfl
  · rw [frameOf, List.append_assoc, List.append_assoc, List.drop_left' (length_toLeBytes _),
      fromLeBytes_toLeBytes]
  · rw [frameOf, List.append_assoc]
    exact List.drop_left' (by simp [recordHeaderLen])

lemma nextFrame_take {rest : Bytes} {crc : UInt32}
    (next : nextFrame b = some (crc, payload, rest)) (m : ℕ) :
    nextFrame (b.take (recordHeaderLen + payload.length + m)) = some (crc, payload, rest.take m) := by
  obtain ⟨total, fits, len, rfl, body⟩ := nextFrame_eq_some.mp next
  apply nextFrame_eq_some.mpr
  refine ⟨?_, fits, ?_, ?_, ?_⟩
  · rw [List.length_take, List.length_take]
    omega
  · rw [fromLeBytes_take (by unfold recordHeaderLen; omega), len]
  · rw [List.drop_take, fromLeBytes_take (by unfold recordHeaderLen; omega)]
  · rw [List.drop_take, body, Nat.add_assoc, Nat.add_sub_cancel_left, List.take_length_add_append]

namespace Framing

variable {b tail : Bytes} {ps : List Bytes}

variable (h : Framing codec b ps tail)

include h

lemma length : framesLen ps + tail.length = b.length := by
  induction h with
  | nil => exact Nat.zero_add _
  | cons next _ ih =>
    have total := (nextFrame_eq_some.mp next).1
    simp only [framesLen, List.map_cons, List.sum_cons] at ih ⊢
    omega

lemma length_le : ps.length ≤ b.length := by
  induction h with
  | nil => exact Nat.zero_le _
  | cons next _ ih =>
    have total := (nextFrame_eq_some.mp next).1
    unfold recordHeaderLen at total
    rw [List.length_cons]
    omega

lemma take : Framing codec (b.take (framesLen ps)) ps [] := by
  induction h with
  | nil => exact .nil
  | cons next _ ih =>
    refine .cons (nextFrame_take next _) ?_
    exact ih

lemma scanLoop (stop : nextFrame tail = none) {fuel : ℕ} {s : Scan}
    (enough : ps.length ≤ fuel) :
    scanLoop codec fuel b s = .ok (ps.foldl (Scan.next codec) s) := by
  induction h generalizing fuel s with
  | nil =>
    cases fuel with
    | zero => rfl
    | succ fuel => simp only [Etcd.scanLoop, stop, List.foldl_nil]
  | cons next _ ih =>
    cases fuel with
    | zero => simp at enough
    | succ fuel =>
      simp only [Etcd.scanLoop, next, ne_eq, not_true_eq_false, if_false, List.foldl_cons]
      exact ih stop (Nat.le_of_succ_le_succ enough)

lemma replayLoop (stop : nextFrame tail = none) {fuel offset : ℕ}
    (enough : ps.length ≤ fuel) {rs : List WalRecord}
    (dec : List.Forall₂ (fun p r => codec.fromSlice p = some r) ps rs) :
    replayLoop codec fuel b offset = .ok rs := by
  induction h generalizing fuel offset rs with
  | nil =>
    cases dec
    cases fuel with
    | zero => rfl
    | succ fuel => simp only [Etcd.replayLoop, stop]
  | cons next _ ih =>
    cases dec with
    | cons one rest =>
      cases fuel with
      | zero => simp at enough
      | succ fuel =>
        simp only [Etcd.replayLoop, next, ne_eq, not_true_eq_false, if_false, one,
          ih stop (Nat.le_of_succ_le_succ enough) rest]
        rfl

lemma replayLoop_error {fuel : ℕ} (enough : ps.length ≤ fuel)
    (undec : ∃ p ∈ ps, codec.fromSlice p = none) (offset : ℕ) :
    ∃ offset', Etcd.replayLoop codec fuel b offset = .error (.decode offset') := by
  induction h generalizing fuel offset with
  | nil =>
    obtain ⟨p, hp, -⟩ := undec
    cases hp
  | @cons b payload rest tail ps next _ ih =>
    cases fuel with
    | zero => simp at enough
    | succ fuel =>
      simp only [Etcd.replayLoop, next, ne_eq, not_true_eq_false, if_false]
      split
      · exact ⟨offset, rfl⟩
      · rename_i record one
        obtain ⟨p, hp, none⟩ := undec
        have later : ∃ p ∈ ps, codec.fromSlice p = Option.none := by
          cases hp with
          | head => cases one.symm.trans none
          | tail _ hp => exact ⟨p, hp, none⟩
        obtain ⟨offset', err⟩ := ih (Nat.le_of_succ_le_succ enough) later
          (offset + (recordHeaderLen + payload.length))
        exact ⟨offset', by rw [err]; rfl⟩

end Framing

/-- The payloads of the frames at the start of a file. -/
def payloadsLoop : ℕ → Bytes → List Bytes
  | 0, _ => []
  | fuel + 1, b =>
    match nextFrame b with
    | none => []
    | some (_, payload, rest) => payload :: payloadsLoop fuel rest

/-- The payloads of the frames at the start of a file. -/
def payloads (file : Bytes) : List Bytes := payloadsLoop file.length file

lemma Framing.payloads {tail : Bytes} (h : Framing codec b ps tail)
    (stop : nextFrame tail = none) : payloads b = ps := by
  have loop {fuel : ℕ} (enough : ps.length ≤ fuel) : payloadsLoop fuel b = ps := by
    induction h generalizing fuel with
    | nil =>
      cases fuel with
      | zero => rfl
      | succ fuel => simp only [payloadsLoop, stop]
    | cons next _ ih =>
      cases fuel with
      | zero => simp at enough
      | succ fuel => simp only [payloadsLoop, next, ih stop (Nat.le_of_succ_le_succ enough)]
  exact loop h.length_le

/-- A scan that succeeds has read frames with the right CRC, up to where no frame starts. -/
lemma framing_of_scanLoop {fuel : ℕ} {s' : Scan} (scan : scanLoop codec fuel b s = .ok s')
    (enough : b.length ≤ fuel) :
    ∃ tail, Framing codec b (payloadsLoop fuel b) tail ∧ nextFrame tail = none := by
  induction fuel generalizing b s with
  | zero =>
    have empty : b = [] := List.eq_nil_of_length_eq_zero (Nat.le_zero.mp enough)
    subst empty
    exact ⟨[], .nil, rfl⟩
  | succ fuel ih =>
    simp only [scanLoop] at scan
    simp only [payloadsLoop]
    cases next : nextFrame b with
    | none => exact ⟨b, .nil, next⟩
    | some frame =>
      obtain ⟨crc, payload, rest⟩ := frame
      rw [next] at scan
      dsimp only at scan
      split at scan
      · cases scan
      · rename_i right
        have total := (nextFrame_eq_some.mp next).1
        unfold recordHeaderLen at total
        obtain ⟨tail, framing, stop⟩ := ih scan (by omega)
        refine ⟨tail, .cons ?_ framing, stop⟩
        rw [next, not_not.mp right]

lemma framing_of_scan (scan : scanForValidEnd codec file = .ok s) :
    ∃ tail, Framing codec file (payloads file) tail ∧ nextFrame tail = none ∧
      s = (payloads file).foldl (Scan.next codec) {} := by
  obtain ⟨tail, framing, stop⟩ := framing_of_scanLoop scan (Nat.le_refl _)
  have again := framing.scanLoop stop framing.length_le (s := {})
  refine ⟨tail, framing, stop, ?_⟩
  unfold scanForValidEnd at scan
  rw [scan] at again
  cases again
  rfl

lemma scan_lastGoodEnd (ps : List Bytes) (s : Scan) :
    (ps.foldl (Scan.next codec) s).lastGoodEnd = s.lastGoodEnd + framesLen ps := by
  induction ps generalizing s with
  | nil => rfl
  | cons p ps ih =>
    rw [List.foldl_cons, ih]
    simp only [Scan.next, framesLen, List.map_cons, List.sum_cons]
    omega

lemma scan_recordCount (ps : List Bytes) (s : Scan) :
    (ps.foldl (Scan.next codec) s).recordCount = s.recordCount + ps.length := by
  induction ps generalizing s with
  | nil => rfl
  | cons p ps ih =>
    rw [List.foldl_cons, ih, List.length_cons]
    simp only [Scan.next]
    omega

/-- The indices of the entries among the records. -/
def indices (rs : List WalRecord) : Set UInt64 := {i | ∃ e, .entry e ∈ rs ∧ e.index = i}

lemma indices_entry (e : EntryRecord) (rs : List WalRecord) :
    indices (.entry e :: rs) = insert e.index (indices rs) := by
  ext i
  simp only [indices, List.mem_cons, WalRecord.entry.injEq, Set.mem_ofPred_eq, Set.mem_insert_iff,
    or_and_right, exists_or, exists_eq_left]
  exact or_congr_left eq_comm

lemma indices_other {r : WalRecord} (other : ∀ e, r ≠ .entry e) (rs : List WalRecord) :
    indices (r :: rs) = indices rs := by
  ext i
  have differ (e : EntryRecord) : WalRecord.entry e ≠ r := (other e).symm
  simp [indices, List.mem_cons, differ]

lemma isGreatest_insert {x m g : UInt64} {S : Set UInt64} (le : x ≤ m) (h : IsGreatest (insert m S) g) :
    IsGreatest (insert x (insert m S)) g := by
  refine ⟨Or.inr h.1, ?_⟩
  intro i hi
  cases hi with
  | inl eq => exact eq ▸ UInt64.le_trans le (h.2 (Or.inl rfl))
  | inr hi => exact h.2 hi

/-- The scan finds the greatest index of the entries, or the one it starts with. -/
lemma scan_lastEntryIndex {rs : List WalRecord}
    (dec : List.Forall₂ (fun p r => codec.fromSlice p = some r) ps rs) (s : Scan) :
    IsGreatest (insert s.lastEntryIndex (indices rs))
      (ps.foldl (Scan.next codec) s).lastEntryIndex := by
  induction dec generalizing s with
  | nil =>
    refine ⟨Or.inl rfl, ?_⟩
    intro i hi
    cases hi with
    | inl eq => exact eq ▸ UInt64.le_refl _
    | inr hi =>
      obtain ⟨e, he, -⟩ := hi
      cases he
  | @cons p r ps rs one _ ih =>
    have next := ih (s.next codec p)
    rw [List.foldl_cons]
    cases r with
    | entry e =>
      rw [indices_entry]
      have found : (s.next codec p).lastEntryIndex =
          if s.lastEntryIndex < e.index then e.index else s.lastEntryIndex := by
        simp only [Scan.next, one]
      rw [found] at next
      split at next
      · rename_i lt
        exact isGreatest_insert (UInt64.le_of_lt lt) next
      · rename_i le
        rw [Set.insert_comm]
        exact isGreatest_insert (UInt64.not_lt.mp le) next
    | metadata clusterId nodeId =>
      rw [indices_other (by simp)]
      simpa only [Scan.next, one] using next
    | state commitIndex term votedFor =>
      rw [indices_other (by simp)]
      simpa only [Scan.next, one] using next
    | snapshot snapshotIndex snapshotTerm =>
      rw [indices_other (by simp)]
      simpa only [Scan.next, one] using next

/-- Every frame at the start of the file holds a record. -/
def Decodable (codec : WalCodec) (file : Bytes) : Prop :=
  ∀ p ∈ payloads file, (codec.fromSlice p).isSome
deriving Decidable

lemma exists_records (all : ∀ p ∈ ps, (codec.fromSlice p).isSome) :
    ∃ rs, List.Forall₂ (fun p r => codec.fromSlice p = some r) ps rs := by
  induction ps with
  | nil => exact ⟨[], .nil⟩
  | cons p ps ih =>
    obtain ⟨r, one⟩ := Option.isSome_iff_exists.mp (all p List.mem_cons_self)
    obtain ⟨rs, rest⟩ := ih fun q hq => all q (List.mem_cons_of_mem _ hq)
    exact ⟨r :: rs, .cons one rest⟩

lemma openDir_of_scan (scan : scanForValidEnd codec file = .ok s) :
    Wal.openDir codec file = .ok ⟨file.take s.lastGoodEnd, (file.take s.lastGoodEnd).length,
      s.lastEntryIndex, s.recordCount⟩ := by
  have kept : (if s.lastGoodEnd < file.length then file.take s.lastGoodEnd else file) =
      file.take s.lastGoodEnd := by
    split
    · rfl
    · rename_i whole
      exact (List.take_of_length_le (Nat.not_lt.mp whole)).symm
  simp only [Wal.openDir, scan, bind, Except.bind, kept]
  rfl

/-- What the scan counts are the frames that the replay of the kept bytes reads. -/
lemma framing_of_kept (scan : scanForValidEnd codec file = .ok s) :
    Framing codec (file.take s.lastGoodEnd) (payloads file) [] ∧
      s = (payloads file).foldl (Scan.next codec) {} := by
  obtain ⟨tail, framing, -, eq⟩ := framing_of_scan scan
  have last : s.lastGoodEnd = framesLen (payloads file) := by
    rw [eq, scan_lastGoodEnd]
    exact Nat.zero_add _
  rw [last]
  exact ⟨framing.take, eq⟩

/-- On a file with a frame that holds no record, `open` succeeds and the replay then fails, so that
`replay_into_store` applies nothing. -/
theorem replayIntoStore_of_undecodable {file : Bytes} {s : Scan}
    (scan : scanForValidEnd codec file = .ok s) (undec : ¬ Decodable codec file) :
    ∃ w offset, Wal.openDir codec file = .ok w ∧
      replayFile codec (file.take s.lastGoodEnd) = .error (.decode offset) ∧
      ∀ env store, replayIntoStore codec env w store = store := by
  obtain ⟨framing, -⟩ := framing_of_kept scan
  have none : ∃ p ∈ payloads file, codec.fromSlice p = Option.none := by
    simpa [Decodable] using undec
  obtain ⟨offset, err⟩ := framing.replayLoop_error framing.length_le none 0
  refine ⟨_, offset, openDir_of_scan scan, err, ?_⟩
  intro env store
  simp only [replayIntoStore, Wal.replay, replayFile, err]

/-- The replay of what the scan keeps returns as many records as it counted, with the greatest entry index it found,
and `replay_into_store` applies all of them, exactly if all frames of the file hold records. -/
theorem replay_agrees_with_scan (codec : WalCodec) (file : Bytes) (s : Scan)
    (scan : scanForValidEnd codec file = .ok s) :
    (∃ rs, replayFile codec (file.take s.lastGoodEnd) = .ok rs ∧ rs.length = s.recordCount ∧
      IsGreatest (insert 0 (indices rs)) s.lastEntryIndex ∧
      ∃ w, Wal.openDir codec file = .ok w ∧ ∀ env store,
        replayIntoStore codec env w store =
          (applyOps env ⟨store, 0⟩ (rs.filterMap WalRecord.op)).store) ↔ Decodable codec file := by
  refine ⟨fun ⟨rs, replay, _⟩ => ?_, fun dec => ?_⟩
  · by_contra undec
    obtain ⟨-, offset, -, failed, -⟩ := replayIntoStore_of_undecodable scan undec
    cases replay.symm.trans failed
  obtain ⟨framing, eq⟩ := framing_of_kept scan
  obtain ⟨rs, decoded⟩ := exists_records dec
  have replay : replayFile codec (file.take s.lastGoodEnd) = .ok rs :=
    framing.replayLoop rfl framing.length_le decoded
  refine ⟨rs, replay, ?_, ?_, _, openDir_of_scan scan, ?_⟩
  · rw [eq, scan_recordCount, ← decoded.length_eq]
    exact (Nat.zero_add _).symm
  · rw [eq]
    exact scan_lastEntryIndex decoded {}
  · intro env store
    simp only [replayIntoStore, Wal.replay, replay]

/-- The table of CRC-32 (IEEE 802.3) at the bytes of one bit. -/
def crcRows : List (UInt32 × UInt32) :=
  [(1, 0x77073096), (2, 0xEE0E612C), (4, 0x076DC419), (8, 0x0EDB8832), (16, 0x1DB71064),
    (32, 0x3B6E20C8), (64, 0x76DC4190), (128, 0xEDB88320)]

/-- The table at any byte: the sum of the entries of its bits. -/
def crcTable (x : UInt32) : UInt32 :=
  crcRows.foldl (fun sum row => if x &&& row.1 = 0 then sum else sum ^^^ row.2) 0

/-- CRC-32, one byte. -/
def crcByte (c : UInt32) (b : UInt8) : UInt32 := (c >>> 8) ^^^ crcTable (c ^^^ b.toUInt32)

/-- CRC-32, which `crc32fast::hash` computes. -/
def crc32 (b : Bytes) : UInt32 := b.foldl crcByte 0xFFFFFFFF ^^^ 0xFFFFFFFF

-- the check value of the standard, for "123456789"
example : crc32 [49, 50, 51, 52, 53, 54, 55, 56, 57] = 0xCBF43926 := by decide +kernel

/-- The bytes of a text of ASCII characters. -/
def ascii (text : String) : Bytes := text.toList.map fun c => UInt8.ofNat c.toNat

/-- The JSON of the entry that puts "b" under "a" in term 1, for an index of one digit. -/
def putJson (index : Fin 10) : Bytes :=
  ascii "\x7b\"type\":\"Entry\",\"index\":" ++ [48 + UInt8.ofNat index] ++
    ascii ",\"term\":1,\"op\":\x7b\"kind\":\"put\",\"key\":[97],\"value\":[98],\"lease\":null\x7d\x7d"

/-- The entry that puts "b" under "a" in term 1. -/
def putEntry (index : Fin 10) : WalRecord := .entry ⟨UInt64.ofNat index, 1, .put [97] [98] none⟩

/-- The index of such an entry. -/
def putIndex : WalRecord → Option (Fin 10)
  | .entry ⟨index, 1, .put [97] [98] none⟩ => (List.finRange 10).find? fun i => UInt64.ofNat i = index
  | _ => none

lemma putIndex_eq {r : WalRecord} {i : Fin 10} (h : putIndex r = some i) : r = putEntry i := by
  unfold putIndex at h
  split at h
  · have eq := List.find?_some h
    rw [putEntry, of_decide_eq_true eq]
  · cases h

lemma find_putJson : ∀ i, (List.finRange 10).find? (fun j => putJson j = putJson i) = some i := by
  decide +kernel

/-- `serde_json` and CRC-32 on the entries that put "b" under "a" in term 1. -/
def putCodec : WalCodec where
  toVec r := (putIndex r).map putJson
  fromSlice b := ((List.finRange 10).find? fun i => putJson i = b).map putEntry
  hash := crc32
  roundTrip := by
    intro r payload enc
    obtain ⟨i, found, rfl⟩ := Option.map_eq_some_iff.mp enc
    rw [putIndex_eq found, find_putJson i]
    rfl

lemma fromSlice_putJson (i : Fin 10) : putCodec.fromSlice (putJson i) = some (putEntry i) := by
  simp only [putCodec, find_putJson, Option.map_some]

lemma fromSlice_nil : putCodec.fromSlice [] = none := by
  have none : (List.finRange 10).find? (fun i => putJson i = []) = none := by simp [putJson]
  simp only [putCodec, none, Option.map_none]

lemma putJson_fits : ∀ i, (putJson i).length ≤ maxPayloadLen := by
  decide +kernel

/-- A log of two entries, then a frame that is cut. -/
def twoPuts : Bytes :=
  frameOf putCodec (putJson 1) ++ (frameOf putCodec (putJson 2) ++ [92, 0, 0, 0])

lemma framing_twoPuts : Framing putCodec twoPuts [putJson 1, putJson 2] [92, 0, 0, 0] :=
  .cons (nextFrame_frameOf (putJson_fits 1)) (.cons (nextFrame_frameOf (putJson_fits 2)) .nil)

theorem replay_agrees_with_scan_two_puts :
    ∃ s, scanForValidEnd putCodec twoPuts = .ok s ∧ s.recordCount = 2 ∧ s.lastEntryIndex = 2 ∧
      ∃ rs, replayFile putCodec (twoPuts.take s.lastGoodEnd) = .ok rs ∧ rs.length = s.recordCount := by
  have scan := framing_twoPuts.scanLoop rfl framing_twoPuts.length_le (s := {})
  have dec : Decodable putCodec twoPuts := by
    unfold Decodable
    rw [framing_twoPuts.payloads rfl]
    simp [fromSlice_putJson]
  obtain ⟨rs, replay, len, -⟩ := (replay_agrees_with_scan putCodec twoPuts _ scan).mpr dec
  refine ⟨_, scan, rfl, ?_, rs, replay, len⟩
  simp only [List.foldl_cons, List.foldl_nil, Scan.next, fromSlice_putJson, putEntry]
  decide

/-- A log of one entry whose tail the file system has filled with zeros. -/
def zeroTail : Bytes := frameOf putCodec (putJson 1) ++ List.replicate 8 0

lemma framing_zeroTail : Framing putCodec zeroTail [putJson 1, []] [] :=
  .cons (nextFrame_frameOf (putJson_fits 1)) (.cons (by decide) .nil)

/-- `open` counts two records, and the replay fails at the second. -/
theorem zero_tail_replays_nothing :
    ∃ s w offset, scanForValidEnd putCodec zeroTail = .ok s ∧ s.recordCount = 2 ∧
      replayFile putCodec (zeroTail.take s.lastGoodEnd) = .error (.decode offset) ∧
      Wal.openDir putCodec zeroTail = .ok w ∧
      ∀ env store, replayIntoStore putCodec env w store = store := by
  have scan := framing_zeroTail.scanLoop rfl framing_zeroTail.length_le (s := {})
  have undec : ¬ Decodable putCodec zeroTail := by
    unfold Decodable
    rw [framing_zeroTail.payloads rfl]
    simp [fromSlice_nil]
  obtain ⟨w, offset, opened, replay, nothing⟩ := replayIntoStore_of_undecodable scan undec
  exact ⟨_, w, offset, scan, rfl, replay, opened, nothing⟩

end Etcd
