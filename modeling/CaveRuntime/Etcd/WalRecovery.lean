import CaveRuntime.Etcd.WalScan

/-!
# The write-ahead log of cave-etcd: crash recovery

Whatever the length a log is cut to, `Wal::open` succeeds, `Wal::replay` then returns the longest prefix
of the appended records whose frames fit into that length, and records appended afterwards come after
that prefix. The cut file is that prefix's frames and a piece of the next frame, and the read loop stops
at the piece wherever in the header or payload it was cut (`nextFrame_cut`).
-/

namespace Etcd
open Utf8

variable {codec : WalCodec}

/-- The payload of a record that can be written. -/
structure Payload (codec : WalCodec) (r : WalRecord) (payload : Bytes) : Prop where
  encoded : codec.toVec r = some payload
  fits : payload.length ≤ maxPayloadLen

/-- The frame of a record, empty for a record that is never written. -/
def frame (codec : WalCodec) (r : WalRecord) : Bytes :=
  ((codec.toVec r).map (frameOf codec)).getD []

/-- The frames of a list of records, one after the other. -/
def frames (codec : WalCodec) (rs : List WalRecord) : Bytes := (rs.map (frame codec)).flatten

/-- A record that `write_record` accepts. -/
def Writable (codec : WalCodec) (r : WalRecord) : Prop := ∃ payload, Payload codec r payload

lemma Payload.frame_eq {r : WalRecord} {payload : Bytes} (hp : Payload codec r payload) :
    frame codec r = frameOf codec payload := by
  simp [frame, hp.encoded]

lemma nextFrame_cut {payload : Bytes} (fits : payload.length ≤ maxPayloadLen) {m : ℕ}
    (cut : m < (frameOf codec payload).length) : nextFrame ((frameOf codec payload).take m) = none := by
  rw [Option.eq_none_iff_forall_ne_some]
  rintro ⟨crc, payload', rest⟩ next
  obtain ⟨total, -, len, -⟩ := nextFrame_eq_some.mp next
  rw [List.length_take_of_le (Nat.le_of_lt cut)] at total
  -- the header is whole, and promises more bytes than there are
  have head := fromLeBytes_frameOf codec fits []
  rw [List.append_nil] at head
  rw [fromLeBytes_take (by unfold recordHeaderLen at total; omega), head] at len
  rw [length_frameOf] at cut
  unfold recordHeaderLen at *
  omega

lemma writeRecord_ok {r : WalRecord} {b : Bytes} (wr : writeRecord codec r = .ok b) :
    ∃ payload, Payload codec r payload ∧ b = frameOf codec payload := by
  unfold writeRecord at wr
  split at wr
  · cases wr
  · rename_i payload enc
    split at wr
    · cases wr
    · rename_i fits
      cases wr
      exact ⟨payload, ⟨enc, Nat.not_lt.mp fits⟩, rfl⟩

@[simp] lemma frames_nil : frames codec [] = [] := rfl

@[simp] lemma frames_cons (r : WalRecord) (rs : List WalRecord) :
    frames codec (r :: rs) = frame codec r ++ frames codec rs := by
  simp [frames]

@[simp] lemma frames_append (rs rs' : List WalRecord) :
    frames codec (rs ++ rs') = frames codec rs ++ frames codec rs' := by
  simp [frames]

lemma framing_frames {rs : List WalRecord} (all : ∀ r ∈ rs, Writable codec r) (tail : Bytes) :
    ∃ ps, Framing codec (frames codec rs ++ tail) ps tail ∧
      List.Forall₂ (fun p r => codec.fromSlice p = some r) ps rs := by
  induction rs with
  | nil => exact ⟨[], .nil, .nil⟩
  | cons r rs ih =>
    obtain ⟨payload, hp⟩ := all r List.mem_cons_self
    obtain ⟨ps, framing, dec⟩ := ih fun x hx => all x (List.mem_cons_of_mem _ hx)
    refine ⟨payload :: ps, ?_, .cons (codec.roundTrip hp.encoded) dec⟩
    rw [frames_cons, hp.frame_eq, List.append_assoc]
    exact .cons (nextFrame_frameOf hp.fits) framing

/-- A scan of records that were written and of a piece at which the loops stop. -/
lemma scan_frames {rs : List WalRecord} (all : ∀ r ∈ rs, Writable codec r) {tail : Bytes}
    (stop : nextFrame tail = none) :
    ∃ s, scanForValidEnd codec (frames codec rs ++ tail) = .ok s ∧
      s.lastGoodEnd = (frames codec rs).length ∧
      IsGreatest (insert 0 (indices rs)) s.lastEntryIndex := by
  obtain ⟨ps, framing, dec⟩ := framing_frames all tail
  refine ⟨_, framing.scanLoop stop framing.length_le, ?_, scan_lastEntryIndex dec {}⟩
  have len := framing.length
  rw [List.length_append] at len
  rw [scan_lastGoodEnd]
  exact (Nat.zero_add _).trans (Nat.add_right_cancel len)

/-- `p` is the longest prefix of `rs` whose frames fit into `n` bytes. -/
structure LongestFit (codec : WalCodec) (n : ℕ) (rs p : List WalRecord) : Prop where
  pre : p <+: rs
  fits : (frames codec p).length ≤ n
  longest : ∀ q, q <+: rs → (frames codec q).length ≤ n → q <+: p

/-- A cut log is the frames of the longest prefix that fits and a piece at which the loops stop. -/
lemma frames_take {rs : List WalRecord} (all : ∀ r ∈ rs, Writable codec r) (n : ℕ) :
    ∃ p tail, LongestFit codec n rs p ∧ (frames codec rs).take n = frames codec p ++ tail ∧
      nextFrame tail = none := by
  induction rs generalizing n with
  | nil =>
    refine ⟨[], [], ⟨List.prefix_refl _, Nat.zero_le _, fun q pre _ => pre⟩, ?_, rfl⟩
    simp
  | cons r rs ih =>
    obtain ⟨payload, hp⟩ := all r List.mem_cons_self
    by_cases fit : (frame codec r).length ≤ n
    · obtain ⟨p, tail, long, eq, stop⟩ :=
        ih (fun x hx => all x (List.mem_cons_of_mem _ hx)) (n - (frame codec r).length)
      refine ⟨r :: p, tail, ⟨?_, ?_, ?_⟩, ?_, stop⟩
      · exact List.cons_prefix_cons.mpr ⟨rfl, long.pre⟩
      · have := long.fits
        simp only [frames_cons, List.length_append]
        omega
      · intro q pre le
        cases q with
        | nil => exact List.nil_prefix
        | cons a q =>
          obtain ⟨rfl, rest⟩ := List.cons_prefix_cons.mp pre
          refine List.cons_prefix_cons.mpr ⟨rfl, long.longest q rest ?_⟩
          simp only [frames_cons, List.length_append] at le
          omega
      · rw [frames_cons, List.take_append, List.take_of_length_le fit, eq, frames_cons,
          List.append_assoc]
    · -- the cut is inside this frame
      refine ⟨[], (frame codec r).take n, ⟨List.nil_prefix, Nat.zero_le _, ?_⟩, ?_, ?_⟩
      · intro q pre le
        cases q with
        | nil => exact List.prefix_refl _
        | cons a q =>
          obtain ⟨rfl, _⟩ := List.cons_prefix_cons.mp pre
          simp only [frames_cons, List.length_append] at le
          omega
      · rw [frames_cons, List.take_append_of_le_length (by omega), frames_nil, List.nil_append]
      · rw [hp.frame_eq] at fit ⊢
        exact nextFrame_cut hp.fits (by omega)

namespace Wal

/-- The log holds exactly the records `rs` and writes at the end of its file. -/
structure Holds (codec : WalCodec) (w : Wal) (rs : List WalRecord) : Prop where
  writable : ∀ r ∈ rs, Writable codec r
  file : w.file = frames codec rs
  pos : w.pos = w.file.length

variable {w : Wal} {rs : List WalRecord}

lemma Holds.replay (h : Holds codec w rs) : w.replay codec = .ok rs := by
  obtain ⟨ps, framing, dec⟩ := framing_frames h.writable []
  rw [List.append_nil, ← h.file] at framing
  exact framing.replayLoop rfl framing.length_le dec

/-- Opening a file that starts with the frames of records and goes on with a piece of a frame gives a
log that holds these records. -/
lemma openDir_frames (all : ∀ r ∈ rs, Writable codec r) {tail : Bytes} (stop : nextFrame tail = none) :
    ∃ w, openDir codec (frames codec rs ++ tail) = .ok w ∧ Holds codec w rs ∧
      IsGreatest (insert 0 (indices rs)) w.lastEntryIndex := by
  obtain ⟨s, scan, last, greatest⟩ := scan_frames all stop
  refine ⟨_, openDir_of_scan scan, ⟨all, ?_, rfl⟩, greatest⟩
  rw [last]
  exact List.take_left

lemma Holds.openDir_take (h : Holds codec w rs) (n : ℕ) :
    ∃ w' p, openDir codec (w.file.take n) = .ok w' ∧ LongestFit codec n rs p ∧
      Holds codec w' p := by
  obtain ⟨p, tail, long, eq, stop⟩ := frames_take h.writable n
  have all : ∀ r ∈ p, Writable codec r := fun r hr => h.writable r (long.pre.subset hr)
  obtain ⟨w', opened, holds, -⟩ := openDir_frames all stop
  rw [h.file, eq]
  exact ⟨w', p, opened, long, holds⟩

/-- Writing a frame at the end of the file appends its record, whatever the counters become. -/
lemma Holds.write (h : Holds codec w rs) {r : WalRecord} {b : Bytes}
    (wr : writeRecord codec r = .ok b) {w' : Wal} (file : w'.file = (w.write b).file)
    (pos : w'.pos = (w.write b).pos) : Holds codec w' (rs ++ [r]) := by
  obtain ⟨payload, hp, rfl⟩ := writeRecord_ok wr
  have grown : w'.file = w.file ++ frameOf codec payload := by
    simp [file, Wal.write, h.pos]
  refine ⟨?_, ?_, ?_⟩
  · intro x hx
    cases List.mem_append.mp hx with
    | inl old => exact h.writable x old
    | inr new =>
      rw [List.mem_singleton.mp new]
      exact ⟨payload, hp⟩
  · rw [grown, h.file]
    simp [hp.frame_eq]
  · rw [grown, List.length_append, ← h.pos, pos]
    rfl

lemma Holds.run (h : Holds codec w rs) {c : WalCall} {w' : Wal} (st : c.run codec w = .ok w') :
    Holds codec w' (rs ++ [c.record w]) := by
  cases c with
  | append r =>
    simp only [WalCall.run, Wal.append, bind, Except.bind] at st
    split at st
    · cases st
    · rename_i b wr
      cases st
      exact h.write wr rfl rfl
  | appendEntry term op =>
    simp only [WalCall.run, Wal.appendEntry, bind, Except.bind] at st
    split at st
    · cases st
    · rename_i b wr
      cases st
      exact h.write wr rfl rfl

lemma Holds.runCalls (h : Holds codec w rs) (calls : List WalCall) :
    Holds codec (w.runCalls codec calls).2 (rs ++ (w.runCalls codec calls).1) := by
  induction calls generalizing w rs with
  | nil => simpa [Wal.runCalls] using h
  | cons c calls ih =>
    unfold Wal.runCalls
    split
    · rename_i w' st
      have next := ih (h.run st)
      rwa [List.append_assoc] at next
    · exact ih h

lemma openDir_nil (codec : WalCodec) : ∃ w, openDir codec [] = .ok w ∧ Holds codec w [] :=
  ⟨_, rfl, by simp, rfl, rfl⟩

/-- Whatever was appended to a new log and wherever its file is cut, `open` succeeds on the cut file
and `replay` returns the longest prefix of the appended records whose frames fit; what is appended
afterwards follows that prefix. -/
theorem recovers_longest_fit (codec : WalCodec) (calls later : List WalCall) (n : ℕ) :
    ∃ new opened p, openDir codec [] = .ok new ∧
      openDir codec ((new.runCalls codec calls).2.file.take n) = .ok opened ∧
      LongestFit codec n (new.runCalls codec calls).1 p ∧
      opened.replay codec = .ok p ∧
      (opened.runCalls codec later).2.replay codec =
        .ok (p ++ (opened.runCalls codec later).1) := by
  obtain ⟨new, fresh, empty⟩ := openDir_nil codec
  have full := empty.runCalls calls
  rw [List.nil_append] at full
  obtain ⟨opened, p, eq, long, kept⟩ := full.openDir_take n
  exact ⟨new, opened, p, fresh, eq, long, kept.replay, (kept.runCalls later).replay⟩

end Wal

end Etcd
