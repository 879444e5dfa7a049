import CaveRuntime.Common.Run
import CaveRuntime.Ha.Snapshot

/-!
# cave-ha: snapshots put together from chunks

The chunks of one snapshot, fed in their order, give the snapshot with the last chunk, whatever the receiver
had before. The receiver compares nothing but offsets, and it keeps the metadata of the first chunk. So chunks
of several snapshots, in any order, with losses and repetitions, give only snapshots that were sent if every
chunk that goes on at the receiver's offset is of the snapshot whose first chunk came last.
-/

namespace Ha
open Run

/-- The chunk is a part of the snapshot. -/
structure Snapshot.Piece (s : Snapshot) (c : SnapshotChunk) : Prop where
  info : c.info = s.info
  within : c.offset + c.data.length ≤ s.data.length
  data : s.data.take c.offset ++ c.data = s.data.take (c.offset + c.data.length)
  done : c.done ↔ c.offset + c.data.length = s.data.length

namespace Snapshot

variable (s : Snapshot) (chunkSize : ℕ)

/-- The chunk that a round of `chunks` makes. -/
def chunkAt (offset : ℕ) : SnapshotChunk :=
  let stop := min (offset + chunkSize) s.data.length
  ⟨s.info, offset, (s.data.drop offset).take (stop - offset), stop = s.data.length⟩

lemma length_chunkAt {offset : ℕ} (lt : offset < s.data.length) :
    offset + (s.chunkAt chunkSize offset).data.length = min (offset + chunkSize) s.data.length := by
  show offset + ((s.data.drop offset).take (min (offset + chunkSize) s.data.length - offset)).length = _
  rw [List.length_take, List.length_drop]
  omega

lemma chunkLoop_succ {fuel offset : ℕ} (lt : offset < s.data.length) :
    s.chunkLoop chunkSize (fuel + 1) offset = s.chunkAt chunkSize offset ::
      s.chunkLoop chunkSize fuel (offset + (s.chunkAt chunkSize offset).data.length) := by
  rw [length_chunkAt s chunkSize lt, chunkLoop, if_pos lt]
  rfl

lemma piece_chunkAt {offset : ℕ} (lt : offset < s.data.length) : s.Piece (s.chunkAt chunkSize offset) := by
  have len := length_chunkAt s chunkSize lt
  refine ⟨rfl, ?_, ?_, ?_⟩
  · show offset + _ ≤ _
    omega
  · show s.data.take offset ++ (s.data.drop offset).take _ = s.data.take (offset + _)
    rw [len, ← List.take_add]
    congr 1
    omega
  · show decide _ = true ↔ offset + _ = _
    rw [len, decide_eq_true_iff]

variable {s chunkSize}

lemma piece_of_mem_chunkLoop {fuel offset : ℕ} {c : SnapshotChunk} (mem : c ∈ s.chunkLoop chunkSize fuel offset) :
    s.Piece c := by
  induction fuel generalizing offset with
  | zero => cases mem
  | succ fuel ih =>
    by_cases lt : offset < s.data.length
    · rw [chunkLoop_succ s chunkSize lt] at mem
      cases mem with
      | head => exact piece_chunkAt s chunkSize lt
      | tail _ mem => exact ih mem
    · rw [chunkLoop, if_neg lt] at mem
      cases mem

lemma piece_of_mem {c : SnapshotChunk} (mem : c ∈ s.chunks chunkSize) : s.Piece c := by
  unfold chunks at mem
  split at mem
  · rename_i empty
    rw [List.mem_singleton.mp mem]
    exact ⟨rfl, by simp, by simp, by simp [empty]⟩
  · exact piece_of_mem_chunkLoop mem

end Snapshot

namespace SnapshotReceiver

variable {r : SnapshotReceiver} {s : Snapshot} {c : SnapshotChunk} {chunkSize : ℕ}

/-- What `feed` returns for one chunk after the other. -/
def feedAll : SnapshotReceiver → List SnapshotChunk → List (Option Snapshot)
  | _, [] => []
  | r, c :: chunks => (r.feed c).1 :: (r.feed c).2.feedAll chunks

/-- The receiver has the snapshot up to its offset. -/
structure Has (r : SnapshotReceiver) (s : Snapshot) : Prop where
  info : r.info = some s.info
  buffer : r.buffer = s.data.take r.nextOffset

/-- The next part of the snapshot that the receiver has: the snapshot is complete, or there is more of it. -/
lemma Has.store (h : r.Has s) (piece : s.Piece c) (next : c.offset = r.nextOffset) :
    c.done ∧ r.store c = (some s, new) ∨
      ¬ c.done ∧ (r.store c).1 = none ∧ (r.store c).2.Has s ∧
        (r.store c).2.nextOffset = c.offset + c.data.length := by
  have longer : r.buffer ++ c.data = s.data.take (c.offset + c.data.length) := by
    rw [h.buffer, ← next]
    exact piece.data
  unfold SnapshotReceiver.store
  rw [if_neg (not_not.mpr next)]
  by_cases done : c.done
  · refine .inl ⟨done, ?_⟩
    have whole : r.buffer ++ c.data = s.data := by rw [longer, piece.done.mp done, List.take_length]
    rw [if_pos done, h.info, whole]
    rfl
  · refine .inr ⟨done, ?_⟩
    rw [if_neg done, ← next]
    exact ⟨rfl, ⟨h.info, longer⟩, rfl⟩

lemma has_begin (piece : s.Piece c) (first : c.offset = 0) :
    (r.begin c).Has s ∧ c.offset = (r.begin c).nextOffset := by
  unfold SnapshotReceiver.begin
  rw [if_pos first]
  exact ⟨⟨congrArg some piece.info, rfl⟩, first⟩

lemma Has.begin (h : r.Has s) (more : c.offset ≠ 0) : r.begin c = r := by
  unfold SnapshotReceiver.begin
  rw [if_neg more, h.info]
  obtain ⟨info, buffer, nextOffset⟩ := r
  have eq : info = some s.info := h.info
  rw [eq]
  rfl

/-- The next part of the snapshot that the receiver has, or the first part of a snapshot. -/
lemma feed_next (piece : s.Piece c) (next : c.offset = 0 ∨ r.Has s ∧ c.offset = r.nextOffset) :
    c.done ∧ r.feed c = (some s, new) ∨
      ¬ c.done ∧ (r.feed c).1 = none ∧ (r.feed c).2.Has s ∧
        (r.feed c).2.nextOffset = c.offset + c.data.length := by
  by_cases first : c.offset = 0
  · obtain ⟨has, here⟩ := has_begin (r := r) piece first
    exact has.store piece here
  · obtain ⟨has, here⟩ := next.resolve_left first
    unfold feed
    rw [has.begin first]
    exact has.store piece here

/-- The rounds of `chunks` from an offset on, fed to a receiver that has the snapshot up to there. -/
lemma feedAll_chunkLoop (pos : 1 ≤ chunkSize) {fuel offset : ℕ} (lt : offset < s.data.length)
    (enough : s.data.length ≤ offset + fuel) (next : offset = 0 ∨ r.Has s ∧ offset = r.nextOffset) :
    ∃ k, r.feedAll (s.chunkLoop chunkSize fuel offset) = List.replicate k none ++ [some s] := by
  induction fuel generalizing r offset with
  | zero => omega
  | succ fuel ih =>
    have len := s.length_chunkAt chunkSize lt
    have piece := s.piece_chunkAt chunkSize lt
    rw [s.chunkLoop_succ chunkSize lt, feedAll]
    rcases feed_next (r := r) piece next with ⟨done, eq⟩ | ⟨more, none, has, reached⟩
    · -- the last chunk
      have stop := piece.done.mp done
      have last : s.chunkLoop chunkSize fuel (offset + (s.chunkAt chunkSize offset).data.length) = [] := by
        rw [show offset + (s.chunkAt chunkSize offset).data.length = s.data.length from stop]
        cases fuel with
        | zero => rfl
        | succ fuel => exact if_neg (Nat.lt_irrefl _)
      exact ⟨0, by rw [eq, last]; rfl⟩
    · have short : offset + (s.chunkAt chunkSize offset).data.length ≠ s.data.length := fun stop =>
        more (piece.done.mpr stop)
      obtain ⟨k, rest⟩ := @ih (r.feed (s.chunkAt chunkSize offset)).2
        (offset + (s.chunkAt chunkSize offset).data.length) (by omega) (by omega) (.inr ⟨has, reached.symm⟩)
      exact ⟨k + 1, by rw [none, rest]; rfl⟩

lemma feedAll_chunks (pos : 1 ≤ chunkSize) (r : SnapshotReceiver) (s : Snapshot) :
    ∃ k, r.feedAll (s.chunks chunkSize) = List.replicate k none ++ [some s] := by
  unfold Snapshot.chunks
  split
  · rename_i empty
    have piece : s.Piece ⟨s.info, 0, [], true⟩ := ⟨rfl, by simp, by simp, by simp [empty]⟩
    rcases feed_next (r := r) piece (.inl rfl) with ⟨-, eq⟩ | ⟨more, -⟩
    · exact ⟨0, by rw [feedAll, eq]; rfl⟩
    · exact absurd rfl more
  · rename_i ne
    exact feedAll_chunkLoop pos (List.length_pos_iff.mpr ne) (by omega) (.inl rfl)

lemma length_feedAll (r : SnapshotReceiver) (chunks : List SnapshotChunk) :
    (r.feedAll chunks).length = chunks.length := by
  induction chunks generalizing r with
  | nil => rfl
  | cons c chunks ih => exact congrArg Nat.succ (ih _)

end SnapshotReceiver

/-! ## Chunks of several snapshots -/

/-- The `k`-th chunk of a snapshot that is sent in chunks of a size. -/
structure Transfer where
  snapshot : Snapshot
  chunkSize : ℕ
  k : ℕ

/-- A receiver, the snapshot whose first chunk it got last, and what it has returned. -/
structure Reception where
  receiver : SnapshotReceiver := .new
  source : Option Snapshot := none
  returned : List Snapshot := []

namespace Reception

variable {t t' : Reception}

/-- A chunk arrives. -/
def take (t : Reception) (s : Snapshot) (c : SnapshotChunk) : Reception where
  receiver := (t.receiver.feed c).2
  source := if c.offset = 0 then some s else t.source
  returned := t.returned ++ (t.receiver.feed c).1.toList

/-- A chunk arrives, as a step of a run; there must be such a chunk. -/
def step (t : Reception) (e : Transfer) : Option Reception :=
  if 1 ≤ e.chunkSize then ((e.snapshot.chunks e.chunkSize)[e.k]?).map (t.take e.snapshot) else none

/-- A chunk that goes on where the receiver is belongs to the snapshot whose first chunk came last. -/
def Unmixed (t : Reception) (e : Transfer) : Prop :=
  ∀ c ∈ (e.snapshot.chunks e.chunkSize)[e.k]?, c.offset ≠ 0 → c.offset = t.receiver.nextOffset →
    t.source = some e.snapshot
deriving Decidable

/-- Everything returned has been sent, and what the receiver has is the beginning of something sent. -/
structure Sound (sent : Snapshot → Prop) (t : Reception) : Prop where
  returned : ∀ s ∈ t.returned, sent s
  source : ∀ s ∈ t.source, sent s
  has : t.receiver.nextOffset = 0 ∨ ∃ s ∈ t.source, t.receiver.Has s

variable {sent : Snapshot → Prop}

/-- A chunk at another offset than the receiver's is dropped with everything before. -/
lemma feed_dropped {r : SnapshotReceiver} {c : SnapshotChunk} (more : c.offset ≠ 0)
    (other : c.offset ≠ r.nextOffset) : (r.feed c).1 = none ∧ (r.feed c).2.nextOffset = 0 := by
  have begun : (r.begin c).nextOffset = r.nextOffset := by
    unfold SnapshotReceiver.begin
    rw [if_neg more]
  unfold SnapshotReceiver.feed SnapshotReceiver.store
  rw [begun, if_pos other]
  exact ⟨rfl, rfl⟩

/-- A chunk starts anew, goes on with the snapshot it is of, or is dropped. -/
lemma Sound.take (h : t.Sound sent) {s : Snapshot} {c : SnapshotChunk} (new : sent s) (piece : s.Piece c)
    (unmixed : c.offset ≠ 0 → c.offset = t.receiver.nextOffset → t.source = some s) :
    (t.take s c).Sound sent := by
  have source : ∀ s' ∈ (t.take s c).source, sent s' := by
    intro s' here
    have here : s' ∈ if c.offset = 0 then some s else t.source := here
    split at here
    · rwa [← Option.some.inj here]
    · exact h.source s' here
  by_cases dropped : c.offset ≠ 0 ∧ c.offset ≠ t.receiver.nextOffset
  · obtain ⟨nothing, cleared⟩ := feed_dropped dropped.1 dropped.2
    refine ⟨?_, source, .inl cleared⟩
    show ∀ s' ∈ t.returned ++ (t.receiver.feed c).1.toList, sent s'
    rw [nothing, Option.toList_none, List.append_nil]
    exact h.returned
  · -- the first chunk of its snapshot, or the next one of the snapshot that the receiver has
    have next : c.offset = 0 ∨ t.receiver.Has s ∧ c.offset = t.receiver.nextOffset := by
      by_cases first : c.offset = 0
      · exact .inl first
      · have here : c.offset = t.receiver.nextOffset := not_not.mp fun other => dropped ⟨first, other⟩
        obtain zero | ⟨s', origin, has⟩ := h.has
        · exact absurd (here.trans zero) first
        · rw [unmixed first here] at origin
          rw [← Option.some.inj origin] at has
          exact .inr ⟨has, here⟩
    have origin : s ∈ (t.take s c).source := by
      show s ∈ if c.offset = 0 then some s else t.source
      split
      · rfl
      · rename_i first
        exact unmixed first (next.resolve_left first).2
    rcases SnapshotReceiver.feed_next piece next with ⟨-, eq⟩ | ⟨-, nothing, has, -⟩
    · refine ⟨?_, source, .inl ?_⟩
      · show ∀ s' ∈ t.returned ++ (t.receiver.feed c).1.toList, sent s'
        rw [eq]
        intro s' mem
        cases List.mem_append.mp mem with
        | inl old => exact h.returned s' old
        | inr now => rwa [List.mem_singleton.mp now]
      · show (t.receiver.feed c).2.nextOffset = 0
        rw [eq]
        rfl
    · refine ⟨?_, source, .inr ⟨s, origin, has⟩⟩
      show ∀ s' ∈ t.returned ++ (t.receiver.feed c).1.toList, sent s'
      rw [nothing, Option.toList_none, List.append_nil]
      exact h.returned

lemma Sound.step (h : t.Sound sent) {e : Transfer} (new : sent e.snapshot) (unmixed : t.Unmixed e)
    (st : t.step e = some t') : t'.Sound sent := by
  unfold Reception.step at st
  split at st
  · obtain ⟨c, found, rfl⟩ := Option.map_eq_some_iff.mp st
    exact h.take new (Snapshot.piece_of_mem (List.mem_of_getElem? found)) (unmixed c found)
  · cases st

lemma Sound.run {es : List Transfer} (h : t.Sound sent) (all : ∀ e ∈ es, sent e.snapshot)
    (gd : Guarded Reception.step Unmixed t es) (hr : Run.run Reception.step t es = some t') : t'.Sound sent := by
  induction es generalizing t with
  | nil =>
    cases hr
    exact h
  | cons e es ih =>
    obtain ⟨u, st, hr⟩ := run_cons.mp hr
    exact ih (h.step (all e List.mem_cons_self) gd.1 st) (fun e' mem => all e' (List.mem_cons_of_mem _ mem))
      (gd.2 u st) hr

/-- The chunks of a snapshot, in their order, give this snapshot with the last of them and nothing before. In
every run in which no chunk goes on with another snapshot than its own, whatever is returned was sent. -/
theorem chunks_reassembled (s : Snapshot) (chunkSize : ℕ) (r : SnapshotReceiver) (es : List Transfer)
    (t : Reception) :
    (1 ≤ chunkSize → r.feedAll (s.chunks chunkSize) =
      List.replicate ((s.chunks chunkSize).length - 1) none ++ [some s]) ∧
    (Run.run step {} es = some t → Guarded step Unmixed {} es →
      ∀ s ∈ t.returned, ∃ e ∈ es, e.snapshot = s) := by
  constructor
  · intro pos
    obtain ⟨k, eq⟩ := SnapshotReceiver.feedAll_chunks pos r s
    have length := congrArg List.length eq
    rw [SnapshotReceiver.length_feedAll, List.length_append, List.length_replicate, List.length_singleton] at length
    rw [eq, length, Nat.add_sub_cancel]
  · intro hr gd
    have start : Reception.Sound (fun s => ∃ e ∈ es, e.snapshot = s) {} := ⟨nofun, nofun, .inl rfl⟩
    exact (start.run (fun e mem => ⟨e, mem, rfl⟩) gd hr).returned

/-- Two snapshots of different indices and of the same length. -/
def snapshotA : Snapshot := ⟨⟨1, 1, ⟨{1}, ∅, none, false⟩⟩, [1, 2]⟩

def snapshotB : Snapshot := ⟨⟨2, 1, ⟨{1}, ∅, none, false⟩⟩, [3, 4]⟩

/-- The second snapshot comes in between, with its first chunk twice. -/
def interrupted : List Transfer :=
  [⟨snapshotA, 1, 0⟩, ⟨snapshotB, 1, 0⟩, ⟨snapshotB, 1, 0⟩, ⟨snapshotB, 1, 1⟩, ⟨snapshotA, 1, 1⟩]

theorem chunks_reassembled_interrupted :
    ∃ t, Run.run step {} interrupted = some t ∧ t.returned = [snapshotB] ∧
      (∀ s ∈ t.returned, ∃ e ∈ interrupted, e.snapshot = s) ∧
      SnapshotReceiver.new.feedAll (snapshotA.chunks 1) = [none, some snapshotA] := by
  obtain ⟨t, hr, test⟩ := exists_of_test step {} interrupted (fun t => t.returned = [snapshotB]) (by decide)
  obtain ⟨whole, sent⟩ := chunks_reassembled snapshotA 1 .new interrupted t
  exact ⟨t, hr, of_decide_eq_true test, sent hr (by decide), whole (le_refl 1)⟩

/-- The second chunk of the one snapshot follows the first chunk of the other. -/
def mixedTransfers : List Transfer := [⟨snapshotA, 1, 0⟩, ⟨snapshotB, 1, 1⟩]

/-- The receiver returns a snapshot that nobody sent. -/
theorem chunks_mixed :
    (Run.run step {} mixedTransfers).map Reception.returned = some [⟨snapshotA.info, [1, 4]⟩] ∧
      ¬ ∃ e ∈ mixedTransfers, e.snapshot = ⟨snapshotA.info, [1, 4]⟩ := by
  decide

end Reception

end Ha
