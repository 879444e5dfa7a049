import CaveRuntime.Cache.Streams
import CaveRuntime.Common.Run

/-!
# Ids of a stream

`XADD`, `XDEL` and `XTRIM` on one stream. An explicit or partial id has to be above the last one. An automatic
id is made from the clock alone as soon as its millisecond is not the one of the last id, so that it goes back
with the clock, and behind an explicit id of the future.
-/

namespace Cache
open Run Text Utf8

/-- A command on the stream, with its arguments. -/
inductive StreamEdit where
  | xadd (clock : Clock) (p : Xadd)
  | xdel (ids : List StreamId)
  | xtrim (clock : Clock) (strategy arg : Bytes) (threshold : ℤ)

def StreamEdit.perform (checks : Bool) (s : Stream) : StreamEdit → Except Failure Resp × Stream
  | .xadd clock p => s.xadd checks clock p
  | .xdel ids => s.xdel ids
  | .xtrim clock strategy arg threshold => s.xtrim clock strategy arg threshold

/-- A stream with the ids it has given, in their order. -/
structure IdHistory where
  stream : Stream := {}
  added : List StreamId := []

/-- The ids a command gives: the last id after an `XADD` that does not fail. -/
def StreamEdit.given (answer : Except Failure Resp) (s : Stream) : StreamEdit → List StreamId
  | .xadd .. => answer.toOption.toList.map fun _ => s.lastId
  | .xdel _ | .xtrim .. => []

def IdHistory.step (checks : Bool) (h : IdHistory) (edit : StreamEdit) : Option IdHistory :=
  let done := edit.perform checks h.stream
  some ⟨done.2, h.added ++ edit.given done.1 done.2⟩

/-- An automatic id finds a clock that is ahead of the last id. -/
def StreamEdit.InTurn (s : Stream) : StreamEdit → Prop
  | .xadd clock p => p.idRaw = word "*" → s.ClockAhead (clock.ms 0)
  | .xdel _ | .xtrim .. => True

instance (s : Stream) : (edit : StreamEdit) → Decidable (edit.InTurn s)
  | .xadd clock p => inferInstanceAs (Decidable (p.idRaw = word "*" → s.ClockAhead (clock.ms 0)))
  | .xdel _ | .xtrim .. => inferInstanceAs (Decidable True)

/-- The ids ascend up to the last one, and so do the entries. -/
structure IdHistory.Inv (h : IdHistory) : Prop where
  stream : h.stream.Inv
  ascending : h.added.Pairwise (· < ·)
  last : ∀ id ∈ h.added, id ≤ h.stream.lastId

section
variable {checks : Bool} {s : Stream} {clock : Clock} {p : Xadd} {r : Resp}

lemma Stream.xadd_ok (answered : (s.xadd checks clock p).1 = .ok r)
    (ahead : p.idRaw = word "*" → s.ClockAhead (clock.ms 0)) :
    r = .bulk (s.xadd checks clock p).2.lastId.toBytes ∧ s.lastId < (s.xadd checks clock p).2.lastId := by
  unfold Stream.xadd at answered ⊢
  cases next : s.nextId checks (clock.ms 0) (clock.ms 1) p.idRaw with
  | error e =>
    rw [next] at answered
    cases answered
  | ok id =>
    rw [next] at answered
    cases answered
    have last : ∀ s' : Stream, (p.maxlen.elim s' s'.keepLast).lastId = s'.lastId := by
      intro s'
      cases p.maxlen <;> rfl
    dsimp only
    rw [last]
    exact ⟨rfl, lt_nextId ahead next⟩

lemma Stream.xadd_error {e : Failure} (failed : (s.xadd checks clock p).1 = .error e) :
    (s.xadd checks clock p).2 = s := by
  unfold Stream.xadd at failed ⊢
  cases next : s.nextId checks (clock.ms 0) (clock.ms 1) p.idRaw with
  | error e => rfl
  | ok id =>
    rw [next] at failed
    cases failed

lemma Stream.lastId_xtrim {strategy arg : Bytes} {threshold : ℤ} :
    (s.xtrim clock strategy arg threshold).2.lastId = s.lastId := by
  unfold Stream.xtrim
  dsimp only
  split
  · rfl
  · split
    · cases parseId (clock.ms 0) arg <;> rfl
    · rfl

lemma IdHistory.Inv.lt {h : IdHistory} {id : StreamId} (inv : h.Inv) (above : h.stream.lastId < id) :
    ∀ i ∈ h.added, i < id := fun i mem => lt_of_le_of_lt (inv.last i mem) above

lemma IdHistory.inv_step {h h' : IdHistory} {edit : StreamEdit} (inv : h.Inv) (turn : edit.InTurn h.stream)
    (st : h.step checks edit = some h') : h'.Inv := by
  cases edit with
  | xadd clock p =>
    cases st
    have stream : (h.stream.xadd checks clock p).2.Inv := inv.stream.xadd turn
    cases answered : (h.stream.xadd checks clock p).1 with
    | error e =>
      simp only [StreamEdit.perform, StreamEdit.given, answered, Stream.xadd_error answered]
      exact ⟨inv.stream, (List.append_nil h.added).symm ▸ inv.ascending,
        (List.append_nil h.added).symm ▸ inv.last⟩
    | ok r =>
      obtain ⟨-, above⟩ := Stream.xadd_ok answered turn
      simp only [StreamEdit.perform, StreamEdit.given, answered]
      refine ⟨stream, List.pairwise_append.mpr
        ⟨inv.ascending, List.pairwise_singleton .., fun i mem i' new => ?_⟩, fun i mem => ?_⟩
      · cases List.mem_singleton.mp new
        exact inv.lt above i mem
      · rcases List.mem_append.mp mem with mem | mem
        · exact (inv.lt above i mem).le
        · exact (List.mem_singleton.mp mem).le
  | xdel ids =>
    cases st
    simp only [StreamEdit.perform, StreamEdit.given, List.append_nil]
    exact ⟨inv.stream.xdel, inv.ascending, inv.last⟩
  | xtrim clock strategy arg threshold =>
    cases st
    simp only [StreamEdit.perform, StreamEdit.given, List.append_nil]
    refine ⟨inv.stream.xtrim, inv.ascending, fun id mem => ?_⟩
    rw [Stream.lastId_xtrim]
    exact inv.last id mem

end

/-- **Ids increase**: in every run of `XADD`, `XDEL` and `XTRIM` on a stream in which each automatic id finds a
clock that is ahead of the last id, the entries are sorted, and an `XADD` that comes next and does not fail
answers an id above all that were given. -/
theorem xadd_increases_of_inTurn {checks : Bool} {edits : List StreamEdit} {h : IdHistory}
    (turn : Guarded (IdHistory.step checks) (fun h edit => edit.InTurn h.stream) {} edits)
    (ran : run (IdHistory.step checks) {} edits = some h) :
    h.stream.entries.Pairwise (·.id < ·.id) ∧ h.added.Pairwise (· < ·) ∧
      ∀ clock p r, (StreamEdit.xadd clock p).InTurn h.stream → (h.stream.xadd checks clock p).1 = .ok r →
        ∃ id, r = .bulk id.toBytes ∧ ∀ i ∈ h.added, i < id := by
  have start : IdHistory.Inv {} :=
    ⟨Stream.inv_new, List.Pairwise.nil, fun _ mem => absurd mem List.not_mem_nil⟩
  have inv : h.Inv := invariant_of_guarded IdHistory.inv_step turn ran start
  refine ⟨inv.stream.ascending, inv.ascending, fun clock p r next answered => ?_⟩
  obtain ⟨answer, above⟩ := Stream.xadd_ok answered next
  exact ⟨_, answer, inv.lt above⟩

/-- `XADD` at a time in milliseconds. -/
def xaddAt (ms : ℕ) (id : String) : StreamEdit :=
  .xadd ⟨fun _ => 0, fun _ => ms * 10 ^ 6⟩ ⟨word "k", none, word id, [(word "f", word "v")]⟩

/-- The clock stands still, an id is far ahead, and the clock comes after it. -/
theorem xadd_increases_still :
    ∃ h, run (IdHistory.step true) {} [xaddAt 7 "*", xaddAt 7 "*", xaddAt 7 "90-3", .xdel [⟨7, 1⟩],
        xaddAt 90 "*", xaddAt 91 "95"] = some h ∧
      h.added = [⟨7, 0⟩, ⟨7, 1⟩, ⟨90, 3⟩, ⟨90, 4⟩, ⟨95, 0⟩] ∧ h.added.Pairwise (· < ·) := by
  obtain ⟨h, ran, added⟩ := exists_of_test (IdHistory.step true) {} [xaddAt 7 "*", xaddAt 7 "*", xaddAt 7 "90-3",
    .xdel [⟨7, 1⟩], xaddAt 90 "*", xaddAt 91 "95"]
    (fun h => h.added = [⟨7, 0⟩, ⟨7, 1⟩, ⟨90, 3⟩, ⟨90, 4⟩, ⟨95, 0⟩]) (by decide)
  exact ⟨h, ran, of_decide_eq_true added, (xadd_increases_of_inTurn (by decide) ran).2.1⟩

/-- After the explicit id 9-0 the clock shows 7: the second id is 7-0, and the entries are not sorted. -/
theorem xadd_goes_back :
    ∃ h, run (IdHistory.step true) {} [xaddAt 7 "9-0", xaddAt 7 "*"] = some h ∧ h.added = [⟨9, 0⟩, ⟨7, 0⟩] ∧
      ¬h.added.Pairwise (· < ·) ∧ ¬h.stream.entries.Pairwise (·.id < ·.id) := by
  obtain ⟨h, ran, test⟩ := exists_of_test (IdHistory.step true) {} [xaddAt 7 "9-0", xaddAt 7 "*"]
    (fun h => h.added = [⟨9, 0⟩, ⟨7, 0⟩] ∧ ¬h.added.Pairwise (· < ·) ∧
      ¬h.stream.entries.Pairwise (·.id < ·.id)) (by decide)
  exact ⟨h, ran, of_decide_eq_true test⟩

end Cache
