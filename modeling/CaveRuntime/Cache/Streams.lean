import CaveRuntime.Cache.Types

/-!
# Stream commands

Model of `XADD`, `XTRIM` and `XDEL` of `commands/streams.rs` on a stream. Where an automatic id finds a clock that
is ahead of the last id, the entries ascend.
-/

namespace Cache
open MachineInt Text Utf8

/-- Rust `find('-')`: what stands before and after the first one. -/
def splitDash (b : Bytes) : Option (Bytes × Bytes) :=
  if 45 ∈ b then some (b.takeWhile (· ≠ 45), (b.dropWhile (· ≠ 45)).drop 1) else none

/-- `StreamId::parse` at a reading of the clock. -/
def StreamId.parse (ms : ℕ) (s : Bytes) : Option StreamId :=
  if fromUtf8Lossy s ≠ s then none
  else if s = word "*" then some ⟨ms, 0⟩
  else
    match splitDash s with
    | some (before, after) =>
      (parseU64 before).bind fun ms =>
        (if after = word "*" then some 0 else parseU64 after).map fun seq => ⟨ms, seq⟩
    | none => (parseU64 s).map fun ms => ⟨ms, 0⟩

/-- An error of a stream command. -/
def invalidId : Failure := .error (.generic "ERR Invalid stream ID")

/-- `StreamId::parse` of an argument, or the error of most commands. -/
def parseId (ms : ℕ) (s : Bytes) : Except Failure StreamId :=
  match StreamId.parse ms s with
  | some id => .ok id
  | none => .error invalidId

/-! ## `XADD` -/

/-- What `XADD` is asked to do. -/
structure Xadd where
  key : Bytes
  maxlen : Option ℕ
  idRaw : Bytes
  fields : List (Bytes × Bytes)

/-- The id of the new entry: the clock's for `*`, and else one above the last. -/
def Stream.nextId (checks : Bool) (ms parseMs : ℕ) (idRaw : Bytes) (s : Stream) : Except Failure StreamId :=
  if idRaw = word "*" then
    if s.lastId.ms = ms then
      match addU64 checks s.lastId.seq 1 with
      | none => .error .panic
      | some seq => .ok ⟨ms, seq⟩
    else .ok ⟨ms, 0⟩
  else
    match StreamId.parse parseMs idRaw with
    | none => .error (.error (.generic "ERR Invalid stream ID specified as stream command argument"))
    -- the test for a partial id such as `123-*` compares the same fields
    | some id => if id ≤ s.lastId then .error (.error .streamIdTooSmall) else .ok id

/-- Keep the last entries. -/
def Stream.keepLast (max : ℕ) (s : Stream) : Stream :=
  { s with entries := s.entries.drop (s.entries.length - max) }

/-- `cmd_xadd` on the stream. -/
def Stream.xadd (checks : Bool) (clock : Clock) (p : Xadd) (s : Stream) : Except Failure Resp × Stream :=
  match s.nextId checks (clock.ms 0) (clock.ms 1) p.idRaw with
  | .error e => (.error e, s)
  | .ok id =>
    let s := { s with lastId := id, entries := s.entries ++ [⟨id, p.fields⟩] }
    (.ok (.bulk id.toBytes), p.maxlen.elim s s.keepLast)

/-! ## `XTRIM` and `XDEL` -/

/-- `cmd_xtrim` on the stream. -/
def Stream.xtrim (clock : Clock) (strategy arg : Bytes) (threshold : ℤ) (s : Stream) :
    Except Failure Resp × Stream :=
  let removed (s' : Stream) : Except Failure Resp × Stream :=
    (.ok (.integer (s.entries.length - s'.entries.length : ℕ)), s')
  if isWord "MAXLEN" strategy then removed (s.keepLast (asU64 threshold))
  else if isWord "MINID" strategy then
    match parseId (clock.ms 0) arg with
    | .error e => (.error e, s)
    | .ok minId => removed { s with entries := s.entries.filter (minId ≤ ·.id) }
  else (.error (.error .syntaxError), s)

/-- `cmd_xdel` on the stream. -/
def Stream.xdel (ids : List StreamId) (s : Stream) : Except Failure Resp × Stream :=
  let entries := s.entries.filter (·.id ∉ ids)
  (.ok (.integer (s.entries.length - entries.length : ℕ)), { s with entries := entries })

/-! ## The entries -/

variable {s : Stream} {checks : Bool} {clock : Clock} {ms : ℕ} {id : StreamId}

namespace Stream

/-- The entries of a stream ascend up to its last id. -/
structure Inv (s : Stream) : Prop where
  ascending : s.entries.Pairwise (·.id < ·.id)
  last {e : StreamEntry} : e ∈ s.entries → e.id ≤ s.lastId

lemma inv_new : Inv {} := by
  refine ⟨List.Pairwise.nil, fun mem => ?_⟩
  cases mem

lemma Inv.sublist (inv : s.Inv) {entries : List StreamEntry} (sub : entries.Sublist s.entries) :
    Inv { s with entries := entries } :=
  ⟨inv.ascending.sublist sub, fun mem => inv.last (sub.subset mem)⟩

lemma Inv.keepLast {max : ℕ} (inv : s.Inv) : (s.keepLast max).Inv := inv.sublist (List.drop_sublist ..)

/-- The clock is not behind the last id, and in the same millisecond the numbers do not run out. -/
def ClockAhead (s : Stream) (ms : ℕ) : Prop :=
  s.lastId.ms < ms ∨ s.lastId.ms = ms ∧ s.lastId.seq + 1 < 2 ^ 64
deriving Decidable

lemma lt_nextId {parseMs : ℕ} {idRaw : Bytes} (ahead : idRaw = word "*" → s.ClockAhead ms)
    (next : s.nextId checks ms parseMs idRaw = .ok id) : s.lastId < id := by
  unfold nextId at next
  split at next
  · rename_i star
    cases ahead star with
    | inl lt =>
      rw [if_neg (Nat.ne_of_lt lt)] at next
      cases next
      exact .inl lt
    | inr same =>
      rw [if_pos same.1] at next
      simp only [addU64, if_pos same.2] at next
      cases next
      exact .inr ⟨same.1, Nat.lt_succ_self _⟩
  · cases parsed : StreamId.parse parseMs idRaw with
    | none =>
      rw [parsed] at next
      cases next
    | some id' =>
      simp only [parsed] at next
      split at next
      · cases next
      · rename_i above
        cases next
        exact lt_of_not_ge above

lemma Inv.xadd {p : Xadd} (inv : s.Inv) (ahead : p.idRaw = word "*" → s.ClockAhead (clock.ms 0)) :
    (s.xadd checks clock p).2.Inv := by
  unfold Stream.xadd
  cases next : s.nextId checks (clock.ms 0) (clock.ms 1) p.idRaw with
  | error e => exact inv
  | ok id =>
    have lt := lt_nextId ahead next
    have added : Inv { s with lastId := id, entries := s.entries ++ [⟨id, p.fields⟩] } := by
      refine ⟨?_, fun mem => ?_⟩
      · refine List.pairwise_append.mpr ⟨inv.ascending, List.pairwise_singleton .., fun e mem e' mem' => ?_⟩
        cases List.mem_singleton.mp mem'
        exact lt_of_le_of_lt (inv.last mem) lt
      · cases List.mem_append.mp mem with
        | inl mem => exact le_of_lt (lt_of_le_of_lt (inv.last mem) lt)
        | inr mem =>
          cases List.mem_singleton.mp mem
          exact le_refl id
    dsimp only
    cases p.maxlen with
    | none => exact added
    | some max => exact added.keepLast

lemma Inv.xtrim {strategy arg : Bytes} {n : ℤ} (inv : s.Inv) : (s.xtrim clock strategy arg n).2.Inv := by
  unfold Stream.xtrim
  dsimp only
  split
  · exact inv.keepLast
  · split
    · cases parseId (clock.ms 0) arg with
      | error e => exact inv
      | ok id => exact inv.sublist List.filter_sublist
    · exact inv

lemma Inv.xdel {ids : List StreamId} (inv : s.Inv) : (s.xdel ids).2.Inv := inv.sublist List.filter_sublist

end Stream

end Cache
