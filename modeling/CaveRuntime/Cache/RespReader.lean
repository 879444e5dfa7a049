import CaveRuntime.Cache.Resp

/-!
# The reader of commands

Model of `parse_command`, and what it does with any bytes. The values of a stream come one after the other, nested
in each other: `frames` lists the first lines that are read, each with its depth, where a line that announces values
opens a level with so many of them. The reader asks for a buffer or a vector as large as a line says, before it has
received anything of it, it panics on a line whose first character is not ASCII, and it calls itself for each level,
so that it overflows the stack on a stream that nests more levels than the stack has room for. How many these are is
a parameter.

A reading is compared with the lines by what it leaves: `Follows` says for any levels below the reading that it is
safe, and the lines behind it do no harm, exactly if none of the lines from its start on does.
-/

namespace Cache
open MachineInt Text Utf8

/-! ## Commands -/

/-- The loop of `split_whitespace`, with the word that has been begun; the number of bytes is fuel enough. -/
def splitLoop : ℕ → Bytes → Bytes → List Bytes
  | 0, _, _ => []
  | _ + 1, word, [] => if word = [] then [] else [word]
  | fuel + 1, word, c :: rest =>
    match spaces.find? (·.isPrefixOf (c :: rest)) with
    | some space =>
      (if word = [] then [] else [word]) ++ splitLoop fuel [] ((c :: rest).drop space.length)
    | none => splitLoop fuel (word ++ [c]) rest

def parseInline (line : Bytes) : Except ReadError (List Bytes) :=
  if fromUtf8Lossy line ≠ line then .error (.protocol "Non-UTF8 inline")
  else
    match splitLoop (line.length + 1) [] line with
    | [] => .error (.protocol "Empty inline command")
    | args => .ok args

/-- The arguments of a command. -/
def commandArgs : List Resp → Except ReadError (List Bytes)
  | [] => .ok []
  | .bulkString (some b) :: items | .simpleString b :: items => (commandArgs items).map (b :: ·)
  | _ => .error (.protocol "Expected bulk string in command array")

/-- `parse_command`; a `Vec<u8>` has 24 bytes. The stack has room for so many nested calls of `parse_resp`. -/
def parseCommand (checks : Bool) (width room : ℕ) (parseF64 : Bytes → Option UInt64) (s : Bytes) :
    Reading (List Bytes) :=
  (parseResp checks width parseF64 room s).bind fun v s =>
    match v with
    | .array (some items) => (Reading.ask items.length 24 s).bind fun _ s =>
        ⟨[], (commandArgs items).bind fun args =>
          if args = [] then .error (.protocol "Empty command") else .ok (args, s)⟩
    | .simpleString line => ⟨[], (parseInline line).map fun args => (args, s)⟩
    | _ => ⟨[], .error (.protocol "Expected array for command")⟩

/-! ## First lines -/

/-- What is left behind a block that is read. -/
def blockEnd (checks : Bool) (tag : BlockTag) (len : ℕ) (s : Bytes) : Option Bytes :=
  match (readBlock checks len s).result with
  | .error _ => none
  | .ok (buf, rest) =>
    match tag.close buf with
    | .error _ => none
    | .ok _ => some rest

variable {s rest : Bytes} {α : Type} {bound : ℕ}

lemma readFrame_ok {parseF64 : Bytes → Option UInt64} {frame : Frame}
    (read : readFrame parseF64 s = .ok (frame, rest)) :
    (readLine s).1 ≠ [] ∧ rest = (readLine s).2 ∧ ∃ c text, frameOf parseF64 c text = .ok frame := by
  unfold readFrame at read
  dsimp only at read
  split at read
  · cases read
  split at read
  · cases read
  split at read
  · cases read
  split at read
  · cases read
  rename_i line _ _ c text _ _
  refine ⟨line, ?_⟩
  cases found : frameOf parseF64 c text with
  | error e =>
    rw [found] at read
    cases read
  | ok f =>
    rw [found] at read
    cases read
    exact ⟨rfl, c, text, found⟩

lemma readFrame_lt {parseF64 : Bytes → Option UInt64} {frame : Frame}
    (read : readFrame parseF64 s = .ok (frame, rest)) : rest.length < s.length := by
  obtain ⟨line, rfl, -⟩ := readFrame_ok read
  have some : s ≠ [] := fun e => line (by rw [e]; rfl)
  have pos := List.length_pos_of_ne_nil some
  rw [readLine, List.length_drop]
  omega

lemma readBlock_le {checks : Bool} {len : ℕ} {buf : Bytes}
    (read : (readBlock checks len s).result = .ok (buf, rest)) : rest.length ≤ s.length := by
  unfold readBlock at read
  split at read
  · cases read
  · rename_i n _
    unfold Reading.bind Reading.ask at read
    by_cases room : n * 1 ≤ isizeMax
    · simp only [room, if_true] at read
      split at read
      · cases read
        rw [List.length_drop]
        omega
      · cases read
    · simp only [room, if_false] at read
      cases read

lemma blockEnd_le {checks : Bool} {tag : BlockTag} {len : ℕ}
    (read : blockEnd checks tag len s = some rest) : rest.length ≤ s.length := by
  unfold blockEnd at read
  split at read
  · cases read
  · rename_i ok
    split at read
    · cases read
    · cases read
      exact readBlock_le ok

/-- The first lines that are read, each with its depth, where each open level has so many values still to read. -/
def frames (checks : Bool) (parseF64 : Bytes → Option UInt64) : List ℕ → Bytes → List (ℕ × Except ReadError Frame)
  | [], _ => []
  | 0 :: levels, s => frames checks parseF64 levels s
  | (pending + 1) :: levels, s =>
    match _read : readFrame parseF64 s with
    | .error e => [(levels.length + 1, .error e)]
    | .ok (.value v, rest) =>
      (levels.length + 1, .ok (.value v)) :: frames checks parseF64 (pending :: levels) rest
    | .ok (.block tag len, rest) =>
      (levels.length + 1, .ok (.block tag len)) ::
        match _block : blockEnd checks tag len rest with
        | none => []
        | some rest => frames checks parseF64 (pending :: levels) rest
    | .ok (.items tag count, rest) =>
      (levels.length + 1, .ok (.items tag count)) ::
        frames checks parseF64 (tag.arity * count :: pending :: levels) rest
termination_by levels s => (s.length, levels.length)
decreasing_by
  · exact Prod.Lex.right _ (Nat.lt_succ_self _)
  · exact Prod.Lex.left _ _ (readFrame_lt _read)
  · exact Prod.Lex.left _ _ (Nat.lt_of_le_of_lt (blockEnd_le _block) (readFrame_lt _read))
  · exact Prod.Lex.left _ _ (readFrame_lt _read)

/-- A line that announces no more than a bound, and nothing that cannot be in memory. -/
def Frame.Modest (checks : Bool) (width bound : ℕ) : Frame → Prop
  | .value _ => True
  | .block _ len => ∃ n, addU64 checks len 2 = some n ∧ n ≤ bound ∧ n ≤ isizeMax
  | .items tag count => count ≤ bound ∧ count * (tag.arity * width) ≤ isizeMax

/-- A first line that does no harm at a depth. -/
def Harmless (checks : Bool) (width room bound : ℕ) : ℕ × Except ReadError Frame → Prop
  | (depth, .error e) => depth ≤ room ∧ e ≠ .panic
  | (depth, .ok frame) => depth ≤ room ∧ frame.Modest checks width bound

/-! ## Safe readings -/

/-- A reading that does not panic and asks for no more than a bound. -/
structure Safe {α : Type} (bound : ℕ) (r : Reading α) : Prop where
  asks : ∀ n ∈ r.asks, n ≤ bound
  calm : r.result ≠ .error .panic

lemma safe_bind_iff {β : Type} {r : Reading α} {f : α → Bytes → Reading β} :
    Safe bound (r.bind f) ↔ Safe bound r ∧ ∀ a s, r.result = .ok (a, s) → Safe bound (f a s) := by
  unfold Reading.bind
  cases result : r.result with
  | error e =>
    constructor
    · intro h
      refine ⟨⟨h.asks, fun e => h.calm ?_⟩, fun a s e => (by cases e)⟩
      rw [result] at e
      cases e
      rfl
    · intro h
      refine ⟨h.1.asks, fun e => h.1.calm ?_⟩
      cases e
      exact result
  | ok p =>
    obtain ⟨a, s⟩ := p
    constructor
    · intro h
      refine ⟨⟨fun n mem => h.asks n (List.mem_append_left _ mem), fun e => ?_⟩, fun a' s' e => ?_⟩
      · rw [result] at e
        cases e
      · cases e
        exact ⟨fun n mem => h.asks n (List.mem_append_right _ mem), h.calm⟩
    · intro h
      have next := h.2 a s rfl
      refine ⟨fun n mem => ?_, next.calm⟩
      exact (List.mem_append.mp mem).elim (h.1.asks n) (next.asks n)

lemma safe_of_calm {result : Except ReadError (α × Bytes)}
    (calm : result ≠ .error .panic) : Safe bound ⟨[], result⟩ :=
  ⟨fun _ mem => absurd mem List.not_mem_nil, calm⟩

lemma safe_pure (bound : ℕ) (p : α × Bytes) : Safe bound ⟨[], .ok p⟩ :=
  safe_of_calm fun e => by cases e

lemma safe_ask_iff {n width : ℕ} :
    Safe bound (Reading.ask n width s) ↔ n ≤ bound ∧ n * width ≤ isizeMax := by
  unfold Reading.ask
  constructor
  · intro h
    refine ⟨h.asks n List.mem_cons_self, ?_⟩
    by_contra large
    exact h.calm (if_neg large)
  · intro h
    rw [if_pos h.2]
    refine ⟨fun m mem => ?_, fun e => by cases e⟩
    cases List.mem_singleton.mp mem
    exact h.1

/-! ## Readings and first lines -/

section
variable {checks : Bool} {width room bound depth : ℕ} {parseF64 : Bytes → Option UInt64} {α β : Type}

/-- All first lines of the values of some levels do no harm. -/
def AllHarmless (checks : Bool) (width room bound : ℕ) (parseF64 : Bytes → Option UInt64) (levels : List ℕ)
    (s : Bytes) : Prop :=
  ∀ line ∈ frames checks parseF64 levels s, Harmless checks width room bound line

/-- A reading, below so many levels, goes through the first lines of so many values: it is safe, and all lines behind
it do no harm, exactly if none of the lines from its start on does. -/
def Follows (checks : Bool) (width room bound : ℕ) (parseF64 : Bytes → Option UInt64) (depth count : ℕ) (s : Bytes)
    (r : Reading α) : Prop :=
  ∀ pending (levels : List ℕ), levels.length = depth →
    (AllHarmless checks width room bound parseF64 ((count + pending) :: levels) s ↔
      Safe bound r ∧ ∀ a s', r.result = .ok (a, s') →
        AllHarmless checks width room bound parseF64 (pending :: levels) s')

lemma follows_pure (a : α) (s : Bytes) :
    Follows checks width room bound parseF64 depth 0 s (⟨[], .ok (a, s)⟩ : Reading α) := by
  intro pending levels _
  rw [Nat.zero_add]
  refine ⟨fun all => ⟨safe_pure bound (a, s), fun a' s' e => ?_⟩, fun h => h.2 a s rfl⟩
  cases e
  exact all

variable {n : ℕ} {s s' : Bytes}

lemma Follows.bind {m : ℕ} {r : Reading α} {f : α → Bytes → Reading β}
    (first : Follows checks width room bound parseF64 depth m s r)
    (next : ∀ a s', r.result = .ok (a, s') → Follows checks width room bound parseF64 depth n s' (f a s')) :
    Follows checks width room bound parseF64 depth (m + n) s (r.bind f) := by
  intro pending levels deep
  rw [Nat.add_assoc, first (n + pending) levels deep, safe_bind_iff]
  constructor
  · rintro ⟨safe, rest⟩
    refine ⟨⟨safe, fun a s' ok => ((next a s' ok pending levels deep).mp (rest a s' ok)).1⟩, fun b s'' ok => ?_⟩
    cases result : r.result with
    | error e =>
      rw [Reading.bind, result] at ok
      cases ok
    | ok p =>
      rw [Reading.bind_ok f result] at ok
      exact ((next p.1 p.2 result pending levels deep).mp (rest p.1 p.2 result)).2 b s'' ok
  · rintro ⟨⟨safe, safe'⟩, rest⟩
    refine ⟨safe, fun a s' ok => (next a s' ok pending levels deep).mpr ⟨safe' a s' ok, fun b s'' ok' => ?_⟩⟩
    refine rest b s'' ?_
    rw [Reading.bind_ok f ok]
    exact ok'

lemma Reading.bind_eq_ok {r : Reading α} {f : α → Bytes → Reading β} {b : β}
    (ok : (r.bind f).result = .ok (b, s)) : ∃ a s', r.result = .ok (a, s') ∧ (f a s').result = .ok (b, s) := by
  cases result : r.result with
  | error e =>
    rw [Reading.bind, result] at ok
    cases ok
  | ok p =>
    rw [Reading.bind_ok f result] at ok
    exact ⟨p.1, p.2, rfl, ok⟩

lemma ask_eq_ok {width : ℕ} {u : Unit} (ok : (Reading.ask n width s).result = .ok (u, s')) :
    s' = s := by
  unfold Reading.ask at ok
  split at ok
  · cases ok
    rfl
  · cases ok

lemma follows_readItems {parse : Bytes → Reading Resp}
    (follows : ∀ s, Follows checks width room bound parseF64 depth 1 s (parse s)) (n : ℕ) (s : Bytes) :
    Follows checks width room bound parseF64 depth n s (readItems parse n s) := by
  induction n generalizing s with
  | zero => exact follows_pure [] s
  | succ n ih =>
    rw [readItems, Nat.add_comm n 1]
    refine (follows s).bind fun v s' _ => ?_
    exact (ih s').bind (n := 0) fun vs s'' _ => follows_pure (v :: vs) s''

/-- A level that is read to its end is left. -/
lemma allHarmless_zero {levels : List ℕ} :
    AllHarmless checks width room bound parseF64 (0 :: levels) s ↔
      AllHarmless checks width room bound parseF64 levels s := by
  rw [AllHarmless, frames, AllHarmless]

lemma allHarmless_succ {pending : ℕ} {levels : List ℕ} :
    AllHarmless checks width room bound parseF64 ((pending + 1) :: levels) s ↔
      match readFrame parseF64 s with
      | .error e => levels.length + 1 ≤ room ∧ e ≠ .panic
      | .ok (frame, rest) => (levels.length + 1 ≤ room ∧ frame.Modest checks width bound) ∧
          match frame with
          | .value _ => AllHarmless checks width room bound parseF64 (pending :: levels) rest
          | .block tag len => ∀ s' ∈ blockEnd checks tag len rest,
              AllHarmless checks width room bound parseF64 (pending :: levels) s'
          | .items tag count =>
              AllHarmless checks width room bound parseF64 (tag.arity * count :: pending :: levels) rest := by
  rw [AllHarmless, frames]
  split
  · rename_i read
    rw [read]
    exact List.forall_mem_singleton
  · rename_i read
    rw [read]
    exact List.forall_mem_cons
  · rename_i tag len rest read
    rw [read]
    refine List.forall_mem_cons.trans (and_congr Iff.rfl ?_)
    split
    · rename_i last
      simp [last]
    · rename_i rest' last
      simp [last, AllHarmless]
  · rename_i read
    rw [read]
    exact List.forall_mem_cons

lemma safe_readBlock_iff {len : ℕ} (tag : BlockTag) :
    Safe bound (readBlock checks len s) ↔ Frame.Modest checks width bound (.block tag len) := by
  unfold readBlock Frame.Modest
  cases sum : addU64 checks len 2 with
  | none =>
    simp only [sum, reduceCtorEq, false_and, exists_false, iff_false]
    exact fun h => h.calm rfl
  | some n =>
    simp only [sum, safe_bind_iff, safe_ask_iff, Option.some.injEq, exists_eq_left', Nat.mul_one]
    refine ⟨fun h => h.1, fun h => ⟨h, fun _ s' _ => safe_of_calm fun e => ?_⟩⟩
    split at e <;> cases e

lemma close_calm {buf : Bytes} (tag : BlockTag) : tag.close buf ≠ .error .panic := by
  intro e
  cases tag with
  | bulk => cases e
  | blobError => cases e
  | verbatim =>
    rw [BlockTag.close] at e
    split at e <;> cases e

lemma blockEnd_eq_some_iff {tag : BlockTag} {len : ℕ} :
    blockEnd checks tag len s = some s' ↔ ∃ v, ((readBlock checks len s).bind fun buf s =>
      (⟨[], (tag.close buf).map fun v => (v, s)⟩ : Reading Resp)).result = .ok (v, s') := by
  unfold blockEnd Reading.bind
  cases (readBlock checks len s).result with
  | error e => simp
  | ok p =>
    dsimp only
    cases tag.close p.1 with
    | error e => simp [Except.map]
    | ok v => simp [Except.map]

/-- What is left of the room at a depth is the fuel of the reading there. -/
lemma follows_parseResp (fuel : ℕ) (left : depth + fuel = room) (s : Bytes) :
    Follows checks width room bound parseF64 depth 1 s (parseResp checks width parseF64 fuel s) := by
  induction fuel generalizing depth s with
  | zero =>
    -- the line is too deep, whatever it is
    rintro pending levels rfl
    rw [Nat.add_comm 1 pending, allHarmless_succ]
    refine iff_of_false (fun harmless => ?_) fun h => h.1.calm rfl
    split at harmless
    · exact absurd harmless.1 (by omega)
    · exact absurd harmless.1.1 (by omega)
  | succ fuel ih =>
    rintro pending levels rfl
    have deep : levels.length + 1 ≤ room := by omega
    rw [Nat.add_comm 1 pending, allHarmless_succ, parseResp]
    simp only [deep, true_and]
    cases read : readFrame parseF64 s with
    | error e =>
      refine ⟨fun calm => ⟨safe_of_calm fun e => ?_, fun _ _ e => (by cases e)⟩, fun h e => h.1.calm ?_⟩
      · cases e
        exact calm rfl
      · rw [e]
    | ok p =>
      obtain ⟨frame, rest⟩ := p
      cases frame with
      | value v =>
        refine ⟨fun h => ⟨safe_pure bound (v, rest), fun a s' e => ?_⟩, fun h => ⟨trivial, h.2 v rest rfl⟩⟩
        cases e
        exact h.2
      | block tag len =>
        dsimp only
        rw [safe_bind_iff, safe_readBlock_iff tag]
        constructor
        · rintro ⟨modest, rest_ok⟩
          refine ⟨⟨modest, fun buf s' _ => safe_of_calm fun e => ?_⟩, fun v s' ok =>
            rest_ok s' (blockEnd_eq_some_iff.mpr ⟨v, ok⟩)⟩
          cases close : tag.close buf with
          | error e' =>
            rw [close] at e
            cases e
            exact close_calm tag close
          | ok v =>
            rw [close] at e
            cases e
        · rintro ⟨⟨modest, -⟩, rest_ok⟩
          refine ⟨modest, fun s' mem => ?_⟩
          obtain ⟨v, ok⟩ := blockEnd_eq_some_iff.mp mem
          exact rest_ok v s' ok
      | items tag count =>
        have inner := follows_readItems (ih (by omega : levels.length + 1 + fuel = room)) (tag.arity * count) rest
        -- the vector is asked for, then the values are read one level further down, and the level is left
        have all := inner.bind (n := 0) fun vs s' _ => follows_pure (tag.close vs) s'
        have step := all 0 (pending :: levels) rfl
        simp only [Nat.add_zero, allHarmless_zero] at step
        dsimp only
        rw [safe_bind_iff, safe_ask_iff, step]
        constructor
        · rintro ⟨modest, safe, rest_ok⟩
          have asked : (Reading.ask count (tag.arity * width) rest).result = .ok ((), rest) := if_pos modest.2
          refine ⟨⟨modest, fun u s' ok => ?_⟩, fun v s' ok => rest_ok v s' ?_⟩
          · rw [ask_eq_ok ok]
            exact safe
          · rwa [Reading.bind_ok _ asked] at ok
        · rintro ⟨⟨modest, safe⟩, rest_ok⟩
          have asked : (Reading.ask count (tag.arity * width) rest).result = .ok ((), rest) := if_pos modest.2
          refine ⟨modest, safe () rest asked, fun v s' ok => rest_ok v s' ?_⟩
          rwa [Reading.bind_ok _ asked]

/-! ## The reader -/

/-- A first line alone is never an array with its items. -/
lemma frameOf_ne_array {c : UInt8} {text : Bytes} {items : List Resp} :
    frameOf parseF64 c text ≠ .ok (.value (.array (some items))) := by
  have signed {nil : Resp} {frame : ℕ → Frame} {m m' : String} (ne : nil ≠ .array (some items))
      (other : ∀ n v, frame n ≠ .value v) :
      (parseOr m (parseI64 text)).bind (signedLength nil frame m') ≠ .ok (.value (.array (some items))) := by
    intro e
    cases parsed : parseI64 text with
    | none =>
      rw [parsed] at e
      cases e
    | some len =>
      rw [parsed] at e
      change signedLength nil frame m' len = _ at e
      unfold signedLength at e
      split at e
      · exact ne (Frame.value.inj (Except.ok.inj e))
      · split at e
        · cases e
        · exact other _ _ (Except.ok.inj e)
  have mapped {γ : Type} {m : String} {o : Option γ} {f : γ → Frame}
      (other : ∀ x, f x ≠ .value (.array (some items))) :
      (parseOr m o).map f ≠ .ok (.value (.array (some items))) := by
    intro e
    cases o with
    | none => cases e
    | some x => exact other x (Except.ok.inj e)
  unfold frameOf
  split
  · exact fun e => by cases e
  · exact fun e => by cases e
  · exact mapped fun _ e => by cases e
  · exact signed (fun e => by cases e) fun _ _ e => by cases e
  · exact signed (fun e => by cases e) fun _ _ e => by cases e
  · exact fun e => by cases e
  · split
    · exact fun e => by cases e
    · split
      · exact fun e => by cases e
      · exact fun e => by cases e
  · exact mapped fun _ e => by cases e
  · exact fun e => by cases e
  · exact mapped fun _ e => by cases e
  · exact mapped fun _ e => by cases e
  · exact mapped fun _ e => by cases e
  · exact mapped fun _ e => by cases e
  · exact mapped fun _ e => by cases e
  · exact fun e => by cases e

lemma length_readItems {parse : Bytes → Reading Resp} {vs : List Resp}
    (ok : (readItems parse n s).result = .ok (vs, s')) : vs.length = n := by
  induction n generalizing s vs with
  | zero =>
    cases ok
    rfl
  | succ n ih =>
    obtain ⟨v, s₁, -, ok⟩ := Reading.bind_eq_ok ok
    obtain ⟨vs', s₂, tail, ok⟩ := Reading.bind_eq_ok ok
    cases ok
    exact congrArg (· + 1) (ih tail)

lemma readFrame_of_array {fuel : ℕ} {items : List Resp}
    (ok : (parseResp checks width parseF64 fuel s).result = .ok (.array (some items), s')) :
    ∃ rest, readFrame parseF64 s = .ok (.items .array items.length, rest) := by
  unfold parseResp at ok
  split at ok
  · cases ok
  split at ok
  · cases ok
  · rename_i v rest read
    cases ok
    obtain ⟨-, -, c, text, frame⟩ := readFrame_ok read
    exact absurd frame frameOf_ne_array
  · rename_i tag len rest read
    obtain ⟨buf, s₁, -, ok⟩ := Reading.bind_eq_ok ok
    cases tag with
    | bulk => cases ok
    | blobError => cases ok
    | verbatim =>
      rw [BlockTag.close] at ok
      split at ok <;> cases ok
  · rename_i tag count rest read
    obtain ⟨_, s₁, -, ok⟩ := Reading.bind_eq_ok ok
    obtain ⟨vs, s₂, read', ok⟩ := Reading.bind_eq_ok ok
    cases tag with
    | array =>
      cases ok
      refine ⟨rest, ?_⟩
      rw [length_readItems read', ItemsTag.arity, Nat.one_mul]
      exact read
    | map => cases ok
    | set => cases ok
    | push => cases ok

lemma parseInline_calm {line : Bytes} : parseInline line ≠ .error .panic := by
  intro e
  unfold parseInline at e
  split at e
  · cases e
  · split at e <;> cases e

lemma commandArgs_calm (items : List Resp) : commandArgs items ≠ .error .panic := by
  fun_induction commandArgs items with
  | case1 => exact fun e => by cases e
  | case2 b items ih | case3 b items ih =>
    intro e
    cases rest : commandArgs items with
    | error e' =>
      rw [rest] at e ih
      cases e
      exact ih rfl
    | ok args =>
      rw [rest] at e
      cases e
  | case4 => exact fun e => by cases e

/-- **The reader survives** a stream, asking for no more than a linear bound, exactly if no first line that it
comes to starts with a character that is not ASCII, announces more than the bound or than can be in memory, or is
nested more deeply than the stack has room for. -/
theorem parseCommand_safe_iff (wide : 24 ≤ width) (room a b : ℕ) (s : Bytes) :
    Safe (a * s.length + b) (parseCommand checks width room parseF64 s) ↔
      ∀ line ∈ frames checks parseF64 [1] s, Harmless checks width room (a * s.length + b) line := by
  have follows : Follows checks width room (a * s.length + b) parseF64 0 1 s
      (parseResp checks width parseF64 room s) :=
    follows_parseResp room (Nat.zero_add room) s
  have follows := follows 0 [] rfl
  rw [parseCommand, safe_bind_iff]
  constructor
  · rintro ⟨safe, -⟩
    refine follows.mpr ⟨safe, fun v s' _ line mem => ?_⟩
    rw [frames, frames] at mem
    cases mem
  · intro harmless
    refine ⟨(follows.mp harmless).1, fun v s' ok => ?_⟩
    split
    · rename_i items
      obtain ⟨rest, first⟩ := readFrame_of_array ok
      have modest := allHarmless_succ.mp (show AllHarmless checks width room _ parseF64 [0 + 1] s from harmless)
      rw [first] at modest
      obtain ⟨⟨-, le, memory⟩, -⟩ := modest
      rw [ItemsTag.arity, Nat.one_mul] at memory
      refine safe_bind_iff.mpr ⟨safe_ask_iff.mpr ⟨le, (Nat.mul_le_mul_left _ wide).trans memory⟩, fun _ s'' _ => ?_⟩
      refine safe_of_calm fun e => ?_
      cases args : commandArgs items with
      | error e' =>
        rw [args] at e
        cases e
        exact commandArgs_calm items args
      | ok l =>
        rw [args] at e
        change (if l = [] then _ else _) = _ at e
        split at e <;> cases e
    · rename_i line
      refine safe_of_calm fun e => ?_
      cases args : parseInline line with
      | error e' =>
        rw [args] at e
        cases e
        exact parseInline_calm args
      | ok l =>
        rw [args] at e
        cases e
    · exact safe_of_calm fun e => by cases e

end

/-- An array of one bulk string of two bytes, which takes two calls. -/
theorem parseCommand_safe_short :
    Safe (1 * 12 + 0) (parseCommand true 56 2 (fun _ => none) [42, 49, 13, 10, 36, 50, 13, 10, 104, 105, 13, 10]) ∧
      ∀ line ∈ frames true (fun _ => none) [1] [42, 49, 13, 10, 36, 50, 13, 10, 104, 105, 13, 10],
        Harmless true 56 2 (1 * 12 + 0) line := by
  have safe : Safe (1 * 12 + 0)
      (parseCommand true 56 2 (fun _ => none) [42, 49, 13, 10, 36, 50, 13, 10, 104, 105, 13, 10]) := by
    constructor <;> decide +kernel
  exact ⟨safe, (parseCommand_safe_iff (by decide) 2 1 0 [42, 49, 13, 10, 36, 50, 13, 10, 104, 105, 13, 10]).mp safe⟩

/-- So many arrays of one value each, nested in each other. -/
def nested (depth : ℕ) : Bytes := (List.replicate depth [42, 49, 13, 10]).flatten

/-- Whatever the stack has room for, a stream of so many lines takes more. -/
lemma parseResp_nested (checks : Bool) (room : ℕ) :
    (parseResp checks 56 (fun _ => none) room (nested room)).result = .error .panic := by
  induction room with
  | zero => rfl
  | succ room ih =>
    have starts : Starts 42 := by decide
    have plain : Plain [49] := ⟨by decide, by decide, by decide⟩
    have line : readFrame (fun _ => none) (nested (room + 1)) = .ok (.items .array 1, nested room) :=
      readFrame_line _ (nested room) starts plain
    have asked : (Reading.ask 1 (ItemsTag.array.arity * 56) (nested room)).result = .ok ((), nested room) := rfl
    rw [parseResp, line]
    dsimp only
    rw [Reading.bind_ok _ asked]
    simp [readItems, ItemsTag.arity, Reading.bind, ih]

/-- A first character of two bytes, a bulk string of 4294967295 bytes of which none is sent, and arrays nested in each
other. -/
theorem parseCommand_not_safe :
    (parseCommand true 56 2 (fun _ => none) [0xC3, 0xA9, 10]).result = .error .panic ∧
      (parseCommand true 56 2 (fun _ => none) [36, 52, 50, 57, 52, 57, 54, 55, 50, 57, 53, 10]).asks =
        [4294967297] ∧
      ∀ checks room, (parseCommand checks 56 room (fun _ => none) (nested room)).result = .error .panic := by
  refine ⟨by decide +kernel, by decide +kernel, fun checks room => ?_⟩
  rw [parseCommand, Reading.bind, parseResp_nested]

end Cache
