import CaveRuntime.Apiserver.WatchCache

/-!
# The apiserver: bookmarks under concurrency

The calls `record_*` and `force_bookmark` of a watch cache, step by step: drawing the resource version,
pushing under the lock, publishing the event and publishing the bookmark. A version is drawn before the
lock is taken, so that a bookmark can be published while an event with a lower version is still on its
way. If a bookmark is only published once no call of its tenant with a lower version is under way, nothing
that a watcher resuming from it would miss comes after it.
-/

namespace Apiserver
open Run

/-- Where a call is. -/
inductive Caller (R : Type*) where
  /-- `record_*` has its version. -/
  | drawn (change : Change) (rv : ℕ) (tenantId : String) (resource : R)
  /-- `push` has left the lock, with or without a bookmark to emit. -/
  | pushed (change : Change) (rv : ℕ) (tenantId : String) (resource : R) (bookmarkToEmit : Bool)
  /-- `push` has published the event, and the bookmark is left. -/
  | announced (rv : ℕ) (tenantId : String)
  /-- `force_bookmark` has read the version. -/
  | loaded (rv : ℕ) (tenantId : String)
  /-- `force_bookmark` has left the lock. -/
  | marked (rv : ℕ) (tenantId : String)
  | returned
deriving DecidableEq, Repr

/-- What happens to the ring and to the live bus. -/
inductive Action (R : Type*) where
  | pushed (event : WatchCacheEvent R)
  | published (event : WatchCacheEvent R)
deriving DecidableEq, Repr

/-- The steps: a call begins with its version, and goes on. -/
inductive CallStep (R : Type*) where
  | draw (change : Change) (tenantId : String) (resource : R)
  | load (tenantId : String)
  | advance (caller : ℕ)
deriving DecidableEq, Repr

/-- A cache with its callers, and what has happened in it. -/
structure Concurrent (R : Type*) where
  cache : WatchCache R
  callers : List (Caller R)
  log : List (Action R)

variable {R : Type*}

/-- The next step of a call: the cache and the call after it, and what it does. -/
def Caller.next (cache : WatchCache R) : Caller R → Option (WatchCache R × Caller R × List (Action R))
  | .drawn change rv tenantId resource =>
    let event := change.event rv tenantId resource
    let (bookmark, cache) := cache.pushLocked event
    some (cache, .pushed change rv tenantId resource bookmark.isSome,
      .pushed event :: bookmark.toList.map .pushed)
  | .pushed change rv tenantId resource bookmarkToEmit =>
    let event := change.event rv tenantId resource
    some (cache.publish event, if bookmarkToEmit then .announced rv tenantId else .returned,
      [.published event])
  | .announced rv tenantId | .marked rv tenantId =>
    some (cache.publish (.bookmark rv tenantId), .returned, [.published (.bookmark rv tenantId)])
  | .loaded rv tenantId =>
    some (cache.markLocked (.bookmark rv tenantId), .marked rv tenantId, [.pushed (.bookmark rv tenantId)])
  | .returned => none

/-- One step of one call. -/
def Concurrent.step (s : Concurrent R) : CallStep R → Option (Concurrent R)
  | .draw change tenantId resource =>
    let (rv, cache) := s.cache.nextRv
    some ⟨cache, s.callers ++ [.drawn change rv tenantId resource], s.log⟩
  | .load tenantId => some { s with callers := s.callers ++ [.loaded s.cache.rv tenantId] }
  | .advance i => do
    let caller ← s.callers[i]?
    let (cache, caller, actions) ← caller.next s.cache
    return ⟨cache, s.callers.set i caller, s.log ++ actions⟩

/-! ## Calls that are alone -/

lemma WatchCache.pushLocked_rv (s : WatchCache R) (event : WatchCacheEvent R) :
    (s.pushLocked event).2.rv = s.rv := by
  unfold pushLocked
  dsimp only
  split
  · rfl
  · rfl

lemma WatchCache.pushLocked_bookmark {s : WatchCache R} {event bookmark : WatchCacheEvent R}
    (h : bookmark ∈ (s.pushLocked event).1) :
    bookmark = .bookmark event.resourceVersion event.tenantId := by
  unfold pushLocked at h
  dsimp only at h
  split at h
  · exact (Option.some.inj h).symm
  · cases h

namespace Concurrent

variable {cache cache' : WatchCache R} {callers : List (Caller R)} {c c' : Caller R}
  {log actions : List (Action R)}

lemma step_last (next : c.next cache = some (cache', c', actions)) :
    step ⟨cache, callers ++ [c], log⟩ (.advance callers.length) =
      some ⟨cache', callers ++ [c'], log ++ actions⟩ := by
  simp only [step, List.getElem?_concat_length, Option.bind_eq_bind, Option.bind_some, next]
  rw [List.set_append_right _ _ (Nat.le_refl _), Nat.sub_self, List.set_cons_zero]
  rfl

/-- `record_*` is what its steps do when no other call comes between. -/
theorem record_run (s : Concurrent R) (change : Change) (tenantId : String) (resource : R) :
    ∃ n s', run step s (.draw change tenantId resource :: List.replicate n (.advance s.callers.length)) =
        some s' ∧
      s'.cache = (s.cache.record change tenantId resource).2 ∧ s'.callers = s.callers ++ [.returned] := by
  unfold WatchCache.record WatchCache.push
  cases locked : s.cache.nextRv.2.pushLocked (change.event s.cache.nextRv.1 tenantId resource) with
  | mk bookmark cache =>
    have first : Caller.next s.cache.nextRv.2 (.drawn change s.cache.nextRv.1 tenantId resource) =
        some (cache, .pushed change s.cache.nextRv.1 tenantId resource bookmark.isSome,
          .pushed (change.event s.cache.nextRv.1 tenantId resource) :: bookmark.toList.map .pushed) := by
      simp only [Caller.next, locked]
    cases bookmark with
    | none =>
      refine ⟨2, _, run_cons.mpr ⟨_, rfl, run_cons.mpr ⟨_, step_last first, run_cons.mpr ⟨_, step_last rfl,
        rfl⟩⟩⟩, ?_, rfl⟩
      simp only [locked]
    | some b =>
      have mark := WatchCache.pushLocked_bookmark (congrArg Prod.fst locked)
      rw [Change.resourceVersion_event, Change.tenantId_event] at mark
      refine ⟨3, _, run_cons.mpr ⟨_, rfl, run_cons.mpr ⟨_, step_last first, run_cons.mpr ⟨_, step_last rfl,
        run_cons.mpr ⟨_, step_last rfl, rfl⟩⟩⟩⟩, ?_, rfl⟩
      simp only [locked, mark]

/-- So is `force_bookmark`. -/
theorem forceBookmark_run (s : Concurrent R) (tenantId : String) :
    ∃ s', run step s [.load tenantId, .advance s.callers.length, .advance s.callers.length] = some s' ∧
      s'.cache = (s.cache.forceBookmark tenantId).2 ∧ s'.callers = s.callers ++ [.returned] :=
  ⟨_, run_cons.mpr ⟨_, rfl, run_cons.mpr ⟨_, step_last rfl, run_cons.mpr ⟨_, step_last rfl, rfl⟩⟩⟩, rfl, rfl⟩

end Concurrent

/-! ## What a call still does -/

/-- The event of an action. -/
def Action.event : Action R → WatchCacheEvent R
  | .pushed e | .published e => e

/-- The version and the tenant of a bookmark that is published. -/
def Action.mark : Action R → Option (ℕ × String)
  | .published (.bookmark rv tenantId) => some (rv, tenantId)
  | _ => none

lemma Action.mark_eq {a : Action R} {m : ℕ × String} (h : a.mark = some m) :
    a = .published (.bookmark m.1 m.2) := by
  cases a with
  | pushed e => cases h
  | published e =>
    cases e with
    | bookmark rv tenantId =>
      cases h
      rfl
    | added rv tenantId resource => cases h
    | modified rv tenantId resource => cases h
    | deleted rv tenantId resource => cases h

/-- The version and the tenant of the bookmark that a call publishes next. -/
def Caller.mark : Caller R → Option (ℕ × String)
  | .announced rv tenantId | .marked rv tenantId => some (rv, tenantId)
  | _ => none

/-- What a call has yet to push or to publish. -/
def Caller.owes : Caller R → List (WatchCacheEvent R)
  | .drawn change rv tenantId resource => [change.event rv tenantId resource]
  | .pushed change rv tenantId resource bookmarkToEmit =>
    change.event rv tenantId resource :: if bookmarkToEmit then [.bookmark rv tenantId] else []
  | .announced rv tenantId | .loaded rv tenantId | .marked rv tenantId => [.bookmark rv tenantId]
  | .returned => []

lemma WatchCacheEvent.eq_bookmark {e : WatchCacheEvent R} {r : ℕ} {t : String} (mark : e.isBookmark = true)
    (version : e.resourceVersion = r) (tenant : e.tenantId = t) : e = .bookmark r t := by
  cases e with
  | bookmark rv tenantId =>
    cases version
    cases tenant
    rfl
  | added rv tenantId resource => cases mark
  | modified rv tenantId resource => cases mark
  | deleted rv tenantId resource => cases mark

/-- An event after the version `r`; or, unless `strict`, a bookmark at `r` once more. -/
def Ahead (strict : Bool) (r : ℕ) (e : WatchCacheEvent R) : Prop :=
  r < e.resourceVersion ∨ (strict = false ∧ e.isBookmark = true ∧ e.resourceVersion = r)
deriving Decidable

/-- What follows a bookmark of its tenant is ahead of it. -/
def Respects (strict : Bool) (a b : Action R) : Prop :=
  ∀ m ∈ a.mark, b.event.tenantId = m.2 → Ahead strict m.1 b.event

section Next

variable {cache cache' : WatchCache R} {c c' : Caller R} {actions : List (Action R)}

lemma Caller.next_rv (h : c.next cache = some (cache', c', actions)) : cache'.rv = cache.rv := by
  cases c with
  | drawn change rv tenantId resource =>
    cases h
    exact cache.pushLocked_rv _
  | pushed change rv tenantId resource bookmarkToEmit => cases h; rfl
  | announced rv tenantId => cases h; rfl
  | loaded rv tenantId => cases h; rfl
  | marked rv tenantId => cases h; rfl
  | returned => cases h

lemma Action.event_mem {x : Action R} {e : WatchCacheEvent R} {l : List (WatchCacheEvent R)}
    (done : ∃ a ∈ [x], a.event = e) : e ∈ x.event :: l := by
  obtain ⟨a, ha, rfl⟩ := done
  rw [List.mem_singleton.mp ha]
  exact List.mem_cons_self

/-- What a call does and what it still owes after it, it owed before; a bookmark may come with its
event. -/
lemma Caller.next_owes (h : c.next cache = some (cache', c', actions)) {e : WatchCacheEvent R}
    (mem : e ∈ c'.owes ∨ ∃ a ∈ actions, a.event = e) :
    ∃ e0 ∈ c.owes, e.tenantId = e0.tenantId ∧ e.resourceVersion = e0.resourceVersion ∧
      (e0.isBookmark = true → e.isBookmark = true) := by
  cases c with
  | drawn change rv tenantId resource =>
    refine ⟨_, List.mem_cons_self, ?_⟩
    cases h
    have both : e = change.event rv tenantId resource ∨ e = .bookmark rv tenantId := by
      cases mem with
      | inl owed =>
        cases List.mem_cons.mp owed with
        | inl here => exact .inl here
        | inr mark =>
          split at mark
          · exact .inr (List.mem_singleton.mp mark)
          · cases mark
      | inr done =>
        obtain ⟨a, ha, rfl⟩ := done
        cases List.mem_cons.mp ha with
        | inl here => exact .inl (here ▸ rfl)
        | inr mark =>
          obtain ⟨b, hb, rfl⟩ := List.mem_map.mp mark
          have same := WatchCache.pushLocked_bookmark (Option.mem_toList.mp hb)
          rw [Change.resourceVersion_event, Change.tenantId_event] at same
          exact .inr same
    rw [Change.tenantId_event, Change.resourceVersion_event]
    cases both with
    | inl here => simp [here]
    | inr mark =>
      rw [mark]
      exact ⟨rfl, rfl, fun _ => rfl⟩
  | pushed change rv tenantId resource bookmarkToEmit =>
    cases h
    refine ⟨e, ?_, rfl, rfl, id⟩
    cases mem with
    | inl owed =>
      cases bookmarkToEmit with
      | true => exact List.mem_cons_of_mem _ owed
      | false => cases owed
    | inr done => exact Action.event_mem done
  | announced rv tenantId =>
    cases h
    exact ⟨e, Action.event_mem (mem.resolve_left nofun), rfl, rfl, id⟩
  | loaded rv tenantId =>
    cases h
    refine ⟨e, ?_, rfl, rfl, id⟩
    cases mem with
    | inl owed => exact owed
    | inr done => exact Action.event_mem done
  | marked rv tenantId =>
    cases h
    exact ⟨e, Action.event_mem (mem.resolve_left nofun), rfl, rfl, id⟩
  | returned => cases h

lemma Caller.next_mark (h : c.next cache = some (cache', c', actions)) {a : Action R} (ha : a ∈ actions)
    {m : ℕ × String} (hm : a.mark = some m) : c.mark = some m ∧ c' = .returned := by
  cases c with
  | drawn change rv tenantId resource =>
    cases h
    cases List.mem_cons.mp ha with
    | inl here =>
      rw [here] at hm
      cases hm
    | inr mark =>
      obtain ⟨b, -, rfl⟩ := List.mem_map.mp mark
      cases hm
  | pushed change rv tenantId resource bookmarkToEmit =>
    cases h
    rw [List.mem_singleton.mp ha] at hm
    cases change <;> cases hm
  | announced rv tenantId =>
    cases h
    rw [List.mem_singleton.mp ha] at hm
    exact ⟨hm, rfl⟩
  | loaded rv tenantId =>
    cases h
    rw [List.mem_singleton.mp ha] at hm
    cases hm
  | marked rv tenantId =>
    cases h
    rw [List.mem_singleton.mp ha] at hm
    exact ⟨hm, rfl⟩
  | returned => cases h

lemma Caller.next_pairwise (strict : Bool) (h : c.next cache = some (cache', c', actions)) :
    actions.Pairwise (Respects strict) := by
  cases c with
  | drawn change rv tenantId resource =>
    cases h
    -- nothing is published here
    have quiet (l : List (WatchCacheEvent R)) : (l.map Action.pushed).Pairwise (Respects strict) := by
      refine List.pairwise_map.mpr (List.pairwise_of_forall fun a b m hm => ?_)
      cases hm
    exact quiet (_ :: _)
  | pushed change rv tenantId resource bookmarkToEmit => cases h; exact List.pairwise_singleton _ _
  | announced rv tenantId => cases h; exact List.pairwise_singleton _ _
  | loaded rv tenantId => cases h; exact List.pairwise_singleton _ _
  | marked rv tenantId => cases h; exact List.pairwise_singleton _ _
  | returned => cases h

end Next

/-! ## Runs -/

namespace Concurrent

variable {strict : Bool} {s s' : Concurrent R}

/-- Versions are not used up, and a bookmark is published only when every other call of its tenant is
ahead of it; if `strict`, no bookmark is forced at the version of one that is published. -/
def Settled (strict : Bool) (s : Concurrent R) : CallStep R → Prop
  | .draw _ _ _ => s.cache.rv + 1 < 2 ^ 64
  | .load tenantId => strict = true → ∀ a ∈ s.log, ∀ m ∈ a.mark, m.2 = tenantId → m.1 < s.cache.rv
  | .advance i => ∀ caller ∈ s.callers[i]?, ∀ m ∈ caller.mark, ∀ other ∈ s.callers.eraseIdx i,
      ∀ e ∈ other.owes, e.tenantId = m.2 → Ahead strict m.1 e

instance (strict : Bool) (s : Concurrent R) : (st : CallStep R) → Decidable (s.Settled strict st)
  | .draw _ _ _ => inferInstanceAs (Decidable (_ < _))
  | .load _ => inferInstanceAs (Decidable (_ → ∀ a ∈ s.log, ∀ m ∈ a.mark, _ → _))
  | .advance i => inferInstanceAs (Decidable (∀ caller ∈ s.callers[i]?, ∀ m ∈ caller.mark,
      ∀ other ∈ s.callers.eraseIdx i, ∀ e ∈ other.owes, _ → _))

/-- The invariant: every call under way is ahead of every bookmark of its tenant. -/
structure Clear (strict : Bool) (s : Concurrent R) : Prop where
  drawn : ∀ c ∈ s.callers, ∀ e ∈ c.owes, e.resourceVersion ≤ s.cache.rv
  known : ∀ a ∈ s.log, ∀ m ∈ a.mark, m.1 ≤ s.cache.rv
  ahead : ∀ a ∈ s.log, ∀ m ∈ a.mark, ∀ c ∈ s.callers, ∀ e ∈ c.owes, e.tenantId = m.2 → Ahead strict m.1 e
  ordered : s.log.Pairwise (Respects strict)

lemma Clear.begin (clear : Clear strict s) {cache : WatchCache R} {c : Caller R} {e : WatchCacheEvent R}
    (up : s.cache.rv ≤ cache.rv) (one : c.owes = [e]) (drawn : e.resourceVersion ≤ cache.rv)
    (ahead : ∀ a ∈ s.log, ∀ m ∈ a.mark, e.tenantId = m.2 → Ahead strict m.1 e) :
    Clear strict ⟨cache, s.callers ++ [c], s.log⟩ := by
  have split {c' : Caller R} (mem : c' ∈ s.callers ++ [c]) {e' : WatchCacheEvent R} (he : e' ∈ c'.owes) :
      (c' ∈ s.callers) ∨ e' = e := by
    cases List.mem_append.mp mem with
    | inl old => exact .inl old
    | inr new =>
      rw [List.mem_singleton.mp new, one] at he
      exact .inr (List.mem_singleton.mp he)
  refine ⟨fun c' mem e' he => ?_, fun a ha m hm => Nat.le_trans (clear.known a ha m hm) up,
    fun a ha m hm c' mem e' he tenant => ?_, clear.ordered⟩
  · cases split mem he with
    | inl old => exact Nat.le_trans (clear.drawn c' old e' he) up
    | inr new => exact new ▸ drawn
  · cases split mem he with
    | inl old => exact clear.ahead a ha m hm c' old e' he tenant
    | inr new => exact new ▸ ahead a ha m hm (new ▸ tenant)

lemma mem_set {callers : List (Caller R)} {i : ℕ} {c c' : Caller R} (mem : c ∈ callers.set i c') :
    c = c' ∨ c ∈ callers.eraseIdx i := by
  induction callers generalizing i with
  | nil => cases mem
  | cons d callers ih =>
    cases i with
    | zero => exact List.mem_cons.mp mem
    | succ i =>
      cases List.mem_cons.mp mem with
      | inl here => exact .inr (here ▸ List.mem_cons_self)
      | inr later =>
        cases ih later with
        | inl new => exact .inl new
        | inr old => exact .inr (List.mem_cons_of_mem _ old)

/-- A caller goes on; what it owes is paid or stays ahead. -/
lemma Clear.advance (clear : Clear strict s) {i : ℕ} {cache : WatchCache R} {c c' : Caller R}
    {actions : List (Action R)} (here : s.callers[i]? = some c)
    (next : c.next s.cache = some (cache, c', actions)) (settled : s.Settled strict (.advance i)) :
    Clear strict ⟨cache, s.callers.set i c', s.log ++ actions⟩ := by
  have mine : c ∈ s.callers := List.mem_of_getElem? here
  have rv : cache.rv = s.cache.rv := Caller.next_rv next
  -- what the call does and still owes is ahead of every bookmark, as what it owed was
  have moved {a : Action R} (ha : a ∈ s.log) {m : ℕ × String} (hm : m ∈ a.mark) {e : WatchCacheEvent R}
      (mem : e ∈ c'.owes ∨ ∃ a ∈ actions, a.event = e) (tenant : e.tenantId = m.2) : Ahead strict m.1 e := by
    obtain ⟨e0, owed, same, version, mark⟩ := Caller.next_owes next mem
    cases clear.ahead a ha m hm c mine e0 owed (same ▸ tenant) with
    | inl after => exact .inl (version ▸ after)
    | inr again => exact .inr ⟨again.1, mark again.2.1, version.trans again.2.2⟩
  have others {d : Caller R} (mem : d ∈ s.callers.set i c') :
      d = c' ∨ d ∈ s.callers.eraseIdx i ∧ d ∈ s.callers := by
    cases mem_set mem with
    | inl new => exact .inl new
    | inr old => exact .inr ⟨old, List.mem_of_mem_eraseIdx old⟩
  have known {e : WatchCacheEvent R} (mem : e ∈ c'.owes ∨ ∃ a ∈ actions, a.event = e) :
      e.resourceVersion ≤ cache.rv := by
    obtain ⟨e0, owed, -, version, -⟩ := Caller.next_owes next mem
    rw [version, rv]
    exact clear.drawn c mine e0 owed
  refine ⟨?_, ?_, ?_, ?_⟩
  · intro d mem e he
    cases others mem with
    | inl new => exact known (.inl (new ▸ he))
    | inr old => exact rv ▸ clear.drawn d old.2 e he
  · intro a ha m hm
    cases List.mem_append.mp ha with
    | inl old => exact rv ▸ clear.known a old m hm
    | inr new =>
      have bound := known (.inr ⟨a, new, rfl⟩)
      rw [Action.mark_eq hm] at bound
      exact bound
  · intro a ha m hm d mem e he tenant
    cases List.mem_append.mp ha with
    | inl old =>
      cases others mem with
      | inl new => exact moved old hm (.inl (new ▸ he)) tenant
      | inr other => exact clear.ahead a old m hm d other.2 e he tenant
    | inr new =>
      -- the call publishes a bookmark: the others are ahead of it, and it owes nothing more
      obtain ⟨mark, returned⟩ := Caller.next_mark next new hm
      cases others mem with
      | inl self =>
        rw [self, returned] at he
        cases he
      | inr other => exact settled c here m mark d other.1 e he tenant
  · refine List.pairwise_append.mpr ⟨clear.ordered, Caller.next_pairwise strict next, ?_⟩
    intro a ha b hb m hm tenant
    exact moved ha hm (.inr ⟨b, hb, rfl⟩) tenant

lemma Clear.step {st : CallStep R} (clear : Clear strict s) (settled : s.Settled strict st)
    (hs : s.step st = some s') : Clear strict s' := by
  cases st with
  | draw change tenantId resource =>
    have next : (s.cache.rv + 1) % 2 ^ 64 = s.cache.rv + 1 := Nat.mod_eq_of_lt settled
    simp only [Concurrent.step, WatchCache.nextRv, next, Option.some.injEq] at hs
    subst hs
    refine clear.begin (Nat.le_succ _) rfl ?_ fun a ha m hm _ => .inl ?_
    · exact Nat.le_of_eq (Change.resourceVersion_event _ _ _ _)
    · rw [Change.resourceVersion_event]
      exact Nat.lt_succ_of_le (clear.known a ha m hm)
  | load tenantId =>
    cases hs
    refine clear.begin (Nat.le_refl _) rfl (Nat.le_refl _) fun a ha m hm tenant => ?_
    cases strict with
    | true => exact .inl (settled rfl a ha m hm tenant.symm)
    | false =>
      cases Nat.lt_or_eq_of_le (clear.known a ha m hm) with
      | inl before => exact .inl before
      | inr now => exact .inr ⟨rfl, rfl, now.symm⟩
  | advance i =>
    obtain ⟨c, here, rest⟩ := Option.bind_eq_some_iff.mp hs
    obtain ⟨⟨cache, c', actions⟩, next, e⟩ := Option.bind_eq_some_iff.mp rest
    cases e
    exact clear.advance here next settled

/-- **After a bookmark of a tenant nothing of it comes with a version up to the bookmark's**, but for the
same bookmark again; and not even that, if no bookmark is forced at the version of a published one. -/
theorem bookmarks_are_resume_points {cache : WatchCache R} {steps : List (CallStep R)}
    (settled : Guarded step (Settled false) ⟨cache, [], []⟩ steps)
    (ran : run step ⟨cache, [], []⟩ steps = some s) :
    (s.log.Pairwise fun a b => ∀ r t, a = .published (.bookmark r t) → b.event.tenantId = t →
      r < b.event.resourceVersion ∨ b.event = .bookmark r t) ∧
    (Guarded step (Settled true) ⟨cache, [], []⟩ steps →
      s.log.Pairwise fun a b => ∀ r t, a = .published (.bookmark r t) → b.event.tenantId = t →
        r < b.event.resourceVersion) := by
  have start (strict : Bool) : Clear strict ⟨cache, [], []⟩ := ⟨nofun, nofun, nofun, .nil⟩
  refine ⟨?_, fun settled => ?_⟩
  · refine (invariant_of_guarded Clear.step settled ran (start false)).ordered.imp ?_
    intro a b respects r t bookmark tenant
    cases respects (r, t) (bookmark ▸ rfl) tenant with
    | inl after => exact .inl after
    | inr again => exact .inr (WatchCacheEvent.eq_bookmark again.2.1 again.2.2 tenant)
  · refine (invariant_of_guarded Clear.step settled ran (start true)).ordered.imp ?_
    intro a b respects r t bookmark tenant
    cases respects (r, t) (bookmark ▸ rfl) tenant with
    | inl after => exact after
    | inr again => cases again.1

/-- A cache with a bookmark after every event. -/
def bookmarkEach : WatchCache ℕ := ⟨10, 1, [], 0, 0, 0, []⟩

theorem bookmarks_are_resume_points_in_order :
    WatchCache.new 10 1 = some bookmarkEach ∧
    ∃ s, run step ⟨bookmarkEach, [], []⟩ [.draw .added "t" 7, .draw .added "t" 8, .advance 0, .advance 1,
        .advance 0, .advance 0, .advance 1, .advance 1] = some s ∧
      .published (.bookmark 1 "t") ∈ s.log ∧
      s.log.Pairwise fun a b => ∀ r t, a = .published (.bookmark r t) → b.event.tenantId = t →
        r < b.event.resourceVersion := by
  have settled (strict : Bool) : Guarded step (Settled strict) ⟨bookmarkEach, [], []⟩ [.draw .added "t" 7,
      .draw .added "t" 8, .advance 0, .advance 1, .advance 0, .advance 0, .advance 1, .advance 1] := by
    cases strict <;> decide
  exact ⟨rfl, _, rfl, by decide, (bookmarks_are_resume_points (settled false) rfl).2 (settled true)⟩

/-- The first call draws version 1, the second one draws 2, goes on and publishes its bookmark; then the
event with version 1 is pushed and published. -/
theorem bookmark_overtakes_event :
    WatchCache.new 10 1 = some bookmarkEach ∧
    ∃ s before after, run step ⟨bookmarkEach, [], []⟩ [.draw .added "t" 7, .draw .added "t" 8, .advance 1,
        .advance 1, .advance 1, .advance 0, .advance 0] = some s ∧
      s.log = before ++ .published (.bookmark 2 "t") :: after ∧
      .pushed (.added 1 "t" 7) ∈ after ∧ .published (.added 1 "t" 7) ∈ after :=
  ⟨rfl, _, [.pushed (.added 2 "t" 8), .pushed (.bookmark 2 "t"), .published (.added 2 "t" 8)],
    [.pushed (.added 1 "t" 7), .pushed (.bookmark 1 "t"), .published (.added 1 "t" 7)], rfl, rfl, by decide,
    by decide⟩

end Concurrent

end Apiserver
