import Mymuduo.EventLoopThread

namespace Mymuduo

open Foundation.Machine

/-- Where a call of `startLoop()` stands: `created` is at `sem_wait`, `testing` holds the
mutex at the test of `loop_`, `waiting` has entered `cond_.wait`, and `reading` holds the
mutex with the pointer in hand. -/
inductive Caller
  | outside
  | created
  | started
  | testing
  | waiting
  | reading
  | returned
  deriving DecidableEq

/-- Where the new thread stands, in the body that `Thread::start()` gives it and then in
`threadFunc()`: `constructed` is in `callback_`, `locked` to `notified` hold the mutex
around the store to `loop_`, `relocked` and `cleared` around the last one. -/
inductive Body
  | unborn
  | born
  | identified
  | posted
  | constructed
  | initialised
  | locked
  | stored
  | notified
  | looping
  | relocked
  | cleared
  | ended
  deriving DecidableEq

inductive Party
  | caller
  | thread
  deriving DecidableEq

namespace Caller

def holds : Caller → Bool
  | .testing | .reading => true
  | .outside | .created | .started | .waiting | .returned => false

def passed : Caller → Bool
  | .outside | .created => false
  | .started | .testing | .waiting | .reading | .returned => true

def obtained : Caller → Bool
  | .reading | .returned => true
  | .outside | .created | .started | .testing | .waiting => false

def turnsLeft (asleep : Bool) : Caller → ℕ
  | .outside => 6
  | .created => 5
  | .started => 4
  | .testing => 3
  | .waiting => if asleep then 2 else 4
  | .reading => 1
  | .returned => 0

theorem turnsLeft_awake (c : Caller) (asleep : Bool) : c.turnsLeft false ≤ c.turnsLeft asleep + 2 := by
  cases c <;> cases asleep <;> simp [turnsLeft]

end Caller

namespace Body

def holds : Body → Bool
  | .locked | .stored | .notified | .relocked | .cleared => true
  | .unborn | .born | .identified | .posted | .constructed | .initialised | .looping | .ended => false

def identifies : Body → Bool
  | .unborn | .born => false
  | .identified | .posted | .constructed | .initialised | .locked | .stored | .notified | .looping
  | .relocked | .cleared | .ended => true

def hasPosted : Body → Bool
  | .unborn | .born | .identified => false
  | .posted | .constructed | .initialised | .locked | .stored | .notified | .looping | .relocked
  | .cleared | .ended => true

def initialises : Body → Bool
  | .unborn | .born | .identified | .posted | .constructed => false
  | .initialised | .locked | .stored | .notified | .looping | .relocked | .cleared | .ended => true

def publishes : Body → Bool
  | .stored | .notified | .looping | .relocked => true
  | .unborn | .born | .identified | .posted | .constructed | .initialised | .locked | .cleared
  | .ended => false

def enters : Body → Bool
  | .looping | .relocked | .cleared | .ended => true
  | .unborn | .born | .identified | .posted | .constructed | .initialised | .locked | .stored
  | .notified => false

/-- `loop()` has returned, and the thread has the mutex for the last time. -/
def leaves : Body → Bool
  | .relocked | .cleared | .ended => true
  | .unborn | .born | .identified | .posted | .constructed | .initialised | .locked | .stored
  | .notified | .looping => false

def yetToNotify : Body → Bool
  | .unborn | .born | .identified | .posted | .constructed | .initialised | .locked | .stored => true
  | .notified | .looping | .relocked | .cleared | .ended => false

/-- The turns of the thread; its notification is worth those that it gives the caller. -/
def turnsLeft : Body → ℕ
  | .unborn | .born => 13
  | .identified => 12
  | .posted => 11
  | .constructed => 10
  | .initialised => 9
  | .locked => 8
  | .stored => 7
  | .notified => 4
  | .looping => 3
  | .relocked => 2
  | .cleared => 1
  | .ended => 0

variable {b : Body}

theorem enters_of_publishes (hf : b.holds = false) (hp : b.publishes = true) : b.enters = true := by
  cases b <;> simp [holds, publishes, enters] at hf hp ⊢

theorem yetToNotify_of_publishes (hf : b.holds = false) (hp : b.publishes = false) :
    b.yetToNotify = true ∨ b = .ended := by
  cases b <;> simp [holds, publishes, yetToNotify] at hf hp ⊢

theorem stored_of_yetToNotify (hy : b.yetToNotify = true ∨ b = .ended) (hp : b.publishes = true) :
    b = .stored := by
  cases b <;> simp [yetToNotify, publishes] at hy hp ⊢

theorem enters_eq_false (h : b.yetToNotify = true ∨ b.hasPosted = false) : b.enters = false := by
  cases b <;> simp [yetToNotify, hasPosted, enters] at h ⊢

theorem enters_or_leaves (hf : b.holds = true) : b.enters = false ∨ b.leaves = true := by
  cases b <;> simp [holds, enters, leaves] at hf ⊢

theorem looping_or_leaves (he : b.enters = true) : b = .looping ∨ b.leaves = true := by
  cases b <;> simp [enters, leaves] at he ⊢

theorem passed_of_enters (he : b.enters = true) : b.identifies = true ∧ b.initialises = true := by
  cases b <;> simp [enters, identifies, initialises] at he ⊢

end Body

/-- An `EventLoopThread` while it is started: `sem` is the semaphore of `Thread::start()`,
`holder` has the mutex, and `asleep` says that the caller waits for a notification. -/
structure Launch (T F : Type) where
  object : EventLoopThread T F
  tid_ : Option T
  sem : ℕ
  holder : Option Party
  asleep : Bool
  caller : Caller
  body : Body

namespace Launch

/-- `caller t` and `thread` are the next steps of the two threads, `wake` is a spurious
wakeup, and `loop` and `hand` are what happens to the loop once its pointer is known. -/
inductive Act (T F : Type)
  | caller (t : T)
  | thread
  | wake
  | loop (a : EventLoop.Act T F)
  | hand (t u : T)

def Act.isTurn {T F : Type} : Act T F → Bool
  | .caller _ | .thread => true
  | _ => false

def Act.isWake {T F : Type} : Act T F → Bool
  | .wake => true
  | _ => false

variable {T F : Type}

def ofThread (t : T) : Launch T F :=
  { object := .ofThread t, tid_ := none, sem := 0, holder := none, asleep := false
    caller := .outside, body := .unborn }

def lock (s : Launch T F) (p : Party) : Option (Launch T F) :=
  if s.holder = none then some { s with holder := some p } else none

variable [DecidableEq T] [DecidableEq F] (s : Launch T F)

def callerTurn (t : T) : Option (Launch T F) :=
  match s.caller with
  | .outside => some { s with caller := .created, body := .born }
  | .created => if 0 < s.sem then some { s with sem := s.sem - 1, caller := .started } else none
  | .started => (s.lock .caller).map fun u ↦ { u with caller := .testing }
  | .testing =>
    if s.object.loop_ then
      (s.object.step (.startLoop t)).map fun o ↦ { s with object := o, caller := .reading }
    else some { s with holder := none, asleep := true, caller := .waiting }
  | .waiting => if s.asleep then none else (s.lock .caller).map fun u ↦ { u with caller := .testing }
  | .reading => some { s with holder := none, caller := .returned }
  | .returned => none

def threadTurn : Option (Launch T F) :=
  match s.body with
  | .unborn | .ended => none
  | .born => some { s with tid_ := some s.object.loop.threadId_, body := .identified }
  | .identified => some { s with sem := s.sem + 1, body := .posted }
  | .posted => some { s with body := .constructed }
  | .constructed =>
    (s.object.step .returnCallback).map fun o ↦ { s with object := o, body := .initialised }
  | .initialised => (s.lock .thread).map fun u ↦ { u with body := .locked }
  | .locked => (s.object.step .publish).map fun o ↦ { s with object := o, body := .stored }
  | .stored => some { s with asleep := false, body := .notified }
  | .notified => some { s with holder := none, body := .looping }
  | .looping =>
    if s.object.loop.stage = .stopped then (s.lock .thread).map fun u ↦ { u with body := .relocked }
    else none
  | .relocked => (s.object.step .clear).map fun o ↦ { s with object := o, body := .cleared }
  | .cleared => some { s with holder := none, body := .ended }

def runs : EventLoop.Act T F → Bool
  | .append t _ | .storeQuit t =>
    t ≠ s.object.loop.threadId_ || s.body = .constructed || s.body = .looping
  | .wakeup _ => true
  | _ => s.body = .looping

def step (s : Launch T F) : Act T F → Option (Launch T F)
  | .caller t => s.callerTurn t
  | .thread => s.threadTurn
  | .wake => if s.asleep then some { s with asleep := false } else none
  | .loop a =>
    if s.runs a then (s.object.step (.loop a)).map fun o ↦ { s with object := o } else none
  | .hand t u => (s.object.step (.hand t u)).map fun o ↦ { s with object := o }

variable {s} {s' : Launch T F}

inductive Calls (s : Launch T F) (t : T) : Launch T F → Prop
  | create (hc : s.caller = .outside) : Calls s t { s with caller := .created, body := .born }
  | pass (hc : s.caller = .created) (hsem : 0 < s.sem) :
      Calls s t { s with sem := s.sem - 1, caller := .started }
  | lock (hc : s.caller = .started ∨ s.caller = .waiting ∧ s.asleep = false) (hm : s.holder = none) :
      Calls s t { s with holder := some .caller, caller := .testing }
  | read (hc : s.caller = .testing) (hl : s.object.loop_ = true) : Calls s t { s with
      object := { s.object with obtained := Function.update s.object.obtained t true }
      caller := .reading }
  | wait (hc : s.caller = .testing) (hl : s.object.loop_ = false) :
      Calls s t { s with holder := none, asleep := true, caller := .waiting }
  | unlock (hc : s.caller = .reading) : Calls s t { s with holder := none, caller := .returned }

inductive Runs (s : Launch T F) : Launch T F → Prop
  | identify (hb : s.body = .born) :
      Runs s { s with tid_ := some s.object.loop.threadId_, body := .identified }
  | post (hb : s.body = .identified) : Runs s { s with sem := s.sem + 1, body := .posted }
  | construct (hb : s.body = .posted) : Runs s { s with body := .constructed }
  | initialise (hb : s.body = .constructed) (ho : s.object.initialised = false) :
      Runs s { s with object := { s.object with initialised := true }, body := .initialised }
  | lock (hb : s.body = .initialised) (hm : s.holder = none) :
      Runs s { s with holder := some .thread, body := .locked }
  | store (hb : s.body = .locked) (ho : s.object.initialised = true)
      (hl : s.object.loop.stage = .constructed) (hn : s.object.loop_ = false) :
      Runs s { s with object := { s.object with loop_ := true }, body := .stored }
  | notify (hb : s.body = .stored) : Runs s { s with asleep := false, body := .notified }
  | unlock (hb : s.body = .notified) : Runs s { s with holder := none, body := .looping }
  | relock (hb : s.body = .looping) (hl : s.object.loop.stage = .stopped) (hm : s.holder = none) :
      Runs s { s with holder := some .thread, body := .relocked }
  | clear (hb : s.body = .relocked) (hl : s.object.loop.stage = .stopped) :
      Runs s { s with object := { s.object with loop_ := false }, body := .cleared }
  | finish (hb : s.body = .cleared) : Runs s { s with holder := none, body := .ended }

omit [DecidableEq T] [DecidableEq F] in
theorem lock_eq {p : Party} : s.lock p = some s' ↔ s.holder = none ∧ s' = { s with holder := some p } := by
  rw [lock, Option.ite_none_right_eq_some, Option.some.injEq, @eq_comm _ s']

theorem callerTurn_iff {t : T} : s.callerTurn t = some s' ↔ Calls s t s' := by
  constructor
  · intro h
    unfold callerTurn at h
    split at h
    · next hc =>
      obtain rfl := Option.some.inj h
      exact .create hc
    · next hc =>
      obtain ⟨hsem, h⟩ := Option.ite_none_right_eq_some.mp h
      obtain rfl := Option.some.inj h
      exact .pass hc hsem
    · next hc =>
      obtain ⟨u, hu, rfl⟩ := Option.map_eq_some_iff.mp h
      obtain ⟨hm, rfl⟩ := lock_eq.mp hu
      exact .lock (Or.inl hc) hm
    · next hc =>
      split at h
      · next hl =>
        simp only [EventLoopThread.step, if_pos hl, Option.map_some, Option.some.injEq] at h
        obtain rfl := h
        exact .read hc hl
      · next hl =>
        obtain rfl := Option.some.inj h
        exact .wait hc (Bool.not_eq_true _ ▸ hl)
    · next hc =>
      obtain ⟨ha, h⟩ := Option.ite_none_left_eq_some.mp h
      obtain ⟨u, hu, rfl⟩ := Option.map_eq_some_iff.mp h
      obtain ⟨hm, rfl⟩ := lock_eq.mp hu
      exact .lock (Or.inr ⟨hc, Bool.not_eq_true _ ▸ ha⟩) hm
    · next hc =>
      obtain rfl := Option.some.inj h
      exact .unlock hc
    · simp at h
  · intro h
    cases h with
    | create hc => simp [callerTurn, hc]
    | pass hc hsem => simp [callerTurn, hc, hsem]
    | lock hc hm =>
      rcases hc with hc | ⟨hc, ha⟩
      · simp [callerTurn, hc, lock, hm]
      · simp [callerTurn, hc, ha, lock, hm]
    | read hc hl => simp [callerTurn, hc, hl, EventLoopThread.step]
    | wait hc hl => simp [callerTurn, hc, hl]
    | unlock hc => simp [callerTurn, hc]

theorem threadTurn_iff : s.threadTurn = some s' ↔ Runs s s' := by
  constructor
  · intro h
    unfold threadTurn at h
    split at h
    · simp at h
    · simp at h
    · next hb =>
      obtain rfl := Option.some.inj h
      exact .identify hb
    · next hb =>
      obtain rfl := Option.some.inj h
      exact .post hb
    · next hb =>
      obtain rfl := Option.some.inj h
      exact .construct hb
    · next hb =>
      simp only [EventLoopThread.step, Option.map_eq_some_iff, Option.ite_none_left_eq_some,
        Bool.not_eq_true, Option.some.injEq] at h
      obtain ⟨-, ⟨ho, rfl⟩, rfl⟩ := h
      exact .initialise hb ho
    · next hb =>
      obtain ⟨u, hu, rfl⟩ := Option.map_eq_some_iff.mp h
      obtain ⟨hm, rfl⟩ := lock_eq.mp hu
      exact .lock hb hm
    · next hb =>
      simp only [EventLoopThread.step, Option.map_eq_some_iff, Option.ite_none_right_eq_some,
        Bool.and_eq_true, Bool.not_eq_true', decide_eq_true_eq, Option.some.injEq] at h
      obtain ⟨-, ⟨⟨⟨ho, hl⟩, hn⟩, rfl⟩, rfl⟩ := h
      exact .store hb ho hl hn
    · next hb =>
      obtain rfl := Option.some.inj h
      exact .notify hb
    · next hb =>
      obtain rfl := Option.some.inj h
      exact .unlock hb
    · next hb =>
      obtain ⟨hl, h⟩ := Option.ite_none_right_eq_some.mp h
      obtain ⟨u, hu, rfl⟩ := Option.map_eq_some_iff.mp h
      obtain ⟨hm, rfl⟩ := lock_eq.mp hu
      exact .relock hb hl hm
    · next hb =>
      simp only [EventLoopThread.step, Option.map_eq_some_iff, Option.ite_none_right_eq_some,
        Option.some.injEq] at h
      obtain ⟨-, ⟨hl, rfl⟩, rfl⟩ := h
      exact .clear hb hl
    · next hb =>
      obtain rfl := Option.some.inj h
      exact .finish hb
  · intro h
    cases h with
    | identify hb | post hb | construct hb | notify hb | unlock hb | finish hb =>
      simp [threadTurn, hb]
    | lock hb hm => simp [threadTurn, hb, lock, hm]
    | initialise hb ho => simp [threadTurn, hb, EventLoopThread.step, ho]
    | store hb ho hl hn => simp [threadTurn, hb, EventLoopThread.step, ho, hl, hn]
    | clear hb hl => simp [threadTurn, hb, EventLoopThread.step, hl]
    | relock hb hl hm => simp [threadTurn, hb, hl, lock, hm]

/-- What the positions of the two threads say about the rest of the state. -/
structure Sane (s : Launch T F) : Prop where
  control : s.object.loop.Control
  mutex : s.holder = if s.caller.holds then some .caller else if s.body.holds then some .thread else none
  exclusive : s.caller.holds = true → s.body.holds = false
  sem : s.sem + s.caller.passed.toNat = s.body.hasPosted.toNat
  born : s.caller = .outside ↔ s.body = .unborn
  tid : s.body.identifies = true → s.tid_ = some s.object.loop.threadId_
  published : s.object.loop_ = s.body.publishes
  initialised : s.object.initialised = s.body.initialises
  fresh : s.body.enters = false → s.object.loop.stage = .constructed
  done : s.body.leaves = true → s.object.loop.stage = .stopped
  sleeps : s.asleep = true → s.caller = .waiting ∧ (s.body.yetToNotify = true ∨ s.body = .ended)
  holds : s.caller.obtained = true → s.body.enters = true

omit [DecidableEq T] [DecidableEq F] in
theorem ofThread_sane (t : T) : (ofThread t : Launch T F).Sane := by
  refine ⟨EventLoop.ofThread_control t, rfl, ?_, rfl, by simp [ofThread], ?_, rfl, rfl, fun _ ↦ rfl, ?_,
    ?_, ?_⟩ <;> simp [ofThread, Caller.holds, Body.identifies, Body.leaves, Caller.obtained]

omit [DecidableEq F] in
theorem Sane.calls {t : T} (hs : s.Sane) (h : Calls s t s') : s'.Sane := by
  obtain ⟨hcontrol, hmutex, hex, hsem, hborn, htid, hpub, hinit, hfresh, hdone, hsleep, hholds⟩ := hs
  cases h with
  | create hc =>
    have hb := hborn.mp hc
    rw [hc, hb] at hmutex hex hsem
    rw [hb] at hpub hinit
    refine ⟨hcontrol, hmutex, hex, hsem, by simp, by simp [Body.identifies], hpub, hinit, fun _ ↦ ?_,
      by simp [Body.leaves], fun ha ↦ ?_, by simp [Caller.obtained]⟩
    · exact hfresh (by rw [hb]; rfl)
    · exact absurd ((hsleep ha).1.symm.trans hc) (by simp)
  | pass hc hpos =>
    rw [hc] at hmutex hex hsem hborn hsleep
    refine ⟨hcontrol, hmutex, hex, ?_, by simpa using hborn, htid, hpub, hinit, hfresh, hdone,
      by simpa using hsleep, by simp [Caller.obtained]⟩
    simp only [Caller.passed, Bool.toNat_true, Bool.toNat_false] at hsem ⊢
    omega
  | lock hc hm =>
    have hwas : s.caller.holds = false ∧ s.caller.passed = true ∧ s.caller ≠ .outside ∧
        s.asleep = false := by
      rcases hc with hc | ⟨hc, ha⟩
      · refine ⟨by rw [hc]; rfl, by rw [hc]; rfl, by simp [hc], ?_⟩
        by_contra ha
        exact absurd (hsleep (Bool.not_eq_false _ ▸ ha)).1 (by simp [hc])
      · exact ⟨by rw [hc]; rfl, by rw [hc]; rfl, by simp [hc], ha⟩
    obtain ⟨hidle, hpassed, hout, hawake⟩ := hwas
    have hfree : s.body.holds = false := by simpa [hm, hidle] using hmutex
    rw [hpassed] at hsem
    refine ⟨hcontrol, rfl, fun _ ↦ hfree, hsem, ?_, htid, hpub, hinit, hfresh, hdone, ?_,
      by simp [Caller.obtained]⟩
    · simp [← hborn, hout]
    · simp [hawake]
  | read hc hl =>
    have henters := Body.enters_of_publishes (hex (by rw [hc]; rfl)) (hpub.symm.trans hl)
    rw [hc] at hmutex hex hsem hborn hsleep
    exact ⟨hcontrol, hmutex, hex, hsem, by simpa using hborn, htid, hpub, hinit, hfresh, hdone,
      by simpa using hsleep, fun _ ↦ henters⟩
  | wait hc hl =>
    have hfree := hex (by rw [hc]; rfl)
    have hyet := Body.yetToNotify_of_publishes hfree (hpub.symm.trans hl)
    rw [hc] at hsem hborn
    exact ⟨hcontrol, by simp [Caller.holds, hfree], by simp [Caller.holds], hsem,
      by simpa using hborn, htid, hpub, hinit, hfresh, hdone, fun _ ↦ ⟨rfl, hyet⟩,
      by simp [Caller.obtained]⟩
  | unlock hc =>
    have hfree := hex (by rw [hc]; rfl)
    rw [hc] at hsem hborn hsleep hholds
    exact ⟨hcontrol, by simp [Caller.holds, hfree], by simp [Caller.holds], hsem,
      by simpa using hborn, htid, hpub, hinit, hfresh, hdone, by simpa using hsleep,
      fun _ ↦ hholds rfl⟩

omit [DecidableEq T] [DecidableEq F] in
theorem Runs.ne_unborn (h : Runs s s') : s.body ≠ .unborn := by
  cases h <;> simp_all only [ne_eq, reduceCtorEq, not_false_eq_true]

omit [DecidableEq T] [DecidableEq F] in
theorem Sane.caller_idle (hs : s.Sane) (h : s.holder = none ∨ s.body.holds = true) :
    s.caller.holds = false := by
  rcases h with hm | hb
  · by_contra hc
    have hmutex := hs.mutex
    rw [hm, if_pos (Bool.not_eq_false _ ▸ hc)] at hmutex
    exact absurd hmutex (by simp)
  · by_contra hc
    exact absurd hb (by simp [hs.exclusive (Bool.not_eq_false _ ▸ hc)])

omit [DecidableEq T] [DecidableEq F] in
theorem Sane.runs (hs : s.Sane) (h : Runs s s') : s'.Sane := by
  have hout : s.caller ≠ .outside := fun hc ↦ h.ne_unborn (hs.born.mp hc)
  have hidle := hs.caller_idle
  obtain ⟨hcontrol, hmutex, hex, hsem, -, htid, hpub, hinit, hfresh, hdone, hsleep, hholds⟩ := hs
  cases h with
  | identify hb =>
    rw [hb] at hmutex hex hsem hpub hinit hfresh hdone hsleep hholds
    exact ⟨hcontrol, hmutex, hex, hsem, by simp [hout], fun _ ↦ rfl, hpub, hinit, hfresh, hdone,
      fun ha ↦ ⟨(hsleep ha).1, Or.inl rfl⟩, hholds⟩
  | post hb =>
    rw [hb] at hmutex hex hsem htid hpub hinit hfresh hdone hsleep hholds
    refine ⟨hcontrol, hmutex, hex, ?_, by simp [hout], htid, hpub, hinit, hfresh, hdone,
      fun ha ↦ ⟨(hsleep ha).1, Or.inl rfl⟩, hholds⟩
    simp only [Body.hasPosted, Bool.toNat_true, Bool.toNat_false] at hsem ⊢
    omega
  | construct hb =>
    rw [hb] at hmutex hex hsem htid hpub hinit hfresh hdone hsleep hholds
    exact ⟨hcontrol, hmutex, hex, hsem, by simp [hout], htid, hpub, hinit, hfresh, hdone,
      fun ha ↦ ⟨(hsleep ha).1, Or.inl rfl⟩, hholds⟩
  | initialise hb ho =>
    rw [hb] at hmutex hex hsem htid hpub hfresh hdone hsleep hholds
    exact ⟨hcontrol, hmutex, hex, hsem, by simp [hout], htid, hpub, rfl, hfresh, hdone,
      fun ha ↦ ⟨(hsleep ha).1, Or.inl rfl⟩, hholds⟩
  | lock hb hm =>
    have hfree := hidle (Or.inl hm)
    rw [hb] at hsem htid hpub hinit hfresh hdone hsleep hholds
    exact ⟨hcontrol, by simp [hfree, Body.holds], fun hc ↦ absurd hc (by simp [hfree]), hsem,
      by simp [hout], htid, hpub, hinit, hfresh, hdone, fun ha ↦ ⟨(hsleep ha).1, Or.inl rfl⟩, hholds⟩
  | store hb ho hl hn =>
    rw [hb] at hmutex hex hsem htid hinit hfresh hdone hsleep hholds
    exact ⟨hcontrol, hmutex, hex, hsem, by simp [hout], htid, rfl, hinit, hfresh, hdone,
      fun ha ↦ ⟨(hsleep ha).1, Or.inl rfl⟩, hholds⟩
  | notify hb =>
    rw [hb] at hmutex hex hsem htid hpub hinit hfresh hdone hholds
    exact ⟨hcontrol, hmutex, hex, hsem, by simp [hout], htid, hpub, hinit, hfresh, hdone,
      fun ha ↦ absurd ha Bool.false_ne_true, hholds⟩
  | unlock hb =>
    have hfree := hidle (Or.inr (by rw [hb]; rfl))
    rw [hb] at hsem htid hpub hinit hdone hsleep
    exact ⟨hcontrol, by simp [hfree, Body.holds], fun _ ↦ rfl, hsem, by simp [hout], htid, hpub, hinit,
      fun he ↦ absurd he (by simp [Body.enters]), hdone,
      fun ha ↦ absurd (hsleep ha).2 (by simp [Body.yetToNotify]), fun _ ↦ rfl⟩
  | relock hb hl hm =>
    have hfree := hidle (Or.inl hm)
    rw [hb] at hsem htid hpub hinit hfresh hsleep hholds
    exact ⟨hcontrol, by simp [hfree, Body.holds], fun hc ↦ absurd hc (by simp [hfree]), hsem,
      by simp [hout], htid, hpub, hinit, hfresh, fun _ ↦ hl,
      fun ha ↦ absurd (hsleep ha).2 (by simp [Body.yetToNotify]), hholds⟩
  | clear hb hl =>
    rw [hb] at hmutex hex hsem htid hinit hfresh hdone hsleep hholds
    exact ⟨hcontrol, hmutex, hex, hsem, by simp [hout], htid, rfl, hinit, hfresh, hdone,
      fun ha ↦ absurd (hsleep ha).2 (by simp [Body.yetToNotify]), hholds⟩
  | finish hb =>
    have hfree := hidle (Or.inr (by rw [hb]; rfl))
    rw [hb] at hsem htid hpub hinit hfresh hdone hsleep hholds
    exact ⟨hcontrol, by simp [hfree, Body.holds], fun _ ↦ rfl, hsem, by simp [hout], htid, hpub, hinit,
      hfresh, hdone, fun ha ↦ ⟨(hsleep ha).1, Or.inr rfl⟩, hholds⟩

theorem stage_of_runs {a : EventLoop.Act T F} {l : EventLoop T F} (ha : s.runs a = true)
    (hb : s.body ≠ .looping) (hl : s.object.loop.step a = some l) : l.stage = s.object.loop.stage := by
  cases a with
  | append t cb =>
    obtain ⟨-, rfl⟩ := EventLoop.step_append.mp hl
    rfl
  | storeQuit t =>
    obtain ⟨-, rfl⟩ := EventLoop.step_storeQuit.mp hl
    rfl
  | wakeup t =>
    obtain ⟨-, rfl⟩ := EventLoop.step_wakeup.mp hl
    rfl
  | enter | clearQuit | testQuit | pollReturn | handleRead | beginCalling | swap | beginFunctor
    | endFunctor | endCalling => exact absurd (of_decide_eq_true ha) hb

theorem Sane.step {a : Act T F} (hs : s.Sane) (h : s.step a = some s') : s'.Sane := by
  cases a with
  | caller t => exact hs.calls (callerTurn_iff.mp h)
  | thread => exact hs.runs (threadTurn_iff.mp h)
  | wake =>
    obtain ⟨-, h⟩ := Option.ite_none_right_eq_some.mp h
    obtain rfl := Option.some.inj h
    exact { hs with sleeps := fun ha ↦ absurd ha Bool.false_ne_true }
  | loop a =>
    obtain ⟨ha, h⟩ := Option.ite_none_right_eq_some.mp h
    simp only [EventLoopThread.step, Option.map_eq_some_iff, Option.ite_none_right_eq_some] at h
    obtain ⟨-, ⟨-, l, hl, rfl⟩, rfl⟩ := h
    refine { hs with control := hs.control.step hl, tid := ?_, fresh := ?_, done := ?_ }
    · exact fun hb ↦ (hs.tid hb).trans (congrArg some (EventLoop.threadId_step hl).symm)
    · intro hb
      rw [← hs.fresh hb]
      exact stage_of_runs ha (fun heq ↦ by simp [heq, Body.enters] at hb) hl
    · intro hb
      rw [← hs.done hb]
      exact stage_of_runs ha (fun heq ↦ by simp [heq, Body.leaves] at hb) hl
  | hand t u =>
    simp only [Launch.step, EventLoopThread.step, Option.map_eq_some_iff,
      Option.ite_none_right_eq_some, Option.some.injEq] at h
    obtain ⟨-, ⟨-, rfl⟩, rfl⟩ := h
    exact { hs with }

def turnsLeft (s : Launch T F) : ℕ := s.caller.turnsLeft s.asleep + s.body.turnsLeft

omit [DecidableEq F] in
theorem Sane.calls_spends {t : T} (hs : s.Sane) (h : Calls s t s') :
    s'.turnsLeft + 1 ≤ s.turnsLeft := by
  cases h with
  | create hc => simp [turnsLeft, hc, hs.born.mp hc, Caller.turnsLeft, Body.turnsLeft]
  | lock hc hm =>
    rcases hc with hc | ⟨hc, ha⟩
    · simp only [turnsLeft, hc, Caller.turnsLeft]
      omega
    · simp only [turnsLeft, hc, ha, Caller.turnsLeft, Bool.false_eq_true, if_false]
      omega
  | pass hc | read hc | wait hc | unlock hc =>
    simp only [turnsLeft, hc, Caller.turnsLeft, if_true]
    omega

omit [DecidableEq T] [DecidableEq F] in
theorem runs_spends (h : Runs s s') : s'.turnsLeft + 1 ≤ s.turnsLeft := by
  cases h with
  | notify hb =>
    have hcaller := s.caller.turnsLeft_awake s.asleep
    simp only [turnsLeft, hb, Body.turnsLeft]
    omega
  | identify hb | post hb | construct hb | unlock hb | finish hb | lock hb | initialise hb | store hb
  | relock hb | clear hb =>
    simp only [turnsLeft, hb, Body.turnsLeft]
    omega

theorem Sane.step_spends {a : Act T F} (hs : s.Sane) (h : s.step a = some s') :
    s'.turnsLeft + a.isTurn.toNat ≤ s.turnsLeft + 2 * a.isWake.toNat := by
  cases a with
  | caller t => exact hs.calls_spends (callerTurn_iff.mp h)
  | thread => exact runs_spends (threadTurn_iff.mp h)
  | wake =>
    obtain ⟨-, h⟩ := Option.ite_none_right_eq_some.mp h
    obtain rfl := Option.some.inj h
    have hcaller := s.caller.turnsLeft_awake s.asleep
    simp only [turnsLeft, Act.isTurn, Act.isWake, Bool.toNat_true, Bool.toNat_false]
    omega
  | loop a =>
    obtain ⟨-, h⟩ := Option.ite_none_right_eq_some.mp h
    obtain ⟨o, -, rfl⟩ := Option.map_eq_some_iff.mp h
    exact Nat.le_refl _
  | hand t u =>
    obtain ⟨o, -, rfl⟩ := Option.map_eq_some_iff.mp h
    exact Nat.le_refl _

theorem Sane.run_spends {as : List (Act T F)} (hs : s.Sane) (h : run Launch.step s as = some s') :
    s'.turnsLeft + as.countP Act.isTurn ≤ s.turnsLeft + 2 * as.countP Act.isWake := by
  induction as generalizing s with
  | nil =>
    obtain rfl : s = s' := by simpa using h
    exact Nat.le_refl _
  | cons a as ih =>
    obtain ⟨u, hu, hr⟩ := run_cons.mp h
    have hfirst := hs.step_spends hu
    have hrest := ih (hs.step hu) hr
    rw [List.countP_cons, List.countP_cons]
    cases hturn : a.isTurn <;> cases hwake : a.isWake <;>
      simp only [hturn, hwake, Bool.toNat_true, Bool.toNat_false, Bool.false_eq_true, if_true, if_false]
        at hfirst ⊢ <;> omega

/-- The caller has not read `loop_`, and the thread has retaken the mutex behind `loop()` to clear it. -/
def Abandoned (s : Launch T F) : Prop := s.body.leaves = true ∧ s.caller.obtained = false

instance (s : Launch T F) : Decidable s.Abandoned := inferInstanceAs (Decidable (_ ∧ _))

theorem Abandoned.step {a : Act T F} (hs : s.Sane) (hab : s.Abandoned) (h : s.step a = some s') :
    s'.Abandoned := by
  obtain ⟨hleaves, hnone⟩ := hab
  cases a with
  | caller t =>
    cases callerTurn_iff.mp h with
    | create hc => exact absurd hleaves (by simp [hs.born.mp hc, Body.leaves])
    | read hc hl =>
      have hfree := hs.exclusive (by rw [hc]; rfl)
      rw [hs.published] at hl
      cases hb : s.body <;> simp [hb, Body.leaves, Body.holds, Body.publishes] at hleaves hfree hl
    | pass hc | lock hc | wait hc => exact ⟨hleaves, rfl⟩
    | unlock hc => exact absurd hnone (by simp [hc, Caller.obtained])
  | thread =>
    refine ⟨?_, ?_⟩
    · cases threadTurn_iff.mp h with
      | relock | clear | finish => rfl
      | identify hb | post hb | construct hb | notify hb | unlock hb | lock hb | initialise hb
      | store hb => exact absurd hleaves (by simp [hb, Body.leaves])
    · cases threadTurn_iff.mp h <;> exact hnone
  | wake =>
    obtain ⟨-, h⟩ := Option.ite_none_right_eq_some.mp h
    obtain rfl := Option.some.inj h
    exact ⟨hleaves, hnone⟩
  | loop a =>
    obtain ⟨-, h⟩ := Option.ite_none_right_eq_some.mp h
    obtain ⟨o, -, rfl⟩ := Option.map_eq_some_iff.mp h
    exact ⟨hleaves, hnone⟩
  | hand t u =>
    obtain ⟨o, -, rfl⟩ := Option.map_eq_some_iff.mp h
    exact ⟨hleaves, hnone⟩

omit [DecidableEq T] [DecidableEq F] in
theorem Sane.thread_goes_on (hs : s.Sane) (hout : s.caller ≠ .outside) (hb : s.body.enters = false)
    (hm : s.body = .initialised → s.caller.holds = false) : ∃ u, Runs s u := by
  cases hbody : s.body with
  | unborn => exact absurd (hs.born.mpr hbody) hout
  | born => exact ⟨_, .identify hbody⟩
  | identified => exact ⟨_, .post hbody⟩
  | posted => exact ⟨_, .construct hbody⟩
  | constructed => exact ⟨_, .initialise hbody (by rw [hs.initialised, hbody]; rfl)⟩
  | initialised => exact ⟨_, .lock hbody (by rw [hs.mutex, hm hbody, hbody]; rfl)⟩
  | locked =>
    exact ⟨_, .store hbody (by rw [hs.initialised, hbody]; rfl) (hs.fresh hb)
      (by rw [hs.published, hbody]; rfl)⟩
  | stored => exact ⟨_, .notify hbody⟩
  | notified => exact ⟨_, .unlock hbody⟩
  | looping | relocked | cleared | ended => exact absurd hb (by simp [hbody, Body.enters])

omit [DecidableEq F] in
/-- As long as the thread has not retaken the mutex, the caller goes on, or the thread does on its
way into `loop()`. -/
theorem Sane.goes_on (hs : s.Sane) (hab : ¬ s.Abandoned) (hret : s.caller ≠ .returned) (t : T) :
    (∃ u, Calls s t u) ∨ s.body.enters = false ∧ ∃ u, Runs s u := by
  have hlock : s.caller.holds = false → s.caller.obtained = false → s.caller ≠ .outside →
      (s.caller = .started ∨ s.caller = .waiting ∧ s.asleep = false) →
        (∃ u, Calls s t u) ∨ s.body.enters = false ∧ ∃ u, Runs s u := by
    intro hfree hnone hout hc
    by_cases hb : s.body.holds = true
    · have henters : s.body.enters = false :=
        (Body.enters_or_leaves hb).resolve_right fun hleaves ↦ hab ⟨hleaves, hnone⟩
      exact Or.inr ⟨henters, hs.thread_goes_on hout henters fun _ ↦ hfree⟩
    · exact Or.inl ⟨_, .lock hc (by simp [hs.mutex, hfree, hb])⟩
  cases hc : s.caller with
  | outside => exact Or.inl ⟨_, .create hc⟩
  | created =>
    have hsem := hs.sem
    rw [hc] at hsem
    cases hp : s.body.hasPosted with
    | true =>
      simp only [hp, Caller.passed, Bool.toNat_true, Bool.toNat_false] at hsem
      exact Or.inl ⟨_, .pass hc (by omega)⟩
    | false =>
      have henters : s.body.enters = false := Body.enters_eq_false (Or.inr hp)
      exact Or.inr ⟨henters, hs.thread_goes_on (by simp [hc]) henters fun _ ↦ by rw [hc]; rfl⟩
  | started =>
    exact hlock (by rw [hc]; rfl) (by rw [hc]; rfl) (by simp [hc]) (Or.inl hc)
  | testing =>
    cases hl : s.object.loop_ with
    | true => exact Or.inl ⟨_, .read hc hl⟩
    | false => exact Or.inl ⟨_, .wait hc hl⟩
  | waiting =>
    cases ha : s.asleep with
    | false => exact hlock (by rw [hc]; rfl) (by rw [hc]; rfl) (by simp [hc]) (Or.inr ⟨hc, ha⟩)
    | true =>
      rcases (hs.sleeps ha).2 with hyet | hended
      · have henters : s.body.enters = false := Body.enters_eq_false (Or.inl hyet)
        exact Or.inr ⟨henters, hs.thread_goes_on (by simp [hc]) henters fun _ ↦ by rw [hc]; rfl⟩
      · exact absurd ⟨by rw [hended]; rfl, by rw [hc]; rfl⟩ hab
  | reading => exact Or.inl ⟨_, .unlock hc⟩
  | returned => exact absurd hc hret

theorem Sane.returns (hs : s.Sane) (hab : ¬ s.Abandoned) (t : T) :
    ∃ bs u, (∀ b ∈ bs, b.isTurn = true) ∧ run Launch.step s bs = some u ∧ u.caller = .returned := by
  induction hn : s.turnsLeft using Nat.strongRecOn generalizing s with
  | ind n ih =>
    by_cases hret : s.caller = .returned
    · exact ⟨[], s, by simp, rfl, hret⟩
    · obtain ⟨a, v, ha, hv, hab'⟩ : ∃ a v, a.isTurn = true ∧ s.step a = some v ∧ ¬ v.Abandoned := by
        rcases hs.goes_on hab hret t with ⟨v, hv⟩ | ⟨henters, v, hv⟩
        · refine ⟨.caller t, v, rfl, callerTurn_iff.mpr hv, fun habv ↦ hab ?_⟩
          obtain ⟨hleaves, hnone⟩ := habv
          cases hv with
          | create => exact absurd hleaves (by simp [Body.leaves])
          | pass hc | wait hc => exact ⟨hleaves, by rw [hc]; rfl⟩
          | lock hc hm => rcases hc with hc | ⟨hc, -⟩ <;> exact ⟨hleaves, by rw [hc]; rfl⟩
          | read | unlock => exact absurd hnone (by simp [Caller.obtained])
        · refine ⟨.thread, v, rfl, threadTurn_iff.mpr hv, fun habv ↦ ?_⟩
          have hleaves := habv.1
          cases hv with
          | identify hb | post hb | construct hb | notify hb | unlock hb | lock hb | initialise hb
          | store hb => simp [Body.leaves] at hleaves
          | relock hb | clear hb | finish hb => simp [hb, Body.enters] at henters
      have hspent := hs.step_spends hv
      have hnowake : a.isWake = false := by cases a <;> simp [Act.isTurn, Act.isWake] at ha ⊢
      simp only [ha, hnowake, Bool.toNat_true, Bool.toNat_false] at hspent
      obtain ⟨bs, u, hbs, hu, hdone⟩ := ih v.turnsLeft (by omega) (hs.step hv) hab' rfl
      refine ⟨a :: bs, u, ?_, run_cons.mpr ⟨v, hv, hu⟩, hdone⟩
      exact List.forall_mem_cons.mpr ⟨ha, hbs⟩

theorem step_object {a : Act T F} (h : s.step a = some s') :
    s'.object = s.object ∨ ∃ b, s.object.step b = some s'.object := by
  cases a with
  | caller t =>
    cases callerTurn_iff.mp h with
    | create | pass | lock | wait | unlock => exact Or.inl rfl
    | read hc hl => exact Or.inr ⟨.startLoop t, by simp [EventLoopThread.step, hl]⟩
  | thread =>
    cases threadTurn_iff.mp h with
    | identify | post | construct | lock | notify | unlock | relock | finish => exact Or.inl rfl
    | initialise hb ho => exact Or.inr ⟨.returnCallback, by simp [EventLoopThread.step, ho]⟩
    | store hb ho hl hn => exact Or.inr ⟨.publish, by simp [EventLoopThread.step, ho, hl, hn]⟩
    | clear hb hl => exact Or.inr ⟨.clear, by simp [EventLoopThread.step, hl]⟩
  | wake =>
    obtain ⟨-, h⟩ := Option.ite_none_right_eq_some.mp h
    obtain rfl := Option.some.inj h
    exact Or.inl rfl
  | loop a =>
    obtain ⟨-, h⟩ := Option.ite_none_right_eq_some.mp h
    obtain ⟨o, ho, rfl⟩ := Option.map_eq_some_iff.mp h
    exact Or.inr ⟨_, ho⟩
  | hand t u =>
    obtain ⟨o, ho, rfl⟩ := Option.map_eq_some_iff.mp h
    exact Or.inr ⟨_, ho⟩

theorem returned_step {a : Act T F} (hr : s.caller = .returned) (h : s.step a = some s') :
    s'.caller = .returned := by
  cases a with
  | caller t => simp [step, callerTurn, hr] at h
  | thread => cases threadTurn_iff.mp h <;> exact hr
  | wake =>
    obtain ⟨-, h⟩ := Option.ite_none_right_eq_some.mp h
    obtain rfl := Option.some.inj h
    exact hr
  | loop a =>
    obtain ⟨-, h⟩ := Option.ite_none_right_eq_some.mp h
    obtain ⟨o, -, rfl⟩ := Option.map_eq_some_iff.mp h
    exact hr
  | hand t u =>
    obtain ⟨o, -, rfl⟩ := Option.map_eq_some_iff.mp h
    exact hr

structure Launched (t : T) (s : Launch T F) : Prop where
  sane : s.Sane
  thread : s.object.loop.threadId_ = t
  object : ∃ bs, run EventLoopThread.step (.ofThread t) bs = some s.object

theorem Launched.step {t : T} {a : Act T F} (hs : s.Launched t) (h : s.step a = some s') :
    s'.Launched t := by
  obtain ⟨hsane, hthread, bs, hbs⟩ := hs
  refine ⟨hsane.step h, ?_, ?_⟩
  · rcases step_object h with heq | ⟨b, hb⟩
    · rw [heq, hthread]
    · rcases EventLoopThread.step_loop hb with ⟨c, -, hc⟩ | ⟨-, heq⟩
      · rw [EventLoop.threadId_step hc, hthread]
      · rw [heq, hthread]
  · rcases step_object h with heq | ⟨b, hb⟩
    · exact ⟨bs, heq ▸ hbs⟩
    · exact ⟨bs ++ [b], run_snoc.mpr ⟨s.object, hbs, hb⟩⟩

theorem run_launched {t : T} {as : List (Act T F)} (h : run step (ofThread t) as = some s) :
    s.Launched t :=
  run_invariant (fun _ _ _ hs h ↦ hs.step h) ⟨ofThread_sane t, rfl, [], rfl⟩ h

/-- A call of `startLoop()` can return until the thread retakes the mutex behind `loop()` before the
caller has read the pointer, and never from then on; it takes 19 turns of the two threads at most,
and two more for each spurious wakeup. The caller sleeps on no notification that has been given, and
the pointer is that of a loop which `callback_` has initialised. -/
theorem startLoop_returns {t : T} {as : List (Act T F)} (h : run step (ofThread t) as = some s) :
    (s.Abandoned → ∀ bs u, run step s bs = some u → u.caller ≠ .returned) ∧
      (¬ s.Abandoned → ∃ bs u, (∀ b ∈ bs, b.isTurn = true) ∧ run step s bs = some u ∧
        u.caller = .returned) ∧
      as.countP Act.isTurn ≤ 19 + 2 * as.countP Act.isWake ∧
      (s.asleep = true → s.object.loop_ = true → s.body = .stored) ∧
      (s.caller.obtained = true → s.tid_ = some t ∧ s.object.initialised = true ∧
        (s.body = .looping ∨ s.object.loop.stage = .stopped)) ∧
      ∃ bs, run EventLoopThread.step (.ofThread t) bs = some s.object := by
  obtain ⟨hs, hthread, hobject⟩ := run_launched h
  refine ⟨fun hab bs u hu ↦ ?_, fun hab ↦ hs.returns hab t, ?_, fun ha hl ↦ ?_, fun ho ↦ ?_, hobject⟩
  · obtain ⟨-, -, hnone⟩ : u.Sane ∧ u.Abandoned :=
      run_invariant (I := fun v ↦ v.Sane ∧ v.Abandoned)
        (fun _ _ _ hI hv ↦ ⟨hI.1.step hv, hI.2.step hI.1 hv⟩) ⟨hs, hab⟩ hu
    intro hret
    simp [hret, Caller.obtained] at hnone
  · have hspent := (ofThread_sane t).run_spends h
    have hstart : (ofThread t : Launch T F).turnsLeft = 19 := rfl
    omega
  · exact Body.stored_of_yetToNotify (hs.sleeps ha).2 (hs.published ▸ hl)
  · obtain ⟨hidentifies, hinitialises⟩ := Body.passed_of_enters (hs.holds ho)
    refine ⟨hthread ▸ hs.tid hidentifies, hs.initialised.trans hinitialises, ?_⟩
    exact (Body.looping_or_leaves (hs.holds ho)).imp_right hs.done

section

def sleepsFirst : List (Act ℕ ℕ) :=
  [.caller 1, .thread, .thread, .caller 1, .caller 1, .caller 1, .thread, .thread, .thread, .thread]

/-- A functor of `callback_` quits the loop, which has come to an end before the caller has
taken the mutex. -/
def overtaken : List (Act ℕ ℕ) :=
  [.caller 1, .thread, .thread, .caller 1, .thread, .loop (.append 0 7), .thread, .thread, .thread,
    .thread, .thread, .loop .enter, .loop .clearQuit, .loop .testQuit, .loop (.pollReturn false),
    .loop .beginCalling, .loop .swap, .loop (.beginFunctor 7), .loop (.storeQuit 0),
    .loop .endFunctor, .loop .endCalling, .loop .testQuit, .thread]

theorem startLoop_returns_sleepsFirst :
    (∃ s : Launch ℕ ℕ, run step (ofThread 0) sleepsFirst = some s ∧ s.asleep = true ∧
      s.body = .stored ∧ ∃ bs u, run step s bs = some u ∧ u.caller = .returned) ∧
    ∃ s : Launch ℕ ℕ, run step (ofThread 0) overtaken = some s ∧
      ∀ bs u, run step s bs = some u → u.caller ≠ .returned := by
  refine ⟨?_, ?_⟩
  · obtain ⟨s, hs, hshape⟩ := Option.map_eq_some_iff.mp
      (show (run step (ofThread 0) sleepsFirst).map (fun s : Launch ℕ ℕ ↦
        (s.asleep, s.object.loop_, s.body, decide s.Abandoned)) = some (true, true, .stored, false) from rfl)
    simp only [Prod.mk.injEq, decide_eq_false_iff_not] at hshape
    obtain ⟨hasleep, hloop, -, hab⟩ := hshape
    obtain ⟨-, hreturns, -, hstored, -⟩ := startLoop_returns hs
    obtain ⟨bs, u, -, hu, hdone⟩ := hreturns hab
    exact ⟨s, hs, hasleep, hstored hasleep hloop, bs, u, hu, hdone⟩
  · obtain ⟨s, hs, hshape⟩ := Option.map_eq_some_iff.mp
      (show (run step (ofThread 0) overtaken).map (fun s : Launch ℕ ℕ ↦ decide s.Abandoned) =
        some true from rfl)
    exact ⟨s, hs, (startLoop_returns hs).1 (of_decide_eq_true hshape)⟩

end

end Launch

end Mymuduo
