import Mymuduo.Wakeup

namespace Mymuduo

open Foundation.Machine

/-- `loop_` tells whether the pointer is published, `initialised` whether
`callback_` has returned, and `obtained t` whether `t` has the pointer that
`startLoop()` returned. -/
structure EventLoopThread (T F : Type) where
  loop : EventLoop T F
  loop_ : Bool
  initialised : Bool
  obtained : T → Bool

namespace EventLoopThread

/-- `loop` is a step of the loop or a call on it, the `quit()` of the destructor
included; the others are the steps of `threadFunc()` around `loop.loop()` and
the return of `startLoop()`. -/
inductive Act (T F : Type)
  | loop (a : EventLoop.Act T F)
  | returnCallback
  | publish
  | startLoop (t : T)
  | hand (t u : T)
  | clear

variable {T F : Type}

def ofThread (t : T) : EventLoopThread T F :=
  { loop := .ofThread t, loop_ := false, initialised := false, obtained := fun _ ↦ false }

variable [DecidableEq T]

/-- Other threads reach the loop through a pointer they were given; its own
thread runs user code before `loop()` only in `callback_`. -/
def mayUse (s : EventLoopThread T F) (t : T) : Bool :=
  if t = s.loop.threadId_ then !(s.loop.stage = .constructed && s.initialised)
  else s.loop_ && s.obtained t

variable [DecidableEq F]

def allows (s : EventLoopThread T F) : EventLoop.Act T F → Bool
  | .append t _ | .storeQuit t => s.mayUse t
  | .enter => s.loop_
  | _ => true

def step (s : EventLoopThread T F) : Act T F → Option (EventLoopThread T F)
  | .loop a => if s.allows a then (s.loop.step a).map fun l ↦ { s with loop := l } else none
  | .returnCallback => if s.initialised then none else some { s with initialised := true }
  | .publish =>
    if s.initialised && s.loop.stage = .constructed && !s.loop_ then some { s with loop_ := true }
    else none
  | .startLoop t =>
    if s.loop_ then some { s with obtained := Function.update s.obtained t true } else none
  | .hand t u =>
    if s.obtained t then some { s with obtained := Function.update s.obtained u true } else none
  | .clear => if s.loop.stage = .stopped then some { s with loop_ := false } else none

variable {s s' : EventLoopThread T F}

theorem step_loop {a : Act T F} (h : s.step a = some s') :
    (∃ b, a = .loop b ∧ s.loop.step b = some s'.loop) ∨
      (∀ b, a ≠ .loop b) ∧ s'.loop = s.loop := by
  cases a with
  | loop b =>
    simp only [step, Option.ite_none_right_eq_some, Option.map_eq_some_iff] at h
    obtain ⟨-, l, hl, rfl⟩ := h
    exact Or.inl ⟨b, rfl, hl⟩
  | returnCallback =>
    simp only [step, Option.ite_none_left_eq_some, Option.some.injEq] at h
    obtain ⟨-, rfl⟩ := h
    exact Or.inr ⟨by simp, rfl⟩
  | publish | startLoop | hand | clear =>
    simp only [step, Option.ite_none_right_eq_some, Option.some.injEq] at h
    obtain ⟨-, rfl⟩ := h
    exact Or.inr ⟨by simp, rfl⟩

/-- A `quit()` of `t` has stored the flag and, from another thread, rung. -/
def QuitCompleted (t : T) (as : List (Act T F)) : Prop :=
  ∃ u x y, as = x ++ .loop (.storeQuit u) :: y ∧ (u = t ∨ .loop (.wakeup u) ∈ y)

/-- No completed `quit()` is undone, and the loop does not sleep on a functor
that nobody is going to announce. -/
structure Honoured (as : List (Act T F)) (s : EventLoopThread T F) : Prop where
  quit : QuitCompleted s.loop.threadId_ as → s.loop.stage = .testing → s.loop.quit_ = true
  functor : s.loop.stage = .polling → s.loop.pendingFunctors_ ≠ [] →
    0 < s.loop.wakeupFd_ ∨ ∃ t, t ≠ s.loop.threadId_ ∧ s.loop.owes t = true

/-- No `quit()` stores its flag before `loop()` has cleared it, and the loop's
own thread queues nothing before it enters `loop()`. -/
def Timely (s : EventLoopThread T F) : Act T F → Prop
  | .loop (.storeQuit _) => s.loop.stage.started = true
  | .loop (.append t _) => t = s.loop.threadId_ → s.loop.stage ≠ .constructed
  | _ => True

instance (s : EventLoopThread T F) (a : Act T F) : Decidable (s.Timely a) := by
  unfold Timely
  split <;> infer_instance

theorem quit_step {l m : EventLoop T F} {a : EventLoop.Act T F} (h : l.step a = some m) :
    (∃ t, a = .storeQuit t ∧ m.quit_ = true) ∨ (a = .clearQuit ∧ l.stage = .entered) ∨
      m.quit_ = l.quit_ := by
  cases a with
  | storeQuit t => obtain ⟨-, rfl⟩ := EventLoop.step_storeQuit.mp h; exact Or.inl ⟨t, rfl, rfl⟩
  | clearQuit =>
    obtain ⟨⟨hs, -⟩, -⟩ := EventLoop.step_clearQuit.mp h
    exact Or.inr (Or.inl ⟨rfl, hs⟩)
  | testQuit =>
    obtain ⟨-, ⟨-, rfl⟩ | ⟨-, rfl⟩⟩ := EventLoop.step_testQuit.mp h <;> exact Or.inr (Or.inr rfl)
  | append t cb => obtain ⟨-, rfl⟩ := EventLoop.step_append.mp h; exact Or.inr (Or.inr rfl)
  | wakeup t => obtain ⟨-, rfl⟩ := EventLoop.step_wakeup.mp h; exact Or.inr (Or.inr rfl)
  | enter => obtain ⟨-, rfl⟩ := EventLoop.step_enter.mp h; exact Or.inr (Or.inr rfl)
  | pollReturn woken => obtain ⟨-, rfl⟩ := EventLoop.step_pollReturn.mp h; exact Or.inr (Or.inr rfl)
  | handleRead => obtain ⟨-, rfl⟩ := EventLoop.step_handleRead.mp h; exact Or.inr (Or.inr rfl)
  | beginCalling => obtain ⟨-, rfl⟩ := EventLoop.step_beginCalling.mp h; exact Or.inr (Or.inr rfl)
  | swap => obtain ⟨-, rfl⟩ := EventLoop.step_swap.mp h; exact Or.inr (Or.inr rfl)
  | beginFunctor cb =>
    obtain ⟨-, rfl⟩ := EventLoop.step_beginFunctor.mp h
    exact Or.inr (Or.inr rfl)
  | endFunctor => obtain ⟨-, rfl⟩ := EventLoop.step_endFunctor.mp h; exact Or.inr (Or.inr rfl)
  | endCalling => obtain ⟨-, rfl⟩ := EventLoop.step_endCalling.mp h; exact Or.inr (Or.inr rfl)

def Sticky (as : List (Act T F)) (s : EventLoopThread T F) : Prop :=
  ∀ t, .loop (.storeQuit t) ∈ as → s.loop.stage.started = true ∧ s.loop.quit_ = true

theorem sticky_step {as : List (Act T F)} {a : Act T F} (hq : Sticky as s) (hg : s.Timely a)
    (h : s.step a = some s') : Sticky (as ++ [a]) s' := by
  intro t ht
  rcases step_loop h with ⟨b, rfl, hb⟩ | ⟨hne, he⟩
  · rcases quit_step hb with ⟨u, rfl, hu⟩ | ⟨rfl, hs⟩ | hu
    · exact ⟨EventLoop.started_step hg hb, hu⟩
    · -- `quit_ = false` is stored before the loop has started
      have hold : Act.loop (.storeQuit t) ∈ as := by simpa using ht
      have hst := (hq t hold).1
      rw [hs] at hst
      simp [Stage.started] at hst
    · by_cases hb' : b = .storeQuit t
      · subst hb'
        obtain ⟨-, rfl'⟩ := EventLoop.step_storeQuit.mp hb
        refine ⟨EventLoop.started_step hg hb, ?_⟩
        rw [← rfl']
        rfl
      · have hold : Act.loop (.storeQuit t) ∈ as := by
          rcases List.mem_append.mp ht with ht | ht
          · exact ht
          · simp only [List.mem_singleton, Act.loop.injEq] at ht
            exact absurd ht.symm hb'
        obtain ⟨hst, hqt⟩ := hq t hold
        exact ⟨EventLoop.started_step hst hb, hu.trans hqt⟩
  · have hold : Act.loop (.storeQuit t) ∈ as := by
      rcases List.mem_append.mp ht with ht | ht
      · exact ht
      · exact absurd (List.mem_singleton.mp ht).symm (hne _)
    rw [he]
    exact hq t hold

theorem armed_step {a : Act T F} (ha : s.loop.Armed ∧ s.loop.Control) (hg : s.Timely a)
    (h : s.step a = some s') : s'.loop.Armed ∧ s'.loop.Control := by
  rcases step_loop h with ⟨b, rfl, hb⟩ | ⟨-, he⟩
  · refine ⟨ha.1.step ha.2 (fun cb hcb ↦ ?_) hb, ha.2.step hb⟩
    subst hcb
    exact hg rfl
  · rwa [he]

/-- In a run whose requests are all timely, every request is honoured. -/
theorem requests_honoured {t : T} {as : List (Act T F)} (hG : Along step Timely (ofThread t) as)
    (h : run step (ofThread t) as = some s) : Honoured as s := by
  have hsticky : Sticky as s :=
    run_history_along (p := []) (fun _ _ _ _ hI hg hs ↦ sticky_step hI hg hs)
      (fun _ hin ↦ by simp at hin) hG h
  obtain ⟨harmed, hcontrol⟩ : s.loop.Armed ∧ s.loop.Control :=
    run_invariant_along (I := fun s ↦ s.loop.Armed ∧ s.loop.Control)
      (fun _ _ _ hI hg hs ↦ armed_step hI hg hs)
      ⟨⟨fun _ hne ↦ absurd rfl hne, fun hp ↦ by simp [ofThread, EventLoop.ofThread] at hp⟩,
        EventLoop.ofThread_control t⟩ hG h
  constructor
  · rintro ⟨u, x, y, rfl, -⟩ -
    exact (hsticky u (by simp)).2
  · intro hp hne
    exact (harmed.queue (by rw [hp]; rfl) hne).asleep hcontrol hp

section

/-- Thread 1 calls `quit()` as soon as `startLoop()` has returned. -/
def quitBeforeLoop : List (Act ℕ ℕ) :=
  [.returnCallback, .publish, .startLoop 1, .loop (.storeQuit 1), .loop (.wakeup 1), .loop .enter,
    .loop .clearQuit]

/-- The initialisation callback queues a functor on its own loop. -/
def queuedBeforeLoop : List (Act ℕ ℕ) :=
  [.loop (.append 0 7), .returnCallback, .publish, .loop .enter, .loop .clearQuit, .loop .testQuit]

theorem requests_lost :
    (∃ s : EventLoopThread ℕ ℕ, run step (ofThread 0) quitBeforeLoop = some s ∧
      s.loop.stage = .testing ∧ s.loop.quit_ = false ∧ ¬ Honoured quitBeforeLoop s) ∧
    ∃ s : EventLoopThread ℕ ℕ, run step (ofThread 0) queuedBeforeLoop = some s ∧
      s.loop.stage = .polling ∧ s.loop.pendingFunctors_ = [7] ∧ s.loop.wakeupFd_ = 0 ∧
      ¬ Honoured queuedBeforeLoop s := by
  refine ⟨⟨_, rfl, rfl, rfl, fun h ↦ ?_⟩, ⟨_, rfl, rfl, rfl, rfl, fun h ↦ ?_⟩⟩
  · have hdone : QuitCompleted 0 quitBeforeLoop :=
      ⟨1, [.returnCallback, .publish, .startLoop 1],
        [.loop (.wakeup 1), .loop .enter, .loop .clearQuit], rfl, Or.inr List.mem_cons_self⟩
    exact absurd (h.quit hdone rfl) (by decide)
  · rcases h.functor rfl (List.cons_ne_nil 7 []) with hw | ⟨t, -, ho⟩
    · exact absurd hw (by decide)
    · change Function.update (fun _ ↦ false) 0 false t = true at ho
      simp [Function.update_apply] at ho

def timelyRequests : List (Act ℕ ℕ) :=
  [.returnCallback, .publish, .startLoop 1, .loop .enter, .loop .clearQuit, .loop (.append 1 7),
    .loop (.wakeup 1), .loop .testQuit, .loop (.storeQuit 1)]

theorem requests_honoured_timely :
    ∃ s : EventLoopThread ℕ ℕ, run step (ofThread 0) timelyRequests = some s ∧
      s.loop.stage = .polling ∧ Honoured timelyRequests s :=
  ⟨_, rfl, rfl, requests_honoured (t := 0) (by decide) rfl⟩

end

end EventLoopThread

end Mymuduo
