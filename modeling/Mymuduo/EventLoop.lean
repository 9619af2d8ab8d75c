import Mathlib.Algebra.Group.Nat.Defs
import Mathlib.Logic.Function.Basic
import Mathlib.Data.List.Basic
import Mymuduo.Foundation.Machine

namespace Mymuduo

open Foundation.Machine

/-- Where the loop thread stands in `loop()` and `doPendingFunctors()`. The flag
of `handling` says that the wakeup channel is active and not yet read; that of
`running`, that a functor is being executed. -/
inductive Stage
  | constructed
  | entered
  | testing
  | polling
  | handling (woken : Bool)
  | calling
  | running (busy : Bool)
  | stopped
  deriving DecidableEq

/-- The stages in which the loop thread executes code of its users. -/
def Stage.userCode : Stage → Bool
  | .constructed | .handling _ | .running true => true
  | _ => false

def Stage.inBatch : Stage → Bool
  | .calling | .running _ => true
  | _ => false

/-- `functors` is what is left of the local vector of `doPendingFunctors()`;
`owes t` says that `t` has appended or set `quit_` and must still call `wakeup()`. -/
structure EventLoop (T F : Type) where
  threadId_ : T
  looping_ : Bool
  quit_ : Bool
  callingPendingFunctors_ : Bool
  pendingFunctors_ : List F
  wakeupFd_ : ℕ
  functors : List F
  stage : Stage
  owes : T → Bool

namespace EventLoop

inductive Act (T F : Type)
  | append (t : T) (cb : F)
  | storeQuit (t : T)
  | wakeup (t : T)
  | enter
  | clearQuit
  | testQuit
  | pollReturn (woken : Bool)
  | handleRead
  | beginCalling
  | swap
  | beginFunctor (cb : F)
  | endFunctor
  | endCalling

variable {T F : Type}

def Act.onQueue : Act T F → Bool
  | .append _ _ | .beginFunctor _ | .swap => true
  | _ => false

def ofThread (t : T) : EventLoop T F :=
  { threadId_ := t, looping_ := false, quit_ := false, callingPendingFunctors_ := false,
    pendingFunctors_ := [], wakeupFd_ := 0, functors := [], stage := .constructed,
    owes := fun _ ↦ false }

/-- The largest value an eventfd counter can hold; a further write fails. -/
def eventfdMax : ℕ := 2 ^ 64 - 2

section

variable [DecidableEq T] (l : EventLoop T F)

def isInLoopThread (t : T) : Bool := t = l.threadId_

def mayCall (t : T) : Bool :=
  !l.owes t && (!l.isInLoopThread t || l.stage.userCode)

/-- The critical section of `queueInLoop`, and its test whether to wake the loop. -/
def queueInLoop (t : T) (cb : F) : EventLoop T F :=
  { l with
    pendingFunctors_ := l.pendingFunctors_ ++ [cb]
    owes := Function.update l.owes t (!l.isInLoopThread t || l.callingPendingFunctors_) }

def quit (t : T) : EventLoop T F :=
  { l with quit_ := true, owes := Function.update l.owes t (!l.isInLoopThread t) }

def wakeup (t : T) : EventLoop T F :=
  { l with wakeupFd_ := min (l.wakeupFd_ + 1) eventfdMax, owes := Function.update l.owes t false }

theorem mayCall_iff {l : EventLoop T F} {t : T} :
    l.mayCall t = true ↔ l.owes t = false ∧ (t = l.threadId_ → l.stage.userCode = true) := by
  simp only [mayCall, isInLoopThread, Bool.and_eq_true, Bool.or_eq_true, Bool.not_eq_true',
    decide_eq_false_iff_not]
  tauto

end

def standsAt (l : EventLoop T F) (g : Stage) : Bool := l.stage = g && !l.owes l.threadId_

theorem standsAt_iff {l : EventLoop T F} {g : Stage} :
    l.standsAt g = true ↔ l.stage = g ∧ l.owes l.threadId_ = false := by
  simp [standsAt]

/-- What the position of the loop thread says about the rest of the state. -/
structure Control (l : EventLoop T F) : Prop where
  calling : l.callingPendingFunctors_ = l.stage.inBatch
  owing : l.owes l.threadId_ = true → l.stage = .running true
  vector : l.functors ≠ [] → ∃ b, l.stage = .running b

theorem ofThread_control (t : T) : (ofThread t : EventLoop T F).Control :=
  ⟨rfl, fun h ↦ by simp [ofThread] at h, fun h ↦ by simp [ofThread] at h⟩

theorem Control.vector_eq_nil {l : EventLoop T F} (hc : l.Control) (hs : l.stage = .calling) : l.functors = [] := by
  by_contra hne
  obtain ⟨b, hb⟩ := hc.vector hne
  simp [hs] at hb

variable [DecidableEq T] [DecidableEq F]

def step (l : EventLoop T F) : Act T F → Option (EventLoop T F)
  | .append t cb => if l.mayCall t then some (l.queueInLoop t cb) else none
  | .storeQuit t => if l.mayCall t then some (l.quit t) else none
  | .wakeup t => if l.owes t then some (l.wakeup t) else none
  | .enter => if l.standsAt .constructed then some { l with looping_ := true, stage := .entered } else none
  | .clearQuit => if l.standsAt .entered then some { l with quit_ := false, stage := .testing } else none
  | .testQuit =>
    if l.standsAt .testing then
      if l.quit_ then some { l with looping_ := false, stage := .stopped }
      else some { l with stage := .polling }
    else none
  | .pollReturn woken =>
    if l.standsAt .polling && (!woken || 0 < l.wakeupFd_) then some { l with stage := .handling woken }
    else none
  | .handleRead =>
    if l.standsAt (.handling true) then some { l with wakeupFd_ := 0, stage := .handling false } else none
  | .beginCalling =>
    if l.standsAt (.handling false) then
      some { l with callingPendingFunctors_ := true, stage := .calling }
    else none
  | .swap =>
    if l.standsAt .calling then
      some { l with
        functors := l.pendingFunctors_, pendingFunctors_ := l.functors, stage := .running false }
    else none
  | .beginFunctor cb =>
    if l.standsAt (.running false) && l.functors.head? = some cb then
      some { l with functors := l.functors.tail, stage := .running true }
    else none
  | .endFunctor =>
    if l.standsAt (.running true) then some { l with stage := .running false } else none
  | .endCalling =>
    if l.standsAt (.running false) && l.functors.isEmpty then
      some { l with callingPendingFunctors_ := false, stage := .testing }
    else none

variable {l m : EventLoop T F}

section

variable {t : T} {cb : F} {woken : Bool}

theorem step_append : l.step (.append t cb) = some m ↔
    (l.owes t = false ∧ (t = l.threadId_ → l.stage.userCode = true)) ∧
      l.queueInLoop t cb = m := by
  simp [step, mayCall_iff]

theorem step_storeQuit : l.step (.storeQuit t) = some m ↔
    (l.owes t = false ∧ (t = l.threadId_ → l.stage.userCode = true)) ∧ l.quit t = m := by
  simp [step, mayCall_iff]

theorem step_wakeup : l.step (.wakeup t) = some m ↔ l.owes t = true ∧ l.wakeup t = m := by
  simp [step]

theorem step_enter : l.step .enter = some m ↔
    (l.stage = .constructed ∧ l.owes l.threadId_ = false) ∧
      { l with looping_ := true, stage := .entered } = m := by
  simp [step, standsAt_iff]

theorem step_clearQuit : l.step .clearQuit = some m ↔
    (l.stage = .entered ∧ l.owes l.threadId_ = false) ∧
      { l with quit_ := false, stage := .testing } = m := by
  simp [step, standsAt_iff]

theorem step_testQuit : l.step .testQuit = some m ↔
    (l.stage = .testing ∧ l.owes l.threadId_ = false) ∧
      ((l.quit_ = true ∧ { l with looping_ := false, stage := .stopped } = m) ∨
        (l.quit_ = false ∧ { l with stage := .polling } = m)) := by
  cases hq : l.quit_ <;> simp [step, standsAt_iff, hq]

theorem step_pollReturn : l.step (.pollReturn woken) = some m ↔
    ((l.stage = .polling ∧ l.owes l.threadId_ = false) ∧ (woken = true → 0 < l.wakeupFd_)) ∧
      { l with stage := .handling woken } = m := by
  cases woken <;> simp [step, standsAt_iff]

theorem step_handleRead : l.step .handleRead = some m ↔
    (l.stage = .handling true ∧ l.owes l.threadId_ = false) ∧
      { l with wakeupFd_ := 0, stage := .handling false } = m := by
  simp [step, standsAt_iff]

theorem step_beginCalling : l.step .beginCalling = some m ↔
    (l.stage = .handling false ∧ l.owes l.threadId_ = false) ∧
      { l with callingPendingFunctors_ := true, stage := .calling } = m := by
  simp [step, standsAt_iff]

theorem step_swap : l.step .swap = some m ↔
    (l.stage = .calling ∧ l.owes l.threadId_ = false) ∧
      { l with
        functors := l.pendingFunctors_, pendingFunctors_ := l.functors, stage := .running false } =
        m := by
  simp [step, standsAt_iff]

theorem step_beginFunctor : l.step (.beginFunctor cb) = some m ↔
    ((l.stage = .running false ∧ l.owes l.threadId_ = false) ∧
      l.functors = cb :: l.functors.tail) ∧
      { l with functors := l.functors.tail, stage := .running true } = m := by
  cases hf : l.functors <;> simp [step, standsAt_iff, hf]

theorem step_endFunctor : l.step .endFunctor = some m ↔
    (l.stage = .running true ∧ l.owes l.threadId_ = false) ∧
      { l with stage := .running false } = m := by
  simp [step, standsAt_iff]

theorem step_endCalling : l.step .endCalling = some m ↔
    ((l.stage = .running false ∧ l.owes l.threadId_ = false) ∧ l.functors = []) ∧
      { l with callingPendingFunctors_ := false, stage := .testing } = m := by
  simp [step, standsAt_iff]

end

theorem threadId_step {a : Act T F} (h : l.step a = some m) : m.threadId_ = l.threadId_ := by
  cases a <;> simp only [step_append, step_storeQuit, step_wakeup, step_enter, step_clearQuit,
    step_testQuit, step_pollReturn, step_handleRead, step_beginCalling, step_swap,
    step_beginFunctor, step_endFunctor, step_endCalling] at h
  case testQuit => rcases h with ⟨-, ⟨-, rfl⟩ | ⟨-, rfl⟩⟩ <;> rfl
  all_goals obtain ⟨-, rfl⟩ := h; rfl

inductive QueueStep (l m : EventLoop T F) : Act T F → Prop
  | append (t : T) (cb : F) (hf : m.functors = l.functors)
      (hp : m.pendingFunctors_ = l.pendingFunctors_ ++ [cb]) : QueueStep l m (.append t cb)
  | beginFunctor (cb : F) (hf : l.functors = cb :: m.functors)
      (hp : m.pendingFunctors_ = l.pendingFunctors_) : QueueStep l m (.beginFunctor cb)
  | swap (hs : l.stage = .calling) (hf : m.functors = l.pendingFunctors_)
      (hp : m.pendingFunctors_ = l.functors) : QueueStep l m .swap
  | other (a : Act T F) (ha : a.onQueue = false) (hf : m.functors = l.functors)
      (hp : m.pendingFunctors_ = l.pendingFunctors_) : QueueStep l m a

theorem step_queue {a : Act T F} (h : l.step a = some m) : QueueStep l m a := by
  cases a with
  | append t cb => obtain ⟨-, rfl⟩ := step_append.mp h; exact .append t cb rfl rfl
  | storeQuit t => obtain ⟨-, rfl⟩ := step_storeQuit.mp h; exact .other _ rfl rfl rfl
  | wakeup t => obtain ⟨-, rfl⟩ := step_wakeup.mp h; exact .other _ rfl rfl rfl
  | enter => obtain ⟨-, rfl⟩ := step_enter.mp h; exact .other _ rfl rfl rfl
  | clearQuit => obtain ⟨-, rfl⟩ := step_clearQuit.mp h; exact .other _ rfl rfl rfl
  | testQuit => obtain ⟨-, ⟨-, rfl⟩ | ⟨-, rfl⟩⟩ := step_testQuit.mp h <;> exact .other _ rfl rfl rfl
  | pollReturn woken => obtain ⟨-, rfl⟩ := step_pollReturn.mp h; exact .other _ rfl rfl rfl
  | handleRead => obtain ⟨-, rfl⟩ := step_handleRead.mp h; exact .other _ rfl rfl rfl
  | beginCalling => obtain ⟨-, rfl⟩ := step_beginCalling.mp h; exact .other _ rfl rfl rfl
  | swap => obtain ⟨⟨hs, -⟩, rfl⟩ := step_swap.mp h; exact .swap hs rfl rfl
  | beginFunctor cb =>
    obtain ⟨⟨-, hf⟩, rfl⟩ := step_beginFunctor.mp h
    exact .beginFunctor cb hf rfl
  | endFunctor => obtain ⟨-, rfl⟩ := step_endFunctor.mp h; exact .other _ rfl rfl rfl
  | endCalling => obtain ⟨-, rfl⟩ := step_endCalling.mp h; exact .other _ rfl rfl rfl

omit [DecidableEq F] in
theorem Control.owing_queueInLoop (hc : l.Control) {t : T} {cb : F}
    (ht : t = l.threadId_ → l.stage.userCode = true)
    (ho : (l.queueInLoop t cb).owes l.threadId_ = true) : l.stage = .running true := by
  by_cases he : l.threadId_ = t
  · -- in its own thread `queueInLoop` wakes the loop only from inside a functor
    subst he
    have hb : l.stage.inBatch = true := by
      simpa [queueInLoop, isInLoopThread, hc.calling] using ho
    have hu := ht rfl
    cases hs : l.stage with
    | running busy => cases busy <;> simp_all [Stage.userCode]
    | _ => simp_all [Stage.inBatch, Stage.userCode]
  · exact hc.owing (by simpa [queueInLoop, he] using ho)

theorem Control.step {a : Act T F} (hc : l.Control) (h : l.step a = some m) : m.Control := by
  cases a with
  | append t cb =>
    obtain ⟨⟨-, ht⟩, rfl⟩ := step_append.mp h
    exact ⟨hc.calling, hc.owing_queueInLoop ht, hc.vector⟩
  | storeQuit t =>
    obtain ⟨-, rfl⟩ := step_storeQuit.mp h
    refine ⟨hc.calling, fun ho ↦ ?_, hc.vector⟩
    by_cases he : l.threadId_ = t
    · simp [quit, isInLoopThread, he] at ho
    · exact hc.owing (by simpa [quit, he] using ho)
  | wakeup t =>
    obtain ⟨-, rfl⟩ := step_wakeup.mp h
    refine ⟨hc.calling, fun ho ↦ ?_, hc.vector⟩
    by_cases he : l.threadId_ = t
    · simp [EventLoop.wakeup, he] at ho
    · exact hc.owing (by simpa [EventLoop.wakeup, he] using ho)
  | enter =>
    obtain ⟨⟨hs, ho⟩, rfl⟩ := step_enter.mp h
    exact ⟨by simp [hc.calling, hs, Stage.inBatch], by simp [ho], fun hf ↦ by
      simpa [hs] using hc.vector hf⟩
  | clearQuit =>
    obtain ⟨⟨hs, ho⟩, rfl⟩ := step_clearQuit.mp h
    exact ⟨by simp [hc.calling, hs, Stage.inBatch], by simp [ho], fun hf ↦ by
      simpa [hs] using hc.vector hf⟩
  | testQuit =>
    obtain ⟨⟨hs, ho⟩, ⟨-, rfl⟩ | ⟨-, rfl⟩⟩ := step_testQuit.mp h
    · exact ⟨by simp [hc.calling, hs, Stage.inBatch], by simp [ho], fun hf ↦ by
      simpa [hs] using hc.vector hf⟩
    · exact ⟨by simp [hc.calling, hs, Stage.inBatch], by simp [ho], fun hf ↦ by
      simpa [hs] using hc.vector hf⟩
  | pollReturn woken =>
    obtain ⟨⟨⟨hs, ho⟩, -⟩, rfl⟩ := step_pollReturn.mp h
    exact ⟨by simp [hc.calling, hs, Stage.inBatch], by simp [ho], fun hf ↦ by
      simpa [hs] using hc.vector hf⟩
  | handleRead =>
    obtain ⟨⟨hs, ho⟩, rfl⟩ := step_handleRead.mp h
    exact ⟨by simp [hc.calling, hs, Stage.inBatch], by simp [ho], fun hf ↦ by
      simpa [hs] using hc.vector hf⟩
  | beginCalling =>
    obtain ⟨⟨hs, ho⟩, rfl⟩ := step_beginCalling.mp h
    exact ⟨rfl, by simp [ho], fun hf ↦ by
      simpa [hs] using hc.vector hf⟩
  | swap =>
    obtain ⟨⟨hs, ho⟩, rfl⟩ := step_swap.mp h
    exact ⟨by simp [hc.calling, hs, Stage.inBatch], by simp [ho], fun _ ↦ ⟨false, rfl⟩⟩
  | beginFunctor cb =>
    obtain ⟨⟨⟨hs, ho⟩, -⟩, rfl⟩ := step_beginFunctor.mp h
    exact ⟨by simp [hc.calling, hs, Stage.inBatch], by simp [ho], fun _ ↦ ⟨true, rfl⟩⟩
  | endFunctor =>
    obtain ⟨⟨hs, ho⟩, rfl⟩ := step_endFunctor.mp h
    exact ⟨by simp [hc.calling, hs, Stage.inBatch], by simp [ho], fun _ ↦ ⟨false, rfl⟩⟩
  | endCalling =>
    obtain ⟨⟨⟨hs, ho⟩, hf⟩, rfl⟩ := step_endCalling.mp h
    exact ⟨rfl, by simp [ho], fun hne ↦ absurd hf hne⟩

theorem Control.run {as : List (Act T F)} (hc : l.Control)
    (h : Foundation.Machine.run EventLoop.step l as = some m) : m.Control :=
  run_invariant (fun _ _ _ hI hs ↦ hI.step hs) hc h

end EventLoop

end Mymuduo
