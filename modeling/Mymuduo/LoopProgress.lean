import Mymuduo.Foundation.Variant
import Mymuduo.FunctorQueue
import Mymuduo.EventLoopThread
import Mymuduo.Wakeup

namespace Mymuduo

open Foundation.Machine Foundation.Variant EventLoop

/-- The turns that the loop thread takes at most until it swaps the queue out, when
nothing is left of its batch. -/
def Stage.untilSwap : Stage → ℕ
  | .constructed => 7
  | .entered => 6
  | .testing => 5
  | .polling => 4
  | .handling woken => woken.toNat + 2
  | .calling => 1
  | .running busy => busy.toNat + 6
  | .stopped => 0

def Stage.busy : Stage → ℕ
  | .running busy => busy.toNat
  | _ => 0

/-- The turns, but for those of the functors, after which a loop that is to quit has stopped. -/
def Stage.untilStop : Stage → ℕ
  | .polling => 6
  | .handling woken => woken.toNat + 4
  | .calling => 3
  | .running _ => 2
  | .testing => 1
  | .constructed | .entered | .stopped => 0

def Stage.pollsLeft : Stage → ℕ
  | .polling => 1
  | _ => 0

def Stage.swapsLeft : Stage → ℕ
  | .polling | .handling _ | .calling => 1
  | _ => 0

namespace EventLoop

variable {T F : Type}

/-- What the loop thread does by itself, as opposed to the calls made on the loop. -/
def Act.isTurn : Act T F → Bool
  | .append _ _ | .storeQuit _ | .wakeup _ => false
  | _ => true

def Act.isControl : Act T F → Bool
  | .append _ _ | .storeQuit _ | .wakeup _ | .beginFunctor _ | .endFunctor => false
  | _ => true

def Act.isPoll : Act T F → Bool
  | .pollReturn _ => true
  | _ => false

def Act.isSwap : Act T F → Bool
  | .swap => true
  | _ => false

/-- The turns at most until the next `n` functors have been executed. -/
def turnsFor (l : EventLoop T F) (n : ℕ) : ℕ :=
  if n = 0 then 0
  else 2 * n + if n ≤ l.functors.length then l.stage.busy else l.stage.untilSwap

/-- No `quit()` is in force. -/
structure Going (l : EventLoop T F) : Prop where
  control : l.Control
  quit : l.quit_ = true → l.stage.started = false
  running : l.stage ≠ .stopped

structure Quitting (l : EventLoop T F) : Prop where
  control : l.Control
  quit : l.quit_ = true
  started : l.stage.started = true

/-- What a step does to the position of the loop thread and to its batch. -/
inductive Passes (l m : EventLoop T F) : Act T F → Prop
  | call (a : Act T F) (ha : a.isTurn = false) (hs : m.stage = l.stage) (hf : m.functors = l.functors) :
      Passes l m a
  | enter (hs : l.stage = .constructed) (ht : m.stage = .entered) (hf : m.functors = l.functors) :
      Passes l m .enter
  | clearQuit (hs : l.stage = .entered) (ht : m.stage = .testing) (hf : m.functors = l.functors) :
      Passes l m .clearQuit
  | stop (hq : l.quit_ = true) (hs : l.stage = .testing) (ht : m.stage = .stopped)
      (hf : m.functors = l.functors) : Passes l m .testQuit
  | goOn (hq : l.quit_ = false) (hs : l.stage = .testing) (ht : m.stage = .polling)
      (hf : m.functors = l.functors) : Passes l m .testQuit
  | pollReturn (woken : Bool) (hs : l.stage = .polling) (ht : m.stage = .handling woken)
      (hf : m.functors = l.functors) : Passes l m (.pollReturn woken)
  | handleRead (hs : l.stage = .handling true) (ht : m.stage = .handling false)
      (hf : m.functors = l.functors) : Passes l m .handleRead
  | beginCalling (hs : l.stage = .handling false) (ht : m.stage = .calling)
      (hf : m.functors = l.functors) : Passes l m .beginCalling
  | swap (hs : l.stage = .calling) (ht : m.stage = .running false)
      (hf : m.functors = l.pendingFunctors_) : Passes l m .swap
  | beginFunctor (cb : F) (hs : l.stage = .running false) (ht : m.stage = .running true)
      (hf : l.functors = cb :: m.functors) : Passes l m (.beginFunctor cb)
  | endFunctor (hs : l.stage = .running true) (ht : m.stage = .running false)
      (hf : m.functors = l.functors) : Passes l m .endFunctor
  | endCalling (hs : l.stage = .running false) (ht : m.stage = .testing) (hnil : l.functors = [])
      (hf : m.functors = l.functors) : Passes l m .endCalling

variable {l m : EventLoop T F} {a : Act T F} {as : List (Act T F)}

theorem turnsFor_eq_zero {n : ℕ} : l.turnsFor n = 0 ↔ n = 0 := by
  unfold turnsFor
  split <;> omega

theorem turnsFor_of_nil {n : ℕ} (hn : n ≠ 0) (h : l.functors = []) :
    l.turnsFor n = 2 * n + l.stage.untilSwap := by
  rw [turnsFor, if_neg hn, if_neg (by simpa [h] using hn)]

theorem turnsFor_le (n : ℕ) : l.turnsFor n ≤ 2 * n + 7 := by
  have hbusy : l.stage.busy ≤ 1 := by
    cases hs : l.stage with
    | running busy => exact Bool.toNat_le busy
    | _ => exact Nat.zero_le 1
  have hswap : l.stage.untilSwap ≤ 7 := by
    cases hs : l.stage with
    | running busy | handling busy =>
      have hle := Bool.toNat_le busy
      simp only [Stage.untilSwap]
      omega
    | _ => decide
  unfold turnsFor
  split
  · omega
  · split <;> omega

variable [DecidableEq T] [DecidableEq F]

theorem step_passes (h : l.step a = some m) : Passes l m a := by
  cases a with
  | append t cb => obtain ⟨-, rfl⟩ := step_append.mp h; exact .call _ rfl rfl rfl
  | storeQuit t => obtain ⟨-, rfl⟩ := step_storeQuit.mp h; exact .call _ rfl rfl rfl
  | wakeup t => obtain ⟨-, rfl⟩ := step_wakeup.mp h; exact .call _ rfl rfl rfl
  | enter => obtain ⟨⟨hs, -⟩, rfl⟩ := step_enter.mp h; exact .enter hs rfl rfl
  | clearQuit => obtain ⟨⟨hs, -⟩, rfl⟩ := step_clearQuit.mp h; exact .clearQuit hs rfl rfl
  | testQuit =>
    obtain ⟨⟨hs, -⟩, ⟨hq, rfl⟩ | ⟨hq, rfl⟩⟩ := step_testQuit.mp h
    · exact .stop hq hs rfl rfl
    · exact .goOn hq hs rfl rfl
  | pollReturn woken =>
    obtain ⟨⟨⟨hs, -⟩, -⟩, rfl⟩ := step_pollReturn.mp h
    exact .pollReturn woken hs rfl rfl
  | handleRead => obtain ⟨⟨hs, -⟩, rfl⟩ := step_handleRead.mp h; exact .handleRead hs rfl rfl
  | beginCalling => obtain ⟨⟨hs, -⟩, rfl⟩ := step_beginCalling.mp h; exact .beginCalling hs rfl rfl
  | swap => obtain ⟨⟨hs, -⟩, rfl⟩ := step_swap.mp h; exact .swap hs rfl rfl
  | beginFunctor cb =>
    obtain ⟨⟨⟨hs, -⟩, hf⟩, rfl⟩ := step_beginFunctor.mp h
    exact .beginFunctor cb hs rfl hf
  | endFunctor => obtain ⟨⟨hs, -⟩, rfl⟩ := step_endFunctor.mp h; exact .endFunctor hs rfl rfl
  | endCalling =>
    obtain ⟨⟨⟨hs, -⟩, hf⟩, rfl⟩ := step_endCalling.mp h
    exact .endCalling hs rfl hf rfl

/-- Until it stops, the loop thread has a turn to take unless it still has to write the
wakeup descriptor. In the poll this turn may be the timeout. -/
theorem turn_enabled (hs : l.stage ≠ .stopped) (ho : l.owes l.threadId_ = false) :
    ∃ a m, a.isTurn = true ∧ l.step a = some m := by
  cases hst : l.stage with
  | constructed => exact ⟨.enter, _, rfl, step_enter.mpr ⟨⟨hst, ho⟩, rfl⟩⟩
  | entered => exact ⟨.clearQuit, _, rfl, step_clearQuit.mpr ⟨⟨hst, ho⟩, rfl⟩⟩
  | testing =>
    cases hq : l.quit_ with
    | true => exact ⟨.testQuit, _, rfl, step_testQuit.mpr ⟨⟨hst, ho⟩, Or.inl ⟨hq, rfl⟩⟩⟩
    | false => exact ⟨.testQuit, _, rfl, step_testQuit.mpr ⟨⟨hst, ho⟩, Or.inr ⟨hq, rfl⟩⟩⟩
  | polling =>
    exact ⟨.pollReturn false, _, rfl, step_pollReturn.mpr ⟨⟨⟨hst, ho⟩, by simp⟩, rfl⟩⟩
  | handling woken =>
    cases woken with
    | true => exact ⟨.handleRead, _, rfl, step_handleRead.mpr ⟨⟨hst, ho⟩, rfl⟩⟩
    | false => exact ⟨.beginCalling, _, rfl, step_beginCalling.mpr ⟨⟨hst, ho⟩, rfl⟩⟩
  | calling => exact ⟨.swap, _, rfl, step_swap.mpr ⟨⟨hst, ho⟩, rfl⟩⟩
  | running busy =>
    cases busy with
    | true => exact ⟨.endFunctor, _, rfl, step_endFunctor.mpr ⟨⟨hst, ho⟩, rfl⟩⟩
    | false =>
      cases hf : l.functors with
      | nil => exact ⟨.endCalling, _, rfl, step_endCalling.mpr ⟨⟨⟨hst, ho⟩, hf⟩, rfl⟩⟩
      | cons cb fs =>
        exact ⟨.beginFunctor cb, _, rfl, step_beginFunctor.mpr ⟨⟨⟨hst, ho⟩, by rw [hf]; rfl⟩, rfl⟩⟩
  | stopped => exact absurd hst hs

theorem Going.step (hl : l.Going) (ha : ∀ t, a ≠ .storeQuit t) (h : l.step a = some m) : m.Going := by
  obtain ⟨hc, hq, hs⟩ := hl
  have hquit : m.quit_ = true → l.quit_ = true ∧ a ≠ .clearQuit := by
    intro hm
    rcases EventLoopThread.quit_step h with ⟨t, rfl, -⟩ | ⟨rfl, -⟩ | hsame
    · exact absurd rfl (ha t)
    · obtain ⟨-, rfl⟩ := step_clearQuit.mp h
      simp at hm
    · refine ⟨hsame ▸ hm, ?_⟩
      rintro rfl
      obtain ⟨-, rfl⟩ := step_clearQuit.mp h
      simp at hm
  refine ⟨hc.step h, fun hm ↦ ?_, ?_⟩
  · obtain ⟨hlq, hne⟩ := hquit hm
    have hold := hq hlq
    cases step_passes h with
    | call _ _ hst => rw [hst]; exact hold
    | enter hst ht => rw [ht]; rfl
    | clearQuit => exact absurd rfl hne
    | stop _ hst | goOn _ hst | pollReturn _ hst | handleRead hst | beginCalling hst | swap hst
      | beginFunctor _ hst | endFunctor hst | endCalling hst => simp [hst, Stage.started] at hold
  · cases step_passes h with
    | call _ _ hst => rwa [hst]
    | stop hlq hst =>
      have hold := hq hlq
      simp [hst, Stage.started] at hold
    | enter _ ht | clearQuit _ ht | goOn _ _ ht | pollReturn _ _ ht | handleRead _ ht
      | beginCalling _ ht | swap _ ht | beginFunctor _ _ ht | endFunctor _ ht | endCalling _ ht =>
      simp [ht]

omit [DecidableEq T] [DecidableEq F] in
theorem Going.outside (hl : l.Going) (hs : ∀ b, l.stage ≠ .running b) : l.functors = [] := by
  by_contra hne
  obtain ⟨b, hb⟩ := hl.control.vector hne
  exact hs b hb

/-- Every turn brings the execution of the next `n` functors nearer, whatever else is queued. -/
theorem Going.turnsFor_step (hl : l.Going) (h : l.step a = some m) {n : ℕ}
    (hn : n ≤ l.waiting.length) :
    m.turnsFor (n - (executed [a]).length) ≤ l.turnsFor n - a.isTurn.toNat := by
  by_cases hzero : n = 0
  · subst hzero
    simp [turnsFor]
  have hidle : (∀ b, l.stage ≠ .running b) → executed [a] = [] → m.functors = l.functors →
      m.stage.untilSwap + a.isTurn.toNat ≤ l.stage.untilSwap →
      m.turnsFor (n - (executed [a]).length) ≤ l.turnsFor n - a.isTurn.toNat := by
    intro hout hex hf hlt
    have hnil := hl.outside hout
    rw [hex, turnsFor_of_nil hzero hnil, List.length_nil, Nat.sub_zero,
      turnsFor_of_nil hzero (hf.trans hnil)]
    omega
  cases step_passes h with
  | call _ ha hs hf =>
    have hex : executed [a] = [] := by cases a <;> simp_all [Act.isTurn, executed]
    simp [turnsFor, hex, hs, hf, ha]
  | enter hs ht hf => exact hidle (by simp [hs]) rfl hf (by simp [hs, ht, Stage.untilSwap, Act.isTurn])
  | clearQuit hs ht hf => exact hidle (by simp [hs]) rfl hf (by simp [hs, ht, Stage.untilSwap, Act.isTurn])
  | stop hq hs =>
    have hold := hl.quit hq
    simp [hs, Stage.started] at hold
  | goOn hq hs ht hf => exact hidle (by simp [hs]) rfl hf (by simp [hs, ht, Stage.untilSwap, Act.isTurn])
  | pollReturn woken hs ht hf =>
    refine hidle (by simp [hs]) rfl hf ?_
    have hle := Bool.toNat_le woken
    simp only [hs, ht, Stage.untilSwap, Act.isTurn, Bool.toNat_true]
    omega
  | handleRead hs ht hf => exact hidle (by simp [hs]) rfl hf (by simp [hs, ht, Stage.untilSwap, Act.isTurn])
  | beginCalling hs ht hf => exact hidle (by simp [hs]) rfl hf (by simp [hs, ht, Stage.untilSwap, Act.isTurn])
  | swap hs ht hf =>
    have hnil := hl.control.vector_eq_nil hs
    have hle : n ≤ l.pendingFunctors_.length := by simpa [waiting, hnil] using hn
    rw [turnsFor_of_nil hzero hnil]
    simp [turnsFor, executed, Act.isTurn, hs, ht, hf, hzero, hle, Stage.busy, Stage.untilSwap]
  | beginFunctor cb hs ht hf =>
    have hlen : l.functors.length = m.functors.length + 1 := by rw [hf, List.length_cons]
    have hex : (executed [(.beginFunctor cb : Act T F)]).length = 1 := rfl
    simp only [turnsFor, hex, hs, ht, hlen, Stage.busy, Stage.untilSwap, Act.isTurn, if_neg hzero]
    by_cases hone : n - 1 = 0
    · simp [hone]
    · rw [if_neg hone]
      by_cases hle : n ≤ m.functors.length + 1
      · rw [if_pos hle, if_pos (by omega), Bool.toNat_true, Bool.toNat_false]
        omega
      · rw [if_neg hle, if_neg (by omega), Bool.toNat_true, Bool.toNat_false]
        omega
  | endFunctor hs ht hf =>
    simp only [turnsFor, executed, List.filterMap_cons, List.filterMap_nil, List.length_nil,
      Nat.sub_zero, hs, ht, hf, Stage.busy, Stage.untilSwap, Act.isTurn, if_neg hzero]
    by_cases hle : n ≤ l.functors.length
    · simp [hle]
    · simp [hle]
  | endCalling hs ht hnil hf =>
    have hex : executed [(.endCalling : Act T F)] = [] := rfl
    rw [hex, turnsFor_of_nil hzero hnil, List.length_nil, Nat.sub_zero,
      turnsFor_of_nil hzero (hf.trans hnil), hs, ht]
    simp [Stage.untilSwap, Act.isTurn]

theorem along_unquit (has : ∀ t, .storeQuit t ∉ as) :
    Along EventLoop.step (fun _ a ↦ ∀ t, a ≠ .storeQuit t) l as :=
  along_of_forall fun _ ha _ t he ↦ has t (he ▸ ha)

theorem Going.goes_on (hl : l.Going) (has : ∀ t, .storeQuit t ∉ as)
    (h : run EventLoop.step l as = some m) : m.Going :=
  run_invariant_along (fun _ _ _ hI ha hs ↦ hI.step ha hs) hl (along_unquit has) h

/-- The functors that wait are executed within two turns each and seven more, in the
order of the queue and before all others, whatever other threads do meanwhile. -/
theorem Going.served (hl : l.Going) (has : ∀ t, .storeQuit t ∉ as)
    (h : run EventLoop.step l as = some m) (hn : 2 * l.waiting.length + 7 ≤ as.countP Act.isTurn) :
    l.waiting <+: executed as := by
  have hG := along_unquit (l := l) has
  have hfall : m.turnsFor (l.waiting.length - (executed as).length) ≤
      l.turnsFor l.waiting.length - as.countP Act.isTurn := by
    refine run_falls (p := [])
      (I := fun bs n ↦ n.Going ∧ l.waiting.length - (executed bs).length ≤ n.waiting.length)
      (μ := fun bs n ↦ n.turnsFor (l.waiting.length - (executed bs).length)) ?_ ?_
      ⟨hl, Nat.sub_le _ _⟩ hG h
    · intro bs n b u hI hb hu
      refine ⟨hI.1.step hb hu, ?_⟩
      have hlen := congrArg List.length (step_conserves hI.1.control hu)
      simp only [List.length_append, executed_append] at hlen ⊢
      have hle := hI.2
      omega
    · intro bs n b u hI hb hu
      rw [executed_append, List.length_append, ← Nat.sub_sub]
      exact hI.1.turnsFor_step hu hI.2
  have hle := turnsFor_le (l := l) l.waiting.length
  have hdone : l.waiting.length - (executed as).length = 0 := turnsFor_eq_zero (l := m).mp (by omega)
  refine List.prefix_of_prefix_length_le (List.prefix_append _ (appended as)) ?_ (by omega)
  exact ⟨m.waiting, run_conserves hl.control h⟩

section

end

theorem Quitting.step (hl : l.Quitting) (h : l.step a = some m) : m.Quitting := by
  refine ⟨hl.control.step h, ?_, started_step hl.started h⟩
  rcases EventLoopThread.quit_step h with ⟨t, rfl, hm⟩ | ⟨rfl, hs⟩ | hm
  · exact hm
  · have hstarted := hl.started
    simp [hs, Stage.started] at hstarted
  · rw [hm, hl.quit]

theorem Quitting.spend (hl : l.Quitting) (h : l.step a = some m) :
    m.stage.untilStop + a.isControl.toNat ≤ l.stage.untilStop ∧
      m.stage.pollsLeft + a.isPoll.toNat ≤ l.stage.pollsLeft ∧
      m.stage.swapsLeft + a.isSwap.toNat ≤ l.stage.swapsLeft := by
  have hstarted := hl.started
  cases step_passes h with
  | call _ ha hs =>
    rw [hs]
    cases a <;> simp_all [Act.isTurn, Act.isControl, Act.isPoll, Act.isSwap]
  | enter hs | clearQuit hs => simp [hs, Stage.started] at hstarted
  | goOn hq => simp [hl.quit] at hq
  | pollReturn woken hs ht =>
    have hle := Bool.toNat_le woken
    rw [hs, ht]
    simp only [Stage.untilStop, Stage.pollsLeft, Stage.swapsLeft, Act.isControl, Act.isPoll,
      Act.isSwap, Bool.toNat_true, Bool.toNat_false]
    omega
  | stop _ hs ht | handleRead hs ht | beginCalling hs ht | swap hs ht | beginFunctor _ hs ht
    | endFunctor hs ht | endCalling hs ht =>
    simp [hs, ht, Stage.untilStop, Stage.pollsLeft, Stage.swapsLeft, Act.isControl, Act.isPoll, Act.isSwap]

/-- Once `quit_` is set in a loop that has started, the loop polls and swaps at most once
more and takes at most six turns beside its functors. Until it stops it has a turn to take,
unless it owes a wakeup write, and while it sleeps it is rung. -/
theorem quit_heeded {t : T} {pre : List (Act T F)} (hl : run step (ofThread t) pre = some l)
    (hs : l.stage.started = true) (hq : l.quit_ = true) (h : run step l as = some m) :
    as.countP Act.isPoll ≤ 1 ∧ as.countP Act.isSwap ≤ 1 ∧ as.countP Act.isControl ≤ 6 ∧
      (m.stage ≠ .stopped → m.owes m.threadId_ = false →
        ∃ a n, a.isTurn = true ∧ m.step a = some n) ∧
      (m.stage = .polling → 0 < m.wakeupFd_ ∨ ∃ u, u ≠ m.threadId_ ∧ m.owes u = true) := by
  have hquit : l.Quitting := ⟨(ofThread_control t).run hl, hq, hs⟩
  have hG := (along_true l as : Along step (fun _ _ ↦ True) l as)
  have hI : ∀ (bs : List (Act T F)) (n : EventLoop T F) b u, n.Quitting → True → n.step b = some u →
      u.Quitting := fun _ _ _ _ hn _ hu ↦ hn.step hu
  have hpoll : m.stage.pollsLeft + as.countP Act.isPoll ≤ l.stage.pollsLeft :=
    run_spends (p := []) (I := fun _ n ↦ n.Quitting) (μ := fun _ n ↦ n.stage.pollsLeft) hI
      (fun _ _ _ _ hn _ hu ↦ (hn.spend hu).2.1) hquit hG h
  have hswap : m.stage.swapsLeft + as.countP Act.isSwap ≤ l.stage.swapsLeft :=
    run_spends (p := []) (I := fun _ n ↦ n.Quitting) (μ := fun _ n ↦ n.stage.swapsLeft) hI
      (fun _ _ _ _ hn _ hu ↦ (hn.spend hu).2.2) hquit hG h
  have hctl : m.stage.untilStop + as.countP Act.isControl ≤ l.stage.untilStop :=
    run_spends (p := []) (I := fun _ n ↦ n.Quitting) (μ := fun _ n ↦ n.stage.untilStop) hI
      (fun _ _ _ _ hn _ hu ↦ (hn.spend hu).1) hquit hG h
  have hbounds : l.stage.pollsLeft ≤ 1 ∧ l.stage.swapsLeft ≤ 1 ∧ l.stage.untilStop ≤ 6 := by
    cases l.stage with
    | handling busy | running busy => cases busy <;> decide
    | _ => decide
  have hinv : (m.stage = .polling → m.quit_ = true → m.Rung) ∧ m.Control :=
    run_invariant (I := fun n ↦ (n.stage = .polling → n.quit_ = true → n.Rung) ∧ n.Control)
      (fun _ _ _ hI hu ↦ ⟨rung_of_quit hI.1 hu, hI.2.step hu⟩)
      ⟨(ofThread_armed t).quit, ofThread_control t⟩ (run_append.mpr ⟨l, hl, h⟩)
  have hmq : m.Quitting := run_invariant (fun _ _ _ hI hu ↦ hI.step hu) hquit h
  refine ⟨by omega, by omega, by omega, turn_enabled, fun hp ↦ ?_⟩
  exact (hinv.1 hp hmq.quit).asleep hinv.2 hp

section

def quitAsleep : List (Act ℕ ℕ) := [.enter, .clearQuit, .testQuit, .storeQuit 1, .wakeup 1]

def lastRound : List (Act ℕ ℕ) :=
  [.append 1 7, .pollReturn true, .handleRead, .beginCalling, .swap, .beginFunctor 7, .endFunctor,
    .endCalling, .testQuit]

theorem quit_heeded_asleep : ∃ l m : EventLoop ℕ ℕ,
    run step (ofThread 0) quitAsleep = some l ∧ run step l lastRound = some m ∧ m.stage = .stopped ∧
      lastRound.countP Act.isPoll ≤ 1 := by
  obtain ⟨l, hl, hw⟩ := Option.bind_eq_some_iff.mp
    (show (run step (ofThread 0) quitAsleep).bind (fun l ↦ if l.quit_ = true ∧ l.stage.started = true
      then run step l lastRound else none) = some _ from rfl)
  obtain ⟨⟨hq, hs⟩, hm⟩ := Option.ite_none_right_eq_some.mp hw
  exact ⟨l, _, hl, hm, rfl, (quit_heeded hl hs hq hm).1⟩

end

end EventLoop

end Mymuduo
