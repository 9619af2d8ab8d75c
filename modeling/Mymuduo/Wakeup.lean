import Mymuduo.EventLoop

namespace Mymuduo

open Foundation.Machine EventLoop

/-- Outside these stages the next thing the loop thread does with its queue is
to take it, whether or not somebody rang. -/
def Stage.mustHear : Stage → Bool
  | .handling _ | .calling => false
  | _ => true

def Stage.started : Stage → Bool
  | .constructed | .entered => false
  | _ => true

namespace EventLoop

variable {T F : Type} {l m : EventLoop T F}

/-- The wakeup descriptor is readable, or some thread is about to write it. -/
def Rung (l : EventLoop T F) : Prop := 0 < l.wakeupFd_ ∨ ∃ t, l.owes t = true

structure Armed (l : EventLoop T F) : Prop where
  queue : l.stage.mustHear = true → l.pendingFunctors_ ≠ [] → l.Rung
  quit : l.stage = .polling → l.quit_ = true → l.Rung

theorem ofThread_armed (t : T) : (ofThread t : EventLoop T F).Armed :=
  ⟨fun _ hne ↦ absurd rfl hne, fun hs ↦ by simp [ofThread] at hs⟩

/-- The loop's own thread does not queue anything before it calls `loop()`. -/
def QueuesInside (l : EventLoop T F) (a : Act T F) : Prop :=
  ∀ cb, a = .append l.threadId_ cb → l.stage ≠ .constructed

theorem Armed.move (ha : l.Armed) (hs : m.stage.mustHear = true → l.stage.mustHear = true)
    (hp : m.pendingFunctors_ = l.pendingFunctors_) (hw : m.wakeupFd_ = l.wakeupFd_)
    (ho : m.owes = l.owes) (hq : m.stage = .polling → m.quit_ = false) : m.Armed := by
  constructor
  · intro hm hne
    have hr := ha.queue (hs hm) (hp ▸ hne)
    rwa [Rung, hw, ho]
  · intro hm hne
    rw [hq hm] at hne
    simp at hne

theorem Rung.asleep (hr : l.Rung) (hc : l.Control) (hp : l.stage = .polling) :
    0 < l.wakeupFd_ ∨ ∃ t, t ≠ l.threadId_ ∧ l.owes t = true := by
  rcases hr with hr | ⟨t, ht⟩
  · exact Or.inl hr
  · refine Or.inr ⟨t, fun he ↦ ?_, ht⟩
    have hrun := hc.owing (he ▸ ht)
    simp [hp] at hrun

variable [DecidableEq T]

theorem Rung.update {t : T} {b : Bool} (h : l.Rung) (ht : l.owes t = false)
    (hw : m.wakeupFd_ = l.wakeupFd_) (ho : m.owes = Function.update l.owes t b) : m.Rung := by
  rcases h with h | ⟨u, hu⟩
  · exact Or.inl (hw ▸ h)
  · refine Or.inr ⟨u, ?_⟩
    have hne : u ≠ t := fun he ↦ by simp [he, ht] at hu
    rw [ho, Function.update_of_ne hne, hu]

theorem rung_wakeup (t : T) : (l.wakeup t).Rung :=
  Or.inl (Nat.lt_min.mpr ⟨Nat.succ_pos _, by decide⟩)

theorem Armed.append {t : T} {cb : F} (ha : l.Armed) (hc : l.Control) (ht : l.owes t = false)
    (hu : t = l.threadId_ → l.stage.userCode = true) (hg : t = l.threadId_ → l.stage ≠ .constructed) :
    (l.queueInLoop t cb).Armed := by
  have hkeep : l.Rung → (l.queueInLoop t cb).Rung := fun h ↦ h.update ht rfl rfl
  refine ⟨fun hm _ ↦ ?_, fun hs hq ↦ hkeep (ha.quit hs hq)⟩
  by_cases he : t = l.threadId_
  · have hb : l.callingPendingFunctors_ = true := by
      rw [hc.calling]
      have hcode := hu he
      have hcons := hg he
      change l.stage.mustHear = true at hm
      cases hs : l.stage <;> simp_all [Stage.mustHear, Stage.userCode, Stage.inBatch]
    exact Or.inr ⟨t, by simp [queueInLoop, hb]⟩
  · exact Or.inr ⟨t, by simp [queueInLoop, isInLoopThread, he]⟩

variable [DecidableEq F]

/-- Whoever quits a sleeping loop is to ring it. -/
theorem rung_of_quit {a : Act T F} (hl : l.stage = .polling → l.quit_ = true → l.Rung)
    (h : l.step a = some m) (hp : m.stage = .polling) (hq : m.quit_ = true) : m.Rung := by
  cases a with
  | append t cb =>
    obtain ⟨⟨ht, -⟩, rfl⟩ := step_append.mp h
    exact (hl hp hq).update ht rfl rfl
  | storeQuit t =>
    obtain ⟨⟨-, hu⟩, rfl⟩ := step_storeQuit.mp h
    have he : t ≠ l.threadId_ := by
      intro he
      have hcode := hu he
      change l.stage = .polling at hp
      simp [hp, Stage.userCode] at hcode
    exact Or.inr ⟨t, by simp [EventLoop.quit, isInLoopThread, he]⟩
  | wakeup t => obtain ⟨-, rfl⟩ := step_wakeup.mp h; exact rung_wakeup t
  | enter => obtain ⟨-, rfl⟩ := step_enter.mp h; simp at hp
  | clearQuit => obtain ⟨-, rfl⟩ := step_clearQuit.mp h; simp at hp
  | testQuit =>
    obtain ⟨-, ⟨-, rfl⟩ | ⟨hquit, rfl⟩⟩ := step_testQuit.mp h
    · simp at hp
    · exact absurd (hquit.symm.trans hq) (by decide)
  | pollReturn woken => obtain ⟨-, rfl⟩ := step_pollReturn.mp h; simp at hp
  | handleRead => obtain ⟨-, rfl⟩ := step_handleRead.mp h; simp at hp
  | beginCalling => obtain ⟨-, rfl⟩ := step_beginCalling.mp h; simp at hp
  | swap => obtain ⟨-, rfl⟩ := step_swap.mp h; simp at hp
  | beginFunctor cb => obtain ⟨-, rfl⟩ := step_beginFunctor.mp h; simp at hp
  | endFunctor => obtain ⟨-, rfl⟩ := step_endFunctor.mp h; simp at hp
  | endCalling => obtain ⟨-, rfl⟩ := step_endCalling.mp h; simp at hp

theorem Armed.step {a : Act T F} (ha : l.Armed) (hc : l.Control) (hg : l.QueuesInside a)
    (h : l.step a = some m) : m.Armed := by
  cases a with
  | append t cb =>
    obtain ⟨⟨ht, hu⟩, rfl⟩ := step_append.mp h
    exact ha.append hc ht hu (fun he ↦ hg cb (by rw [he]))
  | storeQuit t =>
    refine ⟨?_, rung_of_quit ha.quit h⟩
    obtain ⟨⟨ht, -⟩, rfl⟩ := step_storeQuit.mp h
    exact fun hm hne ↦ (ha.queue hm hne).update ht rfl rfl
  | wakeup t =>
    obtain ⟨-, rfl⟩ := step_wakeup.mp h
    exact ⟨fun _ _ ↦ rung_wakeup t, fun _ _ ↦ rung_wakeup t⟩
  | enter =>
    obtain ⟨⟨hs, -⟩, rfl⟩ := step_enter.mp h
    exact ha.move (fun _ ↦ by rw [hs]; rfl) rfl rfl rfl (by simp)
  | clearQuit =>
    obtain ⟨⟨hs, -⟩, rfl⟩ := step_clearQuit.mp h
    exact ha.move (fun _ ↦ by rw [hs]; rfl) rfl rfl rfl (by simp)
  | testQuit =>
    obtain ⟨⟨hs, -⟩, ⟨-, rfl⟩ | ⟨hq, rfl⟩⟩ := step_testQuit.mp h
    · exact ha.move (fun _ ↦ by rw [hs]; rfl) rfl rfl rfl (by simp)
    · exact ha.move (fun _ ↦ by rw [hs]; rfl) rfl rfl rfl (fun _ ↦ hq)
  | pollReturn woken =>
    obtain ⟨-, rfl⟩ := step_pollReturn.mp h
    exact ha.move (by simp [Stage.mustHear]) rfl rfl rfl (by simp)
  | handleRead =>
    obtain ⟨-, rfl⟩ := step_handleRead.mp h
    exact ⟨by simp [Stage.mustHear], by simp⟩
  | beginCalling =>
    obtain ⟨-, rfl⟩ := step_beginCalling.mp h
    exact ha.move (by simp [Stage.mustHear]) rfl rfl rfl (by simp)
  | swap =>
    obtain ⟨⟨hs, -⟩, rfl⟩ := step_swap.mp h
    refine ⟨fun _ hne ↦ ?_, by simp⟩
    obtain ⟨b, hb⟩ := hc.vector hne
    simp [hs] at hb
  | beginFunctor cb =>
    obtain ⟨⟨⟨hs, -⟩, -⟩, rfl⟩ := step_beginFunctor.mp h
    exact ha.move (fun _ ↦ by rw [hs]; rfl) rfl rfl rfl (by simp)
  | endFunctor =>
    obtain ⟨⟨hs, -⟩, rfl⟩ := step_endFunctor.mp h
    exact ha.move (fun _ ↦ by rw [hs]; rfl) rfl rfl rfl (by simp)
  | endCalling =>
    obtain ⟨⟨⟨hs, -⟩, -⟩, rfl⟩ := step_endCalling.mp h
    exact ha.move (fun _ ↦ by rw [hs]; rfl) rfl rfl rfl (by simp)

theorem started_step {a : Act T F} (hl : l.stage.started = true) (h : l.step a = some m) :
    m.stage.started = true := by
  cases a with
  | append t cb => obtain ⟨-, rfl⟩ := step_append.mp h; exact hl
  | storeQuit t => obtain ⟨-, rfl⟩ := step_storeQuit.mp h; exact hl
  | wakeup t => obtain ⟨-, rfl⟩ := step_wakeup.mp h; exact hl
  | enter =>
    obtain ⟨⟨hs, -⟩, -⟩ := step_enter.mp h
    simp [hs, Stage.started] at hl
  | clearQuit => obtain ⟨-, rfl⟩ := step_clearQuit.mp h; rfl
  | testQuit => obtain ⟨-, ⟨-, rfl⟩ | ⟨-, rfl⟩⟩ := step_testQuit.mp h <;> rfl
  | pollReturn woken => obtain ⟨-, rfl⟩ := step_pollReturn.mp h; rfl
  | handleRead => obtain ⟨-, rfl⟩ := step_handleRead.mp h; rfl
  | beginCalling => obtain ⟨-, rfl⟩ := step_beginCalling.mp h; rfl
  | swap => obtain ⟨-, rfl⟩ := step_swap.mp h; rfl
  | beginFunctor cb => obtain ⟨-, rfl⟩ := step_beginFunctor.mp h; rfl
  | endFunctor => obtain ⟨-, rfl⟩ := step_endFunctor.mp h; rfl
  | endCalling => obtain ⟨-, rfl⟩ := step_endCalling.mp h; rfl

/-- `loop()` has just set `quit_` to false, and nothing is queued. -/
structure AtLoopStart (l : EventLoop T F) : Prop where
  stage : l.stage = .testing
  quit : l.quit_ = false
  pending : l.pendingFunctors_ = []
  vector : l.functors = []
  calling : l.callingPendingFunctors_ = false
  owing : l.owes l.threadId_ = false

/-- A loop asleep in `epoll_wait` with something to do is rung, or another
thread is on its way to ring it. -/
theorem no_lost_wakeup {as : List (Act T F)} (hl : l.AtLoopStart) (h : run step l as = some m)
    (hp : m.stage = .polling) (hw : m.pendingFunctors_ ≠ [] ∨ m.quit_ = true) :
    0 < m.wakeupFd_ ∨ ∃ t, t ≠ m.threadId_ ∧ m.owes t = true := by
  have hinv : m.Armed ∧ m.Control ∧ m.stage.started = true := by
    refine run_invariant (I := fun n ↦ n.Armed ∧ n.Control ∧ n.stage.started = true) ?_ ?_ h
    · rintro n a u ⟨ha, hc, hs⟩ hu
      refine ⟨ha.step hc (fun cb _ he ↦ ?_) hu, hc.step hu, started_step hs hu⟩
      simp [he, Stage.started] at hs
    · refine ⟨⟨fun _ hne ↦ absurd hl.pending hne, fun _ hq ↦ by simp [hl.quit] at hq⟩,
        ⟨?_, fun ho ↦ ?_, fun hv ↦ absurd hl.vector hv⟩, ?_⟩
      · rw [hl.calling, hl.stage]
        rfl
      · simp [hl.owing] at ho
      · rw [hl.stage]
        rfl
  obtain ⟨ha, hc, -⟩ := hinv
  exact (hw.elim (ha.queue (by rw [hp]; rfl)) (ha.quit hp)).asleep hc hp

theorem no_lost_wakeup_asleep :
    ∃ m : EventLoop ℕ ℕ,
      run step { ofThread 0 with stage := .testing } [.testQuit, .append 1 7] = some m ∧
      m.stage = .polling ∧ (0 < m.wakeupFd_ ∨ ∃ t, t ≠ m.threadId_ ∧ m.owes t = true) :=
  ⟨_, rfl, rfl, no_lost_wakeup ⟨rfl, rfl, rfl, rfl, rfl, rfl⟩
    (show run step { ofThread 0 with stage := .testing } [.testQuit, .append 1 7] = some _ from rfl)
    rfl (Or.inl (List.cons_ne_nil 7 []))⟩

end EventLoop

end Mymuduo
