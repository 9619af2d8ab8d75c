import Mymuduo.Foundation.Fifo
import Mymuduo.EventLoop

namespace Mymuduo.EventLoop

open Foundation Foundation.Machine

variable {T F : Type} {l m : EventLoop T F} {a : Act T F} {as bs : List (Act T F)}

/-- The functors appended to `pendingFunctors_`, in order. -/
def appended (as : List (Act T F)) : List F :=
  as.filterMap fun | .append _ cb => some cb | _ => none

def executed (as : List (Act T F)) : List F :=
  as.filterMap fun | .beginFunctor cb => some cb | _ => none

theorem appended_append (as bs : List (Act T F)) : appended (as ++ bs) = appended as ++ appended bs :=
  List.filterMap_append

theorem executed_append (as bs : List (Act T F)) : executed (as ++ bs) = executed as ++ executed bs :=
  List.filterMap_append

def toFifo : Act T F → List (Fifo.Op F)
  | .append _ cb => [.push cb]
  | .beginFunctor cb => [.pop cb]
  | _ => []

/-- What the loop still has to execute: the batch first, then the queue. -/
def waiting (l : EventLoop T F) : List F := l.functors ++ l.pendingFunctors_

theorem pushed_toFifo (as : List (Act T F)) : Fifo.pushed (as.flatMap toFifo) = appended as := by
  induction as with
  | nil => rfl
  | cons a as ih =>
    have happ := appended_append [a] as
    rw [List.singleton_append] at happ
    rw [List.flatMap_cons, Fifo.pushed_append, ih, happ]
    cases a <;> rfl

theorem popped_toFifo (as : List (Act T F)) : Fifo.popped (as.flatMap toFifo) = executed as := by
  induction as with
  | nil => rfl
  | cons a as ih =>
    have hex := executed_append [a] as
    rw [List.singleton_append] at hex
    rw [List.flatMap_cons, Fifo.popped_append, ih, hex]
    cases a <;> rfl

theorem toFifo_of_not_onQueue (ha : a.onQueue = false) : toFifo a = [] := by
  cases a <;> simp_all [Act.onQueue, toFifo]

variable [DecidableEq T] [DecidableEq F]

/-- The queue swapped out and run in batches is a first-in first-out queue. -/
theorem step_toFifo (hc : l.Control) (h : l.step a = some m) :
    run Fifo.step l.waiting (toFifo a) = some m.waiting := by
  cases step_queue h with
  | append t cb hf hp => simp [toFifo, run, Fifo.step, waiting, hf, hp]
  | beginFunctor cb hf hp => simp [toFifo, run, Fifo.step, waiting, hf, hp]
  | swap hs hf hp => simp [toFifo, waiting, hf, hp, hc.vector_eq_nil hs]
  | other a ha hf hp => simp [toFifo_of_not_onQueue ha, waiting, hf, hp]

theorem run_conserves (hc : l.Control) (h : run step l as = some m) :
    executed as ++ m.waiting = l.waiting ++ appended as := by
  have hsim := run_simulation waiting toFifo
    (fun _ _ _ hI hs ↦ hI.step hs) (fun _ _ _ hI hs ↦ step_toFifo hI hs) hc h
  rw [← pushed_toFifo, ← popped_toFifo]
  exact Fifo.run_conserves hsim

theorem step_conserves (hc : l.Control) (h : l.step a = some m) :
    executed [a] ++ m.waiting = l.waiting ++ appended [a] :=
  run_conserves hc (run_cons.mpr ⟨m, h, rfl⟩)

theorem mem_waiting_step (hc : l.Control) (h : l.step a = some m) {f : F} (hf : f ∈ m.waiting) :
    f ∈ l.waiting ∨ f ∈ appended [a] := by
  have hmem : f ∈ executed [a] ++ m.waiting := List.mem_append_right _ hf
  rw [step_conserves hc h] at hmem
  exact List.mem_append.mp hmem

theorem step_batch (ha : a ≠ .swap) (h : l.step a = some m) :
    executed [a] ++ m.functors = l.functors := by
  cases step_queue h with
  | append t cb hf hp => exact hf
  | beginFunctor cb hf hp => exact hf.symm
  | swap hs hf hp => exact absurd rfl ha
  | other a ha hf hp =>
    have hex : executed [a] = [] := by cases a <;> simp_all [Act.onQueue, executed]
    rw [hex, List.nil_append, hf]

theorem run_batch (hs : .swap ∉ as) (h : run step l as = some m) :
    executed as ++ m.functors = l.functors := by
  induction as generalizing l with
  | nil =>
    obtain rfl : l = m := by simpa using h
    rfl
  | cons a as ih =>
    obtain ⟨n, hn, hm⟩ := run_cons.mp h
    have hne : a ≠ .swap := fun he ↦ hs (he ▸ List.mem_cons_self)
    have hex := executed_append [a] as
    rw [List.singleton_append] at hex
    rw [hex, List.append_assoc, ih (fun hin ↦ hs (List.mem_cons_of_mem a hin)) hm,
      step_batch hne hn]

theorem run_batch_ended (hs : .swap ∉ as) (he : .endCalling ∈ as)
    (h : run step l as = some m) : m.functors = [] := by
  obtain ⟨x, y, rfl⟩ := List.append_of_mem he
  obtain ⟨n, -, hr⟩ := run_append.mp h
  obtain ⟨u, hu, hy⟩ := run_cons.mp hr
  obtain ⟨⟨-, hf⟩, rfl⟩ := step_endCalling.mp hu
  have hsy : .swap ∉ y := fun hin ↦
    hs (List.mem_append_right x (List.mem_cons_of_mem _ hin))
  have hb := run_batch hsy hy
  rw [show ({ n with callingPendingFunctors_ := false, stage := .testing } :
    EventLoop T F).functors = n.functors from rfl, hf] at hb
  exact (List.append_eq_nil_iff.mp hb).2

/-- What has been executed is a prefix of what was appended. From one swap to
the next exactly the functors present at the swap are executed, and nothing
that was appended later. -/
theorem functors_in_order {t : T} (h : run step (ofThread t) as = some m) :
    executed as <+: appended as ∧
    ∀ pre mid, as = pre ++ .swap :: mid → .swap ∉ mid →
      ∃ l : EventLoop T F, run step (ofThread t) pre = some l ∧
        appended pre = executed pre ++ l.pendingFunctors_ ∧
        executed mid <+: l.pendingFunctors_ ∧
        (.endCalling ∈ mid → executed mid = l.pendingFunctors_) ∧
        executed as <+: appended pre := by
  have hcons : ∀ {bs : List (Act T F)} {n : EventLoop T F},
      run step (ofThread t) bs = some n → executed bs ++ n.waiting = appended bs := by
    intro bs n hn
    simpa [waiting, ofThread] using run_conserves (ofThread_control t) hn
  refine ⟨⟨m.waiting, hcons h⟩, ?_⟩
  rintro pre mid rfl hmid
  obtain ⟨l, hl, hr⟩ := run_append.mp h
  obtain ⟨n, hn, hm⟩ := run_cons.mp hr
  obtain ⟨⟨hs, -⟩, rfl⟩ := step_swap.mp hn
  have hv := ((ofThread_control t).run hl).vector_eq_nil hs
  have hpre : appended pre = executed pre ++ l.pendingFunctors_ := by
    rw [← hcons hl, waiting, hv, List.nil_append]
  have hbatch : executed mid ++ m.functors = l.pendingFunctors_ := run_batch hmid hm
  refine ⟨l, hl, hpre, ⟨m.functors, hbatch⟩, fun he ↦ ?_, ⟨m.functors, ?_⟩⟩
  · rw [← hbatch, run_batch_ended hmid he hm, List.append_nil]
  · have hmid' : executed (.swap :: mid) = executed mid := rfl
    rw [executed_append, hmid', List.append_assoc, hbatch, hpre]

section

def requeueing : List (Act ℕ ℕ) :=
  [.append 1 7, .wakeup 1, .enter, .clearQuit, .testQuit, .pollReturn true, .handleRead,
    .beginCalling, .swap, .beginFunctor 7, .append 0 7, .wakeup 0, .endFunctor, .endCalling]

theorem functors_in_order_requeueing :
    executed requeueing = [7] ∧ appended requeueing = [7, 7] ∧
      executed requeueing <+: appended requeueing :=
  ⟨rfl, rfl, (functors_in_order (show run step (ofThread 0) requeueing = some _ from rfl)).1⟩

end

end Mymuduo.EventLoop
