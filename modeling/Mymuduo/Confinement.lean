import Mymuduo.ConnectionSystem
import Mymuduo.Frames
import Mymuduo.FunctorQueue

namespace Mymuduo

open Foundation.Machine

variable {T : Type}

namespace Frame

/-- The frames that threads other than the loop's execute. -/
def roams : Frame T → Bool
  | .send _ _ | .shutdown | .setDisconnecting | .queueInLoop _ | .removeConnectionInLoop => true
  | _ => false

variable {e : Site T} {c : TcpConnection} {io : Reply} {f : Frame T}

/-- Away from the loop thread every frame leads to frames of the same kind. -/
theorem exec_roams (he : e.inLoop = false) (hf : f.roams = true) {g : Frame T}
    (hg : g ∈ (f.exec e c io).frames) : g.roams = true := by
  cases exec_next hg with
  | sendAway | shutdown | shutdownAway | removeConnectionInLoop => rfl
  | sendHere _ _ _ hin | shutdownHere hin => simp [he] at hin
  | _ => simp [roams] at hf

theorem exec_queues (he : e.inLoop = true) {cb : Functor T}
    (hg : .queueInLoop cb ∈ (f.exec e c io).frames) :
    f = .removeConnectionInLoop ∧ cb = .connectDestroyed := by
  cases exec_next hg with
  | sendAway _ _ _ hin | shutdownAway hin => simp [he] at hin
  | removeConnectionInLoop => exact ⟨rfl, rfl⟩

theorem exec_removes (hg : .removeConnectionInLoop ∈ (f.exec e c io).frames) : e.inBase = true := by
  cases exec_next hg with
  | closeCallback he => exact he

end Frame

namespace EventLoop

variable [DecidableEq T] {F : Type} [DecidableEq F] {l m : EventLoop T F} {a : Act T F}

theorem step_waiting (hc : l.Control) (h : l.step a = some m) :
    (∃ t cb, a = .append t cb ∧ m.waiting = l.waiting ++ [cb]) ∨
      (∃ cb, a = .beginFunctor cb ∧ l.waiting = cb :: m.waiting) ∨
      (a.onQueue = false ∨ a = .swap) ∧ m.waiting = l.waiting := by
  cases step_queue h with
  | append t cb hf hp => exact Or.inl ⟨t, cb, rfl, by simp [waiting, hf, hp]⟩
  | beginFunctor cb hf hp => exact Or.inr (Or.inl ⟨cb, rfl, by simp [waiting, hf, hp]⟩)
  | swap hs hf hp =>
    exact Or.inr (Or.inr ⟨Or.inr rfl, by simp [waiting, hf, hp, hc.vector_eq_nil hs]⟩)
  | other a ha hf hp => exact Or.inr (Or.inr ⟨Or.inl ha, by simp [waiting, hf, hp]⟩)

end EventLoop

namespace System

variable [DecidableEq T] {s s' : System T} {a : Act T}

inductive Flow (s : System T) (a : Act T) (s' : System T) : Prop
  | exec (t : T) (io : Reply) (f : Frame T) (fs : List (Frame T))
      (hst : s.stack t = f :: fs) (hio : f.Accepts (s.site t) s.conn io)
      (hst' : s'.stack = Function.update s.stack t ((f.exec (s.site t) s.conn io).frames ++ fs))
      (hq : s'.loop.waiting = s.loop.waiting ++ (f.exec (s.site t) s.conn io).queued.toList)
      (hconn : s'.conn = (f.exec (s.site t) s.conn io).conn)
      (htr : s'.trace = s.trace ++ (f.exec (s.site t) s.conn io).obs)
      (hserver : s'.created = s.created ∧
        s'.connections_ = (s.connections_ && !(f.exec (s.site t) s.conn io).erased) ∧
        s'.removals = s.removals + (f.exec (s.site t) s.conn io).posted.toNat)
      (hready : s'.ready = s.ready) (hact : a = .exec t io)
  | enter (t : T) (f : Frame T) (hu : s.inUserCode t = true) (he : Entry s a t f s')
  | begin (cb : Functor T) (hst : s.stack s.loop.threadId_ = [])
      (hst' : s'.stack = Function.update s.stack s.loop.threadId_ [.functor cb])
      (hq : s.loop.waiting = cb :: s'.loop.waiting) (hconn : s'.conn = s.conn)
      (htr : s'.trace = s.trace) (hserver : s'.created = s.created ∧
        s'.connections_ = s.connections_ ∧ s'.removals = s.removals) (hready : s'.ready = s.ready)
  | idle (q : List (Functor T)) (hf : ∀ cb ∈ q, cb.isForeign = true) (hst' : s'.stack = s.stack)
      (hq : s'.loop.waiting = s.loop.waiting ++ q)
      (hconn : ∃ b, s'.conn = { s.conn with inputBuffer_ := b }) (htr : s'.trace = s.trace)
      (hserver : s'.created = s.created ∧ s'.connections_ = s.connections_ ∧ s'.removals = s.removals)
      (hready : s'.ready = s.ready ∨ s.loop.stage = .polling ∧
        (s'.ready = none ∨ s.conn.reg.isRegistered = true))

theorem Step.flow (hc : s.loop.Control) (h : Step s a s') : Flow s a s' := by
  cases h with
  | @exec t io f fs l hst ho hio hl =>
    obtain ⟨hf, hp, -⟩ := enqueue_eq hl
    refine .exec t io f fs hst hio rfl ?_ rfl rfl ⟨rfl, rfl, rfl⟩ rfl rfl
    simp [commit, EventLoop.waiting, hf, hp]
  | enter hu he => exact .enter _ _ hu he
  | assign | retrieve =>
    exact .idle [] (by simp) rfl (by simp) ⟨_, rfl⟩ rfl ⟨rfl, rfl, rfl⟩ (Or.inl rfl)
  | poll hr hl =>
    obtain ⟨⟨⟨hstage, -⟩, -⟩, rfl⟩ := EventLoop.step_pollReturn.mp hl
    exact .idle [] (by simp) rfl (by simp [EventLoop.waiting]) ⟨_, rfl⟩ rfl ⟨rfl, rfl, rfl⟩
      (Or.inr ⟨hstage, hr⟩)
  | @loop b l ha hl =>
    rcases EventLoop.step_waiting hc hl with ⟨t, cb, rfl, hw⟩ | ⟨cb, rfl, hw⟩ | ⟨hb, hw⟩
    · have hcb : cb.isForeign = true := by
        simp only [allows, Bool.and_eq_true] at ha
        exact ha.2
      exact .idle [cb] (by simpa using hcb) rfl hw ⟨_, rfl⟩ rfl ⟨rfl, rfl, rfl⟩ (Or.inl rfl)
    · have hst : s.stack s.loop.threadId_ = [] := by simpa [allows] using ha
      exact .begin cb hst rfl hw rfl rfl ⟨rfl, rfl, rfl⟩ rfl
    · have hst' : s.entered b = s.stack := by
        rcases hb with hb | rfl
        · cases b <;> simp_all [EventLoop.Act.onQueue, entered]
        · rfl
      exact .idle [] (by simp) hst' (by simpa using hw) ⟨_, rfl⟩ rfl ⟨rfl, rfl, rfl⟩ (Or.inl rfl)

def Confined (s : System T) : Prop :=
  ∀ t, t ≠ s.loop.threadId_ → ∀ f ∈ s.stack t, f.roams = true

theorem Confined.of_not_roams (hcf : s.Confined) {t : T} {f : Frame T} (hf : f ∈ s.stack t)
    (hroam : f.roams = false) : t = s.loop.threadId_ := by
  by_contra ht
  simp [hcf t ht f hf] at hroam

theorem site_inLoop {t : T} (ht : t ≠ s.loop.threadId_) : (s.site t).inLoop = false := by
  simpa [site] using ht

theorem Entry.roams {t : T} {f : Frame T} (he : Entry s a t f s') (ht : t ≠ s.loop.threadId_) :
    f.roams = true := by
  cases he with
  | newConnection | destroyServer => simp [Frame.runInLoop, site_inLoop ht, Frame.roams]
  | handleEvent => exact absurd rfl ht
  | send | shutdown | removeConnectionInLoop => rfl

theorem Confined.step (hs : s.Confined) (hc : s.loop.Control) (h : Step s a s') : s'.Confined := by
  intro u hu
  rw [h.threadId_eq] at hu
  cases h.flow hc with
  | exec t io f fs hst hio hst' =>
    rw [hst']
    by_cases hut : u = t
    · subst hut
      have hold := hs u hu
      rw [hst] at hold
      rw [Function.update_self]
      intro g hg
      rcases List.mem_append.mp hg with hg | hg
      · exact Frame.exec_roams (site_inLoop hu) (hold f List.mem_cons_self) hg
      · exact hold g (List.mem_cons_of_mem f hg)
    · rw [Function.update_of_ne hut]
      exact hs u hu
  | enter t f hut he =>
    rw [he.stack_eq]
    by_cases hut : u = t
    · subst hut
      rw [Function.update_self, List.forall_mem_cons]
      exact ⟨he.roams hu, hs u hu⟩
    · rw [Function.update_of_ne hut]
      exact hs u hu
  | begin cb hst hst' =>
    rw [hst', Function.update_of_ne hu]
    exact hs u hu
  | idle q hf hst' =>
    rw [hst']
    exact hs u hu

end System

end Mymuduo
