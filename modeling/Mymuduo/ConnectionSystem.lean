import Mymuduo.EventLoop
import Mymuduo.Execution

namespace Mymuduo

open Foundation.Machine

def passedCalls {T : Type} (tr : List (Obs T)) : List (Call T) :=
  tr.filterMap fun | .passed m _ => some m | _ => none

def Functor.isForeign {T : Type} : Functor T → Bool
  | .foreign _ => true
  | _ => false

/-- One connection, its loop, the server's view of it and any number of threads.
`ready` holds the events of the connection's channel in `activeChannels_`, `mem t`
the memory that thread `t` owns, and `removals` the calls of
`removeConnectionInLoop` that wait in the server's loop. -/
structure System (T : Type) where
  loop : EventLoop T (Functor T)
  base : T
  conn : TcpConnection
  created : Bool
  connections_ : Bool
  removals : ℕ
  ready : Option (BitVec 32)
  mem : T → ℕ → Byte
  stack : T → List (Frame T)
  trace : List (Obs T)

namespace System

/-- `release` ends the life of the string at `data`, and `bytes` is what is found there
after that; `poll` returns with the events of the connection's channel, if it has any;
`loop` is a step of the loop, or a call on it, that has nothing to do with the
connection. -/
inductive Act (T : Type)
  | exec (t : T) (io : Reply)
  | send (t : T) (data len : ℕ)
  | shutdown (t : T)
  | assign (t : T) (data : ℕ) (bytes : List Byte)
  | release (t : T) (data : ℕ) (bytes : List Byte)
  | retrieve (len : ℕ)
  | newConnection
  | destroyServer
  | removeConnectionInLoop
  | poll (woken : Bool) (revents : Option (BitVec 32))
  | handleEvent
  | loop (a : EventLoop.Act T (Functor T))

variable {T : Type}

def ofConnection (threadId base : T) (c : TcpConnection) (mem : T → ℕ → Byte) : System T :=
  { loop := .ofThread threadId, base, conn := c, created := false, connections_ := false
    removals := 0, ready := none, mem, stack := fun _ ↦ [], trace := [] }

variable [DecidableEq T] (s : System T)

def site (t : T) : Site T :=
  ⟨t, t = s.loop.threadId_, t = s.base, (passedCalls s.trace).length, s.mem⟩

/-- Thread `t` is in code of the user, where it may call the connection. -/
def inUserCode (t : T) : Bool :=
  !s.loop.owes t &&
    match s.stack t with
    | [] => t ≠ s.loop.threadId_ || s.loop.stage.userCode
    | .userCode :: _ => true
    | _ => false

def push (t : T) (f : Frame T) : System T :=
  { s with stack := Function.update s.stack t (f :: s.stack t) }

def observe (o : List (Obs T)) : System T := { s with trace := s.trace ++ o }

def enqueue (t : T) : Option (Functor T) → Option (EventLoop T (Functor T))
  | none => some s.loop
  | some f => s.loop.step (.append t f)

def commit (t : T) (fs : List (Frame T)) (o : Outcome T) (l : EventLoop T (Functor T)) : System T :=
  { s with
    loop := l, conn := o.conn, connections_ := s.connections_ && !o.erased
    removals := s.removals + o.posted.toNat
    stack := Function.update s.stack t (o.frames ++ fs), trace := s.trace ++ o.obs }

def assignCells (cells : ℕ → Byte) (data : ℕ) (bytes : List Byte) : ℕ → Byte :=
  fun i ↦ if data ≤ i then bytes.getD (i - data) (cells i) else cells i

def entered : EventLoop.Act T (Functor T) → T → List (Frame T)
  | .beginFunctor cb => Function.update s.stack s.loop.threadId_ [.functor cb]
  | _ => s.stack

def allows : EventLoop.Act T (Functor T) → Bool
  | .append t cb => s.inUserCode t && cb.isForeign
  | .storeQuit t => s.inUserCode t
  | .wakeup _ => true
  | .pollReturn _ => false
  | .beginCalling => s.ready.isNone && (s.stack s.loop.threadId_).isEmpty
  | _ => (s.stack s.loop.threadId_).isEmpty

def step (s : System T) : Act T → Option (System T)
  | .exec t io =>
    match s.stack t with
    | [] => none
    | f :: fs =>
      if s.loop.owes t = false ∧ f.Accepts (s.site t) s.conn io then
        let o := f.exec (s.site t) s.conn io
        (s.enqueue t o.queued).map (s.commit t fs o)
      else none
  | .send t data len => if s.inUserCode t then some (s.push t (.send data len)) else none
  | .shutdown t =>
    if s.inUserCode t then some ((s.push t .shutdown).observe [.shutdownCalled t]) else none
  | .assign t data bytes | .release t data bytes =>
    if s.inUserCode t then
      some { s with mem := Function.update s.mem t (assignCells (s.mem t) data bytes) }
    else none
  | .retrieve len =>
    if s.inUserCode s.loop.threadId_ then
      some { s with conn := { s.conn with inputBuffer_ := s.conn.inputBuffer_.retrieve len } }
    else none
  | .newConnection =>
    if !s.created && s.inUserCode s.base then
      some { s.push s.base (.runInLoop (s.site s.base) .connectEstablished) with
        created := true, connections_ := true }
    else none
  | .destroyServer =>
    if s.connections_ && s.inUserCode s.base then
      some { s.push s.base (.runInLoop (s.site s.base) .connectDestroyed) with connections_ := false }
    else none
  | .removeConnectionInLoop =>
    if 0 < s.removals && s.inUserCode s.base then
      some { s.push s.base .removeConnectionInLoop with removals := s.removals - 1 }
    else none
  | .poll woken revents =>
    if revents.isNone || s.conn.reg.isRegistered then
      (s.loop.step (.pollReturn woken)).map fun l ↦ { s with loop := l, ready := revents }
    else none
  | .handleEvent =>
    match s.ready, s.loop.stage with
    | some revents, .handling _ =>
      if s.inUserCode s.loop.threadId_ && (s.stack s.loop.threadId_).isEmpty then
        some { s.push s.loop.threadId_ (.handleEvent revents) with ready := none }
      else none
    | _, _ => none
  | .loop a =>
    if s.allows a then (s.loop.step a).map fun l ↦ { s with loop := l, stack := s.entered a }
    else none

variable {s} {s' : System T} {a : Act T}

inductive Entry (s : System T) : Act T → T → Frame T → System T → Prop
  | send (t : T) (data len : ℕ) :
      Entry s (.send t data len) t (.send data len) (s.push t (.send data len))
  | shutdown (t : T) :
      Entry s (.shutdown t) t .shutdown ((s.push t .shutdown).observe [.shutdownCalled t])
  | newConnection (hc : s.created = false) :
      Entry s .newConnection s.base (.runInLoop (s.site s.base) .connectEstablished)
        { s.push s.base (.runInLoop (s.site s.base) .connectEstablished) with
          created := true, connections_ := true }
  | destroyServer (hc : s.connections_ = true) :
      Entry s .destroyServer s.base (.runInLoop (s.site s.base) .connectDestroyed)
        { s.push s.base (.runInLoop (s.site s.base) .connectDestroyed) with connections_ := false }
  | removeConnectionInLoop (hr : 0 < s.removals) :
      Entry s .removeConnectionInLoop s.base .removeConnectionInLoop
        { s.push s.base .removeConnectionInLoop with removals := s.removals - 1 }
  | handleEvent (revents : BitVec 32) (hr : s.ready = some revents)
      (hst : s.stack s.loop.threadId_ = []) :
      Entry s .handleEvent s.loop.threadId_ (.handleEvent revents)
        { s.push s.loop.threadId_ (.handleEvent revents) with ready := none }

inductive Step (s : System T) : Act T → System T → Prop
  | exec {t : T} {io : Reply} {f : Frame T} {fs : List (Frame T)} {l : EventLoop T (Functor T)}
      (hst : s.stack t = f :: fs) (ho : s.loop.owes t = false)
      (hio : f.Accepts (s.site t) s.conn io)
      (hl : s.enqueue t (f.exec (s.site t) s.conn io).queued = some l) :
      Step s (.exec t io) (s.commit t fs (f.exec (s.site t) s.conn io) l)
  | enter {a : Act T} {t : T} {f : Frame T} {s' : System T} (hu : s.inUserCode t = true)
      (he : Entry s a t f s') : Step s a s'
  | assign {a : Act T} {t : T} {data : ℕ} {bytes : List Byte} (hu : s.inUserCode t = true)
      (ha : a = .assign t data bytes ∨ a = .release t data bytes) :
      Step s a { s with mem := Function.update s.mem t (assignCells (s.mem t) data bytes) }
  | retrieve {len : ℕ} (hu : s.inUserCode s.loop.threadId_ = true) :
      Step s (.retrieve len)
        { s with conn := { s.conn with inputBuffer_ := s.conn.inputBuffer_.retrieve len } }
  | poll {woken : Bool} {revents : Option (BitVec 32)} {l : EventLoop T (Functor T)}
      (hr : revents = none ∨ s.conn.reg.isRegistered = true)
      (hl : s.loop.step (.pollReturn woken) = some l) :
      Step s (.poll woken revents) { s with loop := l, ready := revents }
  | loop {a : EventLoop.Act T (Functor T)} {l : EventLoop T (Functor T)} (ha : s.allows a = true)
      (hl : s.loop.step a = some l) : Step s (.loop a) { s with loop := l, stack := s.entered a }

theorem step_cases (h : s.step a = some s') : Step s a s' := by
  cases a with
  | exec t io =>
    simp only [step] at h
    split at h
    · simp at h
    · next f fs hst =>
      simp only [Option.ite_none_right_eq_some, Option.map_eq_some_iff] at h
      obtain ⟨⟨ho, hio⟩, l, hl, rfl⟩ := h
      exact .exec hst ho hio hl
  | send t data len =>
    simp only [step, Option.ite_none_right_eq_some, Option.some.injEq] at h
    obtain ⟨hu, rfl⟩ := h
    exact .enter hu (.send t data len)
  | shutdown t =>
    simp only [step, Option.ite_none_right_eq_some, Option.some.injEq] at h
    obtain ⟨hu, rfl⟩ := h
    exact .enter hu (.shutdown t)
  | assign t data bytes =>
    simp only [step, Option.ite_none_right_eq_some, Option.some.injEq] at h
    obtain ⟨hu, rfl⟩ := h
    exact .assign hu (Or.inl rfl)
  | release t data bytes =>
    simp only [step, Option.ite_none_right_eq_some, Option.some.injEq] at h
    obtain ⟨hu, rfl⟩ := h
    exact .assign hu (Or.inr rfl)
  | retrieve len =>
    simp only [step, Option.ite_none_right_eq_some, Option.some.injEq] at h
    obtain ⟨hu, rfl⟩ := h
    exact .retrieve hu
  | newConnection =>
    simp only [step, Option.ite_none_right_eq_some, Option.some.injEq, Bool.and_eq_true,
      Bool.not_eq_true'] at h
    obtain ⟨⟨hc, hu⟩, rfl⟩ := h
    exact .enter hu (.newConnection hc)
  | destroyServer =>
    simp only [step, Option.ite_none_right_eq_some, Option.some.injEq, Bool.and_eq_true] at h
    obtain ⟨⟨hc, hu⟩, rfl⟩ := h
    exact .enter hu (.destroyServer hc)
  | removeConnectionInLoop =>
    simp only [step, Option.ite_none_right_eq_some, Option.some.injEq, Bool.and_eq_true,
      decide_eq_true_eq] at h
    obtain ⟨⟨hr, hu⟩, rfl⟩ := h
    exact .enter hu (.removeConnectionInLoop hr)
  | poll woken revents =>
    simp only [step, Option.ite_none_right_eq_some, Option.map_eq_some_iff, Bool.or_eq_true,
      Option.isNone_iff_eq_none] at h
    obtain ⟨hr, l, hl, rfl⟩ := h
    exact .poll hr hl
  | handleEvent =>
    simp only [step] at h
    split at h
    · next revents woken hr hstage =>
      simp only [Option.ite_none_right_eq_some, Option.some.injEq, Bool.and_eq_true,
        List.isEmpty_iff] at h
      obtain ⟨⟨hu, hst⟩, rfl⟩ := h
      exact .enter hu (.handleEvent revents hr hst)
    · simp at h
  | loop a =>
    simp only [step, Option.ite_none_right_eq_some, Option.map_eq_some_iff] at h
    obtain ⟨ha, l, hl, rfl⟩ := h
    exact .loop ha hl

theorem step_exec {t : T} {io : Reply} {f : Frame T} {fs : List (Frame T)}
    (hst : s.stack t = f :: fs) (h : s.step (.exec t io) = some s') :
    ∃ l, s' = s.commit t fs (f.exec (s.site t) s.conn io) l := by
  simp only [step, hst, Option.ite_none_right_eq_some, Option.map_eq_some_iff] at h
  obtain ⟨-, l, -, rfl⟩ := h
  exact ⟨l, rfl⟩

theorem accepts_of_step {t : T} {io : Reply} {f : Frame T} {fs : List (Frame T)}
    (hst : s.stack t = f :: fs) (h : s.step (.exec t io) = some s') :
    f.Accepts (s.site t) s.conn io := by
  simp only [step, hst, Option.ite_none_right_eq_some] at h
  exact h.1.2

namespace Entry

variable {t : T} {f : Frame T} (h : Entry s a t f s')
include h

theorem loop_eq : s'.loop = s.loop := by cases h <;> rfl
theorem conn_eq : s'.conn = s.conn := by cases h <;> rfl
theorem base_eq : s'.base = s.base := by cases h <;> rfl
theorem mem_eq : s'.mem = s.mem := by cases h <;> rfl
theorem stack_eq : s'.stack = Function.update s.stack t (f :: s.stack t) := by cases h <;> rfl

theorem trace_eq : s'.trace = s.trace ∨ ∃ u, s'.trace = s.trace ++ [.shutdownCalled u] := by
  cases h with
  | shutdown t => exact Or.inr ⟨t, rfl⟩
  | _ => exact Or.inl rfl

end Entry

theorem Step.loop_step (h : Step s a s') : s'.loop = s.loop ∨ ∃ b, s.loop.step b = some s'.loop := by
  cases h with
  | @exec t io f fs l hst ho hio hl =>
    cases hq : (f.exec (s.site t) s.conn io).queued with
    | none =>
      rw [hq] at hl
      exact Or.inl (Option.some.inj hl).symm
    | some cb =>
      rw [hq] at hl
      exact Or.inr ⟨.append t cb, hl⟩
  | enter hu he => exact Or.inl he.loop_eq
  | assign | retrieve => exact Or.inl rfl
  | poll hr hl => exact Or.inr ⟨_, hl⟩
  | loop ha hl => exact Or.inr ⟨_, hl⟩

theorem Step.control (hc : s.loop.Control) (h : Step s a s') : s'.loop.Control := by
  rcases h.loop_step with heq | ⟨b, hb⟩
  · exact heq ▸ hc
  · exact hc.step hb

theorem Step.threadId_eq (h : Step s a s') : s'.loop.threadId_ = s.loop.threadId_ := by
  rcases h.loop_step with heq | ⟨b, hb⟩
  · rw [heq]
  · exact EventLoop.threadId_step hb

theorem Step.base_eq (h : Step s a s') : s'.base = s.base := by
  cases h with
  | enter hu he => exact he.base_eq
  | _ => rfl

theorem Step.trace_mono (h : Step s a s') {o : Obs T} (ho : o ∈ s.trace) : o ∈ s'.trace := by
  cases h with
  | exec => exact List.mem_append_left _ ho
  | enter hu he =>
    rcases he.trace_eq with htr | ⟨u, htr⟩
    · exact htr ▸ ho
    · exact htr ▸ List.mem_append_left _ ho
  | assign | retrieve | poll | loop => exact ho

theorem enqueue_eq {t : T} {q : Option (Functor T)} {l : EventLoop T (Functor T)}
    (h : s.enqueue t q = some l) :
    l.functors = s.loop.functors ∧ l.pendingFunctors_ = s.loop.pendingFunctors_ ++ q.toList ∧
      l.threadId_ = s.loop.threadId_ := by
  cases q with
  | none =>
    obtain rfl : s.loop = l := Option.some.inj h
    simp
  | some cb =>
    obtain ⟨-, rfl⟩ := EventLoop.step_append.mp h
    exact ⟨rfl, rfl, rfl⟩

end System

end Mymuduo
