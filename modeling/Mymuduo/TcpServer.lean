import Mymuduo.FunctorQueue

namespace Mymuduo

open Foundation.Machine

inductive Task
  | connectEstablished (conn : ℕ)
  | connectDestroyed (conn : ℕ)
  | removeConnectionInLoop (conn : ℕ)
  | foreign (k : ℕ)
  deriving DecidableEq

/-- How far `~TcpServer` has come: `calling` holds `conn` with its map entry reset,
`leaving` has returned from `runInLoop`, `thread k` destroys the `k`-th
`EventLoopThread` and `joining k` waits for it. -/
inductive Destructor
  | alive
  | iterate (items : List ℕ)
  | calling (conn : ℕ) (items : List ℕ)
  | leaving (conn : ℕ) (items : List ℕ)
  | thread (k : ℕ)
  | joining (k : ℕ)
  | done
  deriving DecidableEq

/-- `loops none` is the loop of the server, `loops (some k)` that of the `k`-th
thread of its pool, and `exited k` says that this thread has ended. `doomed` is
what `connections_` holds when `~TcpServer` begins, `executed` the calls of
`connectDestroyed`, each with its thread. -/
structure TcpServer (T : Type) where
  loops : Option ℕ → EventLoop T Task
  exited : ℕ → Bool
  numThreads_ : ℕ
  next_ : ℕ
  nextConnId_ : ℕ
  getLoop : ℕ → Option ℕ
  connections_ : List ℕ
  destructor : Destructor
  doomed : List ℕ
  executed : List (ℕ × T)

namespace TcpServer

/-- `destroy items` enters `~TcpServer`, which meets the connections in the order
`items`, and `destruct` takes it one step further; `removeConnectionInLoop` is the
call that `removeConnection` makes without a queue. -/
inductive Act (T : Type)
  | loop (i : Option ℕ) (a : EventLoop.Act T Task)
  | exit (k : ℕ)
  | newConnection
  | removeConnectionInLoop (conn : ℕ)
  | destroy (items : List ℕ)
  | destruct

variable {T : Type}

def ofThreads (threadId : Option ℕ → T) (numThreads : ℕ) : TcpServer T :=
  { loops := fun i ↦ .ofThread (threadId i), exited := fun _ ↦ false, numThreads_ := numThreads
    next_ := 0, nextConnId_ := 1, getLoop := fun _ ↦ none, connections_ := [], destructor := .alive
    doomed := [], executed := [] }

variable (s : TcpServer T)

def threadId (i : Option ℕ) : T := (s.loops i).threadId_

def base : T := s.threadId none

def setLoop (i : Option ℕ) (l : EventLoop T Task) : TcpServer T :=
  { s with loops := Function.update s.loops i l }

section

variable {s} {i : Option ℕ} {l : EventLoop T Task}

@[simp] theorem setLoop_loops : (s.setLoop i l).loops = Function.update s.loops i l := rfl
@[simp] theorem setLoop_connections : (s.setLoop i l).connections_ = s.connections_ := rfl
@[simp] theorem setLoop_destructor : (s.setLoop i l).destructor = s.destructor := rfl
@[simp] theorem setLoop_doomed : (s.setLoop i l).doomed = s.doomed := rfl
@[simp] theorem setLoop_executed : (s.setLoop i l).executed = s.executed := rfl

end

/-- `EventLoopThreadPool::getNextLoop`, with the `next_` that it leaves. -/
def getNextLoop : Option ℕ × ℕ :=
  if s.numThreads_ = 0 then (none, s.next_)
  else (some s.next_, if s.next_ + 1 ≥ s.numThreads_ then 0 else s.next_ + 1)

def gone : Option ℕ → Bool
  | none => false
  | some k => s.exited k

def outside : Bool := s.destructor = .alive || s.destructor = .done

variable [DecidableEq T]

def owes (t : T) : Bool :=
  (none :: (List.range s.numThreads_).map some).any fun i ↦ (s.loops i).owes t

def inUserCode (i : Option ℕ) : Bool :=
  !s.owes (s.threadId i) && !s.gone i && (s.loops i).stage.userCode

def queueInLoop (i : Option ℕ) (f : Task) : Option (TcpServer T) :=
  ((s.loops i).step (.append s.base f)).map (s.setLoop i)

def removeConnectionInLoop (conn : ℕ) : Option (TcpServer T) :=
  queueInLoop { s with connections_ := s.connections_.erase conn } (s.getLoop conn)
    (.connectDestroyed conn)

/-- A functor runs in thread `t`. Of what it does, only the calls of
`connectDestroyed` and the server's own state are kept. -/
def runFunctor (t : T) : Task → Option (TcpServer T)
  | .connectDestroyed conn => some { s with executed := s.executed ++ [(conn, t)] }
  | .removeConnectionInLoop conn =>
    if s.destructor = .alive then s.removeConnectionInLoop conn else none
  | .connectEstablished _ | .foreign _ => some s

/-- What the threads do of their own: any of them queues functors of its own, and a
connection that closes has itself removed by the server's loop. -/
def allows (i : Option ℕ) : EventLoop.Act T Task → Bool
  | .append t (.foreign _) => !s.owes t && !s.gone i && (t ≠ s.base || s.outside)
  | .append t (.removeConnectionInLoop conn) =>
    i = none && t ≠ s.base && conn < s.nextConnId_ && t = s.threadId (s.getLoop conn) &&
      s.inUserCode (s.getLoop conn)
  | .append _ _ => false
  | .storeQuit t => i = none && !s.owes t && (t ≠ s.base || s.outside)
  | .wakeup _ => true
  | _ => !s.owes (s.threadId i) && !s.gone i && (i ≠ none || s.outside)

def newConnection : Option (TcpServer T) :=
  let (i, next) := s.getNextLoop
  let conn := s.nextConnId_
  let u : TcpServer T := { s with
    next_ := next, nextConnId_ := conn + 1, getLoop := Function.update s.getLoop conn i
    connections_ := s.connections_ ++ [conn] }
  if (s.loops i).isInLoopThread s.base then some u
  else u.queueInLoop i (.connectEstablished conn)

/-- The next step of `~TcpServer`, and of the destructor of its thread pool. -/
def destruct : Option (TcpServer T) :=
  match s.destructor with
  | .alive | .done => none
  | .iterate [] => some { s with destructor := .thread 0 }
  | .iterate (conn :: items) =>
    some { s with connections_ := s.connections_.erase conn, destructor := .calling conn items }
  | .calling conn items =>
    let u : TcpServer T := { s with destructor := .leaving conn items }
    if (s.loops (s.getLoop conn)).isInLoopThread s.base then
      some { u with executed := s.executed ++ [(conn, s.base)] }
    else u.queueInLoop (s.getLoop conn) (.connectDestroyed conn)
  | .leaving _ items => some { s with destructor := .iterate items }
  | .thread k =>
    if k < s.numThreads_ then
      if s.exited k then some { s with destructor := .thread (k + 1) }
      else ((s.loops (some k)).step (.storeQuit s.base)).map fun l ↦
        { s.setLoop (some k) l with destructor := .joining k }
    else some { s with destructor := .done }
  | .joining k => if s.exited k then some { s with destructor := .thread (k + 1) } else none

def step (s : TcpServer T) : Act T → Option (TcpServer T)
  | .loop i a =>
    if s.allows i a then
      ((s.loops i).step a).bind fun l ↦
        match a with
        | .beginFunctor f => (s.setLoop i l).runFunctor (s.threadId i) f
        | _ => some (s.setLoop i l)
    else none
  | .exit k =>
    if !s.exited k && (s.loops (some k)).stage = .stopped && !s.owes (s.threadId (some k)) then
      some { s.setLoop (some k) { s.loops (some k) with pendingFunctors_ := [] } with
        exited := Function.update s.exited k true }
    else none
  | .newConnection =>
    if s.inUserCode none && s.destructor = .alive then s.newConnection else none
  | .removeConnectionInLoop conn =>
    if s.inUserCode none && s.destructor = .alive && conn < s.nextConnId_ &&
        s.threadId (s.getLoop conn) = s.base then
      s.removeConnectionInLoop conn
    else none
  | .destroy items =>
    if !s.owes s.base && s.destructor = .alive &&
        ((s.loops none).stage.userCode || (s.loops none).stage = .stopped) &&
        items.isPerm s.connections_ then
      some { s with destructor := .iterate items, doomed := items }
    else none
  | .destruct => if s.owes s.base then none else s.destruct

variable {s} {s' : TcpServer T} {a : Act T}

/-- What a step of `~TcpServer` does. -/
inductive Destructs (s : TcpServer T) : TcpServer T → Prop
  | next (c : ℕ) (items : List ℕ) (hd : s.destructor = .iterate (c :: items)) :
      Destructs s { s with connections_ := s.connections_.erase c, destructor := .calling c items }
  | call (c : ℕ) (items : List ℕ) (hd : s.destructor = .calling c items)
      (hin : s.threadId (s.getLoop c) = s.base) :
      Destructs s { s with destructor := .leaving c items, executed := s.executed ++ [(c, s.base)] }
  | queue (c : ℕ) (items : List ℕ) (l : EventLoop T Task) (hd : s.destructor = .calling c items)
      (hin : s.threadId (s.getLoop c) ≠ s.base)
      (hl : (s.loops (s.getLoop c)).step (.append s.base (.connectDestroyed c)) = some l) :
      Destructs s { s.setLoop (s.getLoop c) l with destructor := .leaving c items }
  | leave (c : ℕ) (items : List ℕ) (hd : s.destructor = .leaving c items) :
      Destructs s { s with destructor := .iterate items }
  | threads (hd : s.destructor = .iterate []) : Destructs s { s with destructor := .thread 0 }
  | quit (k : ℕ) (l : EventLoop T Task) (hd : s.destructor = .thread k) (hk : k < s.numThreads_)
      (hx : s.exited k = false) (hl : (s.loops (some k)).step (.storeQuit s.base) = some l) :
      Destructs s { s.setLoop (some k) l with destructor := .joining k }
  | join (k : ℕ) (hd : s.destructor = .thread k ∨ s.destructor = .joining k) (hx : s.exited k = true) :
      Destructs s { s with destructor := .thread (k + 1) }
  | finish (k : ℕ) (hd : s.destructor = .thread k) (hk : s.numThreads_ ≤ k) :
      Destructs s { s with destructor := .done }

theorem destruct_cases (h : s.destruct = some s') : Destructs s s' := by
  unfold destruct at h
  split at h
  · simp at h
  · simp at h
  · next hd =>
    obtain rfl := Option.some.inj h
    exact .threads hd
  · next c items hd =>
    obtain rfl := Option.some.inj h
    exact .next c items hd
  · next c items hd =>
    simp only [EventLoop.isInLoopThread, decide_eq_true_eq] at h
    split at h
    · next hin =>
      obtain rfl := Option.some.inj h
      exact .call c items hd hin.symm
    · next hin =>
      obtain ⟨l, hl, rfl⟩ := Option.map_eq_some_iff.mp h
      exact .queue c items l hd (Ne.symm hin) hl
  · next c items hd =>
    obtain rfl := Option.some.inj h
    exact .leave c items hd
  · next k hd =>
    split at h
    · next hk =>
      split at h
      · next hx =>
        obtain rfl := Option.some.inj h
        exact .join k (Or.inl hd) hx
      · next hx =>
        obtain ⟨l, hl, rfl⟩ := Option.map_eq_some_iff.mp h
        exact .quit k l hd hk (by simpa using hx) hl
    · next hk =>
      obtain rfl := Option.some.inj h
      exact .finish k hd (Nat.not_lt.mp hk)
  · next k hd =>
    simp only [Option.ite_none_right_eq_some, Option.some.injEq] at h
    obtain ⟨hx, rfl⟩ := h
    exact .join k (Or.inr hd) hx

inductive Removed (c : ℕ) (s : TcpServer T) : TcpServer T → Prop
  | mk (l : EventLoop T Task)
      (hl : (s.loops (s.getLoop c)).step (.append s.base (.connectDestroyed c)) = some l) :
      Removed c s { s.setLoop (s.getLoop c) l with connections_ := s.connections_.erase c }

theorem removeConnectionInLoop_removed {c : ℕ} (h : s.removeConnectionInLoop c = some s') :
    Removed c s s' := by
  obtain ⟨l, hl, rfl⟩ := Option.map_eq_some_iff.mp h
  exact .mk l hl

def accepted (s : TcpServer T) : TcpServer T :=
  { s with
    next_ := s.getNextLoop.2, nextConnId_ := s.nextConnId_ + 1
    getLoop := Function.update s.getLoop s.nextConnId_ s.getNextLoop.1
    connections_ := s.connections_ ++ [s.nextConnId_] }

inductive Step (s : TcpServer T) : Act T → TcpServer T → Prop
  | loop {i : Option ℕ} {a : EventLoop.Act T Task} {l : EventLoop T Task} (ha : s.allows i a = true)
      (hl : (s.loops i).step a = some l) (hf : ∀ f, a ≠ .beginFunctor f) :
      Step s (.loop i a) (s.setLoop i l)
  | begin {i : Option ℕ} {f : Task} {l : EventLoop T Task} (ha : s.allows i (.beginFunctor f) = true)
      (hl : (s.loops i).step (.beginFunctor f) = some l) (hc : ∀ c, f ≠ .connectDestroyed c)
      (hr : ∀ c, f ≠ .removeConnectionInLoop c) : Step s (.loop i (.beginFunctor f)) (s.setLoop i l)
  | run {i : Option ℕ} {c : ℕ} {l : EventLoop T Task}
      (ha : s.allows i (.beginFunctor (.connectDestroyed c)) = true)
      (hl : (s.loops i).step (.beginFunctor (.connectDestroyed c)) = some l) :
      Step s (.loop i (.beginFunctor (.connectDestroyed c)))
        { s.setLoop i l with executed := s.executed ++ [(c, s.threadId i)] }
  | erase {i : Option ℕ} {c : ℕ} {l : EventLoop T Task} {u : TcpServer T}
      (ha : s.allows i (.beginFunctor (.removeConnectionInLoop c)) = true)
      (hl : (s.loops i).step (.beginFunctor (.removeConnectionInLoop c)) = some l)
      (hd : s.destructor = .alive) (hm : Removed c (s.setLoop i l) u) :
      Step s (.loop i (.beginFunctor (.removeConnectionInLoop c))) u
  | exit {k : ℕ} (hx : s.exited k = false) (hs : (s.loops (some k)).stage = .stopped) :
      Step s (.exit k) { s.setLoop (some k) { s.loops (some k) with pendingFunctors_ := [] } with
        exited := Function.update s.exited k true }
  | accept (hd : s.destructor = .alive)
      (hin : s.threadId s.getNextLoop.1 = s.base) : Step s .newConnection s.accepted
  | acceptAway {l : EventLoop T Task} (hd : s.destructor = .alive)
      (hl : (s.loops s.getNextLoop.1).step (.append s.base (.connectEstablished s.nextConnId_)) = some l) :
      Step s .newConnection (s.accepted.setLoop s.getNextLoop.1 l)
  | remove {c : ℕ} {u : TcpServer T} (hd : s.destructor = .alive) (hc : c < s.nextConnId_)
      (hm : Removed c s u) : Step s (.removeConnectionInLoop c) u
  | destroy {items : List ℕ} (hd : s.destructor = .alive) (hp : items.Perm s.connections_) :
      Step s (.destroy items) { s with destructor := .iterate items, doomed := items }
  | destruct {u : TcpServer T} (hd : Destructs s u) : Step s .destruct u

theorem step_cases (h : s.step a = some s') : Step s a s' := by
  cases a with
  | loop i a =>
    simp only [step, Option.ite_none_right_eq_some, Option.bind_eq_some_iff] at h
    obtain ⟨ha, l, hl, h⟩ := h
    cases a with
    | beginFunctor f =>
      cases f with
      | connectDestroyed c =>
        obtain rfl := Option.some.inj h
        exact .run ha hl
      | removeConnectionInLoop c =>
        simp only [runFunctor, Option.ite_none_right_eq_some] at h
        exact .erase ha hl h.1 (removeConnectionInLoop_removed h.2)
      | connectEstablished | foreign =>
        obtain rfl := Option.some.inj h
        exact .begin ha hl (by simp) (by simp)
    | _ =>
      obtain rfl := Option.some.inj h
      exact .loop ha hl (by simp)
  | exit k =>
    simp only [step, Option.ite_none_right_eq_some, Option.some.injEq, Bool.and_eq_true,
      Bool.not_eq_true', decide_eq_true_eq] at h
    obtain ⟨⟨⟨hx, hs⟩, -⟩, rfl⟩ := h
    exact .exit hx hs
  | newConnection =>
    simp only [step, Option.ite_none_right_eq_some, Bool.and_eq_true, decide_eq_true_eq] at h
    obtain ⟨⟨-, hd⟩, h⟩ := h
    simp only [newConnection, EventLoop.isInLoopThread, decide_eq_true_eq] at h
    split at h
    · next hin =>
      obtain rfl := Option.some.inj h
      exact .accept hd hin.symm
    · obtain ⟨l, hl, rfl⟩ := Option.map_eq_some_iff.mp h
      exact .acceptAway hd hl
  | removeConnectionInLoop c =>
    simp only [step, Option.ite_none_right_eq_some, Bool.and_eq_true, decide_eq_true_eq] at h
    obtain ⟨⟨⟨⟨-, hd⟩, hc⟩, -⟩, h⟩ := h
    exact .remove hd hc (removeConnectionInLoop_removed h)
  | destroy items =>
    simp only [step, Option.ite_none_right_eq_some, Option.some.injEq, Bool.and_eq_true,
      decide_eq_true_eq, List.isPerm_iff] at h
    obtain ⟨⟨⟨⟨-, hd⟩, -⟩, hp⟩, rfl⟩ := h
    exact .destroy hd hp
  | destruct =>
    simp only [step, Option.ite_none_left_eq_some] at h
    exact .destruct (destruct_cases h.2)

end TcpServer

end Mymuduo
