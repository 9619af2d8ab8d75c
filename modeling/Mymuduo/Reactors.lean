import Mathlib.Data.Set.Basic
import Mathlib.Data.List.Perm.Basic
import Mymuduo.ConnectionMap
import Mymuduo.ConnectionSystem
import Mymuduo.FunctorQueue

namespace Mymuduo

open Foundation.Machine

/-- The functors in the queues of the loops; those of the user are `foreign`. -/
inductive Job (T : Type)
  | conn (c : ℕ) (f : Functor T)
  | removeConnectionInLoop (c : ℕ)
  | foreign (k : ℕ)
  deriving DecidableEq

/-- The code that a thread has entered: a frame of a connection, code of the user,
or the server's own. `quit k` and `join k` are the destructor of the `k`-th
`EventLoopThread`. -/
inductive Activity (T : Type)
  | conn (c : ℕ) (f : Frame T)
  | userCode
  | newConnection
  | destructor (items : List ℕ)
  | quit (k : ℕ)
  | join (k : ℕ)
  deriving DecidableEq

/-- Whose channel an entry of `activeChannels_` points to. -/
inductive Source
  | acceptor
  | conn (c : ℕ)
  deriving DecidableEq

def loopIndices (numThreads : ℕ) : List (Option ℕ) := none :: (List.range numThreads).map some

/-- The threads of a server, of its own loop and of its pool, each with one loop. -/
structure Pool (T : Type) where
  numThreads_ : ℕ
  threadId : Option ℕ → T
  inj : ∀ i ∈ loopIndices numThreads_, ∀ j ∈ loopIndices numThreads_, threadId i = threadId j → i = j

/-- A server with its loops, its connections and any number of threads. `loops none`
is the server's own loop; connections go by the number accepted before them.
`handled i` counts the entries of `activeChannels_` that loop `i` has handled, `batch i`
is the local vector of its `doPendingFunctors()`, and `copies t c` counts the shared
pointers to `c` that code of the user in thread `t` holds. `erased c` counts the calls
of `connections_.erase` for `c`, `live` holds the connections not yet destroyed, and
`aborted` records a `LOG_FATAL` of `assertInLoopThread`. -/
structure Reactors (T : Type) where
  loops : Option ℕ → EventLoop T (Job T)
  exited : ℕ → Bool
  numThreads_ : ℕ
  next_ : ℕ
  map : ConnectionMap
  getLoop : ℕ → Option ℕ
  conn : ℕ → TcpConnection
  activeChannels_ : Option ℕ → List (Source × BitVec 32)
  handled : Option ℕ → ℕ
  batch : Option ℕ → List (Job T)
  copies : T → ℕ → ℕ
  mem : T → ℕ → Byte
  stack : T → List (Activity T)
  trace : ℕ → List (Obs T)
  erased : ℕ → ℕ
  serving : Bool
  live : Set ℕ
  aborted : Bool

/-- What can own a connection: its map entry, a functor that waits in a loop or is in
the batch being run, a library call of a thread, and code of the user in a thread. -/
inductive Owner (T : Type)
  | entry
  | pending (i : Option ℕ)
  | running (i : Option ℕ)
  | call (t : T)
  | user (t : T)

section

variable {T : Type}

def Functor.isRaw : Functor T → Bool
  | .sendInLoop _ | .shutdownInLoop => true
  | _ => false

/-- The frame belongs to a call on a raw `this`; every other one runs under a shared
pointer, be it an argument, a local or the one bound in the functor that runs. -/
def Frame.isRaw : Frame T → Bool
  | .send _ _ | .shutdown | .setDisconnecting | .writeOrBuffer _ => true
  | .functor f | .queueInLoop f => f.isRaw
  | _ => false

/-- `assertInLoopThread` stands at the head of `sendInLoop`. -/
def Frame.asserts : Frame T → Bool
  | .functor (.sendInLoop _) => true
  | _ => false

namespace Job

def isForeign : Job T → Bool
  | .foreign _ => true
  | _ => false

def binds (c : ℕ) : Job T → Bool
  | .conn d f => d = c && !f.isRaw
  | .removeConnectionInLoop d => d = c
  | .foreign _ => false

def isRawOf (c : ℕ) : Job T → Bool
  | .conn d f => d = c && f.isRaw
  | _ => false

def activity : Job T → Activity T
  | .conn c f => .conn c (.functor f)
  | .removeConnectionInLoop c => .conn c .removeConnectionInLoop
  | .foreign _ => .userCode

end Job

namespace Activity

def holds (c : ℕ) : Activity T → Bool
  | .conn d f => d = c && !f.isRaw
  | _ => false

def isUserCode : Activity T → Bool
  | .userCode | .conn _ .userCode => true
  | _ => false

def destroys : Activity T → Bool
  | .destructor _ | .quit _ | .join _ => true
  | _ => false

end Activity

end

namespace Reactors

/-- `hold` copies a shared pointer, from the arguments of a callback of the thread or
from another thread that has one; `poll` returns with the active channels of loop `i`;
`accepts` says whether `accept` returns a descriptor; `destroy items` enters
`~TcpServer`, which meets the connections in the order `items`, and `exit k` ends the
`k`-th thread of the pool. -/
inductive Act (T : Type)
  | exec (t : T) (io : Reply)
  | send (t : T) (c data len : ℕ)
  | shutdown (t : T) (c : ℕ)
  | hold (t : T) (c : ℕ) (source : Option T)
  | drop (t : T) (c : ℕ)
  | assign (t : T) (data : ℕ) (bytes : List Byte)
  | retrieve (t : T) (c len : ℕ)
  | poll (i : Option ℕ) (woken : Bool) (active : List (Source × BitVec 32))
  | handleEvent (i : Option ℕ) (accepts : Bool)
  | loop (i : Option ℕ) (a : EventLoop.Act T (Job T))
  | destroy (items : List ℕ)
  | exit (k : ℕ)

variable {T : Type}

/-- `fd` are the descriptors of the connections to come. -/
def ofPool (p : Pool T) (name ipPort : String) (fd : ℕ → ℕ) (writeComplete highWater : Bool)
    (mark : ℕ) (mem : T → ℕ → Byte) : Reactors T :=
  { loops := fun i ↦ .ofThread (p.threadId i), exited := fun _ ↦ false, numThreads_ := p.numThreads_
    next_ := 0, map := .ofServer name ipPort, getLoop := fun _ ↦ none
    conn := fun c ↦ .ofFd (fd c) writeComplete highWater mark, activeChannels_ := fun _ ↦ []
    handled := fun _ ↦ 0, batch := fun _ ↦ [], copies := fun _ _ ↦ 0, mem, stack := fun _ ↦ []
    trace := fun _ ↦ [], erased := fun _ ↦ 0, serving := true, live := ∅, aborted := false }

variable (s : Reactors T)

def indices : List (Option ℕ) := loopIndices s.numThreads_

def threadId (i : Option ℕ) : T := (s.loops i).threadId_

def base : T := s.threadId none

def gone : Option ℕ → Bool
  | none => false
  | some k => s.exited k

def unhandled (i : Option ℕ) : List (Source × BitVec 32) := (s.activeChannels_ i).drop (s.handled i)

def owners (c : ℕ) : Set (Owner T) :=
  fun
  | .entry => ∃ name, s.map.connections_ name = some c
  | .pending i => ∃ j ∈ (s.loops i).pendingFunctors_, j.binds c = true
  | .running i => ∃ j ∈ s.batch i, j.binds c = true
  | .call t => ∃ f ∈ s.stack t, f.holds c = true
  | .user t => 0 < s.copies t c

/-- A connection that has lost its last owner is destroyed. -/
def settle : Reactors T := { s with live := { c | c ∈ s.live ∧ (s.owners c).Nonempty } }

def setLoop (i : Option ℕ) (l : EventLoop T (Job T)) : Reactors T :=
  { s with loops := Function.update s.loops i l }

def setStack (t : T) (fs : List (Activity T)) [DecidableEq T] : Reactors T :=
  { s with stack := Function.update s.stack t fs }

def fill (i : Option ℕ) (active : List (Source × BitVec 32)) : Reactors T :=
  { s with
    activeChannels_ := Function.update s.activeChannels_ i active
    handled := Function.update s.handled i 0 }

def advance (i : Option ℕ) : Reactors T :=
  { s with handled := Function.update s.handled i (s.handled i + 1) }

/-- `EventLoopThreadPool::getNextLoop`, with the `next_` that it leaves. -/
def getNextLoop : Option ℕ × ℕ :=
  if s.numThreads_ = 0 then (none, s.next_)
  else (some s.next_, if s.next_ + 1 ≥ s.numThreads_ then 0 else s.next_ + 1)

variable [DecidableEq T]

def owes (t : T) : Bool := s.indices.any fun i ↦ (s.loops i).owes t

/-- Thread `t` is in code of the user; where it has entered nothing, its loop stands
at one of the stages `stages`. -/
def standsIn (stages : Stage → Bool) (t : T) : Bool :=
  !s.owes t &&
    match s.stack t with
    | [] => s.indices.all fun i ↦ t ≠ s.threadId i || stages (s.loops i).stage
    | f :: _ => f.isUserCode

def inUserCode (t : T) : Bool := s.standsIn Stage.userCode t

def outsideLoop (t : T) : Bool := s.standsIn (fun g ↦ g.userCode || g = .stopped) t

def reaches (t : T) (c : ℕ) : Bool := 0 < s.copies t c || (s.stack t).contains (.conn c .userCode)

/-- Where thread `t` finds a shared pointer to copy. -/
def offers (t : T) (c : ℕ) : Option T → Bool
  | none => (s.stack t).contains (.conn c .userCode)
  | some u => 0 < s.copies u c

def setCopies (t : T) (c n : ℕ) : Reactors T :=
  { s with copies := Function.update s.copies t (Function.update (s.copies t) c n) }

def site (c : ℕ) (t : T) : Site T :=
  ⟨t, t = s.threadId (s.getLoop c), t = s.base, (passedCalls (s.trace c)).length, s.mem⟩

def push (t : T) (f : Activity T) : Reactors T := s.setStack t (f :: s.stack t)

def queueInLoop (t : T) (i : Option ℕ) (j : Job T) : Option (Reactors T) :=
  if s.gone i then none else ((s.loops i).step (.append t j)).map (s.setLoop i)

/-- What a frame appends to the queues of the connection's loop and of the server's. -/
def enqueue (t : T) (c : ℕ) (o : Outcome T) : Option (Reactors T) :=
  match o.queued, o.posted with
  | some f, _ => s.queueInLoop t (s.getLoop c) (.conn c f)
  | none, true => s.queueInLoop t none (.removeConnectionInLoop c)
  | none, false => some s

def commit (t : T) (c : ℕ) (fs : List (Activity T)) (o : Outcome T) : Reactors T :=
  { s with
    conn := Function.update s.conn c o.conn
    map := if o.erased then s.map.removeConnectionInLoop c else s.map
    erased := if o.erased then Function.update s.erased c (s.erased c + 1) else s.erased
    stack := Function.update s.stack t (o.frames.map (.conn c) ++ fs)
    trace := Function.update s.trace c (s.trace c ++ o.obs) }

/-- The server after the first part of `newConnection`, up to its `runInLoop`. -/
def accept : Reactors T :=
  { s with
    next_ := s.getNextLoop.2, map := s.map.newConnection
    getLoop := Function.update s.getLoop s.map.accepted s.getNextLoop.1
    live := insert s.map.accepted s.live }

def runInLoop (t : T) (c : ℕ) (f : Functor T) : Activity T := .conn c (.runInLoop (s.site c t) f)

def exec (t : T) (io : Reply) (fs : List (Activity T)) : Activity T → Option (Reactors T)
  | .conn c f =>
    if f.asserts && t ≠ s.threadId (s.getLoop c) then some { s with aborted := true }
    else if f.Accepts (s.site c t) (s.conn c) io then
      let o := f.exec (s.site c t) (s.conn c) io
      (s.enqueue t c o).map fun u ↦ u.commit t c fs o
    else none
  | .userCode => some (s.setStack t fs)
  | .newConnection =>
    if t ≠ s.base then some { s with aborted := true }
    else
      let u := s.accept
      some (u.setStack t (u.runInLoop t s.map.accepted .connectEstablished :: fs))
  | .destructor [] => some (s.setStack t (.quit 0 :: fs))
  | .destructor (c :: items) =>
    let u : Reactors T := { s with map := s.map.removeConnectionInLoop c }
    some (u.setStack t (u.runInLoop t c .connectDestroyed :: .destructor items :: fs))
  | .quit k =>
    if k < s.numThreads_ then
      if s.exited k then some (s.setStack t (.quit (k + 1) :: fs))
      else ((s.loops (some k)).step (.storeQuit t)).map fun l ↦
        (s.setLoop (some k) l).setStack t (.join k :: fs)
    else some (s.setStack t fs)
  | .join k => if s.exited k then some (s.setStack t (.quit (k + 1) :: fs)) else none

def reports (i : Option ℕ) : Source → Bool
  | .acceptor => i = none && s.serving
  | .conn c => c < s.map.accepted && s.getLoop c = i && (s.conn c).reg.isRegistered

def unoccupied (i : Option ℕ) : Bool :=
  !s.owes (s.threadId i) && (s.stack (s.threadId i)).isEmpty

def allows (i : Option ℕ) : EventLoop.Act T (Job T) → Bool
  | .append t j => s.inUserCode t && j.isForeign && !s.gone i
  | .storeQuit t => i = none && s.inUserCode t
  | .wakeup _ => true
  | .pollReturn _ => false
  | .beginCalling => s.unoccupied i && (s.unhandled i).isEmpty
  | _ => s.unoccupied i

/-- What a step of loop `i` does beside it: `activeChannels_` is cleared before the
loop polls, the queue becomes the local vector, which is destroyed in the end, and a
functor that begins is entered on the stack. -/
def beside (i : Option ℕ) : EventLoop.Act T (Job T) → Reactors T
  | .testQuit =>
    if (s.loops i).quit_ then s else s.fill i []
  | .swap => { s with batch := Function.update s.batch i (s.loops i).pendingFunctors_ }
  | .endCalling => { s with batch := Function.update s.batch i [] }
  | .beginFunctor j => s.setStack (s.threadId i) [j.activity]
  | _ => s

def held : List ℕ :=
  (List.range s.map.accepted).filter fun c ↦ s.map.connections_ (s.map.names c) = some c

def act (s : Reactors T) : Act T → Option (Reactors T)
  | .exec t io =>
    match s.stack t with
    | [] => none
    | f :: fs => if s.owes t then none else s.exec t io fs f
  | .send t c data len =>
    if s.inUserCode t && s.reaches t c then some (s.push t (.conn c (.send data len))) else none
  | .shutdown t c =>
    if s.inUserCode t && s.reaches t c then
      some { s.push t (.conn c .shutdown) with
        trace := Function.update s.trace c (s.trace c ++ [.shutdownCalled t]) }
    else none
  | .hold t c source =>
    if s.outsideLoop t && s.offers t c source then some (s.setCopies t c (s.copies t c + 1)) else none
  | .drop t c =>
    if s.outsideLoop t && 0 < s.copies t c then some (s.setCopies t c (s.copies t c - 1)) else none
  | .assign t data bytes =>
    if s.inUserCode t then
      some { s with mem := Function.update s.mem t (System.assignCells (s.mem t) data bytes) }
    else none
  | .retrieve t c len =>
    if !s.owes t && (s.stack t).head? = some (.conn c .userCode) then
      let d := { s.conn c with inputBuffer_ := (s.conn c).inputBuffer_.retrieve len }
      some { s with conn := Function.update s.conn c d }
    else none
  | .poll i woken active =>
    if i ∈ s.indices && s.unoccupied i && (active.map Prod.fst).Nodup &&
        active.all (fun e ↦ s.reports i e.1) then
      ((s.loops i).step (.pollReturn woken)).map fun l ↦ (s.fill i active).setLoop i l
    else none
  | .handleEvent i accepts =>
    match s.unhandled i, (s.loops i).stage with
    | (source, revents) :: _, .handling _ =>
      if i ∈ s.indices && s.unoccupied i then
        let u := s.advance i
        match source with
        | .conn c => some (u.push (s.threadId i) (.conn c (.handleEvent revents)))
        | .acceptor =>
          if s.serving then some (if accepts then u.push (s.threadId i) .newConnection else u)
          else none
      else none
    | _, _ => none
  | .loop i a =>
    if i ∈ s.indices && s.allows i a then
      ((s.loops i).step a).map fun l ↦ (s.beside i a).setLoop i l
    else none
  | .destroy items =>
    if s.serving && s.outsideLoop s.base && items.isPerm s.held then
      some { s.push s.base (.destructor items) with serving := false }
    else none
  | .exit k =>
    if k < s.numThreads_ && !s.exited k && (s.loops (some k)).stage = .stopped &&
        s.unoccupied (some k) then
      some { s.setLoop (some k) { s.loops (some k) with pendingFunctors_ := [] } with
        exited := Function.update s.exited k true }
    else none

def step (s : Reactors T) (a : Act T) : Option (Reactors T) :=
  if s.aborted then none else (s.act a).map settle

variable {s} {s' u : Reactors T} {a : Act T}

section

variable {t v : T} {fs : List (Activity T)} {i j : Option ℕ} {l : EventLoop T (Job T)}

@[simp] theorem setStack_self : (s.setStack t fs).stack t = fs := Function.update_self ..

theorem setStack_of_ne (h : v ≠ t) : (s.setStack t fs).stack v = s.stack v :=
  Function.update_of_ne h ..

omit [DecidableEq T] in
@[simp] theorem setLoop_self : (s.setLoop i l).loops i = l := Function.update_self ..

omit [DecidableEq T] in
theorem setLoop_of_ne (h : j ≠ i) : (s.setLoop i l).loops j = s.loops j :=
  Function.update_of_ne h ..

omit [DecidableEq T] in
theorem setLoop_threadId (h : l.threadId_ = s.threadId i) : (s.setLoop i l).threadId = s.threadId := by
  funext j
  by_cases hj : j = i
  · rw [hj, threadId, setLoop_self, h]
  · rw [threadId, setLoop_of_ne hj, threadId]

end

theorem step_iff : s.step a = some s' ↔ s.aborted = false ∧ ∃ u, s.act a = some u ∧ u.settle = s' := by
  cases h : s.aborted <;> simp [step, h]

omit [DecidableEq T] in
theorem owes_eq_false {t : T} : s.owes t = false ↔ ∀ i ∈ s.indices, (s.loops i).owes t = false := by
  simp [owes]

theorem standsIn_iff {stages : Stage → Bool} {t : T} : s.standsIn stages t = true ↔
    s.owes t = false ∧ (∀ f ∈ (s.stack t).head?, f.isUserCode = true) ∧
      (s.stack t = [] → ∀ i ∈ s.indices, t = s.threadId i → stages (s.loops i).stage = true) := by
  cases hst : s.stack t with
  | nil =>
    simp [standsIn, hst, imp_iff_not_or]
  | cons f fs => simp [standsIn, hst]

omit [DecidableEq T] in
theorem unoccupied_iff {i : Option ℕ} : s.unoccupied i = true ↔
    s.owes (s.threadId i) = false ∧ s.stack (s.threadId i) = [] := by
  simp [unoccupied]

/-- Where a frame puts the functor that it queues. -/
inductive Enqueues (s : Reactors T) (t : T) (c : ℕ) (o : Outcome T) : Reactors T → Prop
  | nothing (hq : o.queued = none) (hp : o.posted = false) : Enqueues s t c o s
  | queued {f : Functor T} {l : EventLoop T (Job T)} (hq : o.queued = some f)
      (hl : (s.loops (s.getLoop c)).step (.append t (.conn c f)) = some l) :
      Enqueues s t c o (s.setLoop (s.getLoop c) l)
  | posted {l : EventLoop T (Job T)} (hq : o.queued = none) (hp : o.posted = true)
      (hl : (s.loops none).step (.append t (.removeConnectionInLoop c)) = some l) :
      Enqueues s t c o (s.setLoop none l)

theorem enqueue_cases {t : T} {c : ℕ} {o : Outcome T} (h : s.enqueue t c o = some u) :
    Enqueues s t c o u := by
  cases hq : o.queued with
  | some f =>
    simp only [enqueue, hq, queueInLoop, Option.ite_none_left_eq_some, Option.map_eq_some_iff] at h
    obtain ⟨-, l, hl, rfl⟩ := h
    exact .queued hq hl
  | none =>
    cases hp : o.posted with
    | true =>
      simp only [enqueue, hq, hp, queueInLoop, Option.ite_none_left_eq_some,
        Option.map_eq_some_iff] at h
      obtain ⟨-, l, hl, rfl⟩ := h
      exact .posted hq hp hl
    | false =>
      obtain rfl : s = u := by simpa [enqueue, hq, hp] using h
      exact .nothing hq hp

theorem Enqueues.setLoop_eq {t : T} {c : ℕ} {o : Outcome T} (h : Enqueues s t c o u) :
    u = s ∨ ∃ j k l, (s.loops j).step (.append t k) = some l ∧ u = s.setLoop j l := by
  cases h with
  | nothing => exact Or.inl rfl
  | queued hq hl => exact Or.inr ⟨_, _, _, hl, rfl⟩
  | posted hq hp hl => exact Or.inr ⟨_, _, _, hl, rfl⟩

theorem Enqueues.untouched {t : T} {c : ℕ} {o : Outcome T} (h : Enqueues s t c o u) :
    u.conn = s.conn ∧ u.map = s.map ∧ u.unhandled = s.unhandled ∧ u.mem = s.mem ∧
      u.stack = s.stack ∧ u.trace = s.trace := by
  rcases h.setLoop_eq with rfl | ⟨j, k, l, -, rfl⟩ <;> exact ⟨rfl, rfl, rfl, rfl, rfl, rfl⟩

theorem Enqueues.holding {t : T} {c : ℕ} {o : Outcome T} (h : Enqueues s t c o u) :
    u.batch = s.batch ∧ u.copies = s.copies ∧ u.live = s.live ∧ u.serving = s.serving := by
  rcases h.setLoop_eq with rfl | ⟨j, k, l, -, rfl⟩ <;> exact ⟨rfl, rfl, rfl, rfl⟩

/-- The frame stands before the fatal branch of `assertInLoopThread`. -/
def fatal (s : Reactors T) (t : T) : Activity T → Bool
  | .conn c f => f.asserts && t ≠ s.threadId (s.getLoop c)
  | .newConnection => t ≠ s.base
  | _ => false

/-- What an action can do, but for the destructions that it causes. -/
inductive Does (s : Reactors T) : Act T → Reactors T → Prop
  | frame {t : T} {io : Reply} {c : ℕ} {f : Frame T} {fs : List (Activity T)} {u : Reactors T}
      (hst : s.stack t = .conn c f :: fs) (ho : s.owes t = false)
      (hf : f.asserts = true → t = s.threadId (s.getLoop c))
      (hio : f.Accepts (s.site c t) (s.conn c) io)
      (hu : Enqueues s t c (f.exec (s.site c t) (s.conn c) io) u) :
      Does s (.exec t io) (u.commit t c fs (f.exec (s.site c t) (s.conn c) io))
  | abort {t : T} {io : Reply} {f : Activity T} {fs : List (Activity T)} (hst : s.stack t = f :: fs)
      (hf : s.fatal t f = true) : Does s (.exec t io) { s with aborted := true }
  | leave {t : T} {io : Reply} {fs : List (Activity T)} (hst : s.stack t = .userCode :: fs)
      (ho : s.owes t = false) : Does s (.exec t io) (s.setStack t fs)
  | accept {t : T} {io : Reply} {fs : List (Activity T)} (hst : s.stack t = .newConnection :: fs)
      (ho : s.owes t = false) (ht : t = s.base) : Does s (.exec t io)
        (s.accept.setStack t (s.accept.runInLoop t s.map.accepted .connectEstablished :: fs))
  | destruct {t : T} {io : Reply} {f : Activity T} {fs : List (Activity T)} {u : Reactors T}
      (hst : s.stack t = f :: fs) (ho : s.owes t = false) (hf : f.destroys = true)
      (hu : s.exec t io fs f = some u) : Does s (.exec t io) u
  | send {t : T} {c data len : ℕ} (hu : s.inUserCode t = true) (hr : s.reaches t c = true) :
      Does s (.send t c data len) (s.push t (.conn c (.send data len)))
  | shutdown {t : T} {c : ℕ} (hu : s.inUserCode t = true) (hr : s.reaches t c = true) :
      Does s (.shutdown t c) { s.push t (.conn c .shutdown) with
        trace := Function.update s.trace c (s.trace c ++ [.shutdownCalled t]) }
  | hold {t : T} {c : ℕ} {source : Option T} (hr : s.offers t c source = true) :
      Does s (.hold t c source) (s.setCopies t c (s.copies t c + 1))
  | drop {t : T} {c : ℕ} (hu : s.outsideLoop t = true) (hc : 0 < s.copies t c) :
      Does s (.drop t c) (s.setCopies t c (s.copies t c - 1))
  | assign {t : T} {data : ℕ} {bytes : List Byte} (hu : s.inUserCode t = true) :
      Does s (.assign t data bytes)
        { s with mem := Function.update s.mem t (System.assignCells (s.mem t) data bytes) }
  | retrieve {t : T} {c len : ℕ} {fs : List (Activity T)} (ho : s.owes t = false)
      (hst : s.stack t = .conn c .userCode :: fs) : Does s (.retrieve t c len) { s with
        conn := Function.update s.conn c
          { s.conn c with inputBuffer_ := (s.conn c).inputBuffer_.retrieve len } }
  | poll {i : Option ℕ} {woken : Bool} {active : List (Source × BitVec 32)}
      {l : EventLoop T (Job T)} (hi : i ∈ s.indices) (hu : s.unoccupied i = true)
      (hn : (active.map Prod.fst).Nodup) (hr : ∀ e ∈ active, s.reports i e.1 = true)
      (hl : (s.loops i).step (.pollReturn woken) = some l) : Does s (.poll i woken active) ((s.fill i active).setLoop i l)
  | handle {i : Option ℕ} {accepts woken : Bool} {c : ℕ} {revents : BitVec 32}
      {es : List (Source × BitVec 32)} (hi : i ∈ s.indices)
      (he : s.unhandled i = (.conn c, revents) :: es) (hs : (s.loops i).stage = .handling woken)
      (hu : s.unoccupied i = true) : Does s (.handleEvent i accepts)
        ((s.advance i).push (s.threadId i) (.conn c (.handleEvent revents)))
  | handleAccept {i : Option ℕ} {accepts woken : Bool} {revents : BitVec 32} {fs : List (Activity T)}
      {es : List (Source × BitVec 32)} (hi : i ∈ s.indices)
      (he : s.unhandled i = (.acceptor, revents) :: es) (hs : (s.loops i).stage = .handling woken)
      (hu : s.unoccupied i = true) (hfs : fs = [] ∨ fs = [.newConnection]) :
      Does s (.handleEvent i accepts)
        ((s.advance i).setStack (s.threadId i) fs)
  | loop {i : Option ℕ} {a : EventLoop.Act T (Job T)} {l : EventLoop T (Job T)} (hi : i ∈ s.indices)
      (ha : s.allows i a = true) (hl : (s.loops i).step a = some l) :
      Does s (.loop i a) ((s.beside i a).setLoop i l)
  | destroy {items : List ℕ} (hs : s.serving = true) (hu : s.outsideLoop s.base = true)
      (hp : items.Perm s.held) :
      Does s (.destroy items) { s.push s.base (.destructor items) with serving := false }
  | exit {k : ℕ} (hk : k < s.numThreads_) (hx : s.exited k = false)
      (hs : (s.loops (some k)).stage = .stopped) (hu : s.unoccupied (some k) = true) :
      Does s (.exit k) { s.setLoop (some k) { s.loops (some k) with pendingFunctors_ := [] } with
        exited := Function.update s.exited k true }

theorem exec_does {t : T} {io : Reply} {f : Activity T} {fs : List (Activity T)}
    (hst : s.stack t = f :: fs) (ho : s.owes t = false) (h : s.exec t io fs f = some u) :
    Does s (.exec t io) u := by
  cases f with
  | conn c f =>
    simp only [exec] at h
    split at h
    · next hf =>
      obtain rfl := Option.some.inj h
      exact .abort hst hf
    · next hf =>
      simp only [Option.ite_none_right_eq_some, Option.map_eq_some_iff] at h
      obtain ⟨hio, v, hv, rfl⟩ := h
      refine .frame hst ho ?_ hio (enqueue_cases hv)
      intro ha
      simpa [ha] using hf
  | userCode =>
    obtain rfl := Option.some.inj h
    exact .leave hst ho
  | newConnection =>
    simp only [exec] at h
    split at h
    · next hf =>
      obtain rfl := Option.some.inj h
      exact .abort hst (by simpa [fatal] using hf)
    · next hf =>
      obtain rfl := Option.some.inj h
      exact .accept hst ho (not_not.mp hf)
  | destructor | quit | join => exact .destruct hst ho rfl h

theorem act_does (h : s.act a = some u) : Does s a u := by
  cases a with
  | exec t io =>
    simp only [act] at h
    split at h
    · simp at h
    · next f fs hst =>
      simp only [Option.ite_none_left_eq_some, Bool.not_eq_true] at h
      exact exec_does hst h.1 h.2
  | send t c data len =>
    simp only [act, Option.ite_none_right_eq_some, Bool.and_eq_true, Option.some.injEq] at h
    obtain ⟨⟨hu, hr⟩, rfl⟩ := h
    exact .send hu hr
  | shutdown t c =>
    simp only [act, Option.ite_none_right_eq_some, Bool.and_eq_true, Option.some.injEq] at h
    obtain ⟨⟨hu, hr⟩, rfl⟩ := h
    exact .shutdown hu hr
  | hold t c source =>
    simp only [act, Option.ite_none_right_eq_some, Bool.and_eq_true, Option.some.injEq] at h
    obtain ⟨⟨-, hr⟩, rfl⟩ := h
    exact .hold hr
  | drop t c =>
    simp only [act, Option.ite_none_right_eq_some, Bool.and_eq_true, decide_eq_true_eq,
      Option.some.injEq] at h
    obtain ⟨⟨hu, hc⟩, rfl⟩ := h
    exact .drop hu hc
  | assign t data bytes =>
    simp only [act, Option.ite_none_right_eq_some, Option.some.injEq] at h
    obtain ⟨hu, rfl⟩ := h
    exact .assign hu
  | retrieve t c len =>
    simp only [act, Option.ite_none_right_eq_some, Bool.and_eq_true, Bool.not_eq_true',
      decide_eq_true_eq, List.head?_eq_some_iff, Option.some.injEq] at h
    obtain ⟨⟨ho, fs, hst⟩, rfl⟩ := h
    exact .retrieve ho hst
  | poll i woken active =>
    simp only [act, Option.ite_none_right_eq_some, Bool.and_eq_true, decide_eq_true_eq,
      List.all_eq_true, Option.map_eq_some_iff] at h
    obtain ⟨⟨⟨⟨hi, hu⟩, hn⟩, hr⟩, l, hl, rfl⟩ := h
    exact .poll hi hu hn hr hl
  | handleEvent i accepts =>
    simp only [act] at h
    split at h
    · next source revents es woken he hs =>
      simp only [Option.ite_none_right_eq_some, Bool.and_eq_true, decide_eq_true_eq] at h
      obtain ⟨⟨hi, hu⟩, h⟩ := h
      cases source with
      | conn c =>
        obtain rfl := Option.some.inj h
        exact .handle hi he hs hu
      | acceptor =>
        simp only [Option.ite_none_right_eq_some, Option.some.injEq] at h
        obtain ⟨-, rfl⟩ := h
        have hst : (s.advance i).stack (s.threadId i) = [] := (unoccupied_iff.mp hu).2
        cases accepts with
        | true =>
          have hdoes : Does s (.handleEvent i true) _ := .handleAccept hi he hs hu (Or.inr rfl)
          simpa [push, hst] using hdoes
        | false =>
          have hdoes : Does s (.handleEvent i false) _ := .handleAccept hi he hs hu (Or.inl rfl)
          have hnil : (s.advance i).setStack (s.threadId i) [] = s.advance i := by
            rw [setStack, ← hst, Function.update_eq_self]
          simpa [hnil] using hdoes
    · simp at h
  | loop i a =>
    simp only [act, Option.ite_none_right_eq_some, Bool.and_eq_true, decide_eq_true_eq,
      Option.map_eq_some_iff] at h
    obtain ⟨⟨hi, ha⟩, l, hl, rfl⟩ := h
    exact .loop hi ha hl
  | destroy items =>
    simp only [act, Option.ite_none_right_eq_some, Bool.and_eq_true, List.isPerm_iff,
      Option.some.injEq] at h
    obtain ⟨⟨⟨hs, hu⟩, hp⟩, rfl⟩ := h
    exact .destroy hs hu hp
  | exit k =>
    simp only [act, Option.ite_none_right_eq_some, Bool.and_eq_true, decide_eq_true_eq,
      Bool.not_eq_true', Option.some.injEq] at h
    obtain ⟨⟨⟨⟨hk, hx⟩, hs⟩, hu⟩, rfl⟩ := h
    exact .exit hk hx hs hu

theorem step_cases (h : s.step a = some s') : s.aborted = false ∧ ∃ u, Does s a u ∧ u.settle = s' := by
  obtain ⟨ha, u, hu, rfl⟩ := step_iff.mp h
  exact ⟨ha, u, act_does hu, rfl⟩

structure Kept (s u : Reactors T) : Prop where
  numThreads : u.numThreads_ = s.numThreads_
  threadId : u.threadId = s.threadId
  accepted : s.map.accepted ≤ u.map.accepted
  getLoop : ∀ c < s.map.accepted, u.getLoop c = s.getLoop c

omit [DecidableEq T] in
theorem Kept.setLoop {i : Option ℕ} {l : EventLoop T (Job T)} (h : l.threadId_ = s.threadId i) :
    Kept s (s.setLoop i l) := ⟨rfl, setLoop_threadId h, le_refl _, fun _ _ ↦ rfl⟩

theorem Kept.setLoop_step {i : Option ℕ} {a : EventLoop.Act T (Job T)}
    {l : EventLoop T (Job T)} (hl : (s.loops i).step a = some l) : Kept s (s.setLoop i l) :=
  .setLoop (EventLoop.threadId_step hl)

theorem Enqueues.kept {t : T} {c : ℕ} {o : Outcome T} (h : Enqueues s t c o u) : Kept s u := by
  rcases h.setLoop_eq with rfl | ⟨j, k, l, hl, rfl⟩
  · exact ⟨rfl, rfl, le_refl _, fun _ _ ↦ rfl⟩
  · exact .setLoop_step hl

theorem beside_kept (i : Option ℕ) (a : EventLoop.Act T (Job T)) : Kept s (s.beside i a) ∧
    (s.beside i a).loops = s.loops := by
  cases a with
  | testQuit =>
    simp only [beside]
    split <;> exact ⟨⟨rfl, rfl, le_refl _, fun _ _ ↦ rfl⟩, rfl⟩
  | _ => exact ⟨⟨rfl, rfl, le_refl _, fun _ _ ↦ rfl⟩, rfl⟩

theorem beside_untouched (i : Option ℕ) (a : EventLoop.Act T (Job T)) :
    (s.beside i a).map = s.map ∧ (s.beside i a).next_ = s.next_ ∧ (s.beside i a).copies = s.copies ∧
      (s.beside i a).live = s.live ∧ (s.beside i a).serving = s.serving ∧
        (s.beside i a).aborted = s.aborted := by
  cases a with
  | testQuit =>
    simp only [beside]
    split <;> exact ⟨rfl, rfl, rfl, rfl, rfl, rfl⟩
  | _ => exact ⟨rfl, rfl, rfl, rfl, rfl, rfl⟩

inductive Destroys (s : Reactors T) (t : T) (fs : List (Activity T)) : Activity T → Reactors T → Prop
  | emptied : Destroys s t fs (.destructor []) (s.setStack t (.quit 0 :: fs))
  | entry (c : ℕ) (items : List ℕ) : Destroys s t fs (.destructor (c :: items))
      (({ s with map := s.map.removeConnectionInLoop c }).setStack t
        (s.runInLoop t c .connectDestroyed :: .destructor items :: fs))
  | stored {k : ℕ} {l : EventLoop T (Job T)} (hk : k < s.numThreads_)
      (hl : (s.loops (some k)).step (.storeQuit t) = some l) :
      Destroys s t fs (.quit k) ((s.setLoop (some k) l).setStack t (.join k :: fs))
  | joined {f : Activity T} {k : ℕ} (hf : f = .quit k ∨ f = .join k) (hx : s.exited k = true) :
      Destroys s t fs f (s.setStack t (.quit (k + 1) :: fs))
  | finished {k : ℕ} (hk : ¬ k < s.numThreads_) : Destroys s t fs (.quit k) (s.setStack t fs)

theorem exec_destroys {t : T} {io : Reply} {f : Activity T} {fs : List (Activity T)}
    (hf : f.destroys = true) (h : s.exec t io fs f = some u) : Destroys s t fs f u := by
  cases f with
  | destructor items =>
    cases items with
    | nil =>
      obtain rfl := Option.some.inj h
      exact .emptied
    | cons c items =>
      obtain rfl := Option.some.inj h
      exact .entry c items
  | quit k =>
    simp only [exec] at h
    split at h
    · next hk =>
      split at h
      · next hx =>
        obtain rfl := Option.some.inj h
        exact .joined (Or.inl rfl) hx
      · obtain ⟨l, hl, rfl⟩ := Option.map_eq_some_iff.mp h
        exact .stored hk hl
    · next hk =>
      obtain rfl := Option.some.inj h
      exact .finished hk
  | join k =>
    simp only [exec, Option.ite_none_right_eq_some, Option.some.injEq] at h
    obtain ⟨hx, rfl⟩ := h
    exact .joined (Or.inr rfl) hx
  | conn | userCode | newConnection => simp [Activity.destroys] at hf

theorem Destroys.kept {t : T} {f : Activity T} {fs : List (Activity T)} (h : Destroys s t fs f u) :
    Kept s u := by
  cases h with
  | stored hk hl =>
    obtain ⟨hn, ht, ha, hg⟩ := Kept.setLoop_step hl
    exact ⟨hn, ht, ha, hg⟩
  | emptied | entry | joined | finished => exact ⟨rfl, rfl, le_refl _, fun _ _ ↦ rfl⟩

theorem Does.kept (h : Does s a u) : Kept s u := by
  cases h with
  | @frame t io c f fs u hst ho hf hio hu =>
    obtain ⟨hn, ht, ha, hg⟩ := hu.kept
    refine ⟨hn, ht, ?_, hg⟩
    simp only [commit]
    split <;> exact ha
  | accept hst ho ht =>
    refine ⟨rfl, rfl, Nat.le_succ _, fun c hc ↦ ?_⟩
    exact Function.update_of_ne (Nat.ne_of_lt hc) ..
  | destruct hst ho hf hu => exact (exec_destroys hf hu).kept
  | poll hi hu hn hr hl =>
    obtain ⟨hn, ht, ha, hg⟩ := Kept.setLoop_step hl
    exact ⟨hn, ht, ha, hg⟩
  | @loop i b l hi ha hl =>
    obtain ⟨hb, hloops⟩ := s.beside_kept i b
    have hL : l.threadId_ = (s.beside i b).threadId i := by
      rw [EventLoop.threadId_step hl, hb.threadId]
      rfl
    obtain ⟨hn, ht, ha, hg⟩ := Kept.setLoop hL
    exact ⟨hn.trans hb.numThreads, ht.trans hb.threadId, hb.accepted.trans ha,
      fun c hc ↦ (hg c (Nat.lt_of_lt_of_le hc hb.accepted)).trans (hb.getLoop c hc)⟩
  | @exit k hk hx hs hu =>
    obtain ⟨hn, ht, ha, hg⟩ := Kept.setLoop (s := s) (i := some k)
      (l := { s.loops (some k) with pendingFunctors_ := [] }) rfl
    exact ⟨hn, ht, ha, hg⟩
  | abort | leave | send | shutdown | hold | drop | assign | retrieve | handle | handleAccept
    | destroy => exact ⟨rfl, rfl, le_refl _, fun _ _ ↦ rfl⟩

end Reactors

end Mymuduo
