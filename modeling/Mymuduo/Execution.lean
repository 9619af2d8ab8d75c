import Mymuduo.ReceivePath

namespace Mymuduo

/-- A `send()` that has passed its check: how many passed before it, who called it,
and the pointer and length that it binds. -/
structure Call (T : Type) where
  id : ℕ
  thread : T
  data : ℕ
  len : ℕ
  deriving DecidableEq

namespace Call

variable {T : Type}

def denotes (cells : ℕ → Byte) (m : Call T) : List Byte :=
  (List.range m.len).map fun i ↦ cells (m.data + i)

def bytes (mem : T → ℕ → Byte) (m : Call T) : List Byte := m.denotes (mem m.thread)

/-- `sendInLoop` reads the caller's cells twice: `write` takes `nwrote` bytes of what it
finds in `mem`, and `append` the rest of what it finds behind them. -/
def read (mem : T → ℕ → Byte) (again : Option (ℕ → Byte)) (nwrote : ℕ) (m : Call T) : List Byte :=
  (m.bytes mem).take nwrote ++ (m.denotes (again.getD (mem m.thread))).drop nwrote

variable {mem : T → ℕ → Byte} {again : Option (ℕ → Byte)} {nwrote : ℕ} {m : Call T}

@[simp] theorem length_denotes {cells : ℕ → Byte} : (m.denotes cells).length = m.len := by
  simp [denotes]

@[simp] theorem length_bytes : (m.bytes mem).length = m.len := length_denotes

@[simp] theorem length_read : (m.read mem again nwrote).length = m.len := by
  simp only [read, List.length_append, List.length_take, List.length_drop, length_bytes, length_denotes]
  omega

@[simp] theorem read_none : m.read mem none nwrote = m.bytes mem := List.take_append_drop ..

theorem take_read (h : nwrote ≤ m.len) :
    (m.read mem again nwrote).take nwrote = (m.bytes mem).take nwrote := by
  rw [read, List.take_left' (by simpa using h)]

end Call

inductive Functor (T : Type)
  | connectEstablished
  | connectDestroyed
  | sendInLoop (m : Call T)
  | shutdownInLoop
  | notify (n : Notice)
  | foreign (k : ℕ)
  deriving DecidableEq

/-- The code that a thread has entered and not finished, cut so that a frame
makes at most one access to what other threads share. -/
inductive Frame (T : Type)
  | userCode
  | send (data len : ℕ)
  | shutdown
  | setDisconnecting
  | queueInLoop (f : Functor T)
  | functor (f : Functor T)
  | writeOrBuffer (m : Call T)
  | destroyConnected
  | removeChannel
  | handleEvent (revents : BitVec 32)
  | handleRead
  | handleWrite
  | drained
  | handleClose
  | handleError
  | connectionCallback
  | messageCallback
  | closeCallback
  | removeConnectionInLoop
  deriving DecidableEq

/-- What a run shows of a connection. `closed` is a store of `kDisconnected`,
`destroyed` the return of `connectDestroyed`. -/
inductive Obs (T : Type)
  | passed (m : Call T) (msg : List Byte)
  | kept (m : Call T) (msg : List Byte)
  | dropped (m : Call T)
  | write (asked : List Byte) (w : WriteResult)
  | shutdownCalled (t : T)
  | shutdownWrite
  | closed
  | connectionCallback (connected : Bool)
  | messageCallback
  | closeCallback
  | destroyed
  deriving DecidableEq

/-- How the system calls of a frame end. `errno` is what `LOG_ERROR` leaves of that of
`write`, and `again` the cells of another thread where that thread has changed them, or
ended their life, between the two reads of `sendInLoop`. -/
structure Reply where
  write : WriteResult
  read : ReadResult
  errno : ℕ := write.errno
  again : Option (ℕ → Byte) := none

/-- Where a frame is executed: by which thread, whether that is the thread of the
connection's loop or of the server's, and what it finds in memory. -/
structure Site (T : Type) where
  thread : T
  inLoop : Bool
  inBase : Bool
  passed : ℕ
  mem : T → ℕ → Byte

/-- The effect of a frame: the connection, what is to be executed next, a functor
appended by `queueInLoop`, and what happens to the server's map and queue. -/
structure Outcome (T : Type) where
  conn : TcpConnection
  frames : List (Frame T) := []
  queued : Option (Functor T) := none
  erased : Bool := false
  posted : Bool := false
  obs : List (Obs T) := []

namespace Frame

variable {T : Type}

def runInLoop (e : Site T) (f : Functor T) : Frame T :=
  if e.inLoop then .functor f else .queueInLoop f

/-- `Channel::handleEventWithGuard`. -/
def dispatch (revents : BitVec 32) : List (Frame T) :=
  (if revents &&& EPOLLHUP != 0 && revents &&& EPOLLIN == 0 then [.handleClose] else []) ++
  (if revents &&& EPOLLERR != 0 then [.handleError] else []) ++
  (if revents &&& (EPOLLIN ||| EPOLLPRI) != 0 then [.handleRead] else []) ++
  (if revents &&& EPOLLOUT != 0 then [.handleWrite] else [])

def execFunctor (c : TcpConnection) : Functor T → Outcome T
  | .connectEstablished =>
    { conn := (c.setState .kConnected).enableReading, frames := [.connectionCallback] }
  | .connectDestroyed =>
    { conn := c
      frames := if c.state_ = .kConnected then [.destroyConnected, .removeChannel] else [.removeChannel] }
  | .sendInLoop m =>
    if c.state_ = .kDisconnected then { conn := c, obs := [.dropped m] }
    else { conn := c, frames := [.writeOrBuffer m] }
  | .shutdownInLoop => { conn := c, obs := if c.isWriting then [] else [.shutdownWrite] }
  | .notify _ | .foreign _ => { conn := c, frames := [.userCode] }

def readBranch : TcpConnection.Reading → Frame T
  | .message => .messageCallback
  | .close => .handleClose
  | .error => .handleError

def Accepts (e : Site T) (c : TcpConnection) (io : Reply) : Frame T → Prop
  | .writeOrBuffer m => io.write.Answers m.len ∧ (io.again.isSome = true → m.thread ≠ e.thread)
  | .handleWrite => io.write.Answers c.outputBuffer_.readableBytes
  | .handleRead => io.read.Answers c.inputBuffer_.offeredBytes true
  | _ => True

instance [DecidableEq T] (e : Site T) (c : TcpConnection) (io : Reply) (f : Frame T) :
    Decidable (f.Accepts e c io) := by
  cases f <;> unfold Accepts <;> infer_instance

def message (e : Site T) (c : TcpConnection) (io : Reply) (m : Call T) : List Byte :=
  m.read e.mem io.again (c.nwrote io.write)

def exec (e : Site T) (c : TcpConnection) (io : Reply) : Frame T → Outcome T
  | .userCode => { conn := c }
  | .send data len =>
    if c.state_ = .kConnected then
      let m : Call T := ⟨e.passed, e.thread, data, len⟩
      { conn := c, frames := [runInLoop e (.sendInLoop m)], obs := [.passed m (m.bytes e.mem)] }
    else { conn := c }
  | .shutdown => { conn := c, frames := if c.state_ = .kConnected then [.setDisconnecting] else [] }
  | .setDisconnecting =>
    { conn := c.setState .kDisconnecting, frames := [runInLoop e .shutdownInLoop] }
  | .queueInLoop f => { conn := c, queued := some f }
  | .functor f => execFunctor c f
  | .writeOrBuffer m =>
    let msg := message e c io m
    let h := c.sendInLoop msg io.write io.errno
    { conn := h.conn
      queued := h.notice.map .notify
      obs := (if c.writesDirectly then [.write (m.bytes e.mem) io.write] else []) ++
        [if c.faultError io.write io.errno then .dropped m else .kept m msg] }
  | .destroyConnected =>
    { conn := (c.setState .kDisconnected).disableAll, frames := [.connectionCallback], obs := [.closed] }
  | .removeChannel => { conn := c.remove, obs := [.destroyed] }
  | .handleEvent revents => { conn := c, frames := dispatch revents }
  | .handleRead =>
    let r := c.handleRead io.read
    { conn := r.1, frames := [readBranch r.2] }
  | .handleWrite =>
    let r := c.handleWrite io.write
    { conn := r.1.conn
      frames := if r.2 then [.drained] else []
      queued := r.1.notice.map .notify
      obs := if c.isWriting then [.write c.outputBuffer_.readable io.write] else [] }
  | .drained =>
    { conn := c, frames := if c.state_ = .kDisconnecting then [.functor .shutdownInLoop] else [] }
  | .handleClose =>
    { conn := (c.setState .kDisconnected).disableAll, frames := [.connectionCallback, .closeCallback]
      obs := [.closed] }
  | .handleError => { conn := c }
  | .connectionCallback =>
    { conn := c, frames := [.userCode], obs := [.connectionCallback (c.state_ = .kConnected)] }
  | .messageCallback => { conn := c, frames := [.userCode], obs := [.messageCallback] }
  | .closeCallback =>
    { conn := c, frames := if e.inBase then [.removeConnectionInLoop] else []
      posted := !e.inBase, obs := [.closeCallback] }
  | .removeConnectionInLoop =>
    { conn := c, frames := [.queueInLoop .connectDestroyed], erased := true }

end Frame

end Mymuduo
