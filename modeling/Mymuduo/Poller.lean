import Mathlib.Logic.Function.Basic
import Mathlib.Data.BitVec

namespace Mymuduo

def EPOLLIN : BitVec 32 := 0x001
def EPOLLPRI : BitVec 32 := 0x002
def EPOLLOUT : BitVec 32 := 0x004
def EPOLLERR : BitVec 32 := 0x008
def EPOLLHUP : BitVec 32 := 0x010

/-- The values of `Channel::index_`. -/
inductive Index
  | kNew
  | kAdded
  | kDeleted
  deriving DecidableEq

structure Channel where
  fd_ : ℕ
  events_ : BitVec 32
  index_ : Index
  deriving DecidableEq

namespace Channel

def kNoneEvent : BitVec 32 := 0
def kReadEvent : BitVec 32 := EPOLLIN ||| EPOLLPRI
def kWriteEvent : BitVec 32 := EPOLLOUT

def ofFd (fd : ℕ) : Channel := ⟨fd, kNoneEvent, .kNew⟩

variable (c : Channel)

def isNoneEvent : Bool := c.events_ == kNoneEvent
def isWriting : Bool := c.events_ &&& kWriteEvent != 0
def isReading : Bool := c.events_ &&& kReadEvent != 0

end Channel

inductive EpollOp
  | EPOLL_CTL_ADD
  | EPOLL_CTL_MOD
  | EPOLL_CTL_DEL

/-- `epoll` is the kernel's interest set; `failed` records an `epoll_ctl` call that has failed,
and `fatal` the `LOG_FATAL` exit that follows unless it was `EPOLL_CTL_DEL`. -/
structure EPollPoller (P : Type) where
  channels_ : ℕ → Option P
  epoll : ℕ → Option (BitVec 32 × P)
  failed : Bool
  fatal : Bool

namespace EPollPoller

variable {P : Type}

def empty : EPollPoller P := ⟨fun _ ↦ none, fun _ ↦ none, false, false⟩

def update (p : EPollPoller P) (operation : EpollOp) (this : P) (c : Channel) : EPollPoller P :=
  match operation, p.epoll c.fd_ with
  | .EPOLL_CTL_ADD, none | .EPOLL_CTL_MOD, some _ =>
    { p with epoll := Function.update p.epoll c.fd_ (some (c.events_, this)) }
  | .EPOLL_CTL_DEL, some _ => { p with epoll := Function.update p.epoll c.fd_ none }
  | .EPOLL_CTL_DEL, none => { p with failed := true }
  | .EPOLL_CTL_ADD, some _ | .EPOLL_CTL_MOD, none => { p with failed := true, fatal := true }

def updateChannel (p : EPollPoller P) (this : P) (c : Channel) : EPollPoller P × Channel :=
  match c.index_ with
  | .kNew =>
    let p := { p with channels_ := Function.update p.channels_ c.fd_ (some this) }
    let c := { c with index_ := .kAdded }
    (p.update .EPOLL_CTL_ADD this c, c)
  | .kDeleted =>
    let c := { c with index_ := .kAdded }
    (p.update .EPOLL_CTL_ADD this c, c)
  | .kAdded =>
    if c.isNoneEvent then (p.update .EPOLL_CTL_DEL this c, { c with index_ := .kDeleted })
    else (p.update .EPOLL_CTL_MOD this c, c)

def removeChannel (p : EPollPoller P) (this : P) (c : Channel) : EPollPoller P × Channel :=
  let p := { p with channels_ := Function.update p.channels_ c.fd_ none }
  (if c.index_ = .kAdded then p.update .EPOLL_CTL_DEL this c else p, { c with index_ := .kNew })

def hasChannel [DecidableEq P] (p : EPollPoller P) (this : P) (c : Channel) : Bool :=
  p.channels_ c.fd_ = some this

@[simp] theorem updateChannel_events (p : EPollPoller P) (this : P) (c : Channel) :
    (p.updateChannel this c).2.events_ = c.events_ := by
  unfold updateChannel
  split
  · rfl
  · rfl
  · split <;> rfl

@[simp] theorem updateChannel_fd (p : EPollPoller P) (this : P) (c : Channel) :
    (p.updateChannel this c).2.fd_ = c.fd_ := by
  unfold updateChannel
  split
  · rfl
  · rfl
  · split <;> rfl

end EPollPoller

/-- A channel together with the poller of its loop. -/
structure Registration (P : Type) where
  this : P
  channel : Channel
  poller : EPollPoller P

namespace Registration

variable {P : Type} (r : Registration P)

def setEvents (events : BitVec 32) : Registration P :=
  let u := r.poller.updateChannel r.this { r.channel with events_ := events }
  { r with poller := u.1, channel := u.2 }

def enableReading : Registration P := r.setEvents (r.channel.events_ ||| Channel.kReadEvent)
def disableReading : Registration P := r.setEvents (r.channel.events_ &&& ~~~Channel.kReadEvent)
def enableWriting : Registration P := r.setEvents (r.channel.events_ ||| Channel.kWriteEvent)
def disableWriting : Registration P := r.setEvents (r.channel.events_ &&& ~~~Channel.kWriteEvent)
def disableAll : Registration P := r.setEvents Channel.kNoneEvent

def remove : Registration P :=
  let u := r.poller.removeChannel r.this r.channel
  { r with poller := u.1, channel := u.2 }

def isRegistered : Bool := (r.poller.epoll r.channel.fd_).isSome

@[simp] theorem setEvents_events (e : BitVec 32) : (r.setEvents e).channel.events_ = e := by
  simp [setEvents]

@[simp] theorem setEvents_this (e : BitVec 32) : (r.setEvents e).this = r.this := rfl

@[simp] theorem setEvents_fd (e : BitVec 32) :
    (r.setEvents e).channel.fd_ = r.channel.fd_ := by
  simp [setEvents]

theorem kWriteEvent_eq : Channel.kWriteEvent = BitVec.twoPow 32 2 := by decide

theorem isWriting_eq (c : Channel) : c.isWriting = c.events_.getLsbD 2 := by
  rw [Channel.isWriting, kWriteEvent_eq, BitVec.and_twoPow]
  cases c.events_.getLsbD 2 <;> decide

@[simp] theorem isWriting_enableWriting : r.enableWriting.channel.isWriting = true := by
  rw [isWriting_eq, enableWriting, setEvents_events, kWriteEvent_eq]
  simp

@[simp] theorem isWriting_disableWriting : r.disableWriting.channel.isWriting = false := by
  rw [isWriting_eq, disableWriting, setEvents_events, kWriteEvent_eq]
  simp

@[simp] theorem isWriting_enableReading :
    r.enableReading.channel.isWriting = r.channel.isWriting := by
  have hread : Channel.kReadEvent[2] = false := by decide
  rw [isWriting_eq, isWriting_eq, enableReading, setEvents_events]
  simp [hread]

@[simp] theorem isWriting_disableAll : r.disableAll.channel.isWriting = false := by
  rw [isWriting_eq, disableAll, setEvents_events]
  decide

@[simp] theorem isWriting_remove : r.remove.channel.isWriting = r.channel.isWriting := rfl

theorem isRegistered_remove {r : Registration P} (h : r.isRegistered = false) :
    r.remove.isRegistered = false := by
  simp only [isRegistered, Option.isSome_eq_false_iff, Option.isNone_iff_eq_none] at h
  simp only [isRegistered, remove, EPollPoller.removeChannel]
  split <;> simp [EPollPoller.update, h]

/-- The index of the channel tells whether its descriptor is in the epoll set. -/
def Sound : Prop := r.channel.index_ = .kAdded ↔ r.isRegistered = true

def Wired : Prop := r.channel.index_ = .kAdded ∧ r.channel.events_.getLsbD 0 = true

variable {r}

theorem Sound.setEvents (h : r.Sound) (e : BitVec 32) : (r.setEvents e).Sound := by
  simp only [Sound, isRegistered] at h
  simp only [Sound, isRegistered, Registration.setEvents, EPollPoller.updateChannel]
  cases hi : r.channel.index_ <;> cases hp : r.poller.epoll r.channel.fd_ <;>
    simp_all [EPollPoller.update]
  split <;> simp_all

theorem Sound.remove (h : r.Sound) : r.remove.Sound := by
  simp only [Sound, isRegistered] at h
  simp only [Sound, isRegistered, Registration.remove, EPollPoller.removeChannel]
  cases hi : r.channel.index_ <;> cases hp : r.poller.epoll r.channel.fd_ <;>
    simp_all [EPollPoller.update]

theorem setEvents_index {e : BitVec 32} (he : e ≠ Channel.kNoneEvent) :
    (r.setEvents e).channel.index_ = .kAdded := by
  have hnone : ∀ i, (⟨r.channel.fd_, e, i⟩ : Channel).isNoneEvent = false := by
    intro i
    simpa [Channel.isNoneEvent] using he
  simp only [setEvents, EPollPoller.updateChannel]
  cases r.channel.index_ <;> simp [hnone]

theorem disableAll_unregistered (h : r.Sound) (hi : r.channel.index_ = .kAdded) :
    r.disableAll.isRegistered = false := by
  have hindex : r.disableAll.channel.index_ = .kDeleted := by
    simp [disableAll, setEvents, EPollPoller.updateChannel, hi, Channel.isNoneEvent]
  have hsound : r.disableAll.Sound := h.setEvents _
  rw [Sound, hindex] at hsound
  simpa using hsound

theorem Wired.setEvents {e : BitVec 32} (he : e.getLsbD 0 = true) : (r.setEvents e).Wired := by
  refine ⟨setEvents_index ?_, by rwa [setEvents_events]⟩
  rintro rfl
  simp [Channel.kNoneEvent] at he

theorem wired_enableReading : r.enableReading.Wired := by
  have hread : Channel.kReadEvent.getLsbD 0 = true := by decide
  exact Wired.setEvents (by rw [BitVec.getLsbD_or, hread, Bool.or_true])

theorem Wired.enableWriting (h : r.Wired) : r.enableWriting.Wired :=
  Wired.setEvents (by rw [BitVec.getLsbD_or, h.2, Bool.true_or])

theorem Wired.disableWriting (h : r.Wired) : r.disableWriting.Wired := by
  have hkeep : (~~~Channel.kWriteEvent).getLsbD 0 = true := by decide
  exact Wired.setEvents (by rw [BitVec.getLsbD_and, h.2, hkeep, Bool.true_and])

theorem ofFd_sound (this : P) (fd : ℕ) : Sound ⟨this, .ofFd fd, .empty⟩ := by
  simp [Sound, isRegistered, Channel.ofFd, EPollPoller.empty]

end Registration

end Mymuduo
