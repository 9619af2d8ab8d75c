import Mymuduo.PollerCoherence

namespace Mymuduo

open Foundation.Machine

def Interest.disables : Interest → Bool
  | .enableReading | .enableWriting => false
  | .disableReading | .disableWriting | .disableAll => true

theorem Interest.mask_ne_none {i : Interest} (hi : i.disables = false) (events : BitVec 32) :
    i.mask events ≠ Channel.kNoneEvent := by
  have hread : ∀ e : BitVec 32, e ||| Channel.kReadEvent ≠ Channel.kNoneEvent := by
    intro e he
    have hbit := congrArg (fun x ↦ x.getLsbD 0) he
    simp [Channel.kReadEvent, Channel.kNoneEvent, EPOLLIN, EPOLLPRI] at hbit
  have hwrite : ∀ e : BitVec 32, e ||| Channel.kWriteEvent ≠ Channel.kNoneEvent := by
    intro e he
    have hbit := congrArg (fun x ↦ x.getLsbD 2) he
    simp [Channel.kWriteEvent, Channel.kNoneEvent, EPOLLOUT] at hbit
  cases i with
  | enableReading => exact hread events
  | enableWriting => exact hwrite events
  | disableReading | disableWriting | disableAll => simp [disables] at hi

theorem Interest.mask_idem {i : Interest} (hi : i.disables = true) (events : BitVec 32) :
    i.mask (i.mask events) = i.mask events := by
  cases i with
  | enableReading | enableWriting => simp [disables] at hi
  | disableReading | disableWriting => simp [mask, BitVec.and_assoc]
  | disableAll => rfl

inductive ChannelCall
  | change (i : Interest)
  | remove
  deriving DecidableEq

namespace Registration

variable {P : Type} {r : Registration P} {a : ChannelCall} {i : Interest}

def call (r : Registration P) : ChannelCall → Registration P
  | .change i => r.change i
  | .remove => r.remove

@[simp] theorem call_change : r.call (.change i) = r.change i := rfl

@[simp] theorem call_remove : r.call .remove = r.remove := rfl

def callStep (r : Registration P) (a : ChannelCall) : Option (Registration P) := some (r.call a)

structure Fresh (r : Registration P) : Prop where
  channel : r.channel = .ofFd r.channel.fd_
  epoll : r.poller.epoll r.channel.fd_ = none
  channels : r.poller.channels_ r.channel.fd_ = none

/-- The epoll set shows the mask that the channel has after the call. -/
def Shown (r : Registration P) (a : ChannelCall) : Prop :=
  ((r.call a).channel.events_ = Channel.kNoneEvent → (r.call a).isRegistered = false) ∧
  (a ≠ .remove → (r.call a).channel.events_ ≠ Channel.kNoneEvent →
    (r.call a).poller.epoll (r.call a).channel.fd_ = some ((r.call a).channel.events_, r.this))

/-- A disable call empties the mask only of a channel that is in the epoll set. -/
def Spares (r : Registration P) : ChannelCall → Prop
  | .change i =>
    i.disables = true → i.mask r.channel.events_ = Channel.kNoneEvent → r.channel.index_ = .kAdded
  | .remove => True

def Idempotent (r : Registration P) (as : List ChannelCall) : Prop :=
  ∀ p i q, as = p ++ .change i :: .change i :: q → i.disables = true →
    ∀ s, run callStep r p = some s →
      ((s.change i).change i).poller.epoll s.channel.fd_ = (s.change i).poller.epoll s.channel.fd_

theorem Fresh.coherent (h : r.Fresh) : r.Coherent := by
  have hi : r.channel.index_ = .kNew := by
    rw [h.channel]
    rfl
  constructor
  · simp [h.epoll, Channel.watched, hi]
  · simp [h.channels, Channel.listed, hi]

theorem Coherent.call (h : r.Coherent) (a : ChannelCall) : (r.call a).Coherent := by
  cases a with
  | change i =>
    rw [call_change, change_eq]
    exact h.setEvents _
  | remove => exact h.remove

theorem Coherent.callStep {s : Registration P} (h : r.Coherent) (hs : callStep r a = some s) :
    s.Coherent := by
  obtain rfl : r.call a = s := Option.some.inj hs
  exact h.call a

@[simp] theorem change_events : (r.change i).channel.events_ = i.mask r.channel.events_ := by
  rw [change_eq, setEvents_events]

@[simp] theorem change_fd : (r.change i).channel.fd_ = r.channel.fd_ := by
  rw [change_eq, setEvents_fd]

@[simp] theorem change_this : (r.change i).this = r.this := by
  rw [change_eq, setEvents_this]

theorem change_index_of_added (hi : r.channel.index_ = .kAdded)
    (hm : i.mask r.channel.events_ = Channel.kNoneEvent) :
    (r.change i).channel.index_ = .kDeleted := by
  simp [change_eq, setEvents, EPollPoller.updateChannel, hi, Channel.isNoneEvent, hm]

theorem change_index_of_absent (hi : r.channel.index_ ≠ .kAdded) :
    (r.change i).channel.index_ = .kAdded := by
  cases hindex : r.channel.index_ with
  | kNew | kDeleted => simp [change_eq, setEvents, EPollPoller.updateChannel, hindex]
  | kAdded => exact absurd hindex hi

theorem Coherent.isRegistered (h : r.Coherent) :
    r.isRegistered = true ↔ r.channel.index_ = .kAdded := h.sound.symm

theorem Coherent.registered (h : r.Coherent) (hi : r.channel.index_ = .kAdded) :
    r.poller.epoll r.channel.fd_ = some (r.channel.events_, r.this) := by
  rw [h.epoll, Channel.watched, if_pos hi]

theorem Coherent.shown_iff (h : r.Coherent) : r.Shown a ↔ r.Spares a := by
  cases a with
  | remove =>
    have hnew : ¬ (r.remove).isRegistered = true := by
      rw [h.remove.isRegistered]
      simp [Registration.remove, EPollPoller.removeChannel]
    simp only [Bool.not_eq_true] at hnew
    simp [Shown, Spares, hnew]
  | change i =>
    have hc : (r.change i).Coherent := h.call (.change i)
    by_cases hm : i.mask r.channel.events_ = Channel.kNoneEvent
    · have hd : i.disables = true := by
        cases hd : i.disables with
        | true => rfl
        | false => exact absurd hm (Interest.mask_ne_none hd _)
      simp only [Shown, Spares, call_change, change_events, hm, hd, ne_eq, not_true, false_implies,
        implies_true, and_true, forall_const]
      rw [← Bool.not_eq_true, hc.isRegistered]
      by_cases hi : r.channel.index_ = .kAdded
      · simp [hi, change_index_of_added hi hm]
      · simp [hi, change_index_of_absent hi]
    · have hi : (r.change i).channel.index_ = .kAdded := by
        rw [change_eq]
        exact setEvents_index hm
      have hshown := hc.registered hi
      simp only [change_fd, change_events, change_this] at hshown
      simp [Shown, Spares, hm, hshown]

theorem Fresh.idempotent {as : List ChannelCall} (h : r.Fresh) (hG : Along callStep Spares r as) :
    Idempotent r as := by
  intro p i q has hd s hs
  rw [has] at hG
  have hrest := (hG.append hs).2
  have hspare : (s.change i).Spares (.change i) := (hrest.tail rfl).1
  have hsc : s.Coherent := run_invariant (fun _ _ _ hI ht ↦ hI.callStep ht) h.coherent hs
  have hidem := Interest.mask_idem hd s.channel.events_
  have hshown : s.Shown (.change i) := hsc.shown_iff.mpr hrest.1
  have hshown' := (hsc.call (.change i)).shown_iff.mpr hspare
  by_cases hm : i.mask s.channel.events_ = Channel.kNoneEvent
  · have hnone := hshown.1 (by simpa using hm)
    have hnone' := hshown'.1 (by simpa [hidem] using hm)
    simp only [call_change, Registration.isRegistered, change_fd, Option.isSome_eq_false_iff,
      Option.isNone_iff_eq_none] at hnone hnone'
    rw [hnone, hnone']
  · have hsome := hshown.2 (by simp) (by simpa using hm)
    have hsome' := hshown'.2 (by simp) (by simpa [hidem] using hm)
    simp only [call_change, change_fd, change_events, change_this, hidem] at hsome hsome'
    rw [hsome, hsome']

/-- The epoll set shows the mask after every call, and repeated disable calls change
nothing, exactly as long as no disable call leaves an empty mask on a channel that is
not in the epoll set. -/
theorem silent_unregistered {as : List ChannelCall} (h : r.Fresh) :
    Along callStep Shown r as ∧ Idempotent r as ↔ Along callStep Spares r as := by
  have hiff : Along callStep Shown r as ↔ Along callStep Spares r as :=
    along_congr (fun _ _ _ hI _ ht ↦ hI.callStep ht) (fun _ _ hI ↦ hI.shown_iff) h.coherent
  constructor
  · intro hs
    exact hiff.mp hs.1
  · intro hG
    exact ⟨hiff.mpr hG, h.idempotent hG⟩

theorem silent_unregistered_listening :
    Along callStep Shown (⟨(), .ofFd 7, .empty⟩ : Registration Unit)
      [.change .enableReading, .change .disableAll, .remove] := by
  refine ((silent_unregistered ⟨rfl, rfl, rfl⟩).mpr ?_).1
  refine ⟨fun h ↦ by simp [Interest.disables] at h, fun s hs ↦ ?_⟩
  obtain rfl := Option.some.inj hs
  refine ⟨fun _ _ ↦ by decide, fun t _ ↦ ⟨trivial, fun _ _ ↦ trivial⟩⟩

theorem silent_registered :
    ¬ (∀ as, Along callStep Shown (⟨(), .ofFd 7, .empty⟩ : Registration Unit) as) ∧
    (Registration.change ⟨(), .ofFd 7, .empty⟩ .disableAll).poller.epoll 7 = some (0, ()) ∧
    (((Registration.change (⟨(), .ofFd 7, .empty⟩ : Registration Unit) .enableReading).change
      .disableAll).change .disableAll).poller.epoll 7 = some (0, ()) := by
  refine ⟨?_, by decide, by decide⟩
  intro h
  have hfirst := (h [.change .disableAll]).1.1
  exact absurd (hfirst (by decide)) (by decide)

end Registration

end Mymuduo
