import Mymuduo.Foundation.Directory
import Mymuduo.Foundation.Machine
import Mymuduo.Poller

namespace Mymuduo

open Foundation.Machine Foundation.Directory

variable {P : Type}

inductive Interest
  | enableReading
  | disableReading
  | enableWriting
  | disableWriting
  | disableAll
  deriving DecidableEq

def Interest.mask (events : BitVec 32) : Interest → BitVec 32
  | .enableReading => events ||| Channel.kReadEvent
  | .disableReading => events &&& ~~~Channel.kReadEvent
  | .enableWriting => events ||| Channel.kWriteEvent
  | .disableWriting => events &&& ~~~Channel.kWriteEvent
  | .disableAll => Channel.kNoneEvent

namespace Channel

/-- What the epoll set holds for a channel. -/
def watched (this : P) (c : Channel) : Option (BitVec 32 × P) :=
  if c.index_ = .kAdded then some (c.events_, this) else none

/-- What `channels_` holds for a channel. -/
def listed (this : P) (c : Channel) : Option P :=
  if c.index_ = .kNew then none else some this

end Channel

namespace EPollPoller

def record (p : EPollPoller P) (this : P) (c : Channel) : EPollPoller P :=
  { p with
    channels_ := Function.update p.channels_ c.fd_ (c.listed this)
    epoll := Function.update p.epoll c.fd_ (c.watched this) }

end EPollPoller

namespace Registration

variable {r : Registration P}

def change (r : Registration P) : Interest → Registration P
  | .enableReading => r.enableReading
  | .disableReading => r.disableReading
  | .enableWriting => r.enableWriting
  | .disableWriting => r.disableWriting
  | .disableAll => r.disableAll

theorem change_eq (i : Interest) : r.change i = r.setEvents (i.mask r.channel.events_) := by
  cases i <;> rfl

/-- The poller's two entries for the descriptor are those of the channel. -/
structure Coherent (r : Registration P) : Prop where
  epoll : r.poller.epoll r.channel.fd_ = r.channel.watched r.this
  channels : r.poller.channels_ r.channel.fd_ = r.channel.listed r.this

theorem Coherent.sound (h : r.Coherent) : r.Sound := by
  simp only [Sound, isRegistered, h.epoll, Channel.watched]
  split <;> simp_all

theorem Coherent.setEvents_poller (h : r.Coherent) (e : BitVec 32) :
    (r.setEvents e).poller = r.poller.record r.this (r.setEvents e).channel := by
  obtain ⟨hepoll, hchannels⟩ := h
  simp only [Channel.watched, Channel.listed] at hepoll hchannels
  simp only [setEvents, EPollPoller.updateChannel, EPollPoller.record]
  cases hi : r.channel.index_ with
  | kNew =>
    simp only [hi, reduceCtorEq, if_false] at hepoll
    simp [EPollPoller.update, hepoll, Channel.watched, Channel.listed]
  | kDeleted =>
    simp only [hi, reduceCtorEq, if_false] at hepoll hchannels
    simp [EPollPoller.update, hepoll, Channel.watched, Channel.listed, ← hchannels]
  | kAdded =>
    simp only [hi, reduceCtorEq, if_true, if_false] at hepoll hchannels ⊢
    split <;> simp [EPollPoller.update, hepoll, Channel.watched, Channel.listed, ← hchannels]

theorem Coherent.remove_poller (h : r.Coherent) :
    r.remove.poller = r.poller.record r.this r.remove.channel := by
  obtain ⟨hepoll, hchannels⟩ := h
  simp only [Channel.watched] at hepoll
  simp only [remove, EPollPoller.removeChannel, EPollPoller.record]
  split
  · next hi =>
    simp only [hi, if_true] at hepoll
    simp [EPollPoller.update, hepoll, Channel.watched, Channel.listed]
  · next hi =>
    simp only [hi, if_false] at hepoll
    simp [Channel.watched, Channel.listed, ← hepoll]

theorem coherent_record {this : P} {c : Channel} {p : EPollPoller P} :
    Coherent ⟨this, c, p.record this c⟩ := by
  constructor <;> simp [EPollPoller.record]

theorem Coherent.setEvents (h : r.Coherent) (e : BitVec 32) : (r.setEvents e).Coherent := by
  have hp := h.setEvents_poller e
  constructor <;> rw [hp]
  · exact coherent_record.epoll
  · exact coherent_record.channels

theorem Coherent.remove (h : r.Coherent) : r.remove.Coherent := by
  have hp := h.remove_poller
  constructor <;> rw [hp]
  · exact coherent_record.epoll
  · exact coherent_record.channels

end Registration

/-- Channels at their addresses with the poller of their loop; `owner` is the table of
descriptors in use. -/
structure Channels (P : Type) where
  live : P → Option Channel
  owner : ℕ → Option P
  poller : EPollPoller P

namespace Channels

inductive Act (P : Type)
  | create (this : P) (fd : ℕ)
  | destroy (this : P)
  | change (this : P) (i : Interest)
  | remove (this : P)

def empty : Channels P := ⟨fun _ ↦ none, fun _ ↦ none, .empty⟩

/-- The three tables are those of the live channels, and no `epoll_ctl` call has failed. -/
structure Coherent (s : Channels P) : Prop where
  owner : Lists s.live Channel.fd_ (fun this _ ↦ some this) s.owner
  epoll : Lists s.live Channel.fd_ Channel.watched s.poller.epoll
  channels : Lists s.live Channel.fd_ Channel.listed s.poller.channels_
  failed : s.poller.failed = false
  fatal : s.poller.fatal = false

theorem coherent_empty : (empty : Channels P).Coherent :=
  ⟨lists_empty, lists_empty, lists_empty, rfl, rfl⟩

def registration (s : Channels P) (this : P) (c : Channel) : Registration P := ⟨this, c, s.poller⟩

theorem Coherent.registration {s : Channels P} {this : P} {c : Channel} (h : s.Coherent)
    (hc : s.live this = some c) : (s.registration this c).Coherent :=
  ⟨h.epoll.get h.owner.distinct hc, h.channels.get h.owner.distinct hc⟩

variable [DecidableEq P] (s : Channels P)

def commit (this : P) (r : Registration P) : Channels P :=
  { s with live := Function.update s.live this (some r.channel), poller := r.poller }

def step (s : Channels P) : Act P → Option (Channels P)
  | .create this fd =>
    if (s.live this).isNone && (s.owner fd).isNone then
      some { s with
        live := Function.update s.live this (some (.ofFd fd))
        owner := Function.update s.owner fd (some this) }
    else none
  | .destroy this =>
    match s.live this with
    | none => none
    | some c =>
      if c.index_ = .kNew then
        some { s with
          live := Function.update s.live this none, owner := Function.update s.owner c.fd_ none }
      else none
  | .change this i =>
    (s.live this).map fun c ↦ s.commit this ((s.registration this c).change i)
  | .remove this => (s.live this).map fun c ↦ s.commit this (s.registration this c).remove

variable {s} {t : Channels P} {a : Act P} {this : P} {c : Channel}

namespace Coherent

theorem commit (h : s.Coherent) (hc : s.live this = some c) {r : Registration P}
    (hfd : r.channel.fd_ = c.fd_) (hr : r.poller = s.poller.record this r.channel) :
    (s.commit this r).Coherent := by
  have hd := h.owner.distinct
  constructor
  · exact (h.owner.set hd hc hfd).of_update (h.owner.get hd hc)
  · simpa [Channels.commit, hr, EPollPoller.record, hfd] using h.epoll.set hd hc hfd
  · simpa [Channels.commit, hr, EPollPoller.record, hfd] using h.channels.set hd hc hfd
  · simpa [Channels.commit, hr, EPollPoller.record] using h.failed
  · simpa [Channels.commit, hr, EPollPoller.record] using h.fatal

theorem create (h : s.Coherent) {fd : ℕ} (hthis : s.live this = none) (hfd : s.owner fd = none) :
    ({ s with
      live := Function.update s.live this (some (.ofFd fd))
      owner := Function.update s.owner fd (some this) } : Channels P).Coherent := by
  have hfree : ∀ q u, s.live q = some u → u.fd_ ≠ (Channel.ofFd fd).fd_ := by
    intro q u hu hk
    have hq := (h.owner fd q).mpr ⟨q, u, hu, hk, rfl⟩
    simp [hfd] at hq
  constructor
  · exact h.owner.add hthis hfree
  · exact (h.epoll.add hthis hfree).of_update (h.epoll.vacant hfree)
  · exact (h.channels.add hthis hfree).of_update (h.channels.vacant hfree)
  · exact h.failed
  · exact h.fatal

theorem destroy (h : s.Coherent) (hc : s.live this = some c) (hi : c.index_ = .kNew) :
    ({ s with
      live := Function.update s.live this none
      owner := Function.update s.owner c.fd_ none } : Channels P).Coherent := by
  have hd := h.owner.distinct
  have hwatched : s.poller.epoll c.fd_ = none := by
    rw [h.epoll.get hd hc, Channel.watched, hi]
    rfl
  have hlisted : s.poller.channels_ c.fd_ = none := by
    rw [h.channels.get hd hc, Channel.listed, hi]
    rfl
  constructor
  · exact h.owner.drop hd hc
  · exact (h.epoll.drop hd hc).of_update hwatched
  · exact (h.channels.drop hd hc).of_update hlisted
  · exact h.failed
  · exact h.fatal

theorem step (h : s.Coherent) (ht : s.step a = some t) : t.Coherent := by
  cases a with
  | create this fd =>
    simp only [Channels.step, Option.ite_none_right_eq_some, Bool.and_eq_true,
      Option.isNone_iff_eq_none, Option.some.injEq] at ht
    obtain ⟨⟨hthis, hfd⟩, rfl⟩ := ht
    exact h.create hthis hfd
  | destroy this =>
    simp only [Channels.step] at ht
    split at ht
    · simp at ht
    · next c hc =>
      simp only [Option.ite_none_right_eq_some, Option.some.injEq] at ht
      obtain ⟨hi, rfl⟩ := ht
      exact h.destroy hc hi
  | change this i =>
    simp only [Channels.step, Option.map_eq_some_iff] at ht
    obtain ⟨c, hc, rfl⟩ := ht
    have hr := h.registration hc
    rw [Registration.change_eq]
    exact h.commit hc (Registration.setEvents_fd ..) (hr.setEvents_poller _)
  | remove this =>
    simp only [Channels.step, Option.map_eq_some_iff] at ht
    obtain ⟨c, hc, rfl⟩ := ht
    have hr := h.registration hc
    exact h.commit hc rfl hr.remove_poller

end Coherent

/-- After every operation the index of a channel, the epoll set and `channels_` agree,
and no `epoll_ctl` call fails. -/
theorem registrations_coherent {as : List (Act P)} (h : run step empty as = some s) :
    (∀ this c, s.live this = some c →
      ((s.poller.epoll c.fd_).isSome ↔ c.index_ = .kAdded) ∧
      (∀ events p, s.poller.epoll c.fd_ = some (events, p) → events = c.events_ ∧ p = this) ∧
      (s.poller.hasChannel this c = true ↔ c.index_ ≠ .kNew)) ∧
    (∀ fd, (s.poller.epoll fd).isSome → ∃ this c, s.live this = some c ∧ c.fd_ = fd) ∧
    (∀ fd this, s.poller.channels_ fd = some this ↔
      ∃ c, s.live this = some c ∧ c.fd_ = fd ∧ c.index_ ≠ .kNew) ∧
    s.poller.failed = false ∧ s.poller.fatal = false := by
  have hs : s.Coherent := run_invariant (fun s a t hs ht ↦ hs.step ht) coherent_empty h
  refine ⟨?_, ?_, ?_, hs.failed, hs.fatal⟩
  · intro this c hc
    obtain ⟨hepoll, hchannels⟩ := hs.registration hc
    simp only [registration] at hepoll hchannels
    refine ⟨?_, ?_, ?_⟩
    · rw [hepoll, Channel.watched]
      split <;> simp_all
    · intro events p hp
      rw [hepoll, Channel.watched, Option.ite_none_right_eq_some, Option.some.injEq,
        Prod.mk.injEq] at hp
      exact ⟨hp.2.1.symm, hp.2.2.symm⟩
    · rw [EPollPoller.hasChannel, hchannels, Channel.listed]
      split <;> simp_all
  · intro fd hfd
    obtain ⟨v, hv⟩ := Option.isSome_iff_exists.mp hfd
    obtain ⟨this, c, hc, hk, -⟩ := (hs.epoll fd v).mp hv
    exact ⟨this, c, hc, hk⟩
  · intro fd this
    rw [hs.channels fd this]
    constructor
    · intro hl
      obtain ⟨p, c, hc, hk, he⟩ := hl
      rw [Channel.listed, Option.ite_none_left_eq_some, Option.some.injEq] at he
      obtain ⟨hi, rfl⟩ := he
      exact ⟨c, hc, hk, hi⟩
    · intro hl
      obtain ⟨c, hc, hk, hi⟩ := hl
      exact ⟨this, c, hc, hk, if_neg hi⟩

theorem registrations_coherent_reused :
    ∃ s, run step (empty : Channels ℕ)
        [.create 0 7, .create 1 8, .change 0 .enableReading, .change 1 .disableAll,
          .change 0 .disableAll, .change 0 .disableAll, .remove 0, .destroy 0, .create 2 7,
          .change 2 .enableWriting] = some s ∧
      s.poller.failed = false ∧ s.poller.fatal = false := by
  obtain ⟨s, hs⟩ := Option.isSome_iff_exists.mp (show (run step (empty : Channels ℕ)
    [.create 0 7, .create 1 8, .change 0 .enableReading, .change 1 .disableAll,
      .change 0 .disableAll, .change 0 .disableAll, .remove 0, .destroy 0, .create 2 7,
      .change 2 .enableWriting]).isSome = true by decide +kernel)
  exact ⟨s, hs, (registrations_coherent hs).2.2.2⟩

end Channels

end Mymuduo
