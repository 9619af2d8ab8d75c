import Mymuduo.ServerProgress
import Mymuduo.SharedPoller

namespace Mymuduo

open Foundation.Machine

/-- `struct epoll_event`. -/
structure EpollEvent (P : Type) where
  events : BitVec 32
  ptr : Option P

/-- How `epoll_wait` ends: with the descriptors that are ready and what is ready on them,
or with an error. -/
inductive WaitResult
  | ready (fds : List (ℕ × BitVec 32))
  | failed (errno : ℕ)

/-- `epoll_wait` reports descriptors of the epoll set, each of them once, no more than fit
into the array, and nothing but what was asked for, errors and hang-ups. -/
def WaitResult.Answers {P : Type} (epoll : ℕ → Option (BitVec 32 × P)) (maxevents : ℕ) : WaitResult → Prop
  | .ready fds => fds.length ≤ maxevents ∧ (fds.map Prod.fst).Nodup ∧ ∀ e ∈ fds,
      (epoll e.1).any (fun v ↦ e.2 &&& ~~~(v.1 ||| EPOLLERR ||| EPOLLHUP) == 0) = true
  | .failed _ => True

instance {P : Type} (epoll : ℕ → Option (BitVec 32 × P)) (maxevents : ℕ) (r : WaitResult) :
    Decidable (r.Answers epoll maxevents) := by
  cases r <;> unfold WaitResult.Answers <;> infer_instance

/-- The poller of a loop with its array `events_`, `revents_` of its channels and the
`activeChannels_` of the loop. -/
structure EventPoller (P : Type) where
  channels : Channels P
  events_ : List (EpollEvent P)
  revents_ : P → BitVec 32
  activeChannels_ : List P

namespace EventPoller

variable {P : Type}

def kInitEventListSize : ℕ := 16

def blank (n : ℕ) : List (EpollEvent P) := List.replicate n ⟨0, none⟩

def empty : EventPoller P := ⟨.empty, blank kInitEventListSize, fun _ ↦ 0, []⟩

section

variable [DecidableEq P] (p : EventPoller P)

/-- What `epoll_wait` writes into an entry of the array: `event.data` is as `update` set it. -/
def entry (e : ℕ × BitVec 32) : EpollEvent P := ⟨e.2, (p.channels.poller.epoll e.1).map Prod.snd⟩

def epollWait (fds : List (ℕ × BitVec 32)) : EventPoller P :=
  { p with events_ := fds.map p.entry ++ p.events_.drop fds.length }

/-- One round of the loop in `fillActiveChannels`; it fails at a null pointer and behind
the end of the array. -/
def activate (i : ℕ) : Option (EventPoller P) :=
  p.events_[i]?.bind fun e ↦ e.ptr.map fun channel ↦ { p with
    revents_ := Function.update p.revents_ channel e.events
    activeChannels_ := p.activeChannels_ ++ [channel] }

def fillActiveChannels (numEvents : ℕ) : Option (EventPoller P) :=
  (List.range numEvents).foldlM activate p

def resize (n : ℕ) : EventPoller P := { p with events_ := p.events_ ++ blank (n - p.events_.length) }

def poll : WaitResult → Option (EventPoller P)
  | .ready fds =>
    if 0 < fds.length then
      ((p.epollWait fds).fillActiveChannels fds.length).map fun q ↦
        if fds.length = q.events_.length then q.resize (q.events_.length * 2) else q
    else some (p.epollWait fds)
  | .failed _ => some p

end

/-- `poll` is a round of the loop: it clears `activeChannels_` and polls. -/
inductive Act (P : Type)
  | call (a : Channels.Act P)
  | poll (r : WaitResult)

variable [DecidableEq P]

def renew (revents : P → BitVec 32) : Channels.Act P → P → BitVec 32
  | .create this _ => Function.update revents this 0
  | _ => revents

def step (p : EventPoller P) : Act P → Option (EventPoller P)
  | .call a => (p.channels.step a).map fun s ↦ { p with channels := s, revents_ := renew p.revents_ a }
  | .poll r =>
    if r.Answers p.channels.poller.epoll p.events_.length then ({ p with activeChannels_ := [] }).poll r
    else none

/-- The poll fills the whole array. -/
def fills (p : EventPoller P) : Act P → Bool
  | .poll (.ready fds) => 0 < fds.length && fds.length = p.events_.length
  | _ => false

/-- How many polls of a run fill the whole array. -/
def fillings : EventPoller P → List (Act P) → ℕ
  | _, [] => 0
  | p, a :: as => (p.fills a).toNat + ((p.step a).map fun q ↦ fillings q as).getD 0

def Act.creates : Act P → Bool
  | .call (.create _ _) => true
  | _ => false

def Act.destroys : Act P → Bool
  | .call (.destroy _) => true
  | _ => false

def opened (as : List (Act P)) : ℕ := as.countP Act.creates - as.countP Act.destroys

def reported (epoll : ℕ → Option (BitVec 32 × P)) (fds : List (ℕ × BitVec 32)) : List (BitVec 32 × P) :=
  fds.filterMap fun e ↦ (epoll e.1).map fun v ↦ (e.2, v.2)

variable {p q : EventPoller P} {es : List (BitVec 32 × P)}

theorem fillActiveChannels_eq {n : ℕ} (hn : n ≤ es.length)
    (h : ∀ i (hi : i < es.length), p.events_[i]? = some ⟨es[i].1, some es[i].2⟩) :
    p.fillActiveChannels n = some { p with
      revents_ := (es.take n).foldl (fun f e ↦ Function.update f e.2 e.1) p.revents_
      activeChannels_ := p.activeChannels_ ++ (es.take n).map Prod.snd } := by
  induction n with
  | zero => simp [fillActiveChannels]
  | succ n ih =>
    have hlt : n < es.length := hn
    have hprev := ih (Nat.le_of_succ_le hn)
    rw [fillActiveChannels] at hprev
    rw [fillActiveChannels, List.range_succ, List.foldlM_append, hprev]
    simp only [Option.bind_eq_bind, Option.bind_some, List.foldlM_cons, List.foldlM_nil, activate,
      h n hlt, Option.map_some, Option.pure_def]
    rw [List.take_succ_eq_append_getElem hlt, List.foldl_append, List.map_append, List.append_assoc]
    rfl

omit [DecidableEq P] in
theorem reported_cons {epoll : ℕ → Option (BitVec 32 × P)} {fds : List (ℕ × BitVec 32)}
    {e : ℕ × BitVec 32} {v : BitVec 32 × P} (h : epoll e.1 = some v) :
    reported epoll (e :: fds) = (e.2, v.2) :: reported epoll fds := by
  rw [reported, List.filterMap_cons_some (by rw [h]; rfl)]
  rfl

omit [DecidableEq P] in
theorem length_reported {epoll : ℕ → Option (BitVec 32 × P)} {fds : List (ℕ × BitVec 32)}
    (h : ∀ e ∈ fds, (epoll e.1).isSome) : (reported epoll fds).length = fds.length := by
  induction fds with
  | nil => rfl
  | cons e fds ih =>
    rw [List.forall_mem_cons] at h
    obtain ⟨v, hv⟩ := Option.isSome_iff_exists.mp h.1
    rw [reported_cons hv, List.length_cons, List.length_cons, ih h.2]

omit [DecidableEq P] in
theorem entry_eq {fds : List (ℕ × BitVec 32)} (h : ∀ e ∈ fds, (p.channels.poller.epoll e.1).isSome) :
    fds.map p.entry = (reported p.channels.poller.epoll fds).map fun e ↦ ⟨e.1, some e.2⟩ := by
  induction fds with
  | nil => rfl
  | cons e fds ih =>
    rw [List.forall_mem_cons] at h
    obtain ⟨v, hv⟩ := Option.isSome_iff_exists.mp h.1
    rw [reported_cons hv, List.map_cons, List.map_cons, ih h.2, entry, hv]
    rfl

theorem foldl_update_of_not_mem {f : P → BitVec 32} {c : P} (h : c ∉ es.map Prod.snd) :
    es.foldl (fun f e ↦ Function.update f e.2 e.1) f c = f c := by
  induction es generalizing f with
  | nil => rfl
  | cons e es ih =>
    rw [List.map_cons, List.mem_cons, not_or] at h
    rw [List.foldl_cons, ih h.2, Function.update_of_ne h.1]

theorem foldl_update_of_mem {f : P → BitVec 32} (hn : (es.map Prod.snd).Nodup) {e : BitVec 32 × P}
    (he : e ∈ es) : es.foldl (fun f e ↦ Function.update f e.2 e.1) f e.2 = e.1 := by
  induction es generalizing f with
  | nil => simp at he
  | cons d es ih =>
    rw [List.map_cons, List.nodup_cons] at hn
    rcases List.mem_cons.mp he with rfl | he
    · rw [List.foldl_cons, foldl_update_of_not_mem hn.1, Function.update_self]
    · exact ih hn.2 he

structure Polls (p : EventPoller P) (fds : List (ℕ × BitVec 32)) (q : EventPoller P) : Prop where
  channels : q.channels = p.channels
  active : q.activeChannels_ = (reported p.channels.poller.epoll fds).map Prod.snd
  revents : q.revents_ =
    (reported p.channels.poller.epoll fds).foldl (fun f e ↦ Function.update f e.2 e.1) p.revents_
  size : q.events_.length =
    if p.fills (.poll (.ready fds)) = true then p.events_.length * 2 else p.events_.length

/-- `fillActiveChannels` meets no null pointer and stays within the array. -/
theorem step_ready {fds : List (ℕ × BitVec 32)}
    (h : (WaitResult.ready fds).Answers p.channels.poller.epoll p.events_.length) :
    ∃ q, p.step (.poll (.ready fds)) = some q ∧ p.Polls fds q := by
  obtain ⟨hfit, hdistinct, hall⟩ := h
  have hsome : ∀ e ∈ fds, (p.channels.poller.epoll e.1).isSome := by
    intro e he
    obtain ⟨v, hv, -⟩ := (Option.any_eq_true _ _).mp (hall e he)
    simp [hv]
  have hlen := length_reported hsome
  let m : EventPoller P := { p with activeChannels_ := [] }
  have hentry : (m.epollWait fds).events_ =
      (reported p.channels.poller.epoll fds).map (fun e ↦ ⟨e.1, some e.2⟩) ++ p.events_.drop fds.length := by
    rw [← entry_eq hsome]
    rfl
  have hwait : (m.epollWait fds).events_.length = p.events_.length := by
    rw [hentry, List.length_append, List.length_map, hlen, List.length_drop]
    omega
  have hstep : p.step (.poll (.ready fds)) = m.poll (.ready fds) := if_pos ⟨hfit, hdistinct, hall⟩
  have hfill := fillActiveChannels_eq (p := m.epollWait fds) (n := fds.length) (le_of_eq hlen.symm) <| by
    intro i hi
    rw [hentry, List.getElem?_append_left (by simpa using hi)]
    simp [hi]
  rw [← hlen, List.take_length, hlen] at hfill
  by_cases hpos : 0 < fds.length
  · have hpoll : m.poll (.ready fds) = _ := if_pos hpos
    rw [hfill, Option.map_some] at hpoll
    refine ⟨_, hstep.trans hpoll, ?_⟩
    have hfills : p.fills (.poll (.ready fds)) = true ↔ fds.length = p.events_.length := by
      simp [fills, hpos]
    by_cases hfull : fds.length = p.events_.length
    · rw [if_pos (hfull.trans hwait.symm)]
      refine ⟨rfl, rfl, rfl, ?_⟩
      rw [if_pos (hfills.mpr hfull)]
      simp only [resize, blank, List.length_append, List.length_replicate, hwait]
      omega
    · rw [if_neg fun h ↦ hfull (h.trans hwait)]
      refine ⟨rfl, rfl, rfl, ?_⟩
      rw [if_neg (mt hfills.mp hfull)]
      exact hwait
  · obtain rfl := List.eq_nil_of_length_eq_zero (Nat.eq_zero_of_not_pos hpos)
    exact ⟨m.epollWait [], hstep, rfl, rfl, rfl, by simpa [fills] using hwait⟩

theorem step_failed {errno : ℕ} :
    p.step (.poll (.failed errno)) = some { p with activeChannels_ := [] } := by
  simp [step, WaitResult.Answers, poll]

theorem step_channels {a : Act P} (h : p.step a = some q) :
    (∃ r, a = .poll r) ∧ q.channels = p.channels ∨
      ∃ b, a = .call b ∧ p.channels.step b = some q.channels := by
  cases a with
  | call b =>
    simp only [step, Option.map_eq_some_iff] at h
    obtain ⟨s, hs, rfl⟩ := h
    exact Or.inr ⟨b, rfl, hs⟩
  | poll r =>
    have hr : r.Answers p.channels.poller.epoll p.events_.length := by
      by_contra hr
      simp [step, hr] at h
    cases r with
    | ready fds =>
      obtain ⟨q', hq', hpolls⟩ := step_ready hr
      obtain rfl := Option.some.inj (hq'.symm.trans h)
      exact Or.inl ⟨⟨_, rfl⟩, hpolls.channels⟩
    | failed errno =>
      obtain rfl := Option.some.inj (step_failed.symm.trans h)
      exact Or.inl ⟨⟨_, rfl⟩, rfl⟩

theorem coherent_step {a : Act P} (hp : p.channels.Coherent) (h : p.step a = some q) :
    q.channels.Coherent := by
  rcases step_channels h with ⟨-, heq⟩ | ⟨b, -, hb⟩
  · exact heq ▸ hp
  · exact hp.step hb

omit [DecidableEq P] in
theorem reported_fds {s : Channels P} (hs : s.Coherent) {fds : List (ℕ × BitVec 32)}
    (h : ∀ e ∈ fds, (s.poller.epoll e.1).isSome) :
    (reported s.poller.epoll fds).map (fun x ↦ ((s.live x.2).map Channel.fd_, x.1)) =
      fds.map fun e ↦ (some e.1, e.2) := by
  induction fds with
  | nil => rfl
  | cons e fds ih =>
    rw [List.forall_mem_cons] at h
    obtain ⟨v, hv⟩ := Option.isSome_iff_exists.mp h.1
    obtain ⟨this, c, hc, hfd, hw⟩ := (hs.epoll e.1 v).mp hv
    obtain ⟨-, hentry⟩ := Option.ite_none_right_eq_some.mp hw
    obtain rfl := Option.some.inj hentry
    rw [reported_cons hv, List.map_cons, List.map_cons, ih h.2, hc, Option.map_some, hfd]

omit [DecidableEq P] in
theorem reported_nodup {s : Channels P} (hs : s.Coherent) {fds : List (ℕ × BitVec 32)}
    (h : ∀ e ∈ fds, (s.poller.epoll e.1).isSome) (hdistinct : (fds.map Prod.fst).Nodup) :
    ((reported s.poller.epoll fds).map Prod.snd).Nodup := by
  have hfirst := congrArg (List.map Prod.fst) (reported_fds hs h)
  simp only [List.map_map, Function.comp_def] at hfirst
  have hnodup : ((reported s.poller.epoll fds).map fun x ↦ (s.live x.2).map Channel.fd_).Nodup := by
    rw [hfirst]
    have hmap := hdistinct.map (f := some) fun _ _ h ↦ Option.some.inj h
    rwa [List.map_map] at hmap
  refine List.Nodup.of_map (f := fun this ↦ (s.live this).map Channel.fd_) ?_
  rwa [List.map_map]

omit [DecidableEq P] in
theorem mem_reported {s : Channels P} (hs : s.Coherent) {fds : List (ℕ × BitVec 32)} {x : BitVec 32 × P}
    (hx : x ∈ reported s.poller.epoll fds) : ∃ e ∈ fds, x.1 = e.2 ∧ ∃ c, s.live x.2 = some c ∧
      c.index_ = .kAdded ∧ s.poller.epoll e.1 = some (c.events_, x.2) := by
  obtain ⟨e, he, hex⟩ := List.mem_filterMap.mp hx
  obtain ⟨v, hv, rfl⟩ := Option.map_eq_some_iff.mp hex
  obtain ⟨this, c, hc, hfd, hw⟩ := (hs.epoll e.1 v).mp hv
  obtain ⟨hadded, hentry⟩ := Option.ite_none_right_eq_some.mp hw
  obtain rfl := Option.some.inj hentry
  exact ⟨e, he, rfl, c, hc, hadded, hv⟩

theorem step_poll (hp : p.channels.Coherent) {r : WaitResult}
    (hr : r.Answers p.channels.poller.epoll p.events_.length) :
    ∃ q, p.step (.poll r) = some q ∧ q.channels = p.channels ∧ q.activeChannels_.Nodup ∧
      (∀ this ∈ q.activeChannels_, ∃ c, p.channels.live this = some c ∧ c.index_ = .kAdded ∧
        p.channels.poller.hasChannel this c = true ∧
          q.revents_ this &&& ~~~(c.events_ ||| EPOLLERR ||| EPOLLHUP) = 0) ∧
      (∀ this ∉ q.activeChannels_, q.revents_ this = p.revents_ this) ∧
      (∀ fds, r = .ready fds → q.activeChannels_.map
        (fun this ↦ ((p.channels.live this).map Channel.fd_, q.revents_ this)) =
          fds.map fun e ↦ (some e.1, e.2)) ∧
      ∀ errno, r = .failed errno → q.activeChannels_ = [] := by
  cases r with
  | failed errno =>
    exact ⟨_, step_failed, rfl, List.nodup_nil, by simp, by simp, by simp, fun _ _ ↦ rfl⟩
  | ready fds =>
    obtain ⟨q, hq, hchannels, hactive, hrevents, -⟩ := step_ready hr
    obtain ⟨-, hdistinct, hall⟩ := hr
    have hsome : ∀ e ∈ fds, (p.channels.poller.epoll e.1).isSome := by
      intro e he
      obtain ⟨v, hv, -⟩ := (Option.any_eq_true _ _).mp (hall e he)
      simp [hv]
    have hfds := reported_fds hp hsome
    have hnodup := reported_nodup hp hsome hdistinct
    refine ⟨q, hq, hchannels, hactive ▸ hnodup, fun this hthis ↦ ?_, fun this hthis ↦ ?_, ?_, by simp⟩
    · rw [hactive] at hthis
      obtain ⟨x, hx, rfl⟩ := List.mem_map.mp hthis
      obtain ⟨e, he, hrev, c, hc, hadded, hentry⟩ := mem_reported hp hx
      refine ⟨c, hc, hadded, ?_, ?_⟩
      · have hlisted : p.channels.poller.channels_ c.fd_ = c.listed x.2 :=
          (hp.registration hc).channels
        simp [EPollPoller.hasChannel, hlisted, Channel.listed, hadded]
      · have hallowed := hall e he
        rw [hentry] at hallowed
        rw [hrevents, foldl_update_of_mem hnodup hx, hrev]
        simpa using hallowed
    · rw [hrevents]
      exact foldl_update_of_not_mem (hactive ▸ hthis)
    · rintro _ ⟨⟩
      rw [← hfds, hactive, List.map_map]
      refine List.map_congr_left fun x hx ↦ ?_
      rw [Function.comp_apply, hrevents, foldl_update_of_mem hnodup hx]

/-- The active channels of a round are those that the kernel reports, in its order and each
of them once; they are alive, known to the poller and asked for what is reported, up to
errors and hang-ups. The other channels, and what all of them ask for, stay as they are. No
channel is active when `epoll_wait` fails. -/
theorem poll_active {as : List (Act P)} (h : run step empty as = some p) {r : WaitResult}
    (hr : r.Answers p.channels.poller.epoll p.events_.length) :
    ∃ q, p.step (.poll r) = some q ∧ q.channels = p.channels ∧ q.activeChannels_.Nodup ∧
      (∀ this ∈ q.activeChannels_, ∃ c, p.channels.live this = some c ∧ c.index_ = .kAdded ∧
        p.channels.poller.hasChannel this c = true ∧
          q.revents_ this &&& ~~~(c.events_ ||| EPOLLERR ||| EPOLLHUP) = 0) ∧
      (∀ this ∉ q.activeChannels_, q.revents_ this = p.revents_ this) ∧
      (∀ fds, r = .ready fds → q.activeChannels_.map
        (fun this ↦ ((p.channels.live this).map Channel.fd_, q.revents_ this)) =
          fds.map fun e ↦ (some e.1, e.2)) ∧
      ∀ errno, r = .failed errno → q.activeChannels_ = [] :=
  step_poll (run_invariant (I := fun p ↦ p.channels.Coherent) (fun _ _ _ hs h ↦ coherent_step hs h)
    Channels.coherent_empty h) hr

section

def bothReady : List (Act ℕ) :=
  [.call (.create 0 7), .call (.change 0 .enableReading), .call (.create 1 8),
    .call (.change 1 .enableWriting)]

theorem poll_active_bothReady : ∃ p q : EventPoller ℕ, run step empty bothReady = some p ∧
    p.step (.poll (.ready [(8, EPOLLOUT), (7, EPOLLIN ||| EPOLLHUP)])) = some q ∧
      q.activeChannels_.map (fun this ↦ ((p.channels.live this).map Channel.fd_, q.revents_ this)) =
        [(some 8, EPOLLOUT), (some 7, EPOLLIN ||| EPOLLHUP)] := by
  obtain ⟨p, hp, hw⟩ := Option.map_eq_some_iff.mp
    (show (run step empty bothReady).map (fun p : EventPoller ℕ ↦
      decide ((WaitResult.ready [(8, EPOLLOUT), (7, EPOLLIN ||| EPOLLHUP)]).Answers
        p.channels.poller.epoll p.events_.length)) = some true by decide +kernel)
  obtain ⟨q, hq, -, -, -, -, hactive, -⟩ := poll_active hp (of_decide_eq_true hw)
  exact ⟨p, q, hp, hq, hactive _ rfl⟩

end

theorem step_size {a : Act P} (h : p.step a = some q) :
    q.events_.length = if p.fills a = true then p.events_.length * 2 else p.events_.length := by
  cases a with
  | call b =>
    simp only [step, Option.map_eq_some_iff] at h
    obtain ⟨s, -, rfl⟩ := h
    rfl
  | poll r =>
    have hr : r.Answers p.channels.poller.epoll p.events_.length := by
      by_contra hr
      simp [step, hr] at h
    cases r with
    | ready fds =>
      obtain ⟨q', hq', hpolls⟩ := step_ready hr
      obtain rfl := Option.some.inj (hq'.symm.trans h)
      exact hpolls.size
    | failed errno =>
      obtain rfl := Option.some.inj (step_failed.symm.trans h)
      rfl

theorem run_size {as : List (Act P)} (h : run step p as = some q) :
    q.events_.length = p.events_.length * 2 ^ p.fillings as := by
  induction as generalizing p with
  | nil =>
    obtain rfl : p = q := by simpa using h
    simp [fillings]
  | cons a as ih =>
    obtain ⟨m, hm, hq⟩ := run_cons.mp h
    rw [ih hq, step_size hm, fillings, hm, Option.map_some, Option.getD_some]
    cases p.fills a
    · simp
    · rw [if_pos rfl, Bool.toNat_true, pow_add, pow_one, Nat.mul_assoc]

def Lives (s : Channels P) (ps : List P) : Prop := ps.Nodup ∧ ∀ this, (s.live this).isSome ↔ this ∈ ps

theorem fills_le {a : Act P} (hp : p.channels.Coherent) {ps : List P} (hps : Lives p.channels ps)
    (h : p.step a = some q) (hf : p.fills a = true) : p.events_.length ≤ ps.length := by
  cases a with
  | call b => simp [fills] at hf
  | poll r =>
    have hr : r.Answers p.channels.poller.epoll p.events_.length := by
      by_contra hr
      simp [step, hr] at h
    cases r with
    | failed errno => simp [fills] at hf
    | ready fds =>
      simp only [fills, Bool.and_eq_true, decide_eq_true_eq] at hf
      obtain ⟨-, hdistinct, hall⟩ := hr
      have hsome : ∀ e ∈ fds, (p.channels.poller.epoll e.1).isSome := by
        intro e he
        obtain ⟨v, hv, -⟩ := (Option.any_eq_true _ _).mp (hall e he)
        simp [hv]
      have hsub : (reported p.channels.poller.epoll fds).map Prod.snd ⊆ ps := by
        intro this hthis
        obtain ⟨x, hx, rfl⟩ := List.mem_map.mp hthis
        obtain ⟨e, -, -, c, hc, -⟩ := mem_reported hp hx
        exact (hps.2 _).mp (by simp [hc])
      have hle := (List.subperm_of_subset (reported_nodup hp hsome hdistinct) hsub).length_le
      rw [List.length_map, length_reported hsome] at hle
      omega

theorem Lives.step {s t : Channels P} {b : Channels.Act P} {ps : List P} (h : s.step b = some t)
    (hps : Lives s ps) : ∃ qs, Lives t qs ∧
      qs.length + [Act.call b].countP Act.destroys = ps.length + [Act.call b].countP Act.creates := by
  obtain ⟨hn, hmem⟩ := hps
  cases b with
  | create this fd =>
    simp only [Channels.step, Option.ite_none_right_eq_some, Bool.and_eq_true,
      Option.isNone_iff_eq_none, Option.some.injEq] at h
    obtain ⟨⟨hthis, -⟩, rfl⟩ := h
    have hnew : this ∉ ps := fun hin ↦ by simpa [hthis] using (hmem this).mpr hin
    refine ⟨this :: ps, ⟨List.nodup_cons.mpr ⟨hnew, hn⟩, fun q ↦ ?_⟩, rfl⟩
    by_cases hq : q = this
    · simp [hq]
    · simp [hq, hmem]
  | destroy this =>
    simp only [Channels.step] at h
    split at h
    · simp at h
    · next c hc =>
      simp only [Option.ite_none_right_eq_some, Option.some.injEq] at h
      obtain ⟨-, rfl⟩ := h
      have hin : this ∈ ps := (hmem this).mp (by simp [hc])
      refine ⟨ps.erase this, ⟨hn.erase this, fun q ↦ ?_⟩, ?_⟩
      · rw [hn.mem_erase_iff, ← hmem]
        by_cases hq : q = this
        · simp [hq]
        · simp [hq]
      · have hpos := List.length_pos_of_mem hin
        rw [List.length_erase_of_mem hin]
        simp [Act.destroys, Act.creates]
        omega
  | change this i | remove this =>
    simp only [Channels.step, Option.map_eq_some_iff] at h
    obtain ⟨c, hc, rfl⟩ := h
    refine ⟨ps, ⟨hn, fun q ↦ ?_⟩, rfl⟩
    rw [← hmem]
    by_cases hq : q = this
    · simp [Channels.commit, hq, hc]
    · simp [Channels.commit, hq]

/-- The array doubles with each poll that fills it: it holds 16 entries to begin with, and
never more than twice as many as there have been channels at a time. -/
theorem events_grow {as : List (Act P)} (h : run step empty as = some p) {n : ℕ}
    (hn : ∀ bs, bs <+: as → opened bs ≤ n) :
    p.events_.length = kInitEventListSize * 2 ^ fillings empty as ∧
      p.events_.length ≤ max kInitEventListSize (2 * n) := by
  have hstart : (empty : EventPoller P).events_.length = kInitEventListSize := List.length_replicate
  refine ⟨by rw [run_size h, hstart], ?_⟩
  let I : List (Act P) → EventPoller P → Prop := fun bs p ↦ bs <+: as → p.channels.Coherent ∧
    (∃ ps, Lives p.channels ps ∧ ps.length + bs.countP Act.destroys = bs.countP Act.creates) ∧
      p.events_.length ≤ max kInitEventListSize (2 * n)
  have hI : I ([] ++ as) p := by
    refine run_history (I := I) (p := []) ?_ ?_ h
    · intro bs m a q hm hq hbs
      have hprefix := (List.prefix_append bs [a]).trans hbs
      obtain ⟨hcoherent, ⟨ps, hps, hcount⟩, hsize⟩ := hm hprefix
      refine ⟨coherent_step hcoherent hq, ?_, ?_⟩
      · rw [List.countP_append, List.countP_append]
        rcases step_channels hq with ⟨⟨r, rfl⟩, heq⟩ | ⟨b, rfl, hb⟩
        · exact ⟨ps, heq ▸ hps, hcount⟩
        · obtain ⟨qs, hqs, hlen⟩ := hps.step hb
          exact ⟨qs, hqs, by omega⟩
      · rw [step_size hq]
        split
        · next hfills =>
          have hle := fills_le hcoherent hps hq hfills
          have hopened : ps.length = opened bs := by
            rw [opened]
            omega
          have hmost := hn bs hprefix
          omega
        · exact hsize
    · intro _
      exact ⟨Channels.coherent_empty, ⟨[], ⟨List.nodup_nil, by simp [empty, Channels.empty]⟩, rfl⟩,
        by rw [hstart]; exact le_max_left ..⟩
  exact (hI (by simp)).2.2

section

def crowded : List (Act ℕ) :=
  (List.range 16).flatMap (fun c ↦ [.call (.create c c), .call (.change c .enableReading)]) ++
    [.poll (.ready ((List.range 16).map fun c ↦ (c, EPOLLIN)))]

theorem events_grow_crowded : ∃ p : EventPoller ℕ, run step empty crowded = some p ∧
    p.events_.length = kInitEventListSize * 2 ^ fillings empty crowded ∧
      p.events_.length ≤ max kInitEventListSize (2 * 16) := by
  obtain ⟨p, hp⟩ := Option.isSome_iff_exists.mp
    (show (run step (empty : EventPoller ℕ) crowded).isSome = true by decide +kernel)
  refine ⟨p, hp, events_grow hp fun bs hbs ↦ ?_⟩
  have hall : ∀ bs ∈ crowded.inits.map opened, bs ≤ 16 := by decide +kernel
  exact hall _ (List.mem_map_of_mem ((List.mem_inits _ _).mpr hbs))

end

end EventPoller

def Polled.entry (revents : Polled → BitVec 32) : Polled → Option (Source × BitVec 32)
  | .wakeup => none
  | .acceptor => some (.acceptor, revents .acceptor)
  | .conn c => some (.conn c, revents (.conn c))

namespace Reactors

variable {T : Type} [DecidableEq T] {s : Reactors T} {p : Pool T} {name ipPort : String} {fd : ℕ → ℕ}
  {wc hw : Bool} {mark : ℕ} {mem : T → ℕ → Byte} {as : List (Act T)} {wakeupFd : Option ℕ → ℕ}
  {listenFd : ℕ} {i : Option ℕ}

section

end

end Reactors

end Mymuduo
