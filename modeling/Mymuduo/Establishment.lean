import Mymuduo.Confinement

namespace Mymuduo

open Foundation.Machine

variable {T : Type}

namespace Functor

def late : Functor T → Bool
  | .sendInLoop _ | .shutdownInLoop | .notify _ => true
  | .connectEstablished | .connectDestroyed | .foreign _ => false

def isLife : Functor T → Bool
  | .connectEstablished | .connectDestroyed => true
  | _ => false

end Functor

namespace Frame

/-- The frames that exist only once the connection is established. -/
def late : Frame T → Bool
  | .userCode | .send _ _ | .shutdown | .removeChannel => false
  | .functor f | .queueInLoop f => f.late
  | _ => true

/-- The `connectEstablished` or `connectDestroyed` that a frame is about to run or queue. -/
def due : Frame T → Option (Functor T)
  | .functor f | .queueInLoop f => if f.isLife then some f else none
  | _ => none

variable {e : Site T} {c : TcpConnection} {io : Reply} {f : Frame T}

theorem late_runInLoop (cb : Functor T) : (runInLoop e cb).late = cb.late := by
  unfold runInLoop
  split <;> rfl

theorem due_runInLoop (cb : Functor T) : (runInLoop e cb).due = if cb.isLife then some cb else none := by
  unfold runInLoop
  split <;> rfl

theorem due_dispatch (revents : BitVec 32) : (dispatch revents : List (Frame T)).filterMap due = [] := by
  simp only [dispatch, List.filterMap_append, List.append_eq_nil_iff]
  refine ⟨⟨⟨?_, ?_⟩, ?_⟩, ?_⟩ <;> split <;> rfl

/-- Before the connection is established nothing starts work on it. -/
structure Early (c : TcpConnection) (o : Outcome T) : Prop where
  frames : ∀ g ∈ o.frames, g.late = false
  queued : ∀ cb ∈ o.queued, cb.late = false
  unregistered : c.reg.isRegistered = false → o.conn.reg.isRegistered = false
  posted : o.posted = false
  erased : o.erased = false

theorem exec_early (hc : c.state_ = .kConnecting) (hf : f.late = false)
    (hne : f ≠ .functor .connectEstablished) : Early c (f.exec e c io) := by
  cases f with
  | functor cb =>
    cases cb with
    | connectEstablished => exact absurd rfl hne
    | connectDestroyed =>
      simp only [exec, execFunctor, hc]
      exact ⟨by simp [late], by simp, id, rfl, rfl⟩
    | foreign k => exact ⟨by simp [exec, execFunctor, late], by simp [exec, execFunctor], id, rfl, rfl⟩
    | sendInLoop | shutdownInLoop | notify => simp [late, Functor.late] at hf
  | queueInLoop cb =>
    refine ⟨by simp [exec], fun g hg ↦ ?_, id, rfl, rfl⟩
    obtain rfl : cb = g := by simpa [exec] using hg
    exact hf
  | send data len =>
    simp only [exec, hc]
    exact ⟨by simp, by simp, id, rfl, rfl⟩
  | shutdown => exact ⟨by simp [exec, hc], by simp [exec], id, rfl, rfl⟩
  | userCode => exact ⟨by simp [exec], by simp [exec], id, rfl, rfl⟩
  | removeChannel =>
    exact ⟨by simp [exec], by simp [exec], Registration.isRegistered_remove, rfl, rfl⟩
  | _ => simp [late] at hf

inductive Dues (f : Frame T) (o : Outcome T) : Prop
  | idle (hf : f.due = none) (hfs : o.frames.filterMap due = [])
      (hq : o.queued.toList.filter Functor.isLife = [])
  | spawn (hf : f = .removeConnectionInLoop) (hfs : o.frames = [.queueInLoop .connectDestroyed])
      (hq : o.queued = none)
  | start (cb : Functor T) (hf : f = .functor cb) (hcb : cb.isLife = true)
      (hfs : o.frames.filterMap due = []) (hq : o.queued = none)
  | queue (cb : Functor T) (hf : f = .queueInLoop cb) (hcb : cb.isLife = true) (hfs : o.frames = [])
      (hq : o.queued = some cb)

variable (e c io) in
theorem exec_dues (f : Frame T) : Dues f (f.exec e c io) := by
  have hnotice : ∀ n : Option Notice,
      ((n.map Functor.notify : Option (Functor T)).toList.filter Functor.isLife) = [] := by
    intro n
    cases n <;> rfl
  cases f with
  | functor cb =>
    cases cb with
    | connectEstablished => exact .start _ rfl rfl rfl rfl
    | connectDestroyed =>
      refine .start _ rfl rfl ?_ rfl
      simp only [exec, execFunctor]
      split <;> rfl
    | sendInLoop m =>
      simp only [exec, execFunctor]
      split <;> exact .idle rfl rfl rfl
    | shutdownInLoop | notify | foreign => exact .idle rfl rfl rfl
  | queueInLoop cb =>
    cases hcb : cb.isLife with
    | true => exact .queue cb rfl hcb rfl rfl
    | false => exact .idle (by simp [due, hcb]) rfl (by simp [exec, hcb])
  | send data len =>
    simp only [exec]
    split
    · exact .idle rfl (by simp [due_runInLoop, Functor.isLife]) rfl
    · exact .idle rfl rfl rfl
  | writeOrBuffer m => exact .idle rfl rfl (hnotice _)
  | handleEvent revents => exact .idle rfl (due_dispatch revents) rfl
  | handleWrite =>
    refine .idle rfl ?_ (hnotice _)
    simp only [exec]
    split <;> rfl
  | setDisconnecting => exact .idle rfl (by simp [exec, due_runInLoop, Functor.isLife]) rfl
  | shutdown | drained | closeCallback =>
    refine .idle rfl ?_ rfl
    simp only [exec]
    split <;> rfl
  | handleRead =>
    refine .idle rfl ?_ rfl
    simp only [exec]
    cases (c.handleRead io.read).2 <;> rfl
  | removeConnectionInLoop => exact .spawn rfl rfl rfl
  | userCode | destroyConnected | removeChannel | handleClose | handleError | connectionCallback
    | messageCallback => exact .idle rfl rfl rfl

theorem exec_elsewhere {g : Frame T} (hb : e.inBase = false) (hroam : f.roams = true)
    (hf : f.due = none ∧ f ≠ .removeConnectionInLoop) (hg : g ∈ (f.exec e c io).frames) :
    g.due = none ∧ g ≠ .removeConnectionInLoop := by
  refine ⟨?_, ?_⟩
  · cases exec_dues e c io f with
    | idle _ hfs => exact List.filterMap_eq_nil_iff.mp hfs g hg
    | spawn hr => exact absurd hr hf.2
    | start cb hr => simp [hr, roams] at hroam
    | queue cb hr hcb => simp [hr, due, hcb] at hf
  · rintro rfl
    have hbase := exec_removes hg
    simp [hb] at hbase

theorem exec_state_early
    (hf : f.late = false) (hne : f ≠ .functor .connectEstablished) :
    (f.exec e c io).conn.state_ = c.state_ := by
  rcases (exec_turns e c io f).state with
    heq | ⟨rfl, -⟩ | ⟨rfl, -⟩ | ⟨rfl | rfl, -⟩
  · exact heq
  · exact absurd rfl hne
  all_goals simp [late] at hf

end Frame

namespace System

variable [DecidableEq T] {s s' : System T} {a : Act T}

/-- Before `connectEstablished` runs, nothing works on the connection. -/
structure Quiet (s : System T) : Prop where
  frames : ∀ t, ∀ f ∈ s.stack t, f.late = false
  waiting : ∀ f ∈ s.loop.waiting, f.late = false
  unregistered : s.conn.reg.isRegistered = false
  ready : s.ready = none
  removals : s.removals = 0

omit [DecidableEq T] in
theorem ofConnection_quiet (l b : T) (fd : ℕ) (wc hw : Bool) (mark : ℕ) (mem : T → ℕ → Byte) :
    (ofConnection l b (.ofFd fd wc hw mark) mem).Quiet :=
  ⟨by simp [ofConnection], by simp [ofConnection, EventLoop.ofThread, EventLoop.waiting], rfl, rfl, rfl⟩

theorem Step.connecting (h : Step s a s') (hs' : s'.conn.state_ = .kConnecting) :
    s.conn.state_ = .kConnecting := by
  cases h with
  | @exec t io f fs l hst ho hio hl =>
    have hstate : (f.exec (s.site t) s.conn io).conn.state_ = .kConnecting := hs'
    rcases (Frame.exec_turns (s.site t) s.conn io f).state with
      heq | ⟨-, heq⟩ | ⟨-, heq⟩ | ⟨-, heq⟩
    · exact heq ▸ hstate
    all_goals simp [heq] at hstate
  | enter hu he => exact he.conn_eq ▸ hs'
  | assign | retrieve | poll | loop => exact hs'

theorem Quiet.step (hq : s.Quiet) (hc : s.loop.Control) (h : Step s a s')
    (hs' : s'.conn.state_ = .kConnecting) : s'.Quiet := by
  have hs := h.connecting hs'
  cases h.flow hc with
  | exec t io f fs hst hio hst' hw hconn htr hserver hready =>
    have hall := hq.frames t
    rw [hst, List.forall_mem_cons] at hall
    have hne : f ≠ .functor .connectEstablished := by
      rintro rfl
      simp [hconn, Frame.exec, Frame.execFunctor, TcpConnection.setState,
        TcpConnection.enableReading] at hs'
    have hearly : Frame.Early s.conn (f.exec (s.site t) s.conn io) :=
      Frame.exec_early hs hall.1 hne
    refine ⟨fun u ↦ ?_, ?_, ?_, ?_, ?_⟩
    · rw [hst']
      by_cases hu : u = t
      · rw [hu, Function.update_self]
        exact fun g hg ↦ (List.mem_append.mp hg).elim (hearly.frames g) (hall.2 g)
      · rw [Function.update_of_ne hu]
        exact hq.frames u
    · intro cb hcb
      rw [hw, List.mem_append] at hcb
      exact hcb.elim (hq.waiting cb) fun hcb ↦ hearly.queued cb (by simpa using hcb)
    · rw [hconn]
      exact hearly.unregistered hq.unregistered
    · rw [hready, hq.ready]
    · simp [hserver.2.2, hq.removals, hearly.posted]
  | enter t f hu he =>
    have hf : f.late = false ∧ s'.ready = none ∧ s'.removals = 0 := by
      cases he with
      | newConnection | destroyServer => exact ⟨Frame.late_runInLoop _, hq.ready, hq.removals⟩
      | removeConnectionInLoop hr => simp [hq.removals] at hr
      | handleEvent revents hr => simp [hq.ready] at hr
      | send | shutdown => exact ⟨rfl, hq.ready, hq.removals⟩
    refine ⟨fun u ↦ ?_, ?_, ?_, hf.2.1, hf.2.2⟩
    · rw [he.stack_eq]
      by_cases hu : u = t
      · rw [hu, Function.update_self, List.forall_mem_cons]
        exact ⟨hf.1, hq.frames t⟩
      · rw [Function.update_of_ne hu]
        exact hq.frames u
    · rw [he.loop_eq]
      exact hq.waiting
    · rw [he.conn_eq]
      exact hq.unregistered
  | begin cb hst hst' hw hconn htr hserver hready =>
    have hwait := hq.waiting
    rw [hw, List.forall_mem_cons] at hwait
    refine ⟨fun u ↦ ?_, hwait.2, ?_, ?_, ?_⟩
    · rw [hst']
      by_cases hu : u = s.loop.threadId_
      · rw [hu, Function.update_self]
        simpa [Frame.late] using hwait.1
      · rw [Function.update_of_ne hu]
        exact hq.frames u
    · rw [hconn]
      exact hq.unregistered
    · rw [hready, hq.ready]
    · rw [hserver.2.2, hq.removals]
  | idle q hf hst' hw hconn htr hserver hready =>
    obtain ⟨b, hb⟩ := hconn
    refine ⟨?_, ?_, ?_, ?_, ?_⟩
    · rw [hst']
      exact hq.frames
    · intro cb hcb
      rw [hw, List.mem_append] at hcb
      refine hcb.elim (hq.waiting cb) fun hcb ↦ ?_
      have hforeign := hf cb hcb
      cases cb <;> simp_all [Functor.isForeign, Functor.late]
    · rw [hb]
      exact hq.unregistered
    · rcases hready with hready | ⟨-, hready | hready⟩
      · rw [hready, hq.ready]
      · exact hready
      · simp [hq.unregistered] at hready
    · rw [hserver.2.2, hq.removals]

def baseLine (s : System T) : List (Functor T) :=
  if s.base = s.loop.threadId_ then [] else (s.stack s.base).filterMap Frame.due

/-- The calls of `connectEstablished` and `connectDestroyed` still to come, in the
order in which the loop thread will run them. -/
def line (s : System T) : List (Functor T) :=
  (s.stack s.loop.threadId_).filterMap Frame.due ++ s.loop.waiting.filter Functor.isLife ++ s.baseLine

/-- Where a life call can stand: only the loop's and the server's threads hold one,
and the loop thread queues one only where it is the server's as well. -/
structure Placed (s : System T) : Prop where
  homeQueue : ∀ f, .queueInLoop f ∈ s.stack s.loop.threadId_ →
    f = .connectDestroyed ∧ s.base = s.loop.threadId_
  homeRemoval : .removeConnectionInLoop ∈ s.stack s.loop.threadId_ → s.base = s.loop.threadId_
  elsewhere : ∀ t, t ≠ s.loop.threadId_ → t ≠ s.base → ∀ f ∈ s.stack t,
    f.due = none ∧ f ≠ .removeConnectionInLoop

/-- `connectEstablished` is called once, before any `connectDestroyed`. -/
structure Lined (s : System T) : Prop where
  unborn : s.created = false →
    s.line = [] ∧ s.conn.state_ = .kConnecting ∧ s.connections_ = false
  pending : s.created = true → s.conn.state_ = .kConnecting →
    ∃ ds, s.line = .connectEstablished :: ds ∧ ∀ f ∈ ds, f = .connectDestroyed
  done : s.conn.state_ ≠ .kConnecting → ∀ f ∈ s.line, f = .connectDestroyed
  home : s.base = s.loop.threadId_ → s.created = true → s.conn.state_ = .kConnecting →
    ∃ fs, s.stack s.loop.threadId_ = .functor .connectEstablished :: fs

inductive LineStep (s : System T) (f : Frame T) (s' : System T) : Prop
  | same (hf : ∀ cb, f = .functor cb → cb.isLife = false) (hl : s'.line = s.line)
  | spawned (hf : f = .removeConnectionInLoop) (x y : List (Functor T)) (hl : s.line = x ++ y)
      (hl' : s'.line = x ++ .connectDestroyed :: y)
  | started (cb : Functor T) (hf : f = .functor cb) (hl : s.line = cb :: s'.line)
  | queued (hf : f = .queueInLoop .connectDestroyed) (hb : s.base = s.loop.threadId_)
      (hst : ∃ fs, s.stack s.loop.threadId_ = f :: fs) (x : List (Functor T))
      (hl : s.line = .connectDestroyed :: x) (hl' : s'.line = x ++ [.connectDestroyed])

section

variable {t : T} {f : Frame T} {fs : List (Frame T)} {o : Outcome T}

theorem line_home (hp : s.Placed) (hst : s.stack s.loop.threadId_ = f :: fs) (hd : Frame.Dues f o)
    (hL : s'.loop.threadId_ = s.loop.threadId_) (hb : s'.base = s.base)
    (hst' : s'.stack = Function.update s.stack s.loop.threadId_ (o.frames ++ fs))
    (hw : s'.loop.waiting = s.loop.waiting ++ o.queued.toList) : LineStep s f s' := by
  have hbase : s'.baseLine = s.baseLine := by
    simp only [baseLine, hL, hb]
    split
    · rfl
    · next hne => rw [hst', Function.update_of_ne hne]
  have hold : s.line = f.due.toList ++ fs.filterMap Frame.due ++
      s.loop.waiting.filter Functor.isLife ++ s.baseLine := by
    cases hdue : f.due <;> simp [line, hst, hdue]
  have hnew : s'.line = o.frames.filterMap Frame.due ++ fs.filterMap Frame.due ++
      (s.loop.waiting.filter Functor.isLife ++ o.queued.toList.filter Functor.isLife) ++
      s.baseLine := by
    simp [line, hL, hst', hw, hbase]
  cases hd with
  | idle hf hfs hq =>
    refine .same (fun cb hcb ↦ ?_) (by rw [hold, hnew, hf, hfs, hq]; simp)
    simpa [hcb, Frame.due] using hf
  | spawn hf hfs hq =>
    refine .spawned hf [] s.line rfl ?_
    rw [hnew, hold, hf, hfs, hq]
    simp [Frame.due, Functor.isLife]
  | start cb hf hcb hfs hq =>
    refine .started cb hf ?_
    rw [hold, hnew, hf, hfs, hq]
    simp [Frame.due, hcb]
  | queue cb hf hcb hfs hq =>
    obtain ⟨rfl, hbL⟩ := hp.homeQueue cb (by rw [hst, hf]; exact List.mem_cons_self)
    have hnil : s.baseLine = [] := by simp [baseLine, hbL]
    refine .queued hf hbL ⟨fs, hst⟩
      (fs.filterMap Frame.due ++ s.loop.waiting.filter Functor.isLife) ?_ ?_
    · rw [hold, hf, hnil]
      simp [Frame.due, Functor.isLife]
    · rw [hnew, hfs, hq, hnil]
      simp [Functor.isLife]

theorem line_away (hp : s.Placed) (ht : t ≠ s.loop.threadId_) (hst : s.stack t = f :: fs)
    (hroam : f.roams = true) (hd : Frame.Dues f o)
    (hL : s'.loop.threadId_ = s.loop.threadId_) (hb : s'.base = s.base)
    (hst' : s'.stack = Function.update s.stack t (o.frames ++ fs))
    (hw : s'.loop.waiting = s.loop.waiting ++ o.queued.toList) : LineStep s f s' := by
  have hmem : f ∈ s.stack t := by
    rw [hst]
    exact List.mem_cons_self
  have hfun : ∀ cb, f = .functor cb → cb.isLife = false := by
    rintro cb rfl
    simp [Frame.roams] at hroam
  have hnew : s'.line = (s.stack s.loop.threadId_).filterMap Frame.due ++
      (s.loop.waiting.filter Functor.isLife ++ o.queued.toList.filter Functor.isLife) ++
      s'.baseLine := by
    simp [line, hL, hst', hw, Function.update_of_ne ht.symm]
  by_cases htb : t = s.base
  · subst htb
    have hbase : s.baseLine = f.due.toList ++ fs.filterMap Frame.due := by
      cases hdue : f.due <;> simp [baseLine, ht, hst, hdue]
    have hbase' : s'.baseLine = o.frames.filterMap Frame.due ++ fs.filterMap Frame.due := by
      simp [baseLine, hL, hb, ht, hst']
    cases hd with
    | idle hf hfs hq => exact .same hfun (by rw [hnew, line, hbase, hbase', hf, hfs, hq]; simp)
    | spawn hf hfs hq =>
      refine .spawned hf ((s.stack s.loop.threadId_).filterMap Frame.due ++
        s.loop.waiting.filter Functor.isLife) s.baseLine rfl ?_
      rw [hnew, hbase, hbase', hf, hfs, hq]
      simp [Frame.due, Functor.isLife]
    | start cb hf => simp [hf, Frame.roams] at hroam
    | queue cb hf hcb hfs hq =>
      exact .same hfun (by rw [hnew, line, hbase, hbase', hf, hfs, hq]; simp [Frame.due, hcb])
  · have hbase' : s'.baseLine = s.baseLine := by
      simp only [baseLine, hL, hb, hst', Function.update_of_ne (Ne.symm htb)]
    obtain ⟨hdue, hrem⟩ := hp.elsewhere t ht htb f hmem
    cases hd with
    | idle hf hfs hq => exact .same hfun (by rw [hnew, line, hbase', hq]; simp)
    | spawn hf => exact absurd hf hrem
    | start cb hf => simp [hf, Frame.roams] at hroam
    | queue cb hf hcb => simp [hf, Frame.due, hcb] at hdue

end

omit [DecidableEq T] in
theorem ofConnection_placed (l b : T) (c : TcpConnection) (mem : T → ℕ → Byte) :
    (ofConnection l b c mem).Placed :=
  ⟨by simp [ofConnection], by simp [ofConnection], by simp [ofConnection]⟩

theorem Placed.step (hp : s.Placed) (hcf : s.Confined) (hc : s.loop.Control) (h : Step s a s') :
    s'.Placed := by
  have hL := h.threadId_eq
  have hb := h.base_eq
  cases h.flow hc with
  | exec t io f fs hst hio hst' =>
    have hmem : f ∈ s.stack t := by
      rw [hst]
      exact List.mem_cons_self
    have hrest : ∀ g ∈ fs, g ∈ s.stack t := by
      rw [hst]
      exact fun g hg ↦ List.mem_cons_of_mem f hg
    refine ⟨fun cb hcb ↦ ?_, fun hr ↦ ?_, fun u hu hub g hg ↦ ?_⟩
    · rw [hL, hb]
      rw [hL, hst'] at hcb
      by_cases ht : s.loop.threadId_ = t
      · subst ht
        rw [Function.update_self, List.mem_append] at hcb
        rcases hcb with hcb | hcb
        · obtain ⟨rfl, rfl⟩ := Frame.exec_queues (by simp [site]) hcb
          exact ⟨rfl, hp.homeRemoval hmem⟩
        · exact hp.homeQueue cb (hrest _ hcb)
      · rw [Function.update_of_ne ht] at hcb
        exact hp.homeQueue cb hcb
    · rw [hL, hb]
      rw [hL, hst'] at hr
      by_cases ht : s.loop.threadId_ = t
      · subst ht
        rw [Function.update_self, List.mem_append] at hr
        rcases hr with hr | hr
        · have hbase := Frame.exec_removes hr
          simp only [site, decide_eq_true_eq] at hbase
          exact hbase.symm
        · exact hp.homeRemoval (hrest _ hr)
      · rw [Function.update_of_ne ht] at hr
        exact hp.homeRemoval hr
    · rw [hL] at hu
      rw [hb] at hub
      rw [hst'] at hg
      by_cases hut : u = t
      · subst hut
        rw [Function.update_self, List.mem_append] at hg
        rcases hg with hg | hg
        · exact Frame.exec_elsewhere (by simpa [site] using hub) (hcf u hu f hmem)
            (hp.elsewhere u hu hub f hmem) hg
        · exact hp.elsewhere u hu hub g (hrest g hg)
      · rw [Function.update_of_ne hut] at hg
        exact hp.elsewhere u hu hub g hg
  | enter t f huser he =>
    have hentry : (t = s.loop.threadId_ → (∀ cb, f ≠ .queueInLoop cb) ∧
        (f = .removeConnectionInLoop → s.base = s.loop.threadId_)) ∧
        (t ≠ s.base → f.due = none ∧ f ≠ .removeConnectionInLoop) := by
      cases he with
      | newConnection | destroyServer =>
        refine ⟨fun ht ↦ ?_, fun ht ↦ absurd rfl ht⟩
        simp [Frame.runInLoop, site, ht]
      | removeConnectionInLoop => exact ⟨fun ht ↦ ⟨by simp, fun _ ↦ ht⟩, fun ht ↦ absurd rfl ht⟩
      | send | shutdown | handleEvent => simp [Frame.due]
    refine ⟨fun cb hcb ↦ ?_, fun hr ↦ ?_, fun u hu hub g hg ↦ ?_⟩
    · rw [hL, hb]
      rw [hL, he.stack_eq] at hcb
      by_cases ht : s.loop.threadId_ = t
      · rw [ht, Function.update_self, List.mem_cons] at hcb
        rcases hcb with hcb | hcb
        · exact absurd hcb.symm ((hentry.1 ht.symm).1 cb)
        · exact hp.homeQueue cb (ht ▸ hcb)
      · rw [Function.update_of_ne ht] at hcb
        exact hp.homeQueue cb hcb
    · rw [hL, hb]
      rw [hL, he.stack_eq] at hr
      by_cases ht : s.loop.threadId_ = t
      · rw [ht, Function.update_self, List.mem_cons] at hr
        rcases hr with hr | hr
        · exact (hentry.1 ht.symm).2 hr.symm
        · exact hp.homeRemoval (ht ▸ hr)
      · rw [Function.update_of_ne ht] at hr
        exact hp.homeRemoval hr
    · rw [hL] at hu
      rw [hb] at hub
      rw [he.stack_eq] at hg
      by_cases hut : u = t
      · subst hut
        rw [Function.update_self, List.mem_cons] at hg
        rcases hg with rfl | hg
        · exact hentry.2 hub
        · exact hp.elsewhere u hu hub g hg
      · rw [Function.update_of_ne hut] at hg
        exact hp.elsewhere u hu hub g hg
  | begin cb hst hst' =>
    refine ⟨fun cb' hcb ↦ ?_, fun hr ↦ ?_, fun u hu hub g hg ↦ ?_⟩
    · rw [hL, hst', Function.update_self] at hcb
      simp at hcb
    · rw [hL, hst', Function.update_self] at hr
      simp at hr
    · rw [hL] at hu
      rw [hb] at hub
      rw [hst', Function.update_of_ne hu] at hg
      exact hp.elsewhere u hu hub g hg
  | idle q hf hst' =>
    refine ⟨?_, ?_, ?_⟩ <;> rw [hL, hb, hst']
    · exact hp.homeQueue
    · exact hp.homeRemoval
    · exact hp.elsewhere

theorem ofConnection_lined (l b : T) (fd : ℕ) (wc hw : Bool) (mark : ℕ) (mem : T → ℕ → Byte) :
    (ofConnection l b (.ofFd fd wc hw mark) mem).Lined := by
  have hline : (ofConnection l b (.ofFd fd wc hw mark) mem).line = [] := by
    unfold line baseLine
    split <;> rfl
  refine ⟨fun _ ↦ ⟨hline, rfl, rfl⟩, ?_, fun _ ↦ ?_, ?_⟩
  · simp [ofConnection]
  · rw [hline]
    simp
  · simp [ofConnection]

theorem Confined.stack_eq_nil (hcf : s.Confined) {t : T} (ht : t ≠ s.loop.threadId_)
    (hu : s.inUserCode t = true) : s.stack t = [] := by
  have hroam := hcf t ht
  simp only [inUserCode, Bool.and_eq_true] at hu
  cases hst : s.stack t with
  | nil => rfl
  | cons g gs =>
    rw [hst] at hu hroam
    cases g <;> simp_all [Frame.roams]

theorem mem_line_of_frame {f : Frame T} {cb : Functor T} (hf : f ∈ s.stack s.loop.threadId_)
    (hd : f.due = some cb) : cb ∈ s.line :=
  List.mem_append_left _ (List.mem_append_left _ (List.mem_filterMap.mpr ⟨f, hf, hd⟩))

theorem Lined.exec (hs : s.Lined) (hq : s.conn.state_ = .kConnecting → s.Quiet) (hcf : s.Confined)
    {t : T} {io : Reply} {f : Frame T} {fs : List (Frame T)} (hst : s.stack t = f :: fs)
    (hline : LineStep s f s') (hL : s'.loop.threadId_ = s.loop.threadId_) (hb : s'.base = s.base)
    (hst' : s'.stack = Function.update s.stack t ((f.exec (s.site t) s.conn io).frames ++ fs))
    (hconn : s'.conn = (f.exec (s.site t) s.conn io).conn) (hcr : s'.created = s.created)
    (hcs : s'.connections_ = (s.connections_ && !(f.exec (s.site t) s.conn io).erased))
    (hback : s'.conn.state_ = .kConnecting → s.conn.state_ = .kConnecting) : s'.Lined := by
  have hmem : f ∈ s.stack t := by
    rw [hst]
    exact List.mem_cons_self
  have hearly : s.conn.state_ = .kConnecting → f.late = false := fun h ↦ (hq h).frames t f hmem
  have hhome : f = .functor .connectEstablished → t = s.loop.threadId_ := by
    rintro rfl
    exact hcf.of_not_roams hmem rfl
  have hest : f = .functor .connectEstablished → s'.conn.state_ = .kConnected := by
    rintro rfl
    rw [hconn]
    rfl
  refine ⟨fun hc ↦ ?_, fun hc hs' ↦ ?_, fun hs' ↦ ?_, fun hbL hc hs' ↦ ?_⟩
  · obtain ⟨hnil, hstate, hconns⟩ := hs.unborn (hcr ▸ hc)
    have hlate := hearly hstate
    have hne : f ≠ .functor .connectEstablished := by
      intro hf
      have hin : .connectEstablished ∈ s.line :=
        mem_line_of_frame (hhome hf ▸ hmem) (by rw [hf]; rfl)
      simp [hnil] at hin
    refine ⟨?_, ?_, by simp [hcs, hconns]⟩
    · cases hline with
      | same hf hl => rw [hl, hnil]
      | spawned hf => simp [hf, Frame.late] at hlate
      | started cb hf hl => simp [hnil] at hl
      | queued hf hb hst x hl => simp [hnil] at hl
    · rw [hconn, Frame.exec_state_early hlate hne, hstate]
  · have hstate := hback hs'
    obtain ⟨ds, hds, hall⟩ := hs.pending (hcr ▸ hc) hstate
    cases hline with
    | same hf hl => exact ⟨ds, hl.trans hds, hall⟩
    | spawned hf => simpa [hf, Frame.late] using hearly hstate
    | started cb hf hl =>
      obtain ⟨rfl, -⟩ := List.cons.inj (hl.symm.trans hds)
      simp [hest hf] at hs'
    | queued hf hbL hhead x hl =>
      rw [hds] at hl
      simp at hl
  · by_cases hstate : s.conn.state_ = .kConnecting
    · have hf : f = .functor .connectEstablished := by
        by_contra hne
        exact hs' (by rw [hconn, Frame.exec_state_early (hearly hstate) hne, hstate])
      have hin : .connectEstablished ∈ s.line :=
        mem_line_of_frame (hhome hf ▸ hmem) (by rw [hf]; rfl)
      have hc : s.created = true := by
        by_contra hc
        simp [(hs.unborn (by simpa using hc)).1] at hin
      obtain ⟨ds, hds, hall⟩ := hs.pending hc hstate
      cases hline with
      | same hlife hl => exact absurd (hlife _ hf) (by simp [Functor.isLife])
      | spawned hr => simp [hf] at hr
      | started cb hr hl =>
        obtain ⟨-, rfl⟩ := List.cons.inj (hl.symm.trans hds)
        exact hall
      | queued hr => simp [hf] at hr
    · have hall := hs.done hstate
      cases hline with
      | same hf hl => rwa [hl]
      | spawned hf x y hl hl' =>
        rw [hl] at hall
        rw [hl']
        intro g hg
        rw [List.mem_append, List.mem_cons] at hg
        rcases hg with hg | rfl | hg
        · exact hall g (List.mem_append_left y hg)
        · rfl
        · exact hall g (List.mem_append_right x hg)
      | started cb hf hl =>
        rw [hl] at hall
        exact fun g hg ↦ hall g (List.mem_cons_of_mem cb hg)
      | queued hf hbL hhead x hl hl' =>
        rw [hl] at hall
        rw [hl']
        intro g hg
        rcases List.mem_append.mp hg with hg | hg
        · exact hall g (List.mem_cons_of_mem _ hg)
        · exact List.mem_singleton.mp hg
  · rw [hL, hb] at hbL
    have hstate := hback hs'
    obtain ⟨gs, hgs⟩ := hs.home hbL (hcr ▸ hc) hstate
    rw [hL, hst']
    by_cases ht : s.loop.threadId_ = t
    · rw [ht, hst] at hgs
      simp [hest (List.cons.inj hgs).1] at hs'
    · exact ⟨gs, by rw [Function.update_of_ne ht, hgs]⟩

theorem enter_line {t : T} {f : Frame T} (he : Entry s a t f s') :
    (f.due = none → s'.line = s.line) ∧
      ∀ cb, f.due = some cb →
        (t = s.loop.threadId_ → s'.line = cb :: s.line) ∧
          (t ≠ s.loop.threadId_ → t = s.base → ∃ x, s.line = x ++ s.baseLine ∧
            s'.line = x ++ cb :: s.baseLine) := by
  have hcons : ∀ u, (s'.stack u).filterMap Frame.due =
      (if u = t then f.due.toList else []) ++ (s.stack u).filterMap Frame.due := by
    intro u
    rw [he.stack_eq]
    by_cases hu : u = t
    · subst hu
      cases hd : f.due <;> simp [hd]
    · simp [hu]
  refine ⟨fun hd ↦ ?_, fun cb hd ↦ ⟨?_, ?_⟩⟩
  · simp [line, baseLine, he.loop_eq, he.base_eq, hcons, hd]
  · rintro rfl
    by_cases hb : s.base = s.loop.threadId_
    · simp [line, baseLine, he.loop_eq, he.base_eq, hcons, hd, hb]
    · simp [line, baseLine, he.loop_eq, he.base_eq, hcons, hd, hb]
  · rintro ht rfl
    refine ⟨_, rfl, ?_⟩
    simp [line, baseLine, he.loop_eq, he.base_eq, hcons, hd, ht, Ne.symm ht]

theorem Lined.not_inUserCode (hs : s.Lined) (hbL : s.base = s.loop.threadId_) (hc : s.created = true)
    (hstate : s.conn.state_ = .kConnecting) : s.inUserCode s.loop.threadId_ = false := by
  obtain ⟨fs, hfs⟩ := hs.home hbL hc hstate
  simp [inUserCode, hfs]

theorem Lined.enter_newConnection (hs : s.Lined) (hc : s.created = false)
    (he : Entry s a s.base (.runInLoop (s.site s.base) .connectEstablished) s')
    (hcr : s'.created = true) : s'.Lined := by
  obtain ⟨hnil, hstate, -⟩ := hs.unborn hc
  have hdue : (Frame.runInLoop (s.site s.base) .connectEstablished : Frame T).due =
      some .connectEstablished := Frame.due_runInLoop _
  have hline : s'.line = [.connectEstablished] := by
    by_cases hbL : s.base = s.loop.threadId_
    · rw [((enter_line he).2 _ hdue).1 hbL, hnil]
    · obtain ⟨x, hx, hx'⟩ := ((enter_line he).2 _ hdue).2 hbL rfl
      rw [hnil] at hx
      obtain ⟨rfl, hb⟩ := List.append_eq_nil_iff.mp hx.symm
      rw [hx', hb, List.nil_append]
  refine ⟨?_, fun _ _ ↦ ⟨[], hline, by simp⟩, ?_, fun hbL _ _ ↦ ?_⟩
  · simp [hcr]
  · rw [he.conn_eq, hstate]
    simp
  · rw [he.loop_eq, he.base_eq] at hbL
    rw [he.loop_eq, he.stack_eq, ← hbL, Function.update_self]
    exact ⟨s.stack s.base, by simp [Frame.runInLoop, site, hbL]⟩

theorem Lined.enter_destroyServer (hs : s.Lined) (hcf : s.Confined) (hconn : s.connections_ = true)
    (hu : s.inUserCode s.base = true)
    (he : Entry s a s.base (.runInLoop (s.site s.base) .connectDestroyed) s')
    (hcr : s'.created = s.created) : s'.Lined := by
  have hc : s.created = true := by
    by_contra hc
    simp [(hs.unborn (by simpa using hc)).2.2] at hconn
  have hdue : (Frame.runInLoop (s.site s.base) .connectDestroyed : Frame T).due =
      some .connectDestroyed := Frame.due_runInLoop _
  have haway : s.conn.state_ = .kConnecting → s.base ≠ s.loop.threadId_ := by
    intro hstate hbL
    have hno := hs.not_inUserCode hbL hc hstate
    rw [← hbL, hu] at hno
    simp at hno
  have hline : ∃ x y, s.line = x ++ y ∧ s'.line = x ++ .connectDestroyed :: y ∧
      (s.conn.state_ = .kConnecting → y = []) := by
    by_cases hbL : s.base = s.loop.threadId_
    · exact ⟨[], s.line, rfl, ((enter_line he).2 _ hdue).1 hbL, fun h ↦ absurd hbL (haway h)⟩
    · obtain ⟨x, hx, hx'⟩ := ((enter_line he).2 _ hdue).2 hbL rfl
      have hb : s.baseLine = [] := by
        simp [baseLine, hcf.stack_eq_nil hbL hu]
      exact ⟨x, s.baseLine, hx, hx', fun _ ↦ hb⟩
  obtain ⟨x, y, hx, hx', hy⟩ := hline
  refine ⟨?_, fun _ hstate ↦ ?_, fun hstate g hg ↦ ?_, fun hbL _ hstate ↦ ?_⟩
  · simp [hcr, hc]
  · rw [he.conn_eq] at hstate
    obtain ⟨ds, hds, hall⟩ := hs.pending hc hstate
    refine ⟨ds ++ [.connectDestroyed], ?_, ?_⟩
    · rw [hy hstate, List.append_nil] at hx
      rw [hx', hy hstate, ← hx, hds, List.cons_append]
    · intro g hg
      rcases List.mem_append.mp hg with hg | hg
      · exact hall g hg
      · exact List.mem_singleton.mp hg
  · rw [he.conn_eq] at hstate
    have hall := hs.done hstate
    rw [hx] at hall
    rw [hx', List.mem_append, List.mem_cons] at hg
    rcases hg with hg | rfl | hg
    · exact hall g (List.mem_append_left y hg)
    · rfl
    · exact hall g (List.mem_append_right x hg)
  · rw [he.loop_eq, he.base_eq] at hbL
    rw [he.conn_eq] at hstate
    exact absurd hbL (haway hstate)

theorem Lined.enter (hs : s.Lined) (hcf : s.Confined) {t : T} {f : Frame T}
    (hu : s.inUserCode t = true) (he : Entry s a t f s') : s'.Lined := by
  have hplain : f.due = none → s'.created = s.created → s'.connections_ = s.connections_ →
      s'.Lined := by
    intro hd hcr hcs
    have hline := (enter_line he).1 hd
    refine ⟨?_, ?_, ?_, fun hbL hc hstate ↦ ?_⟩
    · rw [hcr, hcs, hline, he.conn_eq]
      exact hs.unborn
    · rw [hcr, hline, he.conn_eq]
      exact hs.pending
    · rw [hline, he.conn_eq]
      exact hs.done
    · rw [he.loop_eq, he.base_eq] at hbL
      rw [hcr] at hc
      rw [he.conn_eq] at hstate
      rw [he.loop_eq, he.stack_eq]
      by_cases ht : s.loop.threadId_ = t
      · have hno := hs.not_inUserCode hbL hc hstate
        rw [ht, hu] at hno
        simp at hno
      · rw [Function.update_of_ne ht]
        exact hs.home hbL hc hstate
  cases he with
  | newConnection hc => exact hs.enter_newConnection hc (.newConnection hc) rfl
  | destroyServer hc => exact hs.enter_destroyServer hcf hc hu (.destroyServer hc) rfl
  | send | shutdown | removeConnectionInLoop | handleEvent => exact hplain rfl rfl rfl

theorem Lined.step (hs : s.Lined) (hp : s.Placed) (hq : s.conn.state_ = .kConnecting → s.Quiet)
    (hcf : s.Confined) (hc : s.loop.Control) (h : Step s a s') : s'.Lined := by
  have hL := h.threadId_eq
  have hb := h.base_eq
  have hback := h.connecting
  cases h.flow hc with
  | exec t io f fs hst hio hst' hw hconn htr hserver =>
    refine hs.exec hq hcf hst ?_ hL hb hst' hconn hserver.1 hserver.2.1 hback
    by_cases ht : t = s.loop.threadId_
    · subst ht
      exact line_home hp hst (Frame.exec_dues _ _ _ f) hL hb hst' hw
    · have hroam := hcf t ht f (by rw [hst]; exact List.mem_cons_self)
      exact line_away hp ht hst hroam (Frame.exec_dues _ _ _ f) hL hb hst' hw
  | enter t f hu he => exact hs.enter hcf hu he
  | begin cb hst hst' hw hconn htr hserver =>
    have hbase : s'.baseLine = s.baseLine := by
      simp only [baseLine, hL, hb]
      split
      · rfl
      · next hne => rw [hst', Function.update_of_ne hne]
    have hline : s'.line = s.line := by
      cases hcb : cb.isLife <;> simp [line, hL, hst, hst', hw, hbase, Frame.due, hcb]
    refine ⟨?_, ?_, ?_, fun hbL hc hstate ↦ ?_⟩
    · rw [hserver.1, hserver.2.1, hline, hconn]
      exact hs.unborn
    · rw [hserver.1, hline, hconn]
      exact hs.pending
    · rw [hline, hconn]
      exact hs.done
    · rw [hL, hb] at hbL
      rw [hserver.1] at hc
      rw [hconn] at hstate
      obtain ⟨fs, hfs⟩ := hs.home hbL hc hstate
      simp [hst] at hfs
  | idle q hf hst' hw hconn htr hserver =>
    obtain ⟨b, hconn⟩ := hconn
    have hlife : q.filter Functor.isLife = [] := by
      rw [List.filter_eq_nil_iff]
      intro cb hcb
      have hforeign := hf cb hcb
      cases cb <;> simp_all [Functor.isForeign, Functor.isLife]
    have hline : s'.line = s.line := by
      simp [line, baseLine, hL, hb, hst', hw, hlife]
    refine ⟨?_, ?_, ?_, ?_⟩
    · rw [hserver.1, hserver.2.1, hline, hconn]
      exact hs.unborn
    · rw [hserver.1, hline, hconn]
      exact hs.pending
    · rw [hline, hconn]
      exact hs.done
    · rw [hserver.1, hL, hb, hst', hconn]
      exact hs.home

/-- The connection is set up once, by `connectEstablished`, before anything works on it. -/
structure Established (s : System T) : Prop where
  quiet : s.conn.state_ = .kConnecting → s.Quiet
  placed : s.Placed
  lined : s.Lined

theorem ofConnection_established (l b : T) (fd : ℕ) (wc hw : Bool) (mark : ℕ) (mem : T → ℕ → Byte) :
    (ofConnection l b (.ofFd fd wc hw mark) mem).Established :=
  ⟨fun _ ↦ ofConnection_quiet l b fd wc hw mark mem, ofConnection_placed l b _ mem,
    ofConnection_lined l b fd wc hw mark mem⟩

theorem Established.step (hs : s.Established) (hcf : s.Confined) (hc : s.loop.Control)
    (h : Step s a s') : s'.Established :=
  ⟨fun hs' ↦ (hs.quiet (h.connecting hs')).step hc h hs', hs.placed.step hcf hc h,
    hs.lined.step hs.placed hs.quiet hcf hc h⟩

theorem Lined.not_destroying (hs : s.Lined) {fs : List (Frame T)}
    (hst : s.stack s.loop.threadId_ = .functor .connectDestroyed :: fs) :
    s.conn.state_ ≠ .kConnecting := by
  intro hstate
  have hline : ∃ x, s.line = .connectDestroyed :: x := by
    simp [line, hst, Frame.due, Functor.isLife]
  obtain ⟨x, hx⟩ := hline
  by_cases hc : s.created = true
  · obtain ⟨ds, hds, -⟩ := hs.pending hc hstate
    simp [hx] at hds
  · rw [Bool.not_eq_true] at hc
    simp [(hs.unborn hc).1] at hx

theorem Established.not_again (hs : s.Established) (hstate : s.conn.state_ ≠ .kConnecting) :
    .functor .connectEstablished ∉ s.stack s.loop.threadId_ := by
  intro hmem
  have hin : .connectEstablished ∈ s.line := mem_line_of_frame hmem rfl
  have hd := hs.lined.done hstate _ hin
  simp at hd

theorem Established.of_late (hs : s.Established) {t : T} {f : Frame T} (hf : f ∈ s.stack t)
    (hl : f.late = true) : s.conn.state_ ≠ .kConnecting := by
  intro hstate
  simp [(hs.quiet hstate).frames t f hf] at hl

end System

end Mymuduo
