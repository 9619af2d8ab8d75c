import Mymuduo.Lifecycle
import Mymuduo.ReactorView
import Mymuduo.WriteInterest

namespace Mymuduo

open Foundation.Machine

variable {T : Type}

namespace Frame

/-- The frames that lead to the removal of a closed connection from the map. -/
def removes : Frame T → Bool
  | .closeCallback | .removeConnectionInLoop => true
  | _ => false

/-- The frames of a call of `connectDestroyed`, or that lead to one. -/
def tearsDown : Frame T → Bool
  | .functor .connectDestroyed | .queueInLoop .connectDestroyed | .removeChannel => true
  | _ => false

variable {e : Site T} {c d : TcpConnection} {io : Reply} {f : Frame T}

theorem removes_runInLoop (cb : Functor T) : (runInLoop e cb).removes = false := by
  unfold runInLoop
  split <;> rfl

theorem tearsDown_runInLoop {cb : Functor T} (hcb : cb ≠ .connectDestroyed) :
    (runInLoop e cb).tearsDown = false := by
  unfold runInLoop
  split <;> cases cb <;> first | rfl | exact absurd rfl hcb

theorem countP_dispatch {p : Frame T → Bool}
    (hp : ∀ g, g = .handleClose ∨ g = .handleError ∨ g = .handleRead ∨ g = .handleWrite → p g = false)
    (revents : BitVec 32) : (dispatch revents : List (Frame T)).countP p = 0 := by
  rw [List.countP_eq_zero]
  intro g hg
  simp [hp g (mem_dispatch hg)]

theorem countP_readBranch {p : Frame T → Bool}
    (hp : ∀ g, g = .messageCallback ∨ g = .handleClose ∨ g = .handleError → p g = false)
    (r : TcpConnection.Reading) : [readBranch r].countP p = 0 := by
  have hr : p (readBranch r) = false := by
    apply hp
    cases r
    · exact Or.inl rfl
    · exact Or.inr (Or.inl rfl)
    · exact Or.inr (Or.inr rfl)
  simp [hr]

section

variable [DecidableEq T]

theorem count_notify (n : Option Notice) {cb : Functor T} (hcb : ∀ n, cb ≠ .notify n) :
    (n.map Functor.notify).toList.count cb = 0 := by
  cases n with
  | none => rfl
  | some n => simp [Ne.symm (hcb n)]

variable (e c io)

/-- Each close brings about one removal, which `removeConnectionInLoop` uses up. -/
theorem exec_removes_count (hf : f ≠ .destroyConnected) :
    (f.exec e c io).frames.countP removes + (f.exec e c io).posted.toNat + (f.exec e c io).erased.toNat =
      f.removes.toNat + (f.exec e c io).obs.count .closed := by
  cases f with
  | destroyConnected => exact absurd rfl hf
  | functor cb =>
    cases cb with
    | connectDestroyed | sendInLoop =>
      simp only [exec, execFunctor]
      split <;> simp [removes]
    | shutdownInLoop =>
      simp only [exec, execFunctor]
      split <;> simp [removes]
    | connectEstablished | notify | foreign => simp [exec, execFunctor, removes]
  | send data len =>
    simp only [exec]
    split
    · simp only [List.countP_singleton, removes_runInLoop]
      rfl
    · rfl
  | shutdown | drained | closeCallback =>
    simp only [exec]
    split <;> simp_all [removes]
  | writeOrBuffer m =>
    simp only [exec]
    split <;> split <;> simp [removes]
  | handleWrite =>
    simp only [exec]
    split <;> split <;> simp [removes]
  | handleEvent revents =>
    simp only [exec]
    rw [countP_dispatch (by rintro g (rfl | rfl | rfl | rfl) <;> rfl)]
    rfl
  | handleRead =>
    simp only [exec]
    rw [countP_readBranch (by rintro g (rfl | rfl | rfl) <;> rfl)]
    rfl
  | setDisconnecting =>
    simp only [exec, List.countP_singleton, removes_runInLoop]
    rfl
  | userCode | queueInLoop | removeChannel | handleClose | handleError | connectionCallback
    | messageCallback | removeConnectionInLoop => simp [exec, removes]

theorem exec_tearsDown_count (f : Frame T) :
    (f.exec e c io).frames.countP tearsDown + (f.exec e c io).queued.toList.count .connectDestroyed +
        (f.exec e c io).obs.count .destroyed = f.tearsDown.toNat + (f.exec e c io).erased.toNat := by
  cases f with
  | functor cb =>
    cases cb with
    | connectDestroyed | sendInLoop =>
      simp only [exec, execFunctor]
      split <;> simp [tearsDown]
    | shutdownInLoop =>
      simp only [exec, execFunctor]
      split <;> simp [tearsDown]
    | connectEstablished | notify | foreign => simp [exec, execFunctor, tearsDown]
  | send data len =>
    simp only [exec]
    split
    · rw [List.countP_singleton, tearsDown_runInLoop (by simp)]
      rfl
    · rfl
  | shutdown | drained | closeCallback =>
    simp only [exec]
    split <;> simp_all [tearsDown]
  | writeOrBuffer m =>
    simp only [exec]
    rw [count_notify _ (by simp)]
    split <;> split <;> simp [tearsDown]
  | handleWrite =>
    simp only [exec]
    rw [count_notify _ (by simp)]
    split <;> split <;> simp [tearsDown]
  | handleEvent revents =>
    simp only [exec]
    rw [countP_dispatch (by rintro g (rfl | rfl | rfl | rfl) <;> rfl)]
    rfl
  | handleRead =>
    simp only [exec]
    rw [countP_readBranch (by rintro g (rfl | rfl | rfl) <;> rfl)]
    rfl
  | queueInLoop cb => cases cb <;> simp [exec, tearsDown]
  | setDisconnecting =>
    have hcb : (.shutdownInLoop : Functor T) ≠ .connectDestroyed := by simp
    simp only [exec, List.countP_singleton, tearsDown_runInLoop hcb]
    rfl
  | userCode | destroyConnected | removeChannel | handleClose | handleError | connectionCallback
    | messageCallback | removeConnectionInLoop => simp [exec, tearsDown]

end

theorem dispatch_ofEvent_count {revents : BitVec 32} (hp : Plain revents) :
    (dispatch revents : List (Frame T)).countP ofEvent ≤ 1 := by
  have herror : ∀ p : Prop, [Decidable p] →
      (if p then [handleError] else [] : List (Frame T)).countP ofEvent = 0 := by
    intro p _
    split <;> rfl
  have hwrite : ∀ p : Prop, [Decidable p] →
      (if p then [handleWrite] else [] : List (Frame T)).countP ofEvent = 0 := by
    intro p _
    split <;> rfl
  simp only [dispatch, List.countP_append, herror, hwrite, add_zero]
  split
  · next hclose =>
    simp only [Bool.and_eq_true, bne_iff_ne, beq_iff_eq] at hclose
    have hpri : revents &&& EPOLLPRI = 0 := by
      by_contra hne
      exact hp ⟨hne, hclose⟩
    have hread : revents &&& (EPOLLIN ||| EPOLLPRI) = 0 := by
      rw [BitVec.and_or_distrib_left, hclose.2, hpri]
      rfl
    simp [hread, ofEvent]
  · split <;> simp [ofEvent]

variable (e c io) in
theorem exec_ofEvent_count (hp : ∀ r, f = .handleEvent r → Plain r) :
    (f.exec e c io).frames.countP ofEvent ≤ f.ofEvent.toNat := by
  by_cases hf : f.ofEvent = true
  · rw [hf]
    cases f with
    | handleEvent r => exact dispatch_ofEvent_count (hp r rfl)
    | handleRead =>
      simp only [exec, List.countP_singleton]
      split <;> simp
    | handleClose => simp [exec, ofEvent]
    | _ => simp [ofEvent] at hf
  · have hnone : (f.exec e c io).frames.countP ofEvent = 0 := by
      rw [List.countP_eq_zero]
      intro g hg hev
      exact hf (exec_ofEvent hg hev)
    rw [hnone]
    exact Nat.zero_le _

structure Proper (st : StateE) (f : Frame T) : Prop where
  timely : f.Timely st
  whole : f ≠ .destroyConnected
  event : f.ofEvent = true → st ≠ .kDisconnected
  writes : ∀ m, f = .writeOrBuffer m → st ≠ .kDisconnected
  stores : f = .setDisconnecting → st = .kConnected
  destroys : f.tearsDown = true → st = .kDisconnected

namespace Proper

variable (e io) in
theorem disconnected_iff (hf : f.Proper c.state_) :
    (f.exec e c io).conn.state_ = .kDisconnected ↔ c.state_ = .kDisconnected ∨ f = .handleClose := by
  constructor
  · intro h
    rcases (exec_turns e c io f).state with heq | ⟨-, heq⟩ | ⟨-, heq⟩ | ⟨hclose, -⟩
    · exact Or.inl (heq ▸ h)
    · simp [heq] at h
    · simp [heq] at h
    · exact Or.inr (hclose.resolve_left hf.whole)
  · intro h
    rcases h with h | rfl
    · rcases (exec_turns e c io f).state with heq | ⟨hest, -⟩ | ⟨hset, -⟩ | ⟨-, heq⟩
      · exact heq.trans h
      · simp [hf.timely.established hest] at h
      · simp [hf.stores hset] at h
      · exact heq
    · rfl

theorem attended (hf : f.Proper c.state_) (hc : c.Attended) : (f.exec e c io).conn.Attended := by
  by_cases hr : f = .removeChannel
  · subst hr
    have hclosed := hf.destroys rfl
    refine ⟨hc.sound.remove, fun hopen ↦ ?_, fun _ ↦ ?_⟩
    · have hstate : c.state_ = .kConnected ∨ c.state_ = .kDisconnecting := hopen
      simp [hclosed] at hstate
    · obtain ⟨hw, hreg⟩ := hc.idle hclosed
      exact ⟨(TcpConnection.isWriting_remove (c := c)).trans hw, Registration.isRegistered_remove hreg⟩
  · by_cases hm : f = .messageCallback
    · subst hm
      exact hc
    · refine (exec_turns e c io f).attended hc ?_ hf.timely hr
      cases f with
      | setDisconnecting => exact hf.stores rfl
      | destroyConnected => exact absurd rfl hf.whole
      | handleClose | handleEvent => exact hf.event rfl
      | messageCallback => exact absurd rfl hm
      | writeOrBuffer m => exact hf.writes m rfl
      | _ => trivial

theorem reg (hf : f.Proper c.state_) (hc : c.Attended) (hst : c.state_ = .kDisconnected)
    (hr : f ≠ .removeChannel) : (f.exec e c io).conn.reg = c.reg := by
  have hturns := exec_turns e c io f
  generalize (f.exec e c io).conn = d at hturns ⊢
  cases hturns with
  | same | disconnecting | read => rfl
  | established => simp [hf.timely.established rfl] at hst
  | destroyed => exact absurd rfl hf.whole
  | closed => exact absurd hst (hf.event rfl)
  | removed => exact absurd rfl hr
  | sent m => exact absurd hst (hf.writes m rfl)
  | written =>
    have hw := (hc.idle hst).1
    simp [TcpConnection.handleWrite, hw]

theorem reg_connecting (hf : f.Proper c.state_) (hst : (f.exec e c io).conn.state_ = .kConnecting)
    (hr : f ≠ .removeChannel) : (f.exec e c io).conn.reg = c.reg := by
  have hturns := exec_turns e c io f
  generalize (f.exec e c io).conn = d at hturns hst ⊢
  cases hturns with
  | same | disconnecting | read => rfl
  | established | destroyed | closed =>
    simp [TcpConnection.setState, TcpConnection.enableReading, TcpConnection.disableAll] at hst
  | removed => exact absurd rfl hr
  | sent m => exact absurd (TcpConnection.state_sendInLoop.symm.trans hst) (hf.timely.late rfl)
  | written => exact absurd (TcpConnection.state_handleWrite.symm.trans hst) (hf.timely.late rfl)

end Proper

end Frame

namespace System

variable [DecidableEq T] {s s' : System T} {a : Act T} {t : T} {io : Reply} {f : Frame T}
  {fs gs : List (Frame T)} {p : Frame T → Bool}

def calls (s : System T) (p : Frame T → Bool) : ℕ :=
  (s.stack s.loop.threadId_).countP p +
    if s.base = s.loop.threadId_ then 0 else (s.stack s.base).countP p

def removing (s : System T) : ℕ := s.removals + s.calls Frame.removes

def destroying (s : System T) : ℕ :=
  s.loop.waiting.count .connectDestroyed + s.calls Frame.tearsDown

theorem calls_update (hL : s'.loop.threadId_ = s.loop.threadId_) (hb : s'.base = s.base)
    (hst' : s'.stack = Function.update s.stack t gs)
    (hin : t = s.loop.threadId_ ∨ t = s.base ∨ gs.countP p = (s.stack t).countP p) :
    s'.calls p + (s.stack t).countP p = s.calls p + gs.countP p := by
  have hstack : ∀ u, (s'.stack u).countP p = if u = t then gs.countP p else (s.stack u).countP p := by
    intro u
    rw [hst']
    by_cases hu : u = t
    · rw [if_pos hu, hu, Function.update_self]
    · rw [if_neg hu, Function.update_of_ne hu]
  simp only [calls, hL, hb, hstack]
  by_cases ht : s.loop.threadId_ = t
  · by_cases hbL : s.base = s.loop.threadId_
    · rw [if_pos ht, if_pos hbL, if_pos hbL, ht]
      omega
    · rw [if_pos ht, if_neg hbL, if_neg hbL, if_neg (ht ▸ hbL), ht]
      omega
  · by_cases hbt : s.base = t
    · have hbL : s.base ≠ s.loop.threadId_ := fun h ↦ ht (h.symm.trans hbt)
      rw [if_neg ht, if_neg hbL, if_neg hbL, if_pos hbt, hbt]
      omega
    · have hsame : gs.countP p = (s.stack t).countP p := by
        rcases hin with h | h | h
        · exact absurd h.symm ht
        · exact absurd h.symm hbt
        · exact h
      rw [if_neg ht, if_neg hbt]
      omega

theorem calls_pos (hin : t = s.loop.threadId_ ∨ t = s.base) (hf : f ∈ s.stack t) (hp : p f = true) :
    0 < s.calls p := by
  have hpos : 0 < (s.stack t).countP p := List.countP_pos_iff.mpr ⟨f, hf, hp⟩
  unfold calls
  rcases hin with rfl | rfl
  · omega
  · split
    · next hbL =>
      rw [hbL] at hpos
      omega
    · omega

theorem exists_of_calls_pos (h : 0 < s.calls p) : ∃ t, ∃ f ∈ s.stack t, p f = true := by
  unfold calls at h
  by_cases hL : 0 < (s.stack s.loop.threadId_).countP p
  · exact ⟨_, List.countP_pos_iff.mp hL⟩
  · have hb : 0 < (s.stack s.base).countP p := by
      split at h
      · omega
      · omega
    exact ⟨_, List.countP_pos_iff.mp hb⟩

omit [DecidableEq T] in
theorem unmarked_of_roams (hroam : f.roams = true) (hf : f.due = none ∧ f ≠ .removeConnectionInLoop) :
    f.removes = false ∧ f.tearsDown = false := by
  obtain ⟨hdue, hrem⟩ := hf
  cases f with
  | functor cb | queueInLoop cb =>
    cases cb <;> simp_all [Frame.removes, Frame.tearsDown, Frame.due, Functor.isLife]
  | removeConnectionInLoop => exact absurd rfl hrem
  | closeCallback | removeChannel => simp [Frame.roams] at hroam
  | _ => exact ⟨rfl, rfl⟩

omit [DecidableEq T] in
theorem Placed.unmarked (hp : s.Placed) (hcf : s.Confined) (ht : t ≠ s.loop.threadId_)
    (hb : t ≠ s.base) (hf : f ∈ s.stack t) : f.removes = false ∧ f.tearsDown = false :=
  unmarked_of_roams (hcf t ht f hf) (hp.elsewhere t ht hb f hf)

theorem calls_exec (hp : s.Placed) (hcf : s.Confined) (hst : s.stack t = f :: fs)
    (hL : s'.loop.threadId_ = s.loop.threadId_) (hb : s'.base = s.base)
    (hst' : s'.stack = Function.update s.stack t ((f.exec (s.site t) s.conn io).frames ++ fs))
    (hmark : p = Frame.removes ∨ p = Frame.tearsDown) :
    s'.calls p + (p f).toNat = s.calls p + (f.exec (s.site t) s.conn io).frames.countP p := by
  have hmem : f ∈ s.stack t := by
    rw [hst]
    exact List.mem_cons_self
  have hcount := calls_update (p := p) hL hb hst' <| by
    by_cases ht : t = s.loop.threadId_
    · exact Or.inl ht
    by_cases htb : t = s.base
    · exact Or.inr (Or.inl htb)
    right; right
    have hnone : (f.exec (s.site t) s.conn io).frames.countP p = 0 := by
      rw [List.countP_eq_zero]
      intro g hg
      have hroam := Frame.exec_roams (site_inLoop ht) (hcf t ht f hmem) hg
      have hdue := Frame.exec_elsewhere (by simpa [site] using htb) (hcf t ht f hmem)
        (hp.elsewhere t ht htb f hmem) hg
      have hboth := unmarked_of_roams hroam hdue
      rcases hmark with rfl | rfl
      · simp [hboth.1]
      · simp [hboth.2]
    have hboth := hp.unmarked hcf ht htb hmem
    rw [List.countP_append, hnone, hst, List.countP_cons]
    rcases hmark with rfl | rfl
    · simp [hboth.1]
    · simp [hboth.2]
  rw [hst, List.countP_cons, List.countP_append] at hcount
  cases hpf : p f <;> simp only [hpf, if_true, Bool.false_eq_true, if_false, Bool.toNat_true,
    Bool.toNat_false] at hcount ⊢ <;> omega

theorem calls_push (hL : s'.loop.threadId_ = s.loop.threadId_) (hb : s'.base = s.base)
    (hst' : s'.stack = Function.update s.stack t (f :: s.stack t))
    (hin : t = s.loop.threadId_ ∨ t = s.base ∨ p f = false) : s'.calls p = s.calls p + (p f).toNat := by
  have hcount := calls_update (p := p) hL hb hst' <| by
    rcases hin with h | h | h
    · exact Or.inl h
    · exact Or.inr (Or.inl h)
    · exact Or.inr (Or.inr (by simp [h]))
  rw [List.countP_cons] at hcount
  cases hpf : p f <;> simp only [hpf, if_true, Bool.false_eq_true, if_false, Bool.toNat_true,
    Bool.toNat_false] at hcount ⊢ <;> omega

theorem Entry.marks {strict : Prop} (he : Entry s a t f s') (hG : s.Civil strict a)
    (hn : s.created = false → s.connections_ = false) :
    f.tearsDown = false ∧ (t = s.loop.threadId_ ∨ t = s.base ∨ f.removes = false) ∧
      s'.removals + f.removes.toNat = s.removals ∧
      s'.connections_.toNat + s.created.toNat = s.connections_.toNat + s'.created.toNat := by
  cases he with
  | newConnection hc =>
    refine ⟨Frame.tearsDown_runInLoop (by simp), Or.inr (Or.inl rfl), ?_, ?_⟩
    · rw [Frame.removes_runInLoop]
      rfl
    · rw [hc, hn hc]
      rfl
  | destroyServer => exact absurd hG not_false
  | removeConnectionInLoop hr =>
    refine ⟨rfl, Or.inr (Or.inl rfl), ?_, rfl⟩
    simp only [Frame.removes, Bool.toNat_true]
    omega
  | send | shutdown | handleEvent => exact ⟨rfl, Or.inr (Or.inr rfl), rfl, rfl⟩

/-- A connection is closed once. The close is followed by one removal from the map, the
removal by one call of `connectDestroyed`. -/
structure Settles (s : System T) : Prop where
  state : .closed ∈ s.trace ↔ s.conn.state_ = .kDisconnected
  first : s.trace.count .closed ≤ 1
  due : s.trace.count .closed = s.removing + s.destroying + s.trace.count .destroyed
  entry : s.connections_.toNat + s.destroying + s.trace.count .destroyed = s.created.toNat

theorem ofConnection_settles (l b : T) (fd : ℕ) (wc hw : Bool) (mark : ℕ) (mem : T → ℕ → Byte) :
    (ofConnection l b (.ofFd fd wc hw mark) mem).Settles := by
  have hcalls : ∀ p, (ofConnection l b (.ofFd fd wc hw mark) mem).calls p = 0 := by
    intro p
    unfold calls
    split <;> rfl
  refine ⟨?_, Nat.zero_le _, ?_, ?_⟩
  · simp [ofConnection, TcpConnection.ofFd]
  · rw [removing, destroying, hcalls, hcalls]
    rfl
  · rw [destroying, hcalls]
    rfl

theorem Settles.congr (hs : s.Settles) (hstate : s'.conn.state_ = s.conn.state_)
    (hcl : s'.trace.count .closed = s.trace.count .closed)
    (hd : s'.trace.count .destroyed = s.trace.count .destroyed) (hr : s'.removing = s.removing)
    (htear : s'.destroying = s.destroying)
    (hent : s'.connections_.toNat + s.created.toNat = s.connections_.toNat + s'.created.toNat) :
    s'.Settles := by
  obtain ⟨hclosed, hfirst, hdue, hentry⟩ := hs
  refine ⟨?_, by omega, by omega, by omega⟩
  rw [hstate, ← hclosed, ← List.count_pos_iff, ← List.count_pos_iff, hcl]

theorem Settles.held (hs : s.Settles) (he : s.Established) (hcf : s.Confined)
    (hmem : .removeConnectionInLoop ∈ s.stack t) : s.connections_ = true := by
  have hcreated : s.created = true := by
    by_contra hc
    exact he.of_late hmem rfl (he.lined.unborn (by simpa using hc)).2.1
  have hpos : 0 < s.calls Frame.removes := by
    refine calls_pos ?_ hmem rfl
    by_contra hin
    rw [not_or] at hin
    simpa [Frame.removes] using (he.placed.unmarked hcf hin.1 hin.2 hmem).1
  have hdue := hs.due
  have hfirst := hs.first
  have hentry := hs.entry
  rw [hcreated, Bool.toNat_true] at hentry
  rw [removing] at hdue
  have hone : s.connections_.toNat = 1 := by omega
  simpa [Bool.toNat_eq_one] using hone

theorem Settles.exec (hs : s.Settles) (he : s.Established) (hcf : s.Confined)
    (hst : s.stack t = f :: fs) (hf : f.Proper s.conn.state_)
    (hL : s'.loop.threadId_ = s.loop.threadId_) (hb : s'.base = s.base)
    (hst' : s'.stack = Function.update s.stack t ((f.exec (s.site t) s.conn io).frames ++ fs))
    (hw : s'.loop.waiting = s.loop.waiting ++ (f.exec (s.site t) s.conn io).queued.toList)
    (hconn : s'.conn = (f.exec (s.site t) s.conn io).conn)
    (htr : s'.trace = s.trace ++ (f.exec (s.site t) s.conn io).obs)
    (hserver : s'.created = s.created ∧
      s'.connections_ = (s.connections_ && !(f.exec (s.site t) s.conn io).erased) ∧
      s'.removals = s.removals + (f.exec (s.site t) s.conn io).posted.toNat) : s'.Settles := by
  have hmem : f ∈ s.stack t := by
    rw [hst]
    exact List.mem_cons_self
  have hcalls := calls_exec he.placed hcf hst hL hb hst' (Or.inl rfl)
  have hcalls' := calls_exec he.placed hcf hst hL hb hst' (Or.inr rfl)
  have hcount := Frame.exec_removes_count (s.site t) s.conn io hf.whole
  have hcount' := Frame.exec_tearsDown_count (s.site t) s.conn io f
  generalize ho : f.exec (s.site t) s.conn io = o at *
  have hr : s'.removing + o.erased.toNat = s.removing + o.obs.count .closed := by
    simp only [removing, hserver.2.2]
    omega
  have hd : s'.destroying + o.obs.count .destroyed = s.destroying + o.erased.toNat := by
    simp only [destroying, hw, List.count_append]
    omega
  have hcl : s'.trace.count .closed = s.trace.count .closed + o.obs.count .closed := by
    rw [htr, List.count_append]
  have hde : s'.trace.count .destroyed = s.trace.count .destroyed + o.obs.count .destroyed := by
    rw [htr, List.count_append]
  have hclose : .closed ∈ o.obs ↔ f = .handleClose := by
    constructor
    · intro hin
      rw [← ho] at hin
      cases Frame.exec_shows hin with
      | destroyed => exact absurd rfl hf.whole
      | closed => rfl
    · rintro rfl
      simp [← ho, Frame.exec]
  have hent : s'.connections_.toNat + o.erased.toNat = s.connections_.toNat := by
    rw [hserver.2.1]
    cases her : o.erased with
    | false => simp
    | true =>
      obtain rfl := Frame.exec_erased (ho ▸ her)
      simp [hs.held he hcf hmem]
  obtain ⟨hclosed, hfirst, hdue, hentry⟩ := hs
  refine ⟨?_, ?_, by omega, by rw [hserver.1]; omega⟩
  · rw [hconn, ← ho, hf.disconnected_iff, ← hclosed, htr, List.mem_append, hclose]
  · by_cases hfc : f = .handleClose
    · have hopen : s.trace.count .closed = 0 := by
        rw [List.count_eq_zero, hclosed]
        exact hf.event (by rw [hfc]; rfl)
      have hone : o.obs.count .closed = 1 := by
        rw [← ho, hfc]
        simp [Frame.exec]
      omega
    · have hnone : o.obs.count .closed = 0 := by
        rw [List.count_eq_zero, hclose]
        exact hfc
      omega

theorem Settles.enter (hs : s.Settles) (he : s.Established) {strict : Prop} (hG : s.Civil strict a)
    (hen : Entry s a t f s') : s'.Settles := by
  obtain ⟨htear, hin, hr, hent⟩ := hen.marks hG fun hc ↦ (he.lined.unborn hc).2.2
  have hL : s'.loop.threadId_ = s.loop.threadId_ := by rw [hen.loop_eq]
  have hcalls := calls_push (p := Frame.removes) hL hen.base_eq hen.stack_eq hin
  have hcalls' := calls_push (p := Frame.tearsDown) hL hen.base_eq hen.stack_eq
    (Or.inr (Or.inr htear))
  rw [htear, Bool.toNat_false, add_zero] at hcalls'
  have hcount : ∀ o : Obs T, (∀ u, o ≠ .shutdownCalled u) → s'.trace.count o = s.trace.count o := by
    intro o ho
    rcases hen.trace_eq with htr | ⟨u, htr⟩
    · rw [htr]
    · rw [htr, List.count_append, List.count_singleton, if_neg (by simpa using Ne.symm (ho u)), add_zero]
  refine hs.congr (by rw [hen.conn_eq]) (hcount _ (by simp)) (hcount _ (by simp)) ?_ ?_ hent
  · rw [removing, removing, hcalls]
    omega
  · rw [destroying, destroying, hcalls', hen.loop_eq]

theorem Settles.begin (hs : s.Settles) {cb : Functor T} (hst : s.stack s.loop.threadId_ = [])
    (hL : s'.loop.threadId_ = s.loop.threadId_) (hb : s'.base = s.base)
    (hst' : s'.stack = Function.update s.stack s.loop.threadId_ [.functor cb])
    (hw : s.loop.waiting = cb :: s'.loop.waiting) (hconn : s'.conn = s.conn)
    (htr : s'.trace = s.trace) (hserver : s'.created = s.created ∧
      s'.connections_ = s.connections_ ∧ s'.removals = s.removals) : s'.Settles := by
  have hpush : s'.stack = Function.update s.stack s.loop.threadId_
      (.functor cb :: s.stack s.loop.threadId_) := by rw [hst', hst]
  have hcalls := calls_push (p := Frame.removes) hL hb hpush (Or.inl rfl)
  have hcalls' := calls_push (p := Frame.tearsDown) hL hb hpush (Or.inl rfl)
  refine hs.congr (by rw [hconn]) (by rw [htr]) (by rw [htr]) ?_ ?_ (by rw [hserver.1, hserver.2.1])
  · rw [removing, removing, hcalls, hserver.2.2]
    rfl
  · rw [destroying, destroying, hcalls', hw]
    cases cb <;> simp [Frame.tearsDown]
    omega

theorem Settles.idle (hs : s.Settles) {q : List (Functor T)} (hf : ∀ cb ∈ q, cb.isForeign = true)
    (hL : s'.loop.threadId_ = s.loop.threadId_) (hb : s'.base = s.base) (hst' : s'.stack = s.stack)
    (hw : s'.loop.waiting = s.loop.waiting ++ q) (hconn : s'.conn.state_ = s.conn.state_)
    (htr : s'.trace = s.trace) (hserver : s'.created = s.created ∧
      s'.connections_ = s.connections_ ∧ s'.removals = s.removals) : s'.Settles := by
  have hcalls : ∀ p, s'.calls p = s.calls p := by
    intro p
    rw [calls, calls, hL, hb, hst']
  have hnone : q.count .connectDestroyed = 0 := by
    rw [List.count_eq_zero]
    intro hmem
    have hforeign := hf _ hmem
    simp [Functor.isForeign] at hforeign
  refine hs.congr hconn (by rw [htr]) (by rw [htr]) ?_ ?_ (by rw [hserver.1, hserver.2.1])
  · rw [removing, removing, hcalls, hserver.2.2]
  · rw [destroying, destroying, hcalls, hw, List.count_append, hnone, add_zero]

structure Handles (s : System T) : Prop where
  plain : ∀ r, s.ready = some r ∨ .handleEvent r ∈ s.stack s.loop.threadId_ → Plain r
  once : (s.stack s.loop.threadId_).countP Frame.ofEvent + s.ready.isSome.toNat ≤ 1
  shut : s.conn.state_ = .kDisconnected →
    (s.stack s.loop.threadId_).countP Frame.ofEvent + s.ready.isSome.toNat = 0

theorem Handles.exec (hs : s.Handles) (hcf : s.Confined) (hst : s.stack t = f :: fs)
    (hf : f.Proper s.conn.state_) (hL : s'.loop.threadId_ = s.loop.threadId_)
    (hst' : s'.stack = Function.update s.stack t ((f.exec (s.site t) s.conn io).frames ++ fs))
    (hconn : s'.conn = (f.exec (s.site t) s.conn io).conn) (hready : s'.ready = s.ready) :
    s'.Handles := by
  obtain ⟨hplain, honce, hshut⟩ := hs
  have hstate := hf.disconnected_iff (s.site t) io
  by_cases ht : t = s.loop.threadId_
  · subst ht
    have hevent : ∀ r, f = .handleEvent r → Plain r := by
      rintro r rfl
      exact hplain r (Or.inr (by rw [hst]; exact List.mem_cons_self))
    have hcount := Frame.exec_ofEvent_count (s.site s.loop.threadId_) s.conn io hevent
    have hnew : (s'.stack s'.loop.threadId_).countP Frame.ofEvent =
        (f.exec (s.site s.loop.threadId_) s.conn io).frames.countP Frame.ofEvent +
          fs.countP Frame.ofEvent := by
      rw [hL, hst', Function.update_self, List.countP_append]
    have hold : (s.stack s.loop.threadId_).countP Frame.ofEvent =
        f.ofEvent.toNat + fs.countP Frame.ofEvent := by
      rw [hst, List.countP_cons, add_comm]
      cases f.ofEvent <;> rfl
    refine ⟨fun r hr ↦ ?_, ?_, fun hdis ↦ ?_⟩
    · rw [hready, hL, hst', Function.update_self, List.mem_append] at hr
      rcases hr with hr | hr | hr
      · exact hplain r (Or.inl hr)
      · cases Frame.exec_next hr
      · exact hplain r (Or.inr (by rw [hst]; exact List.mem_cons_of_mem f hr))
    · rw [hnew, hready]
      omega
    · rw [hconn, hstate] at hdis
      rw [hnew, hready]
      rcases hdis with hdis | rfl
      · have hnone := hshut hdis
        omega
      · have hfr : ((Frame.handleClose : Frame T).exec (s.site s.loop.threadId_) s.conn io).frames.countP
            Frame.ofEvent = 0 := rfl
        rw [hold] at honce
        simp only [Frame.ofEvent, Bool.toNat_true] at honce
        omega
  · have hsame : s'.stack s'.loop.threadId_ = s.stack s.loop.threadId_ := by
      rw [hL, hst', Function.update_of_ne (Ne.symm ht)]
    refine ⟨?_, ?_, ?_⟩
    · rw [hready, hsame]
      exact hplain
    · rw [hready, hsame]
      exact honce
    · rw [hready, hsame, hconn, hstate]
      rintro (hdis | rfl)
      · exact hshut hdis
      · exact absurd (hcf.of_not_roams (by rw [hst]; exact List.mem_cons_self) rfl) ht

theorem Handles.enter (hs : s.Handles) (hen : Entry s a t f s') : s'.Handles := by
  obtain ⟨hplain, honce, hshut⟩ := hs
  have hstack : ∀ u, s'.stack u = if u = t then f :: s.stack t else s.stack u := by
    intro u
    rw [hen.stack_eq, Function.update_apply]
  have hother : f.ofEvent = false → s'.ready = s.ready → s'.Handles := by
    intro hf hready
    have hcount : (s'.stack s'.loop.threadId_).countP Frame.ofEvent =
        (s.stack s.loop.threadId_).countP Frame.ofEvent := by
      rw [hen.loop_eq, hstack]
      split
      · next ht => simp [hf, ht]
      · rfl
    refine ⟨fun r hr ↦ hplain r ?_, by rw [hcount, hready]; exact honce, ?_⟩
    · rw [hready, hen.loop_eq, hstack] at hr
      refine hr.imp_right fun hmem ↦ ?_
      split at hmem
      · next ht =>
        rw [ht]
        rcases List.mem_cons.mp hmem with rfl | hmem
        · simp [Frame.ofEvent] at hf
        · exact hmem
      · exact hmem
    · rw [hcount, hready, hen.conn_eq]
      exact hshut
  cases hen with
  | handleEvent revents hr hst =>
    rw [hst, hr] at honce hshut
    refine ⟨?_, ?_, fun hdis ↦ ?_⟩
    · intro r hmem
      rcases hmem with hmem | hmem
      · simp at hmem
      · simp only [push, Function.update_self, hst, List.mem_singleton, Frame.handleEvent.injEq] at hmem
        exact hplain r (Or.inl (hmem ▸ hr))
    · simp [push, hst, Frame.ofEvent]
    · exact absurd (hshut hdis) (by simp)
  | newConnection | destroyServer =>
    refine hother ?_ rfl
    simp only [Frame.runInLoop]
    split <;> rfl
  | send | shutdown | removeConnectionInLoop => exact hother rfl rfl

theorem Handles.begin (hs : s.Handles) {cb : Functor T} (hst : s.stack s.loop.threadId_ = [])
    (hL : s'.loop.threadId_ = s.loop.threadId_)
    (hst' : s'.stack = Function.update s.stack s.loop.threadId_ [.functor cb])
    (hconn : s'.conn = s.conn) (hready : s'.ready = s.ready) : s'.Handles := by
  obtain ⟨hplain, honce, hshut⟩ := hs
  have hnew : s'.stack s'.loop.threadId_ = [.functor cb] := by
    rw [hL, hst', Function.update_self]
  rw [hst] at hplain honce hshut
  refine ⟨?_, ?_, ?_⟩
  · intro r hr
    rw [hready, hnew] at hr
    exact hplain r (Or.inl (hr.resolve_right (by simp)))
  · rw [hnew, hready]
    exact honce
  · rw [hnew, hready, hconn]
    exact hshut

omit [DecidableEq T] in
theorem Handles.idle (hs : s.Handles) (hh : s.AtHome) (hatt : s.conn.Attended)
    (hL : s'.loop.threadId_ = s.loop.threadId_) (hst' : s'.stack = s.stack)
    (hconn : s'.conn.state_ = s.conn.state_)
    (hnew : ∀ r, s'.ready = some r → s.ready = some r ∨ Plain r)
    (hready : s'.ready = s.ready ∨ s.loop.stage = .polling ∧
      (s'.ready = none ∨ s.conn.reg.isRegistered = true)) : s'.Handles := by
  obtain ⟨hplain, honce, hshut⟩ := hs
  have hsame : s'.stack s'.loop.threadId_ = s.stack s.loop.threadId_ := by rw [hL, hst']
  refine ⟨?_, ?_, ?_⟩
  · intro r hr
    rw [hsame] at hr
    rcases hr with hr | hr
    · exact (hnew r hr).elim (fun h ↦ hplain r (Or.inl h)) id
    · exact hplain r (Or.inr hr)
  · rw [hsame]
    rcases hready with hready | ⟨hstage, -⟩
    · rw [hready]
      exact honce
    · -- the loop polls with nothing of the connection on its stack
      rw [hh.polling hstage]
      cases s'.ready <;> simp
  · rw [hsame, hconn]
    intro hdis
    have hnone := hshut hdis
    rcases hready with hready | ⟨-, hready | hreg⟩
    · rw [hready]
      exact hnone
    · rw [hready, Option.isSome_none, Bool.toNat_false]
      omega
    · simp [(hatt.idle hdis).2] at hreg

/-- A channel is in no poller before the connection is set up, nor after `connectDestroyed`. -/
structure Detaches (s : System T) : Prop where
  coherent : s.conn.reg.Coherent
  attended : s.conn.Attended
  fresh : s.conn.state_ = .kConnecting → s.conn.reg.channel.index_ = .kNew
  gone : .destroyed ∈ s.trace → s.conn.reg.channel.index_ = .kNew

theorem Detaches.exec (hs : s.Detaches) (hset : s.Settles) (hf : f.Proper s.conn.state_)
    (hback : s'.conn.state_ = .kConnecting → s.conn.state_ = .kConnecting)
    (hconn : s'.conn = (f.exec (s.site t) s.conn io).conn)
    (htr : s'.trace = s.trace ++ (f.exec (s.site t) s.conn io).obs) : s'.Detaches := by
  obtain ⟨hcoherent, hatt, hfresh, hgone⟩ := hs
  refine ⟨?_, ?_, fun hst ↦ ?_, fun hd ↦ ?_⟩
  · rw [hconn]
    exact (Frame.exec_turns (s.site t) s.conn io f).coherent hcoherent
  · rw [hconn]
    exact hf.attended hatt
  · by_cases hr : f = .removeChannel
    · rw [hconn, hr]
      rfl
    · have hold := hback hst
      rw [hconn] at hst ⊢
      rw [hf.reg_connecting hst hr]
      exact hfresh hold
  · by_cases hr : f = .removeChannel
    · rw [hconn, hr]
      rfl
    · rw [htr, List.mem_append] at hd
      have hold : .destroyed ∈ s.trace := by
        refine hd.resolve_right fun hin ↦ ?_
        cases Frame.exec_shows hin with
        | removed => exact hr rfl
      have hdis : s.conn.state_ = .kDisconnected := by
        rw [← hset.state, ← List.count_pos_iff, hset.due]
        have hpos : 0 < s.trace.count .destroyed := List.count_pos_iff.mpr hold
        omega
      rw [hconn, hf.reg hatt hdis hr]
      exact hgone hold

omit [DecidableEq T] in
theorem Detaches.congr (hs : s.Detaches) (hconn : ∃ b, s'.conn = { s.conn with inputBuffer_ := b })
    (hd : .destroyed ∈ s'.trace → .destroyed ∈ s.trace) : s'.Detaches := by
  obtain ⟨b, hb⟩ := hconn
  obtain ⟨hcoherent, hatt, hfresh, hgone⟩ := hs
  refine ⟨by rw [hb]; exact hcoherent, hatt.congr (by rw [hb]) (by rw [hb]), ?_, fun h ↦ ?_⟩
  · rw [hb]
    exact hfresh
  · rw [hb]
    exact hgone (hd h)

omit [DecidableEq T] in
theorem ofConnection_detaches (l b : T) (fd : ℕ) (wc hw : Bool) (mark : ℕ) (mem : T → ℕ → Byte) :
    (ofConnection l b (.ofFd fd wc hw mark) mem).Detaches :=
  ⟨⟨rfl, rfl⟩, .ofFd fd wc hw mark, fun _ ↦ rfl, by simp [ofConnection]⟩

/-- The invariant of civil runs. -/
structure Closing (s : System T) : Prop where
  reached : s.Reached
  established : s.Established
  home : s.AtHome
  guarded : s.Guarded
  whole : .destroyConnected ∉ s.stack s.loop.threadId_
  handles : s.Handles
  settles : s.Settles
  detaches : s.Detaches

theorem ofConnection_closing (l b : T) (fd : ℕ) (wc hw : Bool) (mark : ℕ) (mem : T → ℕ → Byte) :
    (ofConnection l b (.ofFd fd wc hw mark) mem).Closing :=
  ⟨ofConnection_reached l b _ mem, ofConnection_established l b fd wc hw mark mem,
    by simp [AtHome, ofConnection], by simp [Guarded, ofConnection], by simp [ofConnection],
    ⟨by simp [ofConnection], by simp [ofConnection], by simp [ofConnection]⟩,
    ofConnection_settles l b fd wc hw mark mem, ofConnection_detaches l b fd wc hw mark mem⟩

theorem Closing.proper (hs : s.Closing) (hst : s.stack t = f :: fs)
    (hG : s.Civil True (.exec t io)) : f.Proper s.conn.state_ := by
  have hmem : f ∈ s.stack t := by
    rw [hst]
    exact List.mem_cons_self
  refine ⟨hs.established.timely hs.reached.confined hst, ?_, fun hev hdis ↦ ?_, ?_, ?_, fun htear ↦ ?_⟩
  · rintro rfl
    exact hs.whole (hs.reached.loop_of_head hst rfl ▸ hmem)
  · have ht : t = s.loop.threadId_ := by
      refine hs.reached.loop_of_head hst ?_
      cases f <;> simp_all [Frame.ofEvent, Frame.roams]
    have hpos : 0 < (s.stack s.loop.threadId_).countP Frame.ofEvent :=
      List.countP_pos_iff.mpr ⟨f, ht ▸ hmem, hev⟩
    have hnone := hs.handles.shut hdis
    omega
  · rintro m rfl
    exact hs.guarded m (hs.reached.loop_of_head hst rfl ▸ hmem)
  · rintro rfl
    exact hG trivial (by rw [hst]; rfl)
  · have hpos : 0 < s.calls Frame.tearsDown := by
      refine calls_pos ?_ hmem htear
      by_contra hin
      rw [not_or] at hin
      simp [(hs.established.placed.unmarked hs.reached.confined hin.1 hin.2 hmem).2] at htear
    rw [← hs.settles.state, ← List.count_pos_iff, hs.settles.due, destroying]
    omega

theorem Step.plain (h : Step s a s') (hG : s.Civil True a) {r : BitVec 32} (hr : s'.ready = some r) :
    s.ready = some r ∨ Plain r := by
  cases h with
  | enter hu he =>
    cases he with
    | handleEvent => simp at hr
    | _ => exact Or.inl hr
  | poll => exact Or.inr (hG trivial r hr)
  | exec | assign | retrieve | loop => exact Or.inl hr

theorem Closing.step (hs : s.Closing) (hG : s.Civil True a) (h : s.step a = some s') : s'.Closing := by
  have hstep := step_cases h
  have hL := hstep.threadId_eq
  have hb := hstep.base_eq
  have hback := hstep.connecting
  have hplain := fun r ↦ hstep.plain hG (r := r)
  obtain ⟨hr, he, hh, hg, hwhole, hhan, hset, hdet⟩ := hs
  suffices hrest : .destroyConnected ∉ s'.stack s'.loop.threadId_ ∧ s'.Handles ∧ s'.Settles ∧
      s'.Detaches from
    ⟨hr.step h, he.step hr.confined hr.control hstep, hh.step hstep, hg.step hr hstep, hrest.1,
      hrest.2.1, hrest.2.2.1, hrest.2.2.2⟩
  cases hstep.flow hr.control with
  | exec t io f fs hst hio hst' hw hconn htr hserver hready hact =>
    subst hact
    have hf := Closing.proper ⟨hr, he, hh, hg, hwhole, hhan, hset, hdet⟩ hst hG
    refine ⟨?_, hhan.exec hr.confined hst hf hL hst' hconn hready,
      hset.exec he hr.confined hst hf hL hb hst' hw hconn htr hserver,
      hdet.exec hset hf hback hconn htr⟩
    rw [hL, hst']
    intro hmem
    by_cases ht : s.loop.threadId_ = t
    · rw [ht, Function.update_self, List.mem_append] at hmem
      rcases hmem with hmem | hmem
      · obtain ⟨rfl, hstate⟩ := Frame.exec_destroys hmem
        simp [hf.destroys rfl] at hstate
      · exact hwhole (by rw [ht, hst]; exact List.mem_cons_of_mem f hmem)
    · rw [Function.update_of_ne ht] at hmem
      exact hwhole hmem
  | enter t f hu hen =>
    have hd : .destroyed ∈ s'.trace → .destroyed ∈ s.trace := by
      intro hmem
      rcases hen.trace_eq with htr | ⟨u, htr⟩
      · rwa [htr] at hmem
      · simpa [htr] using hmem
    refine ⟨?_, hhan.enter hen, hset.enter he hG hen,
      hdet.congr ⟨s.conn.inputBuffer_, by rw [hen.conn_eq]⟩ hd⟩
    rw [hen.loop_eq, hen.stack_eq]
    intro hmem
    by_cases ht : s.loop.threadId_ = t
    · rw [ht, Function.update_self, List.mem_cons] at hmem
      rcases hmem with rfl | hmem
      · have hout := hen.outer
        simp [Frame.outer] at hout
      · exact hwhole (ht ▸ hmem)
    · rw [Function.update_of_ne ht] at hmem
      exact hwhole hmem
  | begin cb hst hst' hw hconn htr hserver hready =>
    refine ⟨?_, hhan.begin hst hL hst' hconn hready,
      hset.begin hst hL hb hst' hw hconn htr hserver,
      hdet.congr ⟨s.conn.inputBuffer_, by rw [hconn]⟩ (by rw [htr]; exact id)⟩
    rw [hL, hst', Function.update_self]
    simp
  | idle q hf hst' hw hconn htr hserver hready =>
    have hstate : s'.conn.state_ = s.conn.state_ := by
      obtain ⟨b, hb⟩ := hconn
      rw [hb]
    refine ⟨?_, hhan.idle hh hdet.attended hL hst' hstate hplain hready,
      hset.idle hf hL hb hst' hw hstate htr hserver, hdet.congr hconn (by rw [htr]; exact id)⟩
    rw [hL, hst']
    exact hwhole

end System

end Mymuduo
