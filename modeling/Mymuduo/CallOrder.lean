import Mymuduo.Confinement

namespace Mymuduo

open Foundation.Machine

variable {T : Type}

def ranCalls (tr : List (Obs T)) : List (Call T) :=
  tr.filterMap fun | .kept m _ | .dropped m => some m | _ => none

theorem passedCalls_append (p q : List (Obs T)) : passedCalls (p ++ q) = passedCalls p ++ passedCalls q :=
  List.filterMap_append

theorem ranCalls_append (p q : List (Obs T)) : ranCalls (p ++ q) = ranCalls p ++ ranCalls q :=
  List.filterMap_append

theorem mem_passedCalls {tr : List (Obs T)} {m : Call T} :
    m ∈ passedCalls tr ↔ ∃ msg, .passed m msg ∈ tr := by
  simp only [passedCalls, List.mem_filterMap]
  constructor
  · rintro ⟨o, ho, hm⟩
    cases o <;> simp at hm
    next n msg =>
      subst hm
      exact ⟨msg, ho⟩
  · rintro ⟨msg, hm⟩
    exact ⟨_, hm, rfl⟩

def Functor.call : Functor T → Option (Call T)
  | .sendInLoop m => some m
  | _ => none

namespace Frame

def call : Frame T → Option (Call T)
  | .functor f | .queueInLoop f => f.call
  | .writeOrBuffer m => some m
  | _ => none

variable {e : Site T} {c : TcpConnection} {io : Reply} {f g : Frame T}

theorem call_dispatch (revents : BitVec 32) : (dispatch revents : List (Frame T)).filterMap call = [] := by
  simp only [dispatch, List.filterMap_append, List.append_eq_nil_iff]
  refine ⟨⟨⟨?_, ?_⟩, ?_⟩, ?_⟩ <;> split <;> rfl

theorem call_runInLoop (cb : Functor T) : (runInLoop e cb).call = cb.call := by
  unfold runInLoop
  split <;> rfl

inductive Moves (e : Site T) (f : Frame T) (o : Outcome T) : Prop
  | idle (hf : f.call = none) (hfs : o.frames.filterMap call = [])
      (hq : o.queued.toList.filterMap Functor.call = []) (hp : passedCalls o.obs = [])
      (hr : ranCalls o.obs = [])
  | pass (m : Call T) (hm : m.thread = e.thread) (hid : m.id = e.passed) (hf : f.call = none)
      (hfs : o.frames = [runInLoop e (.sendInLoop m)]) (hq : o.queued = none)
      (hp : passedCalls o.obs = [m]) (hr : ranCalls o.obs = [])
  | queue (m : Call T) (hf : f = .queueInLoop (.sendInLoop m)) (hfs : o.frames = [])
      (hq : o.queued = some (.sendInLoop m)) (hp : passedCalls o.obs = []) (hr : ranCalls o.obs = [])
  | enter (m : Call T) (hf : f = .functor (.sendInLoop m)) (hfs : o.frames = [.writeOrBuffer m])
      (hq : o.queued = none) (hp : passedCalls o.obs = []) (hr : ranCalls o.obs = [])
  | finish (m : Call T) (hroam : f.roams = false) (hf : f.call = some m)
      (hfs : o.frames = []) (hq : o.queued.toList.filterMap Functor.call = [])
      (hp : passedCalls o.obs = []) (hr : ranCalls o.obs = [m])

theorem Moves.tail {o : Outcome T} {fs : List (Frame T)} (h : Moves e f o)
    (hfs : ∀ g ∈ fs, g.call = none) : ∀ g ∈ (o.frames ++ fs).tail, g.call = none := by
  have hrest : ∀ g ∈ o.frames.tail, g.call = none := by
    cases h with
    | idle _ hfr =>
      intro g hg
      exact List.filterMap_eq_nil_iff.mp hfr g (List.mem_of_mem_tail hg)
    | pass m _ _ _ hfr | queue m _ hfr | enter m _ hfr | finish m _ _ hfr => simp [hfr]
  intro g hg
  cases hfr : o.frames with
  | nil =>
    rw [hfr, List.nil_append] at hg
    exact hfs g (List.mem_of_mem_tail hg)
  | cons h hs =>
    rw [hfr, List.cons_append, List.tail_cons] at hg
    rw [hfr, List.tail_cons] at hrest
    exact (List.mem_append.mp hg).elim (hrest g) (hfs g)

theorem execFunctor_moves (cb : Functor T) : Moves e (.functor cb) (execFunctor c cb) := by
  cases cb with
  | sendInLoop m =>
    by_cases hd : c.state_ = .kDisconnected
    · simp only [execFunctor, if_pos hd]
      exact .finish m rfl rfl rfl rfl rfl rfl
    · simp only [execFunctor, if_neg hd]
      exact .enter m rfl rfl rfl rfl rfl
  | connectDestroyed =>
    simp only [execFunctor]
    split <;> exact .idle rfl rfl rfl rfl rfl
  | shutdownInLoop =>
    simp only [execFunctor]
    split <;> exact .idle rfl rfl rfl rfl rfl
  | connectEstablished | notify | foreign => exact .idle rfl rfl rfl rfl rfl

theorem exec_moves (f : Frame T) : Moves e f (f.exec e c io) := by
  have hnotice : ∀ n : Option Notice,
      ((n.map Functor.notify : Option (Functor T)).toList.filterMap Functor.call) = [] := by
    intro n
    cases n <;> rfl
  cases f with
  | functor cb => exact execFunctor_moves cb
  | send data len =>
    simp only [exec]
    split
    · exact .pass _ rfl rfl rfl rfl rfl rfl rfl
    · exact .idle rfl rfl rfl rfl rfl
  | queueInLoop cb =>
    cases cb with
    | sendInLoop m => exact .queue m rfl rfl rfl rfl rfl
    | _ => exact .idle rfl rfl rfl rfl rfl
  | writeOrBuffer m =>
    refine .finish m rfl rfl rfl (hnotice _) ?_ ?_
    · simp only [exec]
      split <;> split <;> rfl
    · simp only [exec]
      split <;> split <;> rfl
  | handleEvent revents => exact .idle rfl (call_dispatch revents) rfl rfl rfl
  | handleWrite =>
    refine .idle rfl ?_ (hnotice _) ?_ ?_ <;> simp only [exec] <;> split <;> rfl
  | setDisconnecting =>
    refine .idle rfl ?_ rfl rfl rfl
    simp [exec, call_runInLoop, Functor.call]
  | shutdown | drained | closeCallback =>
    refine .idle rfl ?_ rfl rfl rfl
    simp only [exec]
    split <;> rfl
  | handleRead =>
    refine .idle rfl ?_ rfl rfl rfl
    simp only [exec]
    cases (c.handleRead io.read).2 <;> rfl
  | userCode | destroyConnected | removeChannel | handleClose | handleError | connectionCallback
    | messageCallback | removeConnectionInLoop => exact .idle rfl rfl rfl rfl rfl

end Frame

namespace System

variable [DecidableEq T]

def callsOf (t : T) (ms : List (Call T)) : List (Call T) := ms.filter fun m ↦ m.thread = t

@[simp] theorem callsOf_nil (t : T) : callsOf t [] = [] := rfl

theorem callsOf_append (t : T) (ms ns : List (Call T)) :
    callsOf t (ms ++ ns) = callsOf t ms ++ callsOf t ns := List.filter_append ..

theorem callsOf_eq_nil {t : T} {ms : List (Call T)} (h : ∀ m ∈ ms, m.thread ≠ t) : callsOf t ms = [] := by
  simpa [callsOf] using h

theorem callsOf_singleton {t : T} {m : Call T} (h : m.thread = t) : callsOf t [m] = [m] := by
  simp [callsOf, h]

def loopCalls (s : System T) : List (Call T) :=
  (s.stack s.loop.threadId_).filterMap Frame.call ++ s.loop.waiting.filterMap Functor.call

def ownCalls (s : System T) (t : T) : List (Call T) :=
  if t = s.loop.threadId_ then [] else (s.stack t).filterMap Frame.call

def inFlight (s : System T) (t : T) : List (Call T) := callsOf t s.loopCalls ++ s.ownCalls t

/-- The calls of a thread that have passed are those that have run and, behind
them, those in flight. -/
structure Ordered (s : System T) : Prop where
  order : ∀ t, callsOf t (passedCalls s.trace) = callsOf t (ranCalls s.trace) ++ s.inFlight t
  heads : ∀ t, ∀ g ∈ (s.stack t).tail, g.call = none
  own : ∀ t, t ≠ s.loop.threadId_ → ∀ m ∈ (s.stack t).filterMap Frame.call, m.thread = t
  home : ∀ cb, .queueInLoop cb ∈ s.stack s.loop.threadId_ → cb.call = none
  queued : ∀ m ∈ s.loop.waiting.filterMap Functor.call, m.thread ≠ s.loop.threadId_
  ids : (passedCalls s.trace).map Call.id = List.range (passedCalls s.trace).length

variable {s s' : System T} {a : Act T}

theorem ofConnection_inFlight (l b : T) (c : TcpConnection) (mem : T → ℕ → Byte) (t : T) :
    (ofConnection l b c mem).inFlight t = [] := by
  have hown : (ofConnection l b c mem).ownCalls t = [] := by
    unfold ownCalls
    split <;> rfl
  rw [inFlight, hown]
  rfl

theorem ofConnection_ordered (l b : T) (c : TcpConnection) (mem : T → ℕ → Byte) :
    (ofConnection l b c mem).Ordered := by
  refine ⟨fun t ↦ ?_, ?_, ?_, ?_, ?_, ?_⟩
  · rw [ofConnection_inFlight]
    rfl
  all_goals simp [ofConnection, passedCalls, EventLoop.ofThread, EventLoop.waiting]

theorem ownCalls_eq (hL : s'.loop.threadId_ = s.loop.threadId_) {u : T}
    (hu : s'.stack u = s.stack u) : s'.ownCalls u = s.ownCalls u := by
  simp only [ownCalls, hL, hu]

section

variable {t : T} {io : Reply} {f : Frame T} {fs : List (Frame T)} {o : Outcome T}

theorem Ordered.rest (hs : s.Ordered) (hst : s.stack t = f :: fs) : fs.filterMap Frame.call = [] := by
  rw [List.filterMap_eq_nil_iff]
  simpa [hst] using hs.heads t

theorem Ordered.order_home (hs : s.Ordered) (hst : s.stack s.loop.threadId_ = f :: fs)
    (hm : Frame.Moves (s.site s.loop.threadId_) f o) (hL : s'.loop.threadId_ = s.loop.threadId_)
    (hst' : s'.stack = Function.update s.stack s.loop.threadId_ (o.frames ++ fs))
    (hq : s'.loop.waiting = s.loop.waiting ++ o.queued.toList)
    (htr : s'.trace = s.trace ++ o.obs) (u : T) :
    callsOf u (passedCalls s'.trace) = callsOf u (ranCalls s'.trace) ++ s'.inFlight u := by
  have hfs := hs.rest hst
  have hown : s'.ownCalls u = s.ownCalls u := by
    by_cases hu : u = s.loop.threadId_
    · simp [ownCalls, hL, hu]
    · exact ownCalls_eq hL (by rw [hst', Function.update_of_ne hu])
  have hold := hs.order u
  rw [htr, passedCalls_append, ranCalls_append]
  simp only [inFlight, loopCalls, hL, hown, hst, hst', hq, Function.update_self, List.filterMap_append,
    List.filterMap_cons, hfs, callsOf_append, List.append_nil] at hold ⊢
  cases hm with
  | idle hf hfr hqu hp hr => simpa [hf, hfr, hqu, hp, hr] using hold
  | pass m hmt hid hf hfr hqu hp hr =>
    have hmL : m.thread = s.loop.threadId_ := hmt
    simp only [hf, hfr, hqu, hp, hr, List.filterMap_cons, List.filterMap_nil, Frame.call_runInLoop,
      Functor.call, Option.toList_none, callsOf_nil, List.append_nil] at hold ⊢
    rw [hold]
    by_cases hu : u = s.loop.threadId_
    · subst hu
      rw [callsOf_eq_nil hs.queued, callsOf_singleton hmL]
      simp [ownCalls]
    · have hne : callsOf u [m] = [] := callsOf_eq_nil (by simpa [hmL] using Ne.symm hu)
      simp [hne]
  | queue m hf hfr hqu hp hr =>
    have hmem : Frame.queueInLoop (.sendInLoop m) ∈ s.stack s.loop.threadId_ := by
      rw [hst, hf]
      exact List.mem_cons_self
    have hnone := hs.home _ hmem
    simp [Functor.call] at hnone
  | enter m hf hfr hqu hp hr =>
    simpa [hf, hfr, hqu, hp, hr, Frame.call, Functor.call] using hold
  | finish m hroam hf hfr hqu hp hr =>
    simp only [hf, hfr, hqu, hp, hr, List.filterMap_nil, callsOf_nil, List.append_nil,
      List.nil_append] at hold ⊢
    rw [hold]
    simp only [List.append_assoc]

theorem Ordered.order_away (hs : s.Ordered) (ht : t ≠ s.loop.threadId_) (hst : s.stack t = f :: fs)
    (hroam : f.roams = true) (hm : Frame.Moves (s.site t) f o)
    (hL : s'.loop.threadId_ = s.loop.threadId_)
    (hst' : s'.stack = Function.update s.stack t (o.frames ++ fs))
    (hq : s'.loop.waiting = s.loop.waiting ++ o.queued.toList)
    (htr : s'.trace = s.trace ++ o.obs) (u : T) :
    callsOf u (passedCalls s'.trace) = callsOf u (ranCalls s'.trace) ++ s'.inFlight u := by
  have hfs := hs.rest hst
  have hloop : s'.loopCalls = s.loopCalls ++ o.queued.toList.filterMap Functor.call := by
    simp only [loopCalls, hL, hst', Function.update_of_ne ht.symm, hq, List.filterMap_append,
      List.append_assoc]
  have hself : s.ownCalls t = f.call.toList := by
    cases hfc : f.call <;> simp [ownCalls, ht, hst, hfs, hfc]
  have hself' : s'.ownCalls t = o.frames.filterMap Frame.call := by
    simp [ownCalls, hL, ht, hst', hfs]
  have hother : u ≠ t → s'.ownCalls u = s.ownCalls u := by
    intro hu
    exact ownCalls_eq hL (by rw [hst', Function.update_of_ne hu])
  have hold := hs.order u
  rw [htr, passedCalls_append, ranCalls_append]
  simp only [inFlight, hloop, callsOf_append] at hold ⊢
  cases hm with
  | idle hf hfr hqu hp hr =>
    have hown : s'.ownCalls u = s.ownCalls u := by
      by_cases hu : u = t
      · rw [hu, hself, hself', hf, hfr]
        rfl
      · exact hother hu
    simpa [hqu, hp, hr, hown] using hold
  | pass m hmt hid hf hfr hqu hp hr =>
    have hmt : m.thread = t := hmt
    simp only [hp, hr, hqu, Option.toList_none, List.filterMap_nil, callsOf_nil, List.append_nil,
      hold]
    by_cases hu : u = t
    · subst hu
      have hm' : o.frames.filterMap Frame.call = [m] := by
        simp [hfr, Frame.call_runInLoop, Functor.call]
      rw [hself, hself', hf, hm', callsOf_singleton hmt]
      simp
    · have hne : callsOf u [m] = [] := callsOf_eq_nil (by simpa [hmt] using Ne.symm hu)
      simp [hne, hother hu]
  | queue m hf hfr hqu hp hr =>
    have hmt : m.thread = t := hs.own t ht m (by simp [hst, hf, Frame.call, Functor.call])
    simp only [hp, hr, hqu, Option.toList_some, callsOf_nil, List.append_nil, hold, Functor.call,
      List.filterMap_cons, List.filterMap_nil]
    by_cases hu : u = t
    · subst hu
      rw [hself, hself', hf, hfr, callsOf_singleton hmt]
      simp [Frame.call, Functor.call]
    · have hne : callsOf u [m] = [] := callsOf_eq_nil (by simpa [hmt] using Ne.symm hu)
      simp [hne, hother hu]
  | enter m hf => simp [hf, Frame.roams] at hroam
  | finish m hf => simp [hf] at hroam

theorem Ordered.exec (hs : s.Ordered) (hcf : s.Confined) (hst : s.stack t = f :: fs)
    (hm : Frame.Moves (s.site t) f o) (hin : ∀ cb, .queueInLoop cb ∈ o.frames → t = s.loop.threadId_ → cb.call = none)
    (hL : s'.loop.threadId_ = s.loop.threadId_)
    (hst' : s'.stack = Function.update s.stack t (o.frames ++ fs))
    (hq : s'.loop.waiting = s.loop.waiting ++ o.queued.toList)
    (htr : s'.trace = s.trace ++ o.obs) : s'.Ordered := by
  have hrest : ∀ g ∈ fs, g.call = none := by simpa [hst] using hs.heads t
  have hroam : t ≠ s.loop.threadId_ → f.roams = true := fun ht ↦
    hcf t ht f (by rw [hst]; exact List.mem_cons_self)
  refine ⟨fun u ↦ ?_, fun u ↦ ?_, fun u hu ↦ ?_, fun cb hcb ↦ ?_, fun m hmem ↦ ?_, ?_⟩
  · by_cases ht : t = s.loop.threadId_
    · subst ht
      exact hs.order_home hst hm hL hst' hq htr u
    · exact hs.order_away ht hst (hroam ht) hm hL hst' hq htr u
  · by_cases hut : u = t
    · rw [hst', hut, Function.update_self]
      exact hm.tail hrest
    · rw [hst', Function.update_of_ne hut]
      exact hs.heads u
  · rw [hL] at hu
    by_cases hut : u = t
    · subst hut
      have hself := hs.own u hu
      rw [hst', Function.update_self, List.filterMap_append, hs.rest hst, List.append_nil]
      cases hm with
      | idle _ hfr => simp [hfr]
      | pass m hmt _ _ hfr =>
        have hmt : m.thread = u := hmt
        simpa [hfr, Frame.call_runInLoop, Functor.call] using hmt
      | queue m _ hfr | finish m _ _ hfr => simp [hfr]
      | enter m hf hfr => simpa [hst, hf, hfr, Frame.call, Functor.call, hs.rest hst] using hself
    · rw [hst', Function.update_of_ne hut]
      exact hs.own u hu
  · rw [hL] at hcb
    by_cases ht : s.loop.threadId_ = t
    · rw [hst', ht, Function.update_self] at hcb
      rcases List.mem_append.mp hcb with hcb | hcb
      · exact hin cb hcb ht.symm
      · exact hrest _ hcb
    · rw [hst', Function.update_of_ne ht] at hcb
      exact hs.home cb hcb
  · rw [hq, List.filterMap_append, List.mem_append] at hmem
    rw [hL]
    rcases hmem with hmem | hmem
    · exact hs.queued m hmem
    · cases hm with
      | idle _ _ hqu | finish _ _ _ _ hqu => simp [hqu] at hmem
      | pass _ _ _ _ _ hqu | enter _ _ _ hqu => simp [hqu] at hmem
      | queue n hf hfr hqu =>
        obtain rfl : m = n := by simpa [hqu, Functor.call] using hmem
        by_cases ht : t = s.loop.threadId_
        · have hnone := hs.home (.sendInLoop m) (by rw [← ht, hst, hf]; exact List.mem_cons_self)
          simp [Functor.call] at hnone
        · rw [hs.own t ht m (by simp [hst, hf, Frame.call, Functor.call])]
          exact ht
  · rw [htr, passedCalls_append]
    cases hm with
    | idle _ _ _ hp | finish _ _ _ _ _ hp => simpa [hp] using hs.ids
    | queue _ _ _ _ hp | enter _ _ _ _ hp => simpa [hp] using hs.ids
    | pass m _ hid _ _ _ hp =>
      have hid : m.id = (passedCalls s.trace).length := hid
      simp [hp, hs.ids, hid, List.range_succ]

end

theorem inUserCode_call (hs : s.Ordered) {t : T} (hu : s.inUserCode t = true) :
    ∀ g ∈ s.stack t, g.call = none := by
  have htail := hs.heads t
  simp only [inUserCode, Bool.and_eq_true] at hu
  cases hst : s.stack t with
  | nil => simp
  | cons g gs =>
    obtain ⟨-, hg⟩ := hu
    rw [hst] at hg htail
    cases g <;> simp only [Bool.false_eq_true] at hg
    rw [List.forall_mem_cons]
    exact ⟨rfl, htail⟩

theorem Entry.call_eq {t : T} {f : Frame T} (he : Entry s a t f s') : f.call = none := by
  cases he with
  | newConnection | destroyServer => exact Frame.call_runInLoop _
  | _ => rfl

theorem Ordered.enter (hs : s.Ordered) {t : T} {f : Frame T} (hu : s.inUserCode t = true)
    (he : Entry s a t f s') : s'.Ordered := by
  have hnone := inUserCode_call hs hu
  have hcalls : ∀ u, (s'.stack u).filterMap Frame.call = (s.stack u).filterMap Frame.call := by
    intro u
    rw [he.stack_eq]
    by_cases hut : u = t
    · rw [hut, Function.update_self, List.filterMap_cons_none he.call_eq]
    · rw [Function.update_of_ne hut]
  have htr : passedCalls s'.trace = passedCalls s.trace ∧ ranCalls s'.trace = ranCalls s.trace := by
    rcases he.trace_eq with htr | ⟨u, htr⟩
    · simp [htr]
    · simp [htr, passedCalls, ranCalls]
  have hfl : ∀ u, s'.inFlight u = s.inFlight u := by
    intro u
    simp only [inFlight, loopCalls, ownCalls, hcalls, he.loop_eq]
  refine ⟨fun u ↦ ?_, fun u ↦ ?_, fun u hu' ↦ ?_, fun cb hcb ↦ ?_, ?_, ?_⟩
  · rw [htr.1, htr.2, hfl]
    exact hs.order u
  · rw [he.stack_eq]
    by_cases hut : u = t
    · rw [hut, Function.update_self]
      exact hnone
    · rw [Function.update_of_ne hut]
      exact hs.heads u
  · rw [hcalls]
    exact hs.own u (he.loop_eq ▸ hu')
  · rw [he.loop_eq, he.stack_eq] at hcb
    by_cases ht : s.loop.threadId_ = t
    · rw [ht, Function.update_self, List.mem_cons] at hcb
      rcases hcb with hcb | hcb
      · have hcall := he.call_eq
        rwa [← hcb] at hcall
      · exact hnone _ hcb
    · rw [Function.update_of_ne ht] at hcb
      exact hs.home cb hcb
  · rw [he.loop_eq]
    exact hs.queued
  · rw [htr.1]
    exact hs.ids

theorem Ordered.step (hs : s.Ordered) (hcf : s.Confined) (hc : s.loop.Control) (h : Step s a s') :
    s'.Ordered := by
  have hL := h.threadId_eq
  cases h.flow hc with
  | exec t io f fs hst hio hst' hq hconn htr =>
    refine hs.exec hcf hst (Frame.exec_moves f) (fun cb hcb ht ↦ ?_) hL hst' hq htr
    rw [(Frame.exec_queues (by simpa [site] using ht) hcb).2]
    rfl
  | enter t f hu he => exact hs.enter hu he
  | begin cb hst hst' hq hconn htr =>
    have hloop : s'.loopCalls = s.loopCalls := by
      cases hcall : cb.call <;>
        simp [loopCalls, hL, hst, hst', hq, hcall, Frame.call]
    refine ⟨fun u ↦ ?_, fun u ↦ ?_, fun u hu ↦ ?_, fun cb' hcb ↦ ?_, fun m hm ↦ ?_, ?_⟩
    · have hown : s'.ownCalls u = s.ownCalls u := by
        by_cases hu : u = s.loop.threadId_
        · simp [ownCalls, hL, hu]
        · exact ownCalls_eq hL (by rw [hst', Function.update_of_ne hu])
      rw [htr, inFlight, hloop, hown]
      exact hs.order u
    · rw [hst']
      by_cases hu : u = s.loop.threadId_
      · rw [hu, Function.update_self]
        simp
      · rw [Function.update_of_ne hu]
        exact hs.heads u
    · rw [hL] at hu
      rw [hst', Function.update_of_ne hu]
      exact hs.own u hu
    · rw [hL, hst', Function.update_self] at hcb
      simp at hcb
    · rw [hL]
      refine hs.queued m ?_
      rw [hq, List.filterMap_cons]
      cases cb.call
      · exact hm
      · exact List.mem_cons_of_mem _ hm
    · rw [htr]
      exact hs.ids
  | idle q hf hst' hq hconn htr =>
    have hcall : q.filterMap Functor.call = [] := by
      rw [List.filterMap_eq_nil_iff]
      intro cb hcb
      have hforeign := hf cb hcb
      cases cb <;> simp_all [Functor.isForeign, Functor.call]
    have hwait : s'.loop.waiting.filterMap Functor.call = s.loop.waiting.filterMap Functor.call := by
      rw [hq, List.filterMap_append, hcall, List.append_nil]
    refine ⟨fun u ↦ ?_, ?_, ?_, ?_, ?_, ?_⟩
    · have hfl : s'.inFlight u = s.inFlight u := by
        simp only [inFlight, loopCalls, ownCalls, hL, hst', hwait]
      rw [htr, hfl]
      exact hs.order u
    · rw [hst']
      exact hs.heads
    · rw [hL, hst']
      exact hs.own
    · rw [hL, hst']
      exact hs.home
    · rw [hL, hwait]
      exact hs.queued
    · rw [htr]
      exact hs.ids

/-- What holds in every state of a run, whatever its steps are. -/
structure Reached (s : System T) : Prop where
  control : s.loop.Control
  confined : s.Confined
  ordered : s.Ordered

theorem Reached.step (hs : s.Reached) (h : s.step a = some s') : s'.Reached :=
  have hst := step_cases h
  ⟨hst.control hs.control, hs.confined.step hs.control hst,
    hs.ordered.step hs.confined hs.control hst⟩

theorem ofConnection_reached (l b : T) (c : TcpConnection) (mem : T → ℕ → Byte) :
    (ofConnection l b c mem).Reached :=
  ⟨EventLoop.ofThread_control l, by simp [Confined, ofConnection], ofConnection_ordered l b c mem⟩

theorem Reached.rest_call (hr : s.Reached) {t : T} {f : Frame T} {fs : List (Frame T)}
    (hst : s.stack t = f :: fs) : ∀ g ∈ fs, g.call = none := by
  simpa [hst] using hr.ordered.heads t

theorem Reached.loop_of_head (hr : s.Reached) {t : T} {f : Frame T} {fs : List (Frame T)}
    (hst : s.stack t = f :: fs) (hroam : f.roams = false) : t = s.loop.threadId_ :=
  hr.confined.of_not_roams (by rw [hst]; exact List.mem_cons_self) hroam

/-- No message is on its way to `write` on a connection that is closed. -/
def Guarded (s : System T) : Prop :=
  ∀ m, .writeOrBuffer m ∈ s.stack s.loop.threadId_ → s.conn.state_ ≠ .kDisconnected

theorem Guarded.exec {t : T} {io : Reply} {f : Frame T} {fs : List (Frame T)} (hg : s.Guarded)
    (hr : s.Reached) (hst : s.stack t = f :: fs)
    (hst' : s'.stack = Function.update s.stack t ((f.exec (s.site t) s.conn io).frames ++ fs))
    (hconn : s'.conn = (f.exec (s.site t) s.conn io).conn)
    (hL : s'.loop.threadId_ = s.loop.threadId_) : s'.Guarded := by
  intro m hm
  have hturn := (Frame.exec_turns (s.site t) s.conn io f).state
  rw [hL, hst'] at hm
  rw [hconn]
  by_cases ht : s.loop.threadId_ = t
  · rw [ht, Function.update_self, List.mem_append] at hm
    rcases hm with hm | hm
    · cases Frame.exec_next hm with
      | sendInLoop m hc =>
        rcases hturn with heq | ⟨hf, -⟩ | ⟨hf, -⟩ | ⟨hf | hf, -⟩
        · rwa [heq]
        all_goals simp at hf
    · have hnone := hr.rest_call hst _ hm
      simp [Frame.call] at hnone
  · rw [Function.update_of_ne ht] at hm
    rcases hturn with heq | ⟨-, heq⟩ | ⟨-, heq⟩ | ⟨hf, -⟩
    · rw [heq]
      exact hg m hm
    · simp [heq]
    · simp [heq]
    · have hL' : t = s.loop.threadId_ := by
        rcases hf with rfl | rfl <;> exact hr.loop_of_head hst rfl
      exact absurd hL'.symm ht

theorem Guarded.step (hg : s.Guarded) (hr : s.Reached) (h : Step s a s') : s'.Guarded := by
  have hL := h.threadId_eq
  cases h.flow hr.control with
  | exec t io f fs hst hio hst' hw hconn => exact hg.exec hr hst hst' hconn hL
  | enter t f hu he =>
    intro m hm
    rw [hL, he.stack_eq] at hm
    rw [he.conn_eq]
    by_cases ht : s.loop.threadId_ = t
    · rw [ht, Function.update_self, List.mem_cons] at hm
      rcases hm with rfl | hm
      · have hnone := he.call_eq
        simp [Frame.call] at hnone
      · exact hg m (ht ▸ hm)
    · rw [Function.update_of_ne ht] at hm
      exact hg m hm
  | begin cb hst hst' hw hconn =>
    intro m hm
    rw [hL, hst', Function.update_self] at hm
    simp at hm
  | idle q hf hst' hw hconn =>
    obtain ⟨b, hconn⟩ := hconn
    intro m hm
    rw [hL, hst'] at hm
    rw [hconn]
    exact hg m hm

theorem Ordered.ran_prefix (hs : s.Ordered) (t : T) :
    callsOf t (ranCalls s.trace) <+: callsOf t (passedCalls s.trace) :=
  ⟨s.inFlight t, (hs.order t).symm⟩

theorem inFlight_step (hs : s.Ordered) (hs' : s'.Ordered) {o : List (Obs T)}
    (htr : s'.trace = s.trace ++ o) (t : T) :
    callsOf t (ranCalls o) ++ s'.inFlight t = s.inFlight t ++ callsOf t (passedCalls o) := by
  have h := hs.order t
  have h' := hs'.order t
  rw [htr, passedCalls_append, ranCalls_append, callsOf_append, callsOf_append, h] at h'
  simpa only [List.append_assoc, List.append_cancel_left_eq] using h'.symm

theorem Ordered.thread_of_inFlight (hs : s.Ordered) {t : T} {m : Call T} (hm : m ∈ s.inFlight t) :
    m.thread = t := by
  rcases List.mem_append.mp hm with hm | hm
  · simpa using (List.mem_filter.mp hm).2
  · unfold ownCalls at hm
    split at hm
    · simp at hm
    · next ht => exact hs.own t ht m hm

theorem inFlight_of_frame {f : Frame T} {m : Call T} (hf : f ∈ s.stack s.loop.threadId_)
    (hm : f.call = some m) : m ∈ s.inFlight m.thread := by
  apply List.mem_append_left
  rw [callsOf, List.mem_filter]
  exact ⟨List.mem_append_left _ (List.mem_filterMap.mpr ⟨f, hf, hm⟩), by simp⟩

end System

end Mymuduo
