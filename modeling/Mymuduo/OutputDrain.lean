import Mymuduo.Lifecycle
import Mymuduo.WriteInterest

namespace Mymuduo

open Foundation.Machine

variable {T : Type}

def writable (revents : BitVec 32) : Bool := revents &&& EPOLLOUT != 0

def Frame.drains : Frame T → Bool
  | .handleEvent revents => writable revents
  | .handleWrite => true
  | _ => false

namespace Frame

variable {e : Site T} {c : TcpConnection} {io : Reply} {f : Frame T}

theorem drains_dispatch (revents : BitVec 32) :
    (dispatch revents : List (Frame T)).countP drains = (writable revents).toNat := by
  simp only [dispatch, List.countP_append]
  have hclose : (if revents &&& EPOLLHUP != 0 && revents &&& EPOLLIN == 0 then [.handleClose]
      else [] : List (Frame T)).countP drains = 0 := by split <;> rfl
  have herror : (if revents &&& EPOLLERR != 0 then [.handleError] else [] : List (Frame T)).countP
      drains = 0 := by split <;> rfl
  have hread : (if revents &&& (EPOLLIN ||| EPOLLPRI) != 0 then [.handleRead]
      else [] : List (Frame T)).countP drains = 0 := by split <;> rfl
  rw [hclose, herror, hread]
  change _ + List.countP drains (if writable revents then [.handleWrite] else []) = _
  cases writable revents <;> rfl

theorem exec_drains [DecidableEq T] :
    (f.exec e c io).frames.countP drains + (decide (f = Frame.handleWrite)).toNat = f.drains.toNat := by
  cases f with
  | handleEvent revents => exact drains_dispatch revents
  | handleWrite =>
    simp only [exec]
    split <;> rfl
  | functor cb =>
    cases cb with
    | sendInLoop m | connectDestroyed =>
      simp only [exec, execFunctor]
      split <;> rfl
    | connectEstablished | shutdownInLoop | notify | foreign => rfl
  | send data len =>
    simp only [exec, runInLoop]
    split <;> [split; skip] <;> rfl
  | shutdown | drained | closeCallback =>
    simp only [exec]
    split <;> rfl
  | setDisconnecting =>
    simp only [exec, runInLoop]
    split <;> rfl
  | handleRead =>
    simp only [exec, readBranch]
    split <;> rfl
  | userCode | queueInLoop | writeOrBuffer | destroyConnected | removeChannel | handleClose
    | handleError | connectionCallback | messageCallback | removeConnectionInLoop => rfl

end Frame

namespace System

variable [DecidableEq T] {s s' : System T} {a : Act T}

/-- `poll` reports that the socket can be written to. -/
def Act.reportsOut : Act T → Bool
  | .poll _ (some revents) => writable revents
  | _ => false

/-- The calls of `handleWrite` that are still to come of what `poll` has reported. -/
def due (s : System T) : ℕ :=
  (s.ready.any writable).toNat + (s.stack s.loop.threadId_).countP Frame.drains

def handlesWrite (s : System T) : Act T → Bool
  | .exec t _ => (s.stack t).head? = some .handleWrite
  | _ => false

/-- A `write` of `handleWrite` takes something. -/
def Takes (s : System T) : Act T → Prop
  | .exec t io => (s.stack t).head? = some .handleWrite → s.conn.isWriting = true → 0 < io.write.taken
  | _ => True

instance (s : System T) : (a : Act T) → Decidable (s.Takes a)
  | .exec t io => inferInstanceAs (Decidable ((s.stack t).head? = some .handleWrite →
      s.conn.isWriting = true → 0 < io.write.taken))
  | .newConnection | .send .. | .shutdown .. | .assign .. | .release .. | .retrieve ..
  | .removeConnectionInLoop | .destroyServer | .poll .. | .handleEvent | .loop .. => isTrue trivial

/-- One event of the channel is handled at a time, in the round that has polled it. -/
structure Attends (s : System T) : Prop where
  home : s.AtHome
  handling : s.ready ≠ none → ∃ woken, s.loop.stage = .handling woken
  due_le : s.due ≤ 1

omit [DecidableEq T] in
theorem Attends.idle (hs : s.Attends) (hstage : s.loop.stage = .polling) :
    s.ready = none ∧ s.stack s.loop.threadId_ = [] := by
  refine ⟨?_, hs.home.polling hstage⟩
  by_contra hready
  obtain ⟨woken, hhandling⟩ := hs.handling hready
  simp [hstage] at hhandling

theorem due_exec {t : T} {io : Reply} {f : Frame T} {fs : List (Frame T)}
    {l : EventLoop T (Functor T)} (hr : s.Reached) (hst : s.stack t = f :: fs)
    (hl : l.threadId_ = s.loop.threadId_) :
    (s.commit t fs (f.exec (s.site t) s.conn io) l).due + (s.handlesWrite (.exec t io)).toNat = s.due := by
  have hcalls : s.handlesWrite (.exec t io) = decide (f = .handleWrite) := by simp [handlesWrite, hst]
  have hframes : (f.exec (s.site t) s.conn io).frames.countP Frame.drains +
      (decide (f = Frame.handleWrite)).toNat = f.drains.toNat := Frame.exec_drains
  rw [hcalls]
  simp only [due, commit, hl]
  by_cases ht : t = s.loop.threadId_
  · subst ht
    rw [Function.update_self, hst, List.countP_append, List.countP_cons]
    have hhead : (if f.drains = true then 1 else 0) = f.drains.toNat := by cases f.drains <;> rfl
    rw [hhead]
    omega
  · rw [Function.update_of_ne (Ne.symm ht)]
    have hne : decide (f = .handleWrite) = false := by
      refine decide_eq_false ?_
      rintro rfl
      exact ht (hr.loop_of_head hst rfl)
    rw [hne, Bool.toNat_false, Nat.add_zero]

theorem due_enter {t : T} {f : Frame T} (he : Entry s a t f s') : s'.due = s.due := by
  have hpush : f.drains = false → s'.ready = s.ready → s'.due = s.due := by
    intro hf hready
    simp only [due, he.loop_eq, he.stack_eq, hready]
    by_cases ht : s.loop.threadId_ = t
    · rw [ht, Function.update_self, List.countP_cons_of_neg (by simp [hf])]
    · rw [Function.update_of_ne ht]
  cases he with
  | send | shutdown | removeConnectionInLoop => exact hpush rfl rfl
  | newConnection | destroyServer =>
    refine hpush ?_ rfl
    simp only [Frame.runInLoop]
    split <;> rfl
  | handleEvent revents hr hst =>
    simp only [due, push, Function.update_self, hr, hst, Option.any_some, Option.any_none,
      List.countP_singleton, List.countP_nil, Frame.drains]
    by_cases hw : writable revents = true <;> simp [hw]

theorem due_step (hr : s.Reached) (hs : s.Attends) (h : Step s a s') :
    s'.due + (s.handlesWrite a).toNat = s.due + a.reportsOut.toNat := by
  cases h with
  | @exec t io f fs l hst ho hio hl =>
    rw [due_exec hr hst (enqueue_eq hl).2.2]
    rfl
  | enter hu he =>
    have hno : s.handlesWrite a = false ∧ a.reportsOut = false := by cases he <;> exact ⟨rfl, rfl⟩
    rw [hno.1, hno.2, due_enter he]
  | assign hu ha => rcases ha with rfl | rfl <;> rfl
  | retrieve => rfl
  | @poll woken revents l hready hl =>
    obtain ⟨⟨⟨hstage, -⟩, -⟩, rfl⟩ := EventLoop.step_pollReturn.mp hl
    obtain ⟨hnone, hempty⟩ := hs.idle hstage
    cases revents with
    | none => simp [due, hnone, hempty, handlesWrite, Act.reportsOut]
    | some r => simp [due, hnone, hempty, handlesWrite, Act.reportsOut]
  | @loop b l ha hl =>
    have hL := EventLoop.threadId_step hl
    by_cases hb : ∃ cb, b = .beginFunctor cb
    · obtain ⟨cb, rfl⟩ := hb
      have hempty : s.stack s.loop.threadId_ = [] := by simpa [allows] using ha
      simp only [due, hL, entered, Function.update_self, hempty]
      rfl
    · have hsame : s.entered b = s.stack := by
        cases b with
        | beginFunctor cb => exact absurd ⟨cb, rfl⟩ hb
        | _ => rfl
      simp only [due, hL, hsame]
      rfl

theorem Attends.handling_step (hs : s.Attends) (h : Step s a s') (hready : s'.ready ≠ none) :
    ∃ woken, s'.loop.stage = .handling woken := by
  cases h with
  | @exec t io f fs l hst ho hio hl =>
    have hstage : l.stage = s.loop.stage := by
      cases hq : (f.exec (s.site t) s.conn io).queued with
      | none =>
        rw [hq] at hl
        obtain rfl : s.loop = l := Option.some.inj hl
        rfl
      | some cb =>
        rw [hq] at hl
        obtain ⟨-, rfl⟩ := EventLoop.step_append.mp hl
        rfl
    simp only [commit, hstage]
    exact hs.handling hready
  | enter hu he =>
    rw [he.loop_eq]
    cases he with
    | handleEvent => exact absurd rfl hready
    | send | shutdown | newConnection | destroyServer | removeConnectionInLoop =>
      exact hs.handling hready
  | assign | retrieve => exact hs.handling hready
  | poll hr hl =>
    obtain ⟨-, rfl⟩ := EventLoop.step_pollReturn.mp hl
    exact ⟨_, rfl⟩
  | @loop b l ha hl =>
    obtain ⟨woken, hstage⟩ := hs.handling hready
    cases b with
    | append t cb =>
      obtain ⟨-, rfl⟩ := EventLoop.step_append.mp hl
      exact ⟨woken, hstage⟩
    | storeQuit t =>
      obtain ⟨-, rfl⟩ := EventLoop.step_storeQuit.mp hl
      exact ⟨woken, hstage⟩
    | wakeup t =>
      obtain ⟨-, rfl⟩ := EventLoop.step_wakeup.mp hl
      exact ⟨woken, hstage⟩
    | handleRead =>
      obtain ⟨-, rfl⟩ := EventLoop.step_handleRead.mp hl
      exact ⟨false, rfl⟩
    | pollReturn woken => simp [allows] at ha
    | beginCalling =>
      simp only [allows, Bool.and_eq_true, Option.isNone_iff_eq_none] at ha
      exact absurd ha.1 hready
    | enter | clearQuit | testQuit | swap | beginFunctor | endFunctor | endCalling =>
      simp only [EventLoop.step, EventLoop.standsAt, hstage] at hl
      simp at hl

theorem Attends.step (hr : s.Reached) (hs : s.Attends) (h : Step s a s') : s'.Attends := by
  refine ⟨hs.home.step h, hs.handling_step h, ?_⟩
  have hdue := due_step hr hs h
  cases h with
  | @poll woken revents l hready hl =>
    obtain ⟨⟨⟨hstage, -⟩, -⟩, -⟩ := EventLoop.step_pollReturn.mp hl
    obtain ⟨hnone, hempty⟩ := hs.idle hstage
    have hzero : s.due = 0 := by simp [due, hnone, hempty]
    have hone := (Act.reportsOut (.poll woken revents : Act T)).toNat_le
    omega
  | assign | retrieve => exact hs.due_le
  | exec | loop =>
    simp only [Act.reportsOut, Bool.toNat_false] at hdue
    have hle := hs.due_le
    omega
  | enter hu he =>
    have hle := hs.due_le
    rw [due_enter he]
    exact hle

/-- The state of a run, with what it says about the output. -/
structure Flowing (s : System T) : Prop where
  reached : s.Reached
  streams : s.Streams
  follows : s.Follows
  attends : s.Attends

theorem Flowing.step (hs : s.Flowing) (h : s.step a = some s') : s'.Flowing :=
  have hst := step_cases h
  ⟨hs.reached.step h, hs.streams.step hst, hs.follows.step hst, hs.attends.step hs.reached hst⟩

theorem ofConnection_flowing (l b : T) (fd : ℕ) (wc hw : Bool) (mark : ℕ) (mem : T → ℕ → Byte) :
    (ofConnection l b (.ofFd fd wc hw mark) mem).Flowing :=
  ⟨ofConnection_reached .., ofConnection_streams .., ofConnection_follows ..,
    fun h ↦ absurd rfl h, fun h ↦ absurd rfl h, Nat.zero_le 1⟩

theorem Step.trace_append (h : Step s a s') : ∃ o, s'.trace = s.trace ++ o := by
  cases h with
  | exec => exact ⟨_, rfl⟩
  | enter hu he =>
    rcases he.trace_eq with htr | ⟨u, htr⟩
    · exact ⟨[], by rw [htr, List.append_nil]⟩
    · exact ⟨_, htr⟩
  | assign | retrieve | poll | loop => exact ⟨[], (List.append_nil _).symm⟩

theorem run_trace_append {as : List (Act T)} (h : run step s as = some s') :
    ∃ o, s'.trace = s.trace ++ o := by
  induction as generalizing s with
  | nil =>
    obtain rfl : s = s' := by simpa using h
    exact ⟨[], (List.append_nil _).symm⟩
  | cons a as ih =>
    obtain ⟨u, hu, hr⟩ := run_cons.mp h
    obtain ⟨o, ho⟩ := (step_cases hu).trace_append
    obtain ⟨o', ho'⟩ := ih hr
    exact ⟨o ++ o', by rw [ho', ho, List.append_assoc]⟩

/-- The first `n` bytes of the stream have been accepted, or else, since the first `m` had been,
one more for each event that was handled. -/
def Drained (n m : ℕ) (as : List (Act T)) (s : System T) : Prop :=
  n ≤ (accepted s.trace).length ∨ m + as.countP Act.reportsOut ≤ (accepted s.trace).length + s.due

/-- While output is buffered, `handleWrite` hands some of it to the kernel. -/
theorem Flowing.advances (hs : s.Flowing) (h : Step s a s') (hG : s.Takes a)
    (hopen : .closed ∉ s.trace) (hw : s.handlesWrite a = true) :
    s.conn.outputBuffer_.readable = [] ∨ (accepted s.trace).length < (accepted s'.trace).length := by
  cases h with
  | @exec t io f fs l hst ho hio hl =>
    obtain rfl : f = .handleWrite := by simpa [handlesWrite, hst] using hw
    cases hwr : s.conn.isWriting with
    | false =>
      refine Or.inl (not_not.mp fun hne ↦ ?_)
      simp [(hs.follows.synced hopen).mpr hne] at hwr
    | true =>
      right
      have hpos : 0 < io.write.taken := hG (by rw [hst]; rfl) hwr
      simp only [commit, Frame.exec, if_pos hwr, accepted_append, List.length_append]
      refine Nat.lt_add_of_pos_right ?_
      simp only [accepted, List.flatMap_singleton, List.length_take, Nat.lt_min]
      refine ⟨hpos, ?_⟩
      have hlen := hs.streams.wf.length_readable
      cases hres : io.write with
      | failed errno => simp [hres, WriteResult.taken] at hpos
      | accepted n =>
        have hfits : n ≤ s.conn.outputBuffer_.readableBytes := by
          simp only [Frame.Accepts, hres] at hio
          exact hio.1
        simp only [hres, WriteResult.taken] at hpos
        omega
  | enter hu he => cases he <;> simp [handlesWrite] at hw
  | assign hu ha => rcases ha with rfl | rfl <;> simp [handlesWrite] at hw
  | retrieve | poll | loop => simp [handlesWrite] at hw

theorem Flowing.drained_step (hs : s.Flowing) (h : Step s a s') (hG : s.Takes a)
    (hopen : .closed ∉ s.trace) {n m : ℕ} {as : List (Act T)} (hn : n ≤ (keptBytes s.trace).length)
    (hd : Drained n m as s) : Drained n m (as ++ [a]) s' := by
  obtain ⟨o, ho⟩ := h.trace_append
  have hmono : (accepted s.trace).length ≤ (accepted s'.trace).length := by
    rw [ho, accepted_append, List.length_append]
    exact Nat.le_add_right ..
  rcases hd with hall | hcount
  · exact Or.inl (hall.trans hmono)
  · have hdue := due_step hs.reached hs.attends h
    have hsum : (as ++ [a]).countP Act.reportsOut = as.countP Act.reportsOut + a.reportsOut.toNat := by
      rw [List.countP_append, List.countP_singleton]
      cases a.reportsOut <;> rfl
    unfold Drained
    rw [hsum]
    cases hw : s.handlesWrite a with
    | false =>
      rw [hw, Bool.toNat_false] at hdue
      omega
    | true =>
      rw [hw, Bool.toNat_true] at hdue
      rcases hs.advances h hG hopen hw with hempty | hlt
      · left
        have hstream := hs.streams.stream
        rw [hempty, List.append_nil] at hstream
        rw [hstream] at hmono
        omega
      · omega

theorem Streams.since {as : List (Act T)} (hs : s.Streams) (h : run System.step s as = some s') :
    ∃ o, s'.trace = s.trace ++ o ∧
      s.conn.outputBuffer_.readable ++ keptBytes o = accepted o ++ s'.conn.outputBuffer_.readable := by
  obtain ⟨o, ho⟩ := run_trace_append h
  have hs' : s'.Streams := run_invariant (fun _ _ _ hs ht ↦ hs.step (step_cases ht)) hs h
  refine ⟨o, ho, ?_⟩
  have hend := hs'.stream
  rw [ho, accepted_append, keptBytes_append, ← hs.stream, List.append_assoc, List.append_assoc,
    List.append_cancel_left_eq] at hend
  exact hend.symm

theorem Flowing.run_drained {as : List (Act T)} (hs : s.Flowing)
    (h : run System.step s as = some s') (hG : Along System.step Takes s as) : s'.Flowing ∧ (.closed ∉ s'.trace →
      Drained (keptBytes s.trace).length (accepted s.trace).length as s') := by
  let n := (keptBytes s.trace).length
  let m := (accepted s.trace).length
  have hI : (∃ x, s'.trace = s.trace ++ x) ∧ s'.Flowing ∧
      (.closed ∉ s'.trace → Drained n m ([] ++ as) s') := by
    refine run_history_along (I := fun bs v ↦ (∃ x, v.trace = s.trace ++ x) ∧ v.Flowing ∧
      (.closed ∉ v.trace → Drained n m bs v)) (p := []) ?_ ⟨⟨[], (List.append_nil _).symm⟩, hs, fun _ ↦ ?_⟩ hG h
    · rintro bs v c w ⟨⟨x, hx⟩, hv, hd⟩ hc hw
      have hstep := step_cases hw
      obtain ⟨y, hy⟩ := hstep.trace_append
      refine ⟨⟨x ++ y, by rw [hy, hx, List.append_assoc]⟩, hv.step hw, fun hclosed ↦ ?_⟩
      have hopen' : .closed ∉ v.trace := fun hmem ↦ hclosed (hy ▸ List.mem_append_left y hmem)
      refine hv.drained_step hstep hc hopen' ?_ (hd hopen')
      rw [hx, keptBytes_append, List.length_append]
      exact Nat.le_add_right ..
    · exact Or.inr (Nat.le_add_right ..)
  exact hI.2

theorem Flowing.drains {as : List (Act T)} (hs : s.Flowing) (h : run System.step s as = some s')
    (hG : Along System.step Takes s as) (hopen : .closed ∉ s'.trace)
    (hn : s.conn.outputBuffer_.readableBytes < as.countP Act.reportsOut) :
    ∃ o, s'.trace = s.trace ++ o ∧
      s.conn.outputBuffer_.readable ++ keptBytes o = accepted o ++ s'.conn.outputBuffer_.readable ∧
      s.conn.outputBuffer_.readable <+: accepted o ∧
      (keptBytes o = [] → s'.conn.outputBuffer_.readable = [] ∧ s'.conn.isWriting = false) := by
  obtain ⟨o, ho, hbytes⟩ := hs.streams.since h
  obtain ⟨hs', hd⟩ := hs.run_drained h hG
  have hlen : s.conn.outputBuffer_.readable.length ≤ (accepted o).length := by
    have hstream := congrArg List.length hs.streams.stream
    have hreadable := hs.streams.wf.length_readable
    have hdue := hs'.attends.due_le
    rw [List.length_append] at hstream
    rcases hd hopen with hall | hcount
    · rw [ho, accepted_append, List.length_append] at hall
      omega
    · rw [ho, accepted_append, List.length_append] at hcount
      omega
  have hprefix : s.conn.outputBuffer_.readable <+: accepted o :=
    List.prefix_of_prefix_length_le (hbytes ▸ List.prefix_append _ _) (List.prefix_append _ _) hlen
  refine ⟨o, ho, hbytes, hprefix, fun hnone ↦ ?_⟩
  rw [hnone, List.append_nil] at hbytes
  have hempty : s'.conn.outputBuffer_.readable = [] := by
    have hsum := congrArg List.length hbytes
    rw [List.length_append] at hsum
    exact List.eq_nil_of_length_eq_zero (by omega)
  refine ⟨hempty, ?_⟩
  by_contra hwr
  exact (hs'.follows.synced hopen).mp (Bool.not_eq_false _ ▸ hwr) hempty

/-- The output that is buffered reaches the kernel, in order, by the time that `poll` has reported
once more than it has bytes that the socket can be written to, whatever is sent meanwhile; if
nothing is, the buffer is empty then and the channel asks for `EPOLLOUT` no more. -/
theorem output_drains {l b : T} {fd mark : ℕ} {wc hw : Bool} {mem : T → ℕ → Byte}
    {pre as : List (Act T)} (hpre : run step (ofConnection l b (.ofFd fd wc hw mark) mem) pre = some s)
    (h : run step s as = some s') (hG : Along step Takes s as) (hopen : .closed ∉ s'.trace)
    (hn : s.conn.outputBuffer_.readableBytes < as.countP Act.reportsOut) :
    ∃ o, s'.trace = s.trace ++ o ∧
      s.conn.outputBuffer_.readable ++ keptBytes o = accepted o ++ s'.conn.outputBuffer_.readable ∧
      s.conn.outputBuffer_.readable <+: accepted o ∧
      (keptBytes o = [] → s'.conn.outputBuffer_.readable = [] ∧ s'.conn.isWriting = false) := by
  have hs : s.Flowing := run_invariant (fun _ _ _ hs ht ↦ hs.step ht) (ofConnection_flowing ..) hpre
  exact hs.drains h hG hopen hn

section

def oneBuffered : List (Act ℕ) :=
  [.newConnection, .exec 0 noCall, .exec 0 noCall, .send 0 1 3, .exec 0 noCall, .exec 0 noCall,
    .exec 0 (answer (.accepted 2)), .exec 0 noCall, .loop .enter, .loop .clearQuit, .loop .testQuit]

def twoReports : List (Act ℕ) :=
  [.poll false (some EPOLLOUT), .handleEvent, .exec 0 noCall, .exec 0 (answer (.accepted 1)),
    .exec 0 noCall, .loop .beginCalling, .loop .swap, .loop (.beginFunctor (.notify .writeComplete)),
    .exec 0 noCall, .exec 0 noCall, .loop .endFunctor, .loop .endCalling, .loop .testQuit,
    .poll false (some EPOLLOUT)]

theorem output_drains_twoReports : ∃ s u o, run step singleLoop oneBuffered = some s ∧
    run step s twoReports = some u ∧ u.trace = s.trace ++ o ∧
      s.conn.outputBuffer_.readable <+: accepted o := by
  obtain ⟨s, hs, hshape⟩ := Option.map_eq_some_iff.mp
    (show (run step singleLoop oneBuffered).map (fun s ↦
      (decide (s.conn.outputBuffer_.readableBytes = 1 ∧ Along step Takes s twoReports),
        (run step s twoReports).map fun u ↦ decide (.closed ∉ u.trace))) = some (true, some true)
      by decide +kernel)
  obtain ⟨hstart, hend⟩ := Prod.mk.inj hshape
  obtain ⟨hone, hG⟩ := of_decide_eq_true hstart
  obtain ⟨u, hu, hopen⟩ := Option.map_eq_some_iff.mp hend
  obtain ⟨o, ho, -, hdrained, -⟩ := output_drains hs hu hG (of_decide_eq_true hopen) (by rw [hone]; decide)
  exact ⟨s, u, o, hs, hu, ho, hdrained⟩

end

end System

end Mymuduo
