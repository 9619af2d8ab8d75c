import Mymuduo.CallOrder

namespace Mymuduo

open Foundation.Machine

variable {T : Type}

def accepted (tr : List (Obs T)) : List Byte :=
  tr.flatMap fun | .write asked w => asked.take w.taken | _ => []

/-- The messages that were not dropped, in the order in which `sendInLoop` ran. -/
def keptBytes (tr : List (Obs T)) : List Byte :=
  tr.flatMap fun | .kept _ msg => msg | _ => []

theorem accepted_append (p q : List (Obs T)) : accepted (p ++ q) = accepted p ++ accepted q :=
  List.flatMap_append

theorem keptBytes_append (p q : List (Obs T)) : keptBytes (p ++ q) = keptBytes p ++ keptBytes q :=
  List.flatMap_append

namespace Frame

/-- A frame adds to the stream what it keeps: the bytes written, then the buffered
ones, are what was buffered followed by the message kept. -/
structure StreamStep (c : TcpConnection) (o : Outcome T) : Prop where
  wf : o.conn.outputBuffer_.WF
  stream : accepted o.obs ++ o.conn.outputBuffer_.readable =
    c.outputBuffer_.readable ++ keptBytes o.obs

variable {e : Site T} {c : TcpConnection} {io : Reply} {f : Frame T} {o : Outcome T}

theorem StreamStep.idle (h : c.outputBuffer_.WF) (hc : o.conn.outputBuffer_ = c.outputBuffer_)
    (ha : accepted o.obs = []) (hk : keptBytes o.obs = []) : StreamStep c o :=
  ⟨by rwa [hc], by rw [hc, ha, hk, List.nil_append, List.append_nil]⟩

theorem accepted_writeOrBuffer (m : Call T) (hio : (Frame.writeOrBuffer m).Accepts e c io) :
    accepted (exec e c io (.writeOrBuffer m)).obs =
      (message e c io m).take (c.nwrote io.write) := by
  have hle : c.nwrote io.write ≤ (m.bytes e.mem).length :=
    TcpConnection.nwrote_le (by simpa using hio.1)
  rw [Call.length_bytes] at hle
  rw [message, Call.take_read hle]
  unfold TcpConnection.nwrote
  simp only [exec]
  split <;> split <;> simp [accepted]

theorem keptBytes_writeOrBuffer (m : Call T) :
    keptBytes (exec e c io (.writeOrBuffer m)).obs =
      if c.faultError io.write io.errno then [] else message e c io m := by
  simp only [exec]
  split <;> split <;> simp [keptBytes]

theorem exec_writeOrBuffer_stream (h : c.outputBuffer_.WF) (m : Call T)
    (hio : (Frame.writeOrBuffer m).Accepts e c io) : StreamStep c (exec e c io (.writeOrBuffer m)) := by
  have hsends := sendInLoop_sends hio
  refine ⟨hsends.wf h, ?_⟩
  rw [accepted_writeOrBuffer m hio, keptBytes_writeOrBuffer]
  cases hf : c.faultError io.write io.errno with
  | true =>
    rw [TcpConnection.nwrote_of_faultError hf]
    simp only [exec, hsends.eq_of_faulted hf]
    simp
  | false => exact hsends.stream h hf

theorem exec_handleWrite_stream (h : c.outputBuffer_.WF)
    (hio : (Frame.handleWrite : Frame T).Accepts e c io) : StreamStep c (exec e c io .handleWrite) := by
  have hwrites := TcpConnection.handleWrite_writes h fun _ ↦ hio
  refine ⟨hwrites.wf h, ?_⟩
  cases hwr : c.isWriting with
  | true => simpa [exec, hwr, accepted, keptBytes] using hwrites.stream h hwr
  | false => simp [exec, hwr, accepted, keptBytes, hwrites.eq_of_not_writing hwr]

theorem exec_stream (h : c.outputBuffer_.WF) (hio : f.Accepts e c io) :
    StreamStep c (f.exec e c io) := by
  cases f with
  | writeOrBuffer m => exact exec_writeOrBuffer_stream h m hio
  | handleWrite => exact exec_handleWrite_stream h hio
  | send data len =>
    simp only [exec]
    split <;> exact .idle h rfl rfl rfl
  | functor cb =>
    cases cb with
    | sendInLoop m =>
      simp only [exec, execFunctor]
      split <;> exact .idle h rfl rfl rfl
    | shutdownInLoop =>
      simp only [exec, execFunctor]
      split <;> exact .idle h rfl rfl rfl
    | connectEstablished | connectDestroyed | notify | foreign => exact .idle h rfl rfl rfl
  | userCode | shutdown | setDisconnecting | queueInLoop | destroyConnected | removeChannel
    | handleEvent | handleRead | drained | handleClose | handleError | connectionCallback
    | messageCallback | closeCallback | removeConnectionInLoop => exact .idle h rfl rfl rfl

theorem exec_kept {m : Call T} {msg : List Byte} (h : .kept m msg ∈ (f.exec e c io).obs) :
    f = .writeOrBuffer m ∧ msg = message e c io m := by
  cases exec_shows h with
  | kept m hf => exact ⟨rfl, rfl⟩

theorem exec_dropped {m : Call T} (h : .dropped m ∈ (f.exec e c io).obs) :
    (f = .functor (.sendInLoop m) ∧ c.state_ = .kDisconnected) ∨
      f = .writeOrBuffer m ∧ c.faultError io.write io.errno = true ∧
        .write (m.bytes e.mem) io.write ∈ (f.exec e c io).obs := by
  cases exec_shows h with
  | gaveUp m hc => exact Or.inl ⟨rfl, hc⟩
  | faulted m hf =>
    have hd := (TcpConnection.faultError_iff.mp hf).1
    exact Or.inr ⟨rfl, hf, by simp [exec, hd]⟩

/-- Where `LOG_ERROR` follows a failed `write`, it does not make `EPIPE` or `ECONNRESET` of
another error. -/
def KeepsErrno (c : TcpConnection) (io : Reply) : Frame T → Prop
  | .writeOrBuffer _ => c.writesDirectly = true → io.write.ret < 0 → io.write.errno ≠ EWOULDBLOCK →
      io.errno = EPIPE ∨ io.errno = ECONNRESET → io.write.errno = EPIPE ∨ io.write.errno = ECONNRESET
  | _ => True

instance (c : TcpConnection) (io : Reply) : (f : Frame T) → Decidable (f.KeepsErrno c io)
  | .writeOrBuffer _ => inferInstanceAs (Decidable (_ → _ → _ → _ → _))
  | .userCode | .send .. | .shutdown | .setDisconnecting | .queueInLoop _ | .functor _
  | .destroyConnected | .removeChannel | .handleEvent _ | .handleRead | .handleWrite | .drained
  | .handleClose | .handleError | .connectionCallback | .messageCallback | .closeCallback
  | .removeConnectionInLoop => isTrue trivial

theorem write_of_writeOrBuffer {m : Call T} {d : List Byte} {w : WriteResult}
    (h : .write d w ∈ (exec e c io (.writeOrBuffer m)).obs) : w = io.write := by
  cases exec_shows h with
  | wrote m hd => rfl

theorem failed_of_ret {w : WriteResult} (h : w.ret < 0) : w = .failed w.errno := by
  cases w with
  | accepted n => exact absurd h (Int.not_lt.mpr (Int.natCast_nonneg n))
  | failed code => rfl

theorem keepsErrno_iff {m : Call T} : (Frame.writeOrBuffer m).KeepsErrno c io ↔
    (c.faultError io.write io.errno = true → io.write = .failed EPIPE ∨ io.write = .failed ECONNRESET) := by
  rw [TcpConnection.faultError_iff]
  constructor
  · rintro h ⟨hd, hret, hblock, herr⟩
    rw [failed_of_ret hret, WriteResult.failed.injEq, WriteResult.failed.injEq]
    exact h hd hret hblock herr
  · intro h hd hret hblock herr
    exact (h ⟨hd, hret, hblock, herr⟩).imp (congrArg WriteResult.errno) (congrArg WriteResult.errno)

end Frame

namespace System

variable [DecidableEq T] {s s' : System T} {a : Act T}

structure Streams (s : System T) : Prop where
  wf : s.conn.outputBuffer_.WF
  stream : accepted s.trace ++ s.conn.outputBuffer_.readable = keptBytes s.trace

theorem Streams.step (hs : s.Streams) (h : Step s a s') : s'.Streams := by
  cases h with
  | @exec t io f fs l hst ho hio hl =>
    obtain ⟨hwf, hstream⟩ := Frame.exec_stream hs.wf hio
    refine ⟨hwf, ?_⟩
    calc accepted (s.trace ++ _) ++ _
      _ = accepted s.trace ++ (s.conn.outputBuffer_.readable ++ keptBytes _) := by
        rw [accepted_append, List.append_assoc, ← hstream]
        rfl
      _ = keptBytes (s.trace ++ _) := by
        rw [keptBytes_append, ← hs.stream, List.append_assoc]
  | enter hu he =>
    refine ⟨by rw [he.conn_eq]; exact hs.wf, ?_⟩
    rw [he.conn_eq]
    rcases he.trace_eq with htr | ⟨u, htr⟩
    · rw [htr]
      exact hs.stream
    · rw [htr, accepted_append, keptBytes_append]
      simpa [accepted, keptBytes] using hs.stream
  | assign | retrieve | poll | loop => exact ⟨hs.wf, hs.stream⟩

omit [DecidableEq T] in
theorem ofConnection_streams (l b : T) (fd : ℕ) (wc hw : Bool) (mark : ℕ) (mem : T → ℕ → Byte) :
    (ofConnection l b (.ofFd fd wc hw mark) mem).Streams :=
  ⟨Buffer.ofSize_wf Buffer.kInitialSize, Buffer.ofSize_readable Buffer.kInitialSize⟩

/-- A message is kept as `sendInLoop` reads it, and dropped as a whole. -/
def Sorts (s : System T) (a : Act T) : Prop :=
  ∀ s', s.step a = some s' → ∃ o, s'.trace = s.trace ++ o ∧
    (∀ m msg, .kept m msg ∈ o →
      ∃ t io, a = .exec t io ∧ msg = Frame.message (s.site t) s.conn io m) ∧
    ∀ m, .dropped m ∈ o → accepted o = [] ∧
      s'.conn.outputBuffer_.readable = s.conn.outputBuffer_.readable

/-- A message is dropped only on a closed connection, or where `write` fails for good. -/
def DropsOnFault (s : System T) (a : Act T) : Prop :=
  ∀ s' o m, s.step a = some s' → s'.trace = s.trace ++ o → .dropped m ∈ o →
    s.conn.state_ = .kDisconnected ∨ .write (m.bytes s.mem) (.failed EPIPE) ∈ o ∨
      .write (m.bytes s.mem) (.failed ECONNRESET) ∈ o

def KeepsErrno (s : System T) : Act T → Prop
  | .exec t io => ∀ f ∈ (s.stack t).head?, f.KeepsErrno s.conn io
  | _ => True

instance (s : System T) : (a : Act T) → Decidable (s.KeepsErrno a)
  | .exec t io => inferInstanceAs (Decidable (∀ f ∈ (s.stack t).head?, f.KeepsErrno s.conn io))
  | .send .. | .shutdown _ | .assign .. | .release .. | .retrieve _ | .newConnection | .destroyServer
  | .removeConnectionInLoop | .poll .. | .handleEvent | .loop _ => isTrue trivial

theorem sorts (s : System T) (a : Act T) : s.Sorts a := by
  intro s' hstep
  cases step_cases hstep with
  | @exec t io f fs l hst ho hio hl =>
    refine ⟨_, rfl, fun m msg hk ↦ ⟨t, io, rfl, (Frame.exec_kept hk).2⟩, fun m hd ↦ ?_⟩
    rcases Frame.exec_dropped hd with ⟨rfl, hdisc⟩ | ⟨rfl, hf, hw⟩
    · simp [Frame.exec, Frame.execFunctor, hdisc, commit, accepted]
    · refine ⟨?_, ?_⟩
      · rw [Frame.accepted_writeOrBuffer m hio, TcpConnection.nwrote_of_faultError hf, List.take_zero]
      · simp only [commit, Frame.exec, (Frame.sendInLoop_sends hio).eq_of_faulted hf]
  | enter hu he =>
    rcases he.trace_eq with htr | ⟨u, htr⟩
    · exact ⟨[], by simpa using htr, by simp, by simp⟩
    · exact ⟨_, htr, by simp, by simp⟩
  | assign | retrieve | poll | loop => exact ⟨[], by simp, by simp, by simp⟩

theorem dropsOnFault_of_silent (h : s.step a = some s') {o : List (Obs T)}
    (htr : s'.trace = s.trace ++ o) (hno : ∀ m, .dropped m ∉ o) : s.DropsOnFault a := by
  intro u os m hu hos hd
  obtain rfl := Option.some.inj (h.symm.trans hu)
  obtain rfl := List.append_cancel_left (htr.symm.trans hos)
  exact absurd hd (hno m)

/-- The steps that drop a message only for its reasons are those in which `LOG_ERROR` keeps
`errno`. -/
theorem dropsOnFault_iff (hr : s.Reached) (hg : s.Guarded) (h : s.step a = some s') :
    s.DropsOnFault a ↔ s.KeepsErrno a := by
  cases step_cases h with
  | @exec t io f fs l hst ho hio hl =>
    have hhead : s.KeepsErrno (.exec t io) ↔ f.KeepsErrno s.conn io := by simp [KeepsErrno, hst]
    rw [hhead]
    constructor
    · intro hdrops
      cases f with
      | writeOrBuffer m =>
        refine Frame.keepsErrno_iff.mpr fun hf ↦ ?_
        have hdir := (TcpConnection.faultError_iff.mp hf).1
        have hmem : .writeOrBuffer m ∈ s.stack s.loop.threadId_ := by
          rw [← hr.loop_of_head hst rfl, hst]
          exact List.mem_cons_self
        rcases hdrops _ _ m h rfl (by simp [Frame.exec, hf]) with hdisc | hw | hw
        · exact absurd hdisc (hg m hmem)
        · exact Or.inl (Frame.write_of_writeOrBuffer hw).symm
        · exact Or.inr (Frame.write_of_writeOrBuffer hw).symm
      | _ => trivial
    · intro hkeeps u o m hu htr hd
      obtain rfl := Option.some.inj (h.symm.trans hu)
      obtain rfl := List.append_cancel_left htr
      rcases Frame.exec_dropped hd with ⟨rfl, hdisc⟩ | ⟨rfl, hf, hw⟩
      · exact Or.inl hdisc
      · rcases Frame.keepsErrno_iff.mp hkeeps hf with he | he
        · exact Or.inr (Or.inl (he ▸ hw))
        · exact Or.inr (Or.inr (he ▸ hw))
  | enter hu he =>
    refine iff_of_true ?_ (by cases he <;> trivial)
    rcases he.trace_eq with htr | ⟨v, htr⟩
    · exact dropsOnFault_of_silent h (o := []) (by simpa using htr) (by simp)
    · exact dropsOnFault_of_silent h htr (by simp)
  | assign hu ha =>
    refine iff_of_true (dropsOnFault_of_silent h (o := []) (by simp) (by simp)) ?_
    rcases ha with rfl | rfl <;> trivial
  | retrieve | poll | loop =>
    exact iff_of_true (dropsOnFault_of_silent h (o := []) (by simp) (by simp)) trivial

omit [DecidableEq T] in
theorem ofConnection_guarded (l b : T) (c : TcpConnection) (mem : T → ℕ → Byte) :
    (ofConnection l b c mem).Guarded := by simp [Guarded, ofConnection]

theorem along_dropsOnFault_iff {l b : T} {c : TcpConnection} {mem : T → ℕ → Byte} {as : List (Act T)}
    (h : run step (ofConnection l b c mem) as = some s) :
    Along step DropsOnFault (ofConnection l b c mem) as ↔
      Along step KeepsErrno (ofConnection l b c mem) as :=
  along_congr_of_run (I := fun s ↦ s.Reached ∧ s.Guarded)
    (fun _ _ _ ⟨hr, hg⟩ ht ↦ ⟨hr.step ht, hg.step hr (step_cases ht)⟩)
    (fun _ _ _ ⟨hr, hg⟩ ht ↦ dropsOnFault_iff hr hg ht)
    ⟨ofConnection_reached l b c mem, ofConnection_guarded l b c mem⟩ h

/-- The bytes accepted by the kernel and those buffered are the messages kept, in
the order in which `sendInLoop` ran; the calls of a thread run in its call order; a message is
kept or dropped as a whole, and dropped for no reason but its two exactly as long as `LOG_ERROR`
makes no other error `EPIPE` or `ECONNRESET`. -/
theorem output_stream {l b : T} {fd mark : ℕ} {wc hw : Bool} {mem : T → ℕ → Byte} {as : List (Act T)}
    (h : run step (ofConnection l b (.ofFd fd wc hw mark) mem) as = some s) :
    (accepted s.trace ++ s.conn.outputBuffer_.readable = keptBytes s.trace ∧
      (∀ t, callsOf t (ranCalls s.trace) <+: callsOf t (passedCalls s.trace)) ∧
      (passedCalls s.trace).map Call.id = List.range (passedCalls s.trace).length) ∧
    Along step Sorts (ofConnection l b (.ofFd fd wc hw mark) mem) as ∧
    (Along step DropsOnFault (ofConnection l b (.ofFd fd wc hw mark) mem) as ↔
      Along step KeepsErrno (ofConnection l b (.ofFd fd wc hw mark) mem) as) := by
  have hreached : s.Reached := run_invariant (fun _ _ _ hs ht ↦ hs.step ht)
    (ofConnection_reached l b _ mem) h
  have hstreams : s.Streams := run_invariant (fun _ _ _ hs ht ↦ hs.step (step_cases ht))
    (ofConnection_streams l b fd wc hw mark mem) h
  exact ⟨⟨hstreams.stream, hreached.ordered.ran_prefix, hreached.ordered.ids⟩,
    along_of_forall fun a _ s ↦ sorts s a, along_dropsOnFault_iff h⟩

section

def answer (w : WriteResult) : Reply := { write := w, read := .failed EWOULDBLOCK }

def noCall : Reply := answer (.accepted 0)

/-- Thread 0 runs the server and the loop; cell `i` of each thread holds `i`. -/
def singleLoop : System ℕ := ofConnection 0 0 (.ofFd 7 true true 4) fun _ i ↦ UInt8.ofNat i

def partialWrites : List (Act ℕ) :=
  [.newConnection, .exec 0 noCall, .exec 0 noCall, .send 0 1 3, .exec 0 noCall, .exec 0 noCall,
    .exec 0 (answer (.accepted 2)), .exec 0 noCall, .send 1 4 2, .exec 1 noCall, .exec 1 noCall,
    .loop (.wakeup 1), .loop .enter, .loop .clearQuit, .loop .testQuit, .poll true (some EPOLLOUT),
    .handleEvent, .exec 0 noCall, .exec 0 (answer (.accepted 1)), .exec 0 noCall, .loop .handleRead,
    .loop .beginCalling, .loop .swap, .loop (.beginFunctor (.sendInLoop ⟨1, 1, 4, 2⟩)), .exec 0 noCall,
    .exec 0 (answer (.accepted 1))]

theorem output_stream_partial : ∃ s, run step singleLoop partialWrites = some s ∧
    accepted s.trace ++ s.conn.outputBuffer_.readable = keptBytes s.trace ∧
    Along step DropsOnFault singleLoop partialWrites := by
  obtain ⟨s, hs⟩ := Option.isSome_iff_exists.mp
    (show (run step singleLoop partialWrites).isSome = true by decide +kernel)
  obtain ⟨⟨hstream, -⟩, -, hiff⟩ := output_stream hs
  exact ⟨s, hs, hstream, hiff.mpr (by decide +kernel)⟩

def ENOBUFS : ℕ := 105

/-- The loop thread sends three bytes, `write` fails with `ENOBUFS`, and the log of that goes
to a standard output that nobody reads, which leaves `EPIPE` in `errno`. -/
def misreadErrno : List (Act ℕ) :=
  [.newConnection, .exec 0 noCall, .exec 0 noCall, .send 0 1 3, .exec 0 noCall, .exec 0 noCall,
    .exec 0 { answer (.failed ENOBUFS) with errno := EPIPE }]

theorem message_dropped_on_log :
    ¬ ∀ (as : List (Act ℕ)) s, run step singleLoop as = some s → Along step DropsOnFault singleLoop as := by
  intro h
  obtain ⟨s, hs⟩ := Option.isSome_iff_exists.mp
    (show (run step singleLoop misreadErrno).isSome = true by decide +kernel)
  exact absurd ((along_dropsOnFault_iff hs).mp (h _ s hs)) (by decide +kernel)

end

end System

end Mymuduo
