import Mymuduo.OutputStream

namespace Mymuduo

open Foundation.Machine

variable {T : Type}

namespace Frame

/-- The frames that lead to a call of `shutdownInLoop`; `drained` does while `state_`
is `kDisconnecting`. -/
def halfCloses : Frame T → Bool
  | .functor .shutdownInLoop | .queueInLoop .shutdownInLoop | .drained => true
  | _ => false

variable {e : Site T} {c : TcpConnection} {io : Reply} {f : Frame T}

def HalfCloses (o : Outcome T) : Prop :=
  .shutdownWrite ∈ o.obs ∨ o.queued = some .shutdownInLoop ∨ ∃ g ∈ o.frames, g.halfCloses = true

theorem exec_halfCloses (hwf : c.outputBuffer_.WF) (hio : f.Accepts e c io)
    (hst : (f.exec e c io).conn.state_ = .kDisconnecting) :
    HalfCloses (f.exec e c io) ∨ (f.exec e c io).conn.isWriting = true ∨
      c.state_ = .kDisconnecting ∧ c.isWriting = false ∧ f.halfCloses = false := by
  have hsame : ∀ {d : TcpConnection}, d.state_ = .kDisconnecting → d.isWriting = c.isWriting →
      d.state_ = c.state_ → f.halfCloses = false →
      d.isWriting = true ∨ c.state_ = .kDisconnecting ∧ c.isWriting = false ∧ f.halfCloses = false := by
    intro d hd hw hs hf
    rw [hw, ← hs]
    cases hc : c.isWriting with
    | true => exact Or.inl rfl
    | false => exact Or.inr ⟨hd, rfl, hf⟩
  cases f with
  | functor cb =>
    cases cb with
    | shutdownInLoop =>
      cases hc : c.isWriting with
      | true => exact Or.inr (Or.inl hc)
      | false => exact Or.inl (Or.inl (by simp [exec, execFunctor, hc]))
    | connectEstablished => simp [exec, execFunctor, TcpConnection.setState,
        TcpConnection.enableReading] at hst
    | sendInLoop m =>
      have hconn : ((Frame.functor (.sendInLoop m)).exec e c io).conn = c := by
        simp only [exec, execFunctor]
        split <;> rfl
      rw [hconn] at hst ⊢
      exact Or.inr (hsame hst rfl rfl rfl)
    | connectDestroyed | notify | foreign => exact Or.inr (hsame hst rfl rfl rfl)
  | queueInLoop cb =>
    by_cases hcb : cb = .shutdownInLoop
    · exact Or.inl (Or.inr (Or.inl (by simp [exec, hcb])))
    · have hf : (Frame.queueInLoop cb).halfCloses = false := by
        cases cb <;> simp_all [halfCloses]
      exact Or.inr (hsame hst rfl rfl hf)
  | setDisconnecting =>
    refine Or.inl (Or.inr (Or.inr ⟨runInLoop e .shutdownInLoop, List.mem_singleton_self _, ?_⟩))
    simp only [runInLoop]
    split <;> rfl
  | drained =>
    refine Or.inl (Or.inr (Or.inr ⟨.functor .shutdownInLoop, ?_, rfl⟩))
    simp only [exec] at hst
    simp [exec, hst]
  | writeOrBuffer m =>
    cases hc : c.isWriting with
    | true =>
      right; left
      have hreg : (c.sendInLoop (message e c io m) io.write io.errno).conn.reg = c.reg ∨
          (c.sendInLoop (message e c io m) io.write io.errno).conn.reg = c.reg.enableWriting :=
        TcpConnection.reg_sendInLoop
      rcases hreg with hreg | hreg
      · simp only [exec, TcpConnection.isWriting, hreg]
        exact hc
      · simp only [exec, TcpConnection.isWriting, hreg, Registration.isWriting_enableWriting]
    | false =>
      refine Or.inr (Or.inr ⟨?_, rfl, rfl⟩)
      rwa [exec, TcpConnection.state_sendInLoop] at hst
  | handleWrite =>
    have hwrites := TcpConnection.handleWrite_writes hwf fun _ ↦ hio
    simp only [exec] at hst ⊢
    generalize c.handleWrite io.write = r at hst hwrites ⊢
    cases hwrites with
    | idle | part => exact Or.inr (hsame hst rfl rfl rfl)
    | all => exact Or.inl (Or.inr (Or.inr ⟨.drained, by simp, rfl⟩))
  | handleClose | destroyConnected => simp [exec, TcpConnection.setState,
      TcpConnection.disableAll] at hst
  | send data len =>
    have hconn : ((Frame.send data len).exec e c io).conn = c := by
      simp only [exec]
      split <;> rfl
    rw [hconn] at hst ⊢
    exact Or.inr (hsame hst rfl rfl rfl)
  | userCode | shutdown | removeChannel | handleEvent | handleRead | handleError
    | connectionCallback | messageCallback | closeCallback | removeConnectionInLoop =>
    exact Or.inr (hsame hst rfl rfl rfl)

theorem Turns.backed {d : TcpConnection} (h : Turns e c io f d) (hwf : c.outputBuffer_.WF)
    (hio : f.Accepts e c io) (hc : c.isWriting = true → c.outputBuffer_.readable ≠ [])
    (hd : d.isWriting = true) : d.outputBuffer_.readable ≠ [] := by
  cases h with
  | sent m =>
    have hsends := sendInLoop_sends hio
    generalize (c.sendInLoop (message e c io m) io.write io.errno).conn = d at hsends hd ⊢
    cases hsends with
    | faulted | finished => exact hc hd
    | buffered hf hlt =>
      rw [TcpConnection.outputBuffer_bufferOutput, hwf.readable_append]
      have hne : (message e c io m).drop (c.nwrote io.write) ≠ [] := by simpa using hlt
      simp [hne]
  | written =>
    have hwrites := TcpConnection.handleWrite_writes hwf fun _ ↦ hio
    generalize c.handleWrite io.write = r at hwrites hd ⊢
    cases hwrites with
    | idle => exact hc hd
    | part hwr hlt => simpa [hwf.readable_retrieve] using hlt
    | all => simp at hd
  | destroyed | closed => simp at hd
  | established | removed => exact hc (by simpa using hd)
  | same | disconnecting | read => exact hc hd

end Frame

namespace System

variable [DecidableEq T] {s s' : System T} {a : Act T}

/-- `SHUT_WR` has been issued, or a call of `shutdownInLoop` is still to come. -/
def HalfClosing (s : System T) : Prop :=
  .shutdownWrite ∈ s.trace ∨ .shutdownInLoop ∈ s.loop.waiting ∨
    ∃ t, ∃ f ∈ s.stack t, f.halfCloses = true

/-- A half-close that is asked for comes, or waits for the output to be written. -/
structure Remembers (s : System T) : Prop where
  wf : s.conn.outputBuffer_.WF
  backed : s.conn.isWriting = true → s.conn.outputBuffer_.readable ≠ []
  pending : s.conn.state_ = .kDisconnecting → s.HalfClosing ∨ s.conn.isWriting = true

omit [DecidableEq T] in
theorem HalfClosing.mono (h : s.HalfClosing) (htr : ∀ o ∈ s.trace, o ∈ s'.trace)
    (hw : ∀ cb ∈ s.loop.waiting, cb ∈ s'.loop.waiting) (hst : ∀ t, ∀ f ∈ s.stack t, f ∈ s'.stack t) :
    s'.HalfClosing := by
  rcases h with h | h | ⟨t, f, hf, hcl⟩
  · exact Or.inl (htr _ h)
  · exact Or.inr (Or.inl (hw _ h))
  · exact Or.inr (Or.inr ⟨t, f, hst t f hf, hcl⟩)

theorem HalfClosing.exec {t : T} {f : Frame T} {fs gs : List (Frame T)} (h : s.HalfClosing)
    (hf : f.halfCloses = false) (hst : s.stack t = f :: fs)
    (hst' : s'.stack = Function.update s.stack t (gs ++ fs)) (htr : ∀ o ∈ s.trace, o ∈ s'.trace)
    (hw : ∀ cb ∈ s.loop.waiting, cb ∈ s'.loop.waiting) : s'.HalfClosing := by
  rcases h with h | h | ⟨u, g, hg, hcl⟩
  · exact Or.inl (htr _ h)
  · exact Or.inr (Or.inl (hw _ h))
  · refine Or.inr (Or.inr ⟨u, g, ?_, hcl⟩)
    rw [hst']
    by_cases hut : u = t
    · subst hut
      rw [hst] at hg
      rcases List.mem_cons.mp hg with rfl | hg
      · simp [hf] at hcl
      · simp [hg]
    · rwa [Function.update_of_ne hut]

theorem Remembers.exec {t : T} {io : Reply} {f : Frame T} {fs : List (Frame T)} (hs : s.Remembers)
    (hst : s.stack t = f :: fs) (hio : f.Accepts (s.site t) s.conn io)
    (hst' : s'.stack = Function.update s.stack t ((f.exec (s.site t) s.conn io).frames ++ fs))
    (hq : s'.loop.waiting = s.loop.waiting ++ (f.exec (s.site t) s.conn io).queued.toList)
    (hconn : s'.conn = (f.exec (s.site t) s.conn io).conn)
    (htr : s'.trace = s.trace ++ (f.exec (s.site t) s.conn io).obs) : s'.Remembers := by
  have hturns := Frame.exec_turns (s.site t) s.conn io f
  rw [← hconn] at hturns
  refine ⟨hturns.wf hio hs.wf, hturns.backed hs.wf hio hs.backed, ?_⟩
  intro hdis
  rw [hconn] at hdis
  rcases Frame.exec_halfCloses hs.wf hio hdis with ho | hwr | ⟨hdis', hidle, hf⟩
  · left
    rcases ho with ho | ho | ⟨g, hg, hcl⟩
    · exact Or.inl (htr ▸ List.mem_append_right _ ho)
    · exact Or.inr (Or.inl (by simp [hq, ho]))
    · exact Or.inr (Or.inr ⟨t, g, by simp [hst', hg], hcl⟩)
  · exact Or.inr (hconn ▸ hwr)
  · left
    rcases hs.pending hdis' with hp | hwr
    · apply hp.exec hf hst hst'
      · intro o ho
        exact htr ▸ List.mem_append_left _ ho
      · intro cb hcb
        exact hq ▸ List.mem_append_left _ hcb
    · simp [hidle] at hwr

theorem Remembers.step (hs : s.Remembers) (hc : s.loop.Control) (h : Step s a s') :
    s'.Remembers := by
  cases h.flow hc with
  | exec t io f fs hst hio hst' hq hconn htr => exact hs.exec hst hio hst' hq hconn htr
  | enter t f hu he =>
    refine ⟨by rw [he.conn_eq]; exact hs.wf, by rw [he.conn_eq]; exact hs.backed, ?_⟩
    rw [he.conn_eq]
    intro hdis
    refine (hs.pending hdis).imp_left fun hp ↦ hp.mono (fun o ↦ h.trace_mono) ?_ ?_
    · rw [he.loop_eq]
      exact fun cb hcb ↦ hcb
    · rw [he.stack_eq]
      intro u g hg
      by_cases hut : u = t
      · subst hut
        simp [hg]
      · rwa [Function.update_of_ne hut]
  | begin cb hst hst' hq hconn htr =>
    refine ⟨by rw [hconn]; exact hs.wf, by rw [hconn]; exact hs.backed, ?_⟩
    rw [hconn]
    intro hdis
    refine (hs.pending hdis).imp_left fun hp ↦ ?_
    rcases hp with hp | hp | ⟨u, g, hg, hcl⟩
    · exact Or.inl (htr ▸ hp)
    · rw [hq] at hp
      rcases List.mem_cons.mp hp with rfl | hp
      · exact Or.inr (Or.inr ⟨s.loop.threadId_, .functor .shutdownInLoop, by simp [hst'], rfl⟩)
      · exact Or.inr (Or.inl hp)
    · refine Or.inr (Or.inr ⟨u, g, ?_, hcl⟩)
      by_cases hut : u = s.loop.threadId_
      · simp [hut, hst] at hg
      · rwa [hst', Function.update_of_ne hut]
  | idle q hf hst' hq hconn htr =>
    obtain ⟨b, hconn⟩ := hconn
    refine ⟨by rw [hconn]; exact hs.wf, by rw [hconn]; exact hs.backed, ?_⟩
    rw [hconn]
    intro hdis
    refine (hs.pending hdis).imp_left fun hp ↦ hp.mono ?_ ?_ ?_
    · rw [htr]
      exact fun o ho ↦ ho
    · rw [hq]
      exact fun cb hcb ↦ List.mem_append_left q hcb
    · rw [hst']
      exact fun u g hg ↦ hg

omit [DecidableEq T] in
theorem ofConnection_remembers (l b : T) (fd : ℕ) (wc hw : Bool) (mark : ℕ) (mem : T → ℕ → Byte) :
    (ofConnection l b (.ofFd fd wc hw mark) mem).Remembers := by
  refine ⟨Buffer.ofSize_wf _, fun hwr ↦ ?_, fun hdis ↦ ?_⟩
  · simp [ofConnection, TcpConnection.ofFd, TcpConnection.isWriting, Channel.ofFd, Channel.isWriting,
      Channel.kNoneEvent] at hwr
  · simp [ofConnection, TcpConnection.ofFd] at hdis

/-- A half-close that is asked for on a connection with nothing left to write has been
issued, or its call is queued or about to be made. -/
theorem half_close_remembered {l b : T} {fd mark : ℕ} {wc hw : Bool} {mem : T → ℕ → Byte}
    {as : List (Act T)} (h : run step (ofConnection l b (.ofFd fd wc hw mark) mem) as = some s)
    (hdis : s.conn.state_ = .kDisconnecting) (hempty : s.conn.outputBuffer_.readableBytes = 0) :
    .shutdownWrite ∈ s.trace ∨ .shutdownInLoop ∈ s.loop.waiting ∨
      (∃ t, .queueInLoop .shutdownInLoop ∈ s.stack t) ∨
      .functor .shutdownInLoop ∈ s.stack s.loop.threadId_ ∨ .drained ∈ s.stack s.loop.threadId_ := by
  have hs : s.Reached ∧ s.Remembers := run_invariant (I := fun s ↦ s.Reached ∧ s.Remembers)
    (fun _ _ _ hs ht ↦ ⟨hs.1.step ht, hs.2.step hs.1.control (step_cases ht)⟩)
    ⟨ofConnection_reached l b _ mem, ofConnection_remembers l b fd wc hw mark mem⟩ h
  obtain ⟨hreached, hs⟩ := hs
  have hidle : ¬ s.conn.isWriting = true := fun hwr ↦
    hs.backed hwr (hs.wf.readable_eq_nil.mpr hempty)
  rcases (hs.pending hdis).resolve_right hidle with hp | hp | ⟨t, f, hf, hcl⟩
  · exact Or.inl hp
  · exact Or.inr (Or.inl hp)
  · have hhome : f.roams = false → t = s.loop.threadId_ := by
      intro hr
      by_contra ht
      simp [hreached.confined t ht f hf] at hr
    right; right
    cases f with
    | queueInLoop cb =>
      cases cb with
      | shutdownInLoop => exact Or.inl ⟨t, hf⟩
      | _ => simp [Frame.halfCloses] at hcl
    | functor cb =>
      cases cb with
      | shutdownInLoop => exact Or.inr (Or.inl (hhome rfl ▸ hf))
      | _ => simp [Frame.halfCloses] at hcl
    | drained => exact Or.inr (Or.inr (hhome rfl ▸ hf))
    | _ => simp [Frame.halfCloses] at hcl

theorem half_close_remembered_stored : ∃ s, run step singleLoop [.newConnection, .exec 0 noCall,
      .exec 0 noCall, .shutdown 1, .exec 1 noCall, .exec 1 noCall] = some s ∧
    (.shutdownWrite ∈ s.trace ∨ .shutdownInLoop ∈ s.loop.waiting ∨
      (∃ t, .queueInLoop .shutdownInLoop ∈ s.stack t) ∨
      .functor .shutdownInLoop ∈ s.stack s.loop.threadId_ ∨ .drained ∈ s.stack s.loop.threadId_) := by
  obtain ⟨s, hs, hclosing⟩ := Option.map_eq_some_iff.mp (show (run step singleLoop [.newConnection,
    .exec 0 noCall, .exec 0 noCall, .shutdown 1, .exec 1 noCall, .exec 1 noCall]).map
      (fun s ↦ decide (s.conn.state_ = .kDisconnecting ∧ s.conn.outputBuffer_.readableBytes = 0)) =
        some true by decide +kernel)
  have hboth := of_decide_eq_true hclosing
  exact ⟨s, hs, half_close_remembered hs hboth.1 hboth.2⟩

end System

end Mymuduo
