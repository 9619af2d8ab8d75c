import Mymuduo.Establishment
import Mymuduo.WriteInterest

namespace Mymuduo

open Foundation.Machine

variable {T : Type}

def StateE.rank : StateE → ℕ
  | .kConnecting => 0
  | .kConnected => 1
  | .kDisconnecting => 2
  | .kDisconnected => 3

theorem StateE.rank_le (st : StateE) : st.rank ≤ StateE.kDisconnected.rank := by
  cases st <;> simp [rank]

theorem StateE.eq_of_rank {st : StateE} (h : StateE.kDisconnected.rank ≤ st.rank) :
    st = .kDisconnected := by
  cases st <;> simp_all [rank]

theorem TcpConnection.sendInLoop_reg_of_writing {c : TcpConnection} {data : List Byte}
    {w : WriteResult} {errno : ℕ} (hw : c.isWriting = true) :
    (c.sendInLoop data w errno).conn.reg = c.reg := by
  have hbuffer : ∀ d, (c.bufferOutput d).reg = c.reg := by
    intro d
    simp only [bufferOutput]
    split
    · rfl
    · next hn => exact absurd hw hn
  simp only [sendInLoop]
  split
  · rfl
  · split
    · exact hbuffer _
    · rfl

namespace System

variable [DecidableEq T] {s s' : System T} {a : Act T}

/-- The step moves `state_` forward only, and after `handleClose` or `connectDestroyed`
no `sendInLoop` writes or touches the registration. -/
def Absorbs (s : System T) (a : Act T) : Prop :=
  ∀ s', s.step a = some s' → s.conn.state_.rank ≤ s'.conn.state_.rank ∧
    (.closed ∈ s.trace ∨ .destroyed ∈ s.trace → ∀ t io m fs, a = .exec t io →
      s.stack t = .writeOrBuffer m :: fs → s'.conn.reg = s.conn.reg ∧
        ∃ o, s'.trace = s.trace ++ o ∧ ∀ d w, .write d w ∉ o)

/-- The step does not store `kDisconnecting` over `kDisconnected`, and what it sends
after `connectDestroyed` has returned goes behind output that already waits. -/
def Orderly (s : System T) (a : Act T) : Prop :=
  (s.step a).isSome → ∀ t io, a = .exec t io →
    (∀ fs, s.stack t = .setDisconnecting :: fs → s.conn.state_ ≠ .kDisconnected) ∧
    ∀ m fs, s.stack t = .writeOrBuffer m :: fs → .destroyed ∈ s.trace → s.conn.isWriting = true

/-- The invariant of the runs in which `state_` moves forward. -/
structure Enduring (s : System T) : Prop where
  reached : s.Reached
  established : s.Established
  guarded : s.Guarded
  follows : s.Follows
  closed : .closed ∈ s.trace → s.conn.state_ = .kDisconnected

theorem ofConnection_enduring (l b : T) (fd : ℕ) (wc hw : Bool) (mark : ℕ) (mem : T → ℕ → Byte) :
    (ofConnection l b (.ofFd fd wc hw mark) mem).Enduring :=
  ⟨ofConnection_reached l b _ mem, ofConnection_established l b fd wc hw mark mem,
    by simp [Guarded, ofConnection], ofConnection_follows l b fd wc hw mark mem,
    by simp [ofConnection]⟩

theorem Enduring.step (hs : s.Enduring) (hG : s.Absorbs a) (h : s.step a = some s') :
    s'.Enduring := by
  have hstep := step_cases h
  refine ⟨hs.reached.step h, hs.established.step hs.reached.confined hs.reached.control hstep,
    hs.guarded.step hs.reached hstep, hs.follows.step hstep, ?_⟩
  have hkeep : .closed ∈ s.trace → s'.conn.state_ = .kDisconnected := by
    intro hmem
    have hforward := (hG s' h).1
    rw [hs.closed hmem] at hforward
    exact StateE.eq_of_rank hforward
  cases hstep with
  | @exec t io f fs l hst ho hio hl =>
    intro hmem
    rcases List.mem_append.mp hmem with hmem | hmem
    · exact hkeep hmem
    · cases Frame.exec_shows hmem with
      | destroyed | closed => rfl
  | enter hu he =>
    intro hmem
    apply hkeep
    rcases he.trace_eq with htr | ⟨u, htr⟩
    · exact htr ▸ hmem
    · rw [htr] at hmem
      simpa using hmem
  | assign | retrieve | poll | loop => exact hkeep

theorem Enduring.forward (hs : s.Enduring) (h : s.step a = some s')
    (hset : ∀ t io fs, a = .exec t io → s.stack t = .setDisconnecting :: fs →
      s.conn.state_ ≠ .kDisconnected) : s.conn.state_.rank ≤ s'.conn.state_.rank := by
  cases step_cases h with
  | @exec t io f fs l hst ho hio hl =>
    rcases (Frame.exec_turns (s.site t) s.conn io f).state with
      heq | ⟨rfl, heq⟩ | ⟨rfl, heq⟩ | ⟨-, heq⟩
    · simp only [commit, heq, le_refl]
    · have hmem : Frame.functor .connectEstablished ∈ s.stack s.loop.threadId_ := by
        rw [← hs.reached.loop_of_head hst rfl, hst]
        exact List.mem_cons_self
      have hconnecting : s.conn.state_ = .kConnecting := by
        by_contra hne
        exact hs.established.not_again hne hmem
      simp [hconnecting, StateE.rank]
    · have hne := hset t io fs rfl hst
      have hle : s.conn.state_.rank ≤ StateE.kDisconnecting.rank := by
        cases hst : s.conn.state_ <;> simp_all [StateE.rank]
      simpa only [commit, heq] using hle
    · simpa only [commit, heq] using StateE.rank_le _
  | enter hu he => rw [he.conn_eq]
  | assign | retrieve | poll | loop => exact le_refl _

theorem Enduring.not_closed (hs : s.Enduring) {t : T} {m : Call T} {fs : List (Frame T)}
    (hst : s.stack t = .writeOrBuffer m :: fs) : .closed ∉ s.trace := by
  intro hmem
  have hL := hs.reached.loop_of_head hst rfl
  refine hs.guarded m ?_ (hs.closed hmem)
  rw [← hL, hst]
  exact List.mem_cons_self

theorem Enduring.send_iff (hs : s.Enduring) {t : T} {io : Reply} {m : Call T} {fs : List (Frame T)}
    (hst : s.stack t = .writeOrBuffer m :: fs) (h : s.step (.exec t io) = some s') :
    (s'.conn.reg = s.conn.reg ∧ ∃ o, s'.trace = s.trace ++ o ∧ ∀ d w, .write d w ∉ o) ↔
      s.conn.isWriting = true := by
  have hsync := hs.follows.synced (hs.not_closed hst)
  obtain ⟨l, rfl⟩ := step_exec hst h
  cases hwr : s.conn.isWriting with
  | true =>
    refine iff_of_true ⟨TcpConnection.sendInLoop_reg_of_writing hwr, _, rfl, ?_⟩ rfl
    intro d w hmem
    have hdirect : s.conn.writesDirectly = false := by simp [TcpConnection.writesDirectly, hwr]
    simp only [Frame.exec, hdirect, Bool.false_eq_true, if_false, List.nil_append,
      List.mem_singleton] at hmem
    split at hmem <;> simp at hmem
  | false =>
    refine iff_of_false ?_ (by simp)
    intro hno
    obtain ⟨-, o, ho, hnone⟩ := hno
    have hdirect : s.conn.writesDirectly = true := by
      refine (TcpConnection.writesDirectly_iff hs.follows.wf).mpr ⟨hwr, ?_⟩
      by_contra hne
      simp [hsync.mpr hne] at hwr
    obtain rfl := List.append_cancel_left ho
    refine hnone (m.bytes s.mem) io.write ?_
    simp only [Frame.exec, hdirect, if_true]
    exact List.mem_append_left _ (List.mem_singleton_self _)

theorem Enduring.absorbs_iff (hs : s.Enduring) : s.Absorbs a ↔ s.Orderly a := by
  constructor
  · intro hG hsome t io ha
    subst ha
    obtain ⟨s', h⟩ := Option.isSome_iff_exists.mp hsome
    obtain ⟨hforward, hsilent⟩ := hG s' h
    refine ⟨?_, ?_⟩
    · intro fs hst hdis
      have hstate : s'.conn.state_ = .kDisconnecting := by
        obtain ⟨l, rfl⟩ := step_exec hst h
        rfl
      simp [hdis, hstate, StateE.rank] at hforward
    · intro m fs hst hd
      exact (hs.send_iff hst h).mp (hsilent (Or.inr hd) t io m fs rfl hst)
  · intro hH s' h
    have hH := hH (by simp [h])
    refine ⟨hs.forward h fun t io fs ha hst ↦ (hH t io ha).1 fs hst, ?_⟩
    intro hend t io m fs ha hst
    subst ha
    have hd := hend.resolve_left (hs.not_closed hst)
    exact (hs.send_iff hst h).mpr ((hH t io rfl).2 m fs hst hd)

/-- `kDisconnected` is absorbing in exactly the runs that store no `kDisconnecting`
over it and send nothing on a connection destroyed while it was shutting down. -/
theorem disconnected_absorbing {l b : T} {fd mark : ℕ} {wc hw : Bool} {mem : T → ℕ → Byte}
    {as : List (Act T)} :
    Along step Absorbs (ofConnection l b (.ofFd fd wc hw mark) mem) as ↔
      Along step Orderly (ofConnection l b (.ofFd fd wc hw mark) mem) as :=
  along_congr (fun _ _ _ hs hG h ↦ hs.step hG h) (fun _ _ hs ↦ hs.absorbs_iff)
    (ofConnection_enduring l b fd wc hw mark mem)

section

/-- Thread 1 sends and shuts down; while it stands between its check and its store the
peer closes; the store comes last. -/
def storedLate : List (Act ℕ) :=
  [.newConnection, .exec 0 noCall, .exec 0 noCall, .exec 0 noCall, .shutdown 1, .exec 1 noCall,
    .loop .enter, .loop .clearQuit, .loop .testQuit, .poll false (some EPOLLIN), .handleEvent,
    .exec 0 noCall, .exec 0 { write := .accepted 0, read := .delivered [] }, .exec 0 noCall]

/-- Thread 1 sends and shuts down; the server is destroyed before the loop runs. -/
def destroyedEarly : List (Act ℕ) :=
  [.newConnection, .exec 0 noCall, .exec 0 noCall, .exec 0 noCall, .send 1 4 2, .exec 1 noCall,
    .exec 1 noCall, .loop (.wakeup 1), .shutdown 1, .exec 1 noCall, .exec 1 noCall, .exec 1 noCall,
    .loop (.wakeup 1), .destroyServer, .exec 0 noCall, .exec 0 noCall, .loop .enter,
    .loop .clearQuit, .loop .testQuit, .poll true none, .loop .handleRead, .loop .beginCalling,
    .loop .swap, .loop (.beginFunctor (.sendInLoop ⟨0, 1, 4, 2⟩)), .exec 0 noCall]

/-- A late store replaces `kDisconnected`, and `sendInLoop` writes after
`connectDestroyed` has returned. -/
theorem not_absorbing : ¬ (∀ as, Along step Absorbs singleLoop as) ∧
    (run step singleLoop (destroyedEarly ++ [.exec 0 (answer (.accepted 2))])).map
      (fun s ↦ s.trace.drop 3) =
        some [.destroyed, .write [4, 5] (.accepted 2), .kept ⟨0, 1, 4, 2⟩ [4, 5]] := by
  refine ⟨?_, by decide +kernel⟩
  intro h
  obtain ⟨s', hs', hst'⟩ := Option.map_eq_some_iff.mp
    (show (run step singleLoop (storedLate ++ [.exec 1 noCall])).map (fun s ↦ s.conn.state_) =
      some .kDisconnecting by decide +kernel)
  obtain ⟨s, hs, hstep⟩ := run_snoc.mp hs'
  have hst : s.conn.state_ = .kDisconnected := by
    have hmap : (run step singleLoop storedLate).map (fun s ↦ s.conn.state_) =
      some .kDisconnected := by decide +kernel
    simpa [hs] using hmap
  have hforward := (((h (storedLate ++ [.exec 1 noCall])).append hs).2.1 s' hstep).1
  simp [hst, hst', StateE.rank] at hforward

end

end System

end Mymuduo
