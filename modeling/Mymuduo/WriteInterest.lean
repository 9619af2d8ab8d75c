import Mymuduo.OutputStream
import Mymuduo.PollerCoherence

namespace Mymuduo

open Foundation.Machine

variable {T : Type}

namespace Registration

variable {P : Type} {r : Registration P}

/-- The channel is in the epoll set with `EPOLLOUT`. -/
def Armed (r : Registration P) : Prop :=
  ∃ events, r.poller.epoll r.channel.fd_ = some (events, r.this) ∧ events &&& EPOLLOUT ≠ 0

theorem setEvents_added {e : BitVec 32} (h : (r.setEvents e).channel.isWriting = true) :
    (r.setEvents e).channel.index_ = .kAdded := by
  apply setEvents_index
  intro he
  simp [he, isWriting_eq, Channel.kNoneEvent] at h

theorem Coherent.armed_iff (h : r.Coherent)
    (hadded : r.channel.isWriting = true → r.channel.index_ = .kAdded) :
    r.Armed ↔ r.channel.isWriting = true := by
  have hwriting : r.channel.isWriting = true ↔ r.channel.events_ &&& EPOLLOUT ≠ 0 := by
    simp [Channel.isWriting, Channel.kWriteEvent]
  simp only [Armed, h.epoll, Channel.watched, Option.ite_none_right_eq_some, Option.some.injEq,
    Prod.mk.injEq]
  constructor
  · intro hex
    obtain ⟨events, ⟨-, rfl, -⟩, he⟩ := hex
    exact hwriting.mpr he
  · intro hw
    exact ⟨_, ⟨hadded hw, rfl, trivial⟩, hwriting.mp hw⟩

end Registration

namespace Frame

variable {e : Site T} {c d : TcpConnection} {io : Reply} {f : Frame T}

theorem Turns.reg (h : Turns e c io f d) : d.reg = c.reg ∨ (∃ m, d.reg = c.reg.setEvents m) ∨
    f = .removeChannel ∧ d.reg = c.reg.remove := by
  cases h with
  | same | disconnecting | read => exact Or.inl rfl
  | established | destroyed | closed => exact Or.inr (Or.inl ⟨_, rfl⟩)
  | removed => exact Or.inr (Or.inr ⟨rfl, rfl⟩)
  | sent m =>
    rcases TcpConnection.reg_sendInLoop with hreg | hreg
    · exact Or.inl hreg
    · exact Or.inr (Or.inl ⟨_, hreg⟩)
  | written =>
    rcases TcpConnection.reg_handleWrite with hreg | ⟨-, hreg⟩
    · exact Or.inl hreg
    · exact Or.inr (Or.inl ⟨_, hreg⟩)

theorem Turns.coherent (h : Turns e c io f d) (hc : c.reg.Coherent) : d.reg.Coherent := by
  rcases h.reg with hreg | ⟨m, hreg⟩ | ⟨-, hreg⟩
  · rwa [hreg]
  · rw [hreg]
    exact hc.setEvents m
  · rw [hreg]
    exact hc.remove

theorem Turns.added (h : Turns e c io f d) (hf : f ≠ .removeChannel)
    (hc : c.isWriting = true → c.reg.channel.index_ = .kAdded) (hd : d.isWriting = true) :
    d.reg.channel.index_ = .kAdded := by
  rw [TcpConnection.isWriting] at hd
  rcases h.reg with hreg | ⟨m, hreg⟩ | ⟨hr, -⟩
  · rw [hreg] at hd ⊢
    exact hc hd
  · rw [hreg] at hd ⊢
    exact Registration.setEvents_added hd
  · exact absurd hr hf

end Frame

namespace System

variable [DecidableEq T] {s s' : System T} {a : Act T}

/-- The write interest follows the output buffer until the connection is closed, and
the epoll set follows the write interest until the channel is removed. -/
structure Follows (s : System T) : Prop where
  wf : s.conn.outputBuffer_.WF
  coherent : s.conn.reg.Coherent
  synced : .closed ∉ s.trace → s.conn.Synced
  added : .destroyed ∉ s.trace → s.conn.isWriting = true → s.conn.reg.channel.index_ = .kAdded

omit [DecidableEq T] in
theorem Follows.congr (hs : s.Follows) (hout : s'.conn.outputBuffer_ = s.conn.outputBuffer_)
    (hreg : s'.conn.reg = s.conn.reg) {o : List (Obs T)} (htr : s'.trace = s.trace ++ o) :
    s'.Follows := by
  refine ⟨hout ▸ hs.wf, hreg ▸ hs.coherent, ?_, ?_⟩
  · intro h
    rw [TcpConnection.Synced, TcpConnection.isWriting, hout, hreg]
    exact hs.synced fun hmem ↦ h (htr ▸ List.mem_append_left o hmem)
  · intro h
    rw [TcpConnection.isWriting, hreg]
    exact hs.added fun hmem ↦ h (htr ▸ List.mem_append_left o hmem)

theorem Follows.step (hs : s.Follows) (h : Step s a s') : s'.Follows := by
  cases h with
  | @exec t io f fs l hst ho hio hl =>
    have hturns := Frame.exec_turns (s.site t) s.conn io f
    refine ⟨hturns.wf hio hs.wf, hturns.coherent hs.coherent, ?_, ?_⟩
    · intro h
      simp only [commit, List.mem_append, not_or] at h
      rcases hturns.synced hs.wf hio (hs.synced h.1) with hsync | rfl | rfl
      · exact hsync
      · simp [Frame.exec] at h
      · simp [Frame.exec] at h
    · intro h
      simp only [commit, List.mem_append, not_or] at h
      refine hturns.added ?_ (hs.added h.1)
      rintro rfl
      simp [Frame.exec] at h
  | enter hu he =>
    rcases he.trace_eq with htr | ⟨u, htr⟩
    · exact hs.congr (by rw [he.conn_eq]) (by rw [he.conn_eq]) (htr.trans (List.append_nil _).symm)
    · exact hs.congr (by rw [he.conn_eq]) (by rw [he.conn_eq]) htr
  | assign | retrieve | poll | loop => exact hs.congr rfl rfl (List.append_nil _).symm

omit [DecidableEq T] in
theorem ofConnection_follows (l b : T) (fd : ℕ) (wc hw : Bool) (mark : ℕ) (mem : T → ℕ → Byte) :
    (ofConnection l b (.ofFd fd wc hw mark) mem).Follows := by
  refine ⟨Buffer.ofSize_wf _, ⟨rfl, rfl⟩, fun _ ↦ ?_, fun _ hw ↦ ?_⟩
  · refine iff_of_false (by simp [ofConnection, TcpConnection.ofFd, TcpConnection.isWriting,
      Channel.ofFd, Channel.isWriting, Channel.kNoneEvent]) (not_not.mpr (Buffer.ofSize_readable _))
  · simp [ofConnection, TcpConnection.ofFd, TcpConnection.isWriting, Channel.ofFd, Channel.isWriting,
      Channel.kNoneEvent] at hw

/-- Until the connection is closed its channel waits for `EPOLLOUT` exactly as long as
output is buffered, and `handleWrite` has something to write. -/
theorem write_interest {l b : T} {fd mark : ℕ} {wc hw : Bool} {mem : T → ℕ → Byte}
    {as : List (Act T)} (h : run step (ofConnection l b (.ofFd fd wc hw mark) mem) as = some s)
    (hc : .closed ∉ s.trace) (hd : .destroyed ∉ s.trace) :
    (s.conn.reg.Armed ↔ 0 < s.conn.outputBuffer_.readableBytes) ∧
    ∀ t io, ∀ asked w, .write asked w ∈ (Frame.handleWrite.exec (s.site t) s.conn io).obs →
      asked ≠ [] := by
  have hs : s.Follows := run_invariant (fun _ _ _ hs ht ↦ hs.step (step_cases ht))
    (ofConnection_follows l b fd wc hw mark mem) h
  have hsync := hs.synced hc
  refine ⟨?_, ?_⟩
  · rw [hs.coherent.armed_iff (hs.added hd), Nat.pos_iff_ne_zero, ne_eq, ← hs.wf.readable_eq_nil]
    exact hsync
  · intro t io asked w hmem
    simp only [Frame.exec] at hmem
    split at hmem
    · next hwr =>
      obtain ⟨rfl, -⟩ := Obs.write.inj (List.mem_singleton.mp hmem)
      exact hsync.mp hwr
    · simp at hmem

theorem write_interest_partial : ∃ s, run step singleLoop partialWrites = some s ∧
    (s.conn.reg.Armed ↔ 0 < s.conn.outputBuffer_.readableBytes) := by
  obtain ⟨s, hs, hopen⟩ := Option.map_eq_some_iff.mp
    (show (run step singleLoop partialWrites).map (fun s ↦ decide (.closed ∉ s.trace ∧
      .destroyed ∉ s.trace)) = some true by decide +kernel)
  have hboth := of_decide_eq_true hopen
  exact ⟨s, hs, (write_interest hs hboth.1 hboth.2).1⟩

end System

end Mymuduo
