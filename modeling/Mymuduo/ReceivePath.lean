import Mymuduo.Foundation.Machine
import Mymuduo.TcpConnection

namespace Mymuduo

open Foundation.Machine

/-- `readv` delivers no more than it is offered, and nothing, where it is offered
room, only at the end of the stream. -/
def ReadResult.Answers (room : ℕ) (ended : Bool) : ReadResult → Prop
  | .delivered d => d.length ≤ room ∧ (d = [] → 0 < room → ended = true)
  | .failed _ => True

instance (room : ℕ) (ended : Bool) (r : ReadResult) : Decidable (r.Answers room ended) := by
  cases r <;> unfold ReadResult.Answers <;> infer_instance

/-- One readable event: how `readv` ends, whether the stream is at its end, and
the lengths that the message callback retrieves. -/
structure Arrival where
  result : ReadResult
  ended : Bool
  lens : List ℕ

/-- A connection with the bytes its user has retrieved so far. -/
structure Receiver where
  conn : TcpConnection
  retrieved : List Byte

namespace Receiver

def retrieve (s : Receiver) (len : ℕ) : Receiver :=
  { conn := { s.conn with inputBuffer_ := s.conn.inputBuffer_.retrieve len }
    retrieved := s.retrieved ++ s.conn.inputBuffer_.readable.take len }

def handleRead (s : Receiver) (a : Arrival) : Receiver :=
  let r := s.conn.handleRead a.result
  let s := { s with conn := r.1 }
  match r.2 with
  | .message => a.lens.foldl retrieve s
  | .close | .error => s

def step (s : Receiver) (a : Arrival) : Option Receiver :=
  if a.result.Answers s.conn.inputBuffer_.offeredBytes a.ended then some (s.handleRead a) else none

def delivered (as : List Arrival) : List Byte := as.flatMap (·.result.bytes)

structure Holds (q : List Byte) (s : Receiver) : Prop where
  wf : s.conn.inputBuffer_.WF
  stream : s.retrieved ++ s.conn.inputBuffer_.readable = q

variable {s t : Receiver} {q : List Byte} {a : Arrival} {as : List Arrival}

theorem Holds.retrieve (h : s.Holds q) (len : ℕ) : (s.retrieve len).Holds q := by
  refine ⟨h.wf.retrieve len, ?_⟩
  rw [← h.stream]
  simp only [Receiver.retrieve, h.wf.readable_retrieve, List.append_assoc, List.take_append_drop]

theorem Holds.retrieves (h : s.Holds q) (lens : List ℕ) : (lens.foldl Receiver.retrieve s).Holds q := by
  induction lens generalizing s with
  | nil => exact h
  | cons len lens ih => exact ih (h.retrieve len)

theorem Holds.readFd (h : s.Holds q) {ended : Bool} {r : ReadResult}
    (hr : r.Answers s.conn.inputBuffer_.offeredBytes ended) :
    Holds (q ++ r.bytes) { s with conn := (s.conn.handleRead r).1 } := by
  cases r with
  | failed errno => exact ⟨h.wf, h.stream.trans (List.append_nil q).symm⟩
  | delivered d =>
    obtain ⟨hwf, hread⟩ := h.wf.readFd_delivered hr.1 0
    refine ⟨hwf, ?_⟩
    simp only [TcpConnection.handleRead, hread, ReadResult.bytes, ← h.stream, List.append_assoc]

theorem Holds.step (h : s.Holds q) (hs : s.step a = some t) : t.Holds (q ++ a.result.bytes) := by
  simp only [Receiver.step, Option.ite_none_right_eq_some, Option.some.injEq] at hs
  obtain ⟨hr, rfl⟩ := hs
  have hread := h.readFd hr
  unfold handleRead
  simp only
  split
  · exact hread.retrieves a.lens
  · exact hread
  · exact hread

theorem Holds.run (h : s.Holds q) (hs : Foundation.Machine.run Receiver.step s as = some t) :
    t.Holds (q ++ delivered as) := by
  have hall := run_history (I := fun as s ↦ Holds (q ++ delivered as) s)
    (fun as s a t hI hst ↦ by simpa [delivered] using hI.step hst) (p := []) (by simpa [delivered] using h) hs
  simpa using hall

/-- `handleRead` takes its closing branch only at the end of the stream: it never
offers `readv` an empty space. -/
theorem close_ended (hs : s.step a = some t) (hc : (s.conn.handleRead a.result).2 = .close) :
    a.ended = true := by
  simp only [step, Option.ite_none_right_eq_some, Option.some.injEq] at hs
  obtain ⟨hr, -⟩ := hs
  simp only [TcpConnection.handleRead] at hc
  cases hres : a.result with
  | failed errno => simp [hres, Buffer.readFd] at hc
  | delivered d =>
    rw [hres] at hr
    have hnil : d = [] := by
      rw [hres, Buffer.readFd_n] at hc
      by_contra hne
      have hpos := List.length_pos_iff.mpr hne
      simp [hpos] at hc
    refine hr.2 hnil ?_
    have hroom := Buffer.extrabufSize_le_offeredBytes (b := s.conn.inputBuffer_)
    exact Nat.lt_of_lt_of_le (by decide) hroom

/-- The receive path: one `readFd` for every buffer and outcome, and every run of
readable events. -/
theorem receive_path {c : TcpConnection} (h : c.inputBuffer_.WF) :
    (65536 ≤ c.inputBuffer_.offeredBytes ∧ ∀ v ∈ c.inputBuffer_.offered, v.Inside c.inputBuffer_) ∧
    (∀ d saveErrno, d.length ≤ c.inputBuffer_.offeredBytes →
      let r := c.inputBuffer_.readFd saveErrno (.delivered d)
      r.n = d.length ∧ r.buf.WF ∧ r.buf.readable = c.inputBuffer_.readable ++ d ∧
        r.buf.readable = (c.inputBuffer_.append d).readable) ∧
    (∀ errno saveErrno, (c.inputBuffer_.readFd saveErrno (.failed errno)).buf = c.inputBuffer_) ∧
    ∀ as s, run step ⟨c, []⟩ as = some s →
      s.conn.inputBuffer_.WF ∧
      s.retrieved ++ s.conn.inputBuffer_.readable = c.inputBuffer_.readable ++ delivered as ∧
      ∀ a t, s.step a = some t → (s.conn.handleRead a.result).2 = .close → a.ended = true := by
  refine ⟨⟨Buffer.extrabufSize_le_offeredBytes, h.offered_inside⟩, ?_, fun _ _ ↦ rfl, ?_⟩
  · intro d saveErrno hd
    obtain ⟨hwf, hread⟩ := h.readFd_delivered hd saveErrno
    exact ⟨Buffer.readFd_n d saveErrno, hwf, hread, hread.trans (h.readable_append d).symm⟩
  · intro as s hs
    have hstart : Holds c.inputBuffer_.readable ⟨c, []⟩ := ⟨h, rfl⟩
    have hend := hstart.run hs
    exact ⟨hend.wf, hend.stream, fun a t ht hc ↦ close_ended ht hc⟩

def smallInput : TcpConnection := { TcpConnection.ofFd 7 true false 0 with inputBuffer_ := .ofSize 4 }

def chunks : List Arrival :=
  [⟨.delivered [1, 2, 3], false, [2]⟩, ⟨.failed 4, false, []⟩, ⟨.delivered [4], false, []⟩,
    ⟨.delivered [], true, []⟩]

theorem receive_path_chunks :
    smallInput.inputBuffer_.WF ∧
    ∃ s, run step ⟨smallInput, []⟩ chunks = some s ∧
      s.retrieved ++ s.conn.inputBuffer_.readable = [1, 2, 3, 4] :=
  ⟨Buffer.ofSize_wf 4, _, rfl,
    ((receive_path (c := smallInput) (Buffer.ofSize_wf 4)).2.2.2 chunks _ rfl).2.1⟩

end Receiver

end Mymuduo
