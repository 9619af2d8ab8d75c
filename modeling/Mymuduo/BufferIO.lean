import Mathlib.Algebra.BigOperators.Group.List.Basic
import Mathlib.Algebra.GroupWithZero.Nat
import Mymuduo.Buffer

namespace Mymuduo

open Foundation.Cells

inductive ReadResult
  | delivered (d : List Byte)
  | failed (errno : ℕ)

def ReadResult.bytes : ReadResult → List Byte
  | .delivered d => d
  | .failed _ => []

inductive WriteResult
  | accepted (n : ℕ)
  | failed (errno : ℕ)
  deriving DecidableEq

def WriteResult.Answers (len : ℕ) : WriteResult → Prop
  | .accepted n => n ≤ len ∧ n < 2 ^ 63
  | .failed _ => True

instance (len : ℕ) (r : WriteResult) : Decidable (r.Answers len) := by
  cases r <;> unfold WriteResult.Answers <;> infer_instance

def WriteResult.ret : WriteResult → ℤ
  | .accepted n => n
  | .failed _ => -1

def WriteResult.errno : WriteResult → ℕ
  | .accepted _ => 0
  | .failed errno => errno

namespace Buffer

inductive Area
  | buffer_
  | extrabuf

structure Iovec where
  area : Area
  iov_base : ℕ
  iov_len : ℕ

def extrabufSize : ℕ := 65536

/-- The cells that `readv` may write: `buffer_` and `extrabuf`. -/
structure Cells where
  buffer_ : List Byte
  extrabuf : List Byte

def Cells.write (c : Cells) (v : Iovec) (d : List Byte) : Cells :=
  match v.area with
  | .buffer_ => { c with buffer_ := overlay c.buffer_ v.iov_base d }
  | .extrabuf => { c with extrabuf := overlay c.extrabuf v.iov_base d }

/-- `readv` fills its targets in order. -/
def scatter : List Iovec → List Byte → Cells → Cells
  | [], _, c => c
  | v :: vs, d, c => scatter vs (d.drop v.iov_len) (c.write v (d.take v.iov_len))

variable (b : Buffer)

def iovcnt : ℕ := if b.writableBytes < extrabufSize then 2 else 1

def vec : List Iovec :=
  [⟨.buffer_, b.writerIndex_, b.writableBytes⟩, ⟨.extrabuf, 0, extrabufSize⟩]

def offered : List Iovec := b.vec.take b.iovcnt

def offeredBytes : ℕ := (b.offered.map (·.iov_len)).sum

/-- The buffer, the returned `ssize_t` and the caller's `*saveErrno` after a call. -/
structure Returned where
  buf : Buffer
  n : ℤ
  saveErrno : ℕ

def readFd (saveErrno : ℕ) : ReadResult → Returned
  | .failed errno => ⟨b, -1, errno⟩
  | .delivered d =>
    let c := scatter b.offered d ⟨b.buffer_, List.replicate extrabufSize 0⟩
    if d.length ≤ b.writableBytes then
      ⟨{ b with buffer_ := c.buffer_, writerIndex_ := b.writerIndex_ + d.length },
        d.length, saveErrno⟩
    else
      ⟨({ b with buffer_ := c.buffer_, writerIndex_ := c.buffer_.length } : Buffer).append
        (c.extrabuf.take (d.length - b.writableBytes)), d.length, saveErrno⟩

/-- The result of `write` goes through the unsigned local `n`, for which the
test `n < 0` is never true. -/
def writeFd (saveErrno : ℕ) (r : WriteResult) : Returned :=
  let n : BitVec 64 := BitVec.ofInt 64 r.ret
  ⟨b, n.toInt, if n < 0#64 then r.errno else saveErrno⟩

/-- The buffer whose tail `readv` has filled, before the overflow is appended. -/
def filled (d : List Byte) : Buffer :=
  { b with
    buffer_ := overlay b.buffer_ b.writerIndex_ (d.take b.writableBytes)
    writerIndex_ := b.buffer_.length }

def Iovec.Inside (v : Iovec) : Prop :=
  match v.area with
  | .buffer_ => v.iov_base + v.iov_len ≤ b.buffer_.length
  | .extrabuf => v.iov_base + v.iov_len ≤ extrabufSize

variable {b}

theorem offeredBytes_eq :
    b.offeredBytes = if b.writableBytes < extrabufSize then b.writableBytes + extrabufSize
      else b.writableBytes := by
  unfold offeredBytes offered iovcnt
  split <;> simp [vec]

theorem extrabufSize_le_offeredBytes : extrabufSize ≤ b.offeredBytes := by
  rw [offeredBytes_eq]
  split <;> omega

theorem WF.offered_inside (h : b.WF) : ∀ v ∈ b.offered, v.Inside b := by
  intro v hv
  have hw := h.writer_le
  have hv : v = ⟨.buffer_, b.writerIndex_, b.writableBytes⟩ ∨ v = ⟨.extrabuf, 0, extrabufSize⟩ := by
    simpa [vec] using List.mem_of_mem_take hv
  rcases hv with rfl | rfl
  · simp only [Iovec.Inside, writableBytes]
    omega
  · simp [Iovec.Inside]

theorem writable_lt_of_offered {n : ℕ} (hn : n ≤ b.offeredBytes) (hw : b.writableBytes < n) :
    b.writableBytes < extrabufSize ∧ n - b.writableBytes ≤ extrabufSize := by
  rw [offeredBytes_eq] at hn
  split at hn <;> omega

theorem scatter_buffer (d : List Byte) (e : List Byte) :
    (scatter b.offered d ⟨b.buffer_, e⟩).buffer_ =
      overlay b.buffer_ b.writerIndex_ (d.take b.writableBytes) := by
  unfold offered iovcnt
  split <;> rfl

theorem scatter_extrabuf (hx : b.writableBytes < extrabufSize) (d : List Byte) (e : List Byte) :
    (scatter b.offered d ⟨b.buffer_, e⟩).extrabuf =
      overlay e 0 ((d.drop b.writableBytes).take extrabufSize) := by
  rw [offered, iovcnt, if_pos hx]
  rfl

theorem scatter_spill {d : List Byte} (hd : ¬ d.length ≤ b.writableBytes)
    (hk : d.length ≤ b.offeredBytes) :
    (scatter b.offered d ⟨b.buffer_, List.replicate extrabufSize 0⟩).extrabuf.take
      (d.length - b.writableBytes) = d.drop b.writableBytes := by
  obtain ⟨hx, hrest⟩ := writable_lt_of_offered hk (Nat.lt_of_not_le hd)
  have hle : (d.drop b.writableBytes).length ≤ extrabufSize := by simpa using hrest
  rw [scatter_extrabuf hx, List.take_of_length_le hle, overlay, List.take_zero, List.nil_append,
    List.take_append_of_le_length (by simp), List.take_of_length_le (by simp)]

theorem readFd_of_le {d : List Byte} (hd : d.length ≤ b.writableBytes) (e : ℕ) :
    b.readFd e (.delivered d) = ⟨{ b with
      buffer_ := overlay b.buffer_ b.writerIndex_ d
      writerIndex_ := b.writerIndex_ + d.length }, d.length, e⟩ := by
  simp only [readFd, if_pos hd, scatter_buffer, List.take_of_length_le hd]

namespace WF

theorem readFd_fits (h : b.WF) {d : List Byte} (hd : d.length ≤ b.writableBytes) (e : ℕ) :
    (b.readFd e (.delivered d)).buf.WF ∧
      (b.readFd e (.delivered d)).buf.readable = b.readable ++ d := by
  have hroom : b.writerIndex_ + d.length ≤ b.buffer_.length := by
    have hw := h.writer_le
    simp only [writableBytes] at hd
    omega
  rw [readFd_of_le hd]
  refine ⟨⟨h.cheap, h.reader_le.trans (Nat.le_add_right _ _), ?_⟩,
    slice_overlay h.reader_le h.writer_le⟩
  simpa only [length_overlay hroom] using hroom

theorem length_filled (h : b.WF) {d : List Byte} (hd : b.writableBytes ≤ d.length) :
    (b.filled d).buffer_.length = b.buffer_.length := by
  have hw := h.writer_le
  have htail : (d.take b.writableBytes).length = b.writableBytes := List.length_take_of_le hd
  apply length_overlay
  rw [htail, writableBytes]
  omega

theorem filled (h : b.WF) {d : List Byte} (hd : b.writableBytes ≤ d.length) :
    (b.filled d).WF ∧ (b.filled d).readable = b.readable ++ d.take b.writableBytes := by
  have hw := h.writer_le
  have htail : (d.take b.writableBytes).length = b.writableBytes := List.length_take_of_le hd
  have hfull : b.writerIndex_ + b.writableBytes = b.buffer_.length := by
    simp only [writableBytes]
    omega
  refine ⟨⟨h.cheap, h.reader_le.trans hw, (h.length_filled hd).ge⟩, ?_⟩
  have hs := slice_overlay (d := d.take b.writableBytes) h.reader_le hw
  rwa [htail, hfull] at hs

theorem readFd_overflow (h : b.WF) {d : List Byte} (hd : ¬ d.length ≤ b.writableBytes)
    (hk : d.length ≤ b.offeredBytes) (e : ℕ) :
    b.readFd e (.delivered d) = ⟨(b.filled d).append (d.drop b.writableBytes), d.length, e⟩ := by
  have hlen : (overlay b.buffer_ b.writerIndex_ (d.take b.writableBytes)).length =
      b.buffer_.length := h.length_filled (Nat.le_of_not_le hd)
  simp only [Buffer.readFd, if_neg hd, scatter_spill hd hk, scatter_buffer, hlen, Buffer.filled]

theorem readFd_spills (h : b.WF) {d : List Byte} (hd : ¬ d.length ≤ b.writableBytes)
    (hk : d.length ≤ b.offeredBytes) (e : ℕ) :
    (b.readFd e (.delivered d)).buf.WF ∧
      (b.readFd e (.delivered d)).buf.readable = b.readable ++ d := by
  obtain ⟨hf, hr⟩ := h.filled (Nat.le_of_not_le hd)
  obtain ⟨ha, hread⟩ := hf.append (d.drop b.writableBytes)
  rw [h.readFd_overflow hd hk]
  refine ⟨ha, hread.trans ?_⟩
  rw [hr, List.append_assoc, List.take_append_drop]

/-- A delivery of any size the call offered room for extends the content by
exactly the delivered bytes. -/
theorem readFd_delivered (h : b.WF) {d : List Byte} (hk : d.length ≤ b.offeredBytes) (e : ℕ) :
    (b.readFd e (.delivered d)).buf.WF ∧
      (b.readFd e (.delivered d)).buf.readable = b.readable ++ d := by
  by_cases hd : d.length ≤ b.writableBytes
  · exact h.readFd_fits hd e
  · exact h.readFd_spills hd hk e

end WF

theorem readFd_n (d : List Byte) (e : ℕ) : (b.readFd e (.delivered d)).n = d.length := by
  simp only [readFd]
  split <;> rfl

theorem writeFd_n {len e : ℕ} {r : WriteResult} (h : r.Answers len) : (b.writeFd e r).n = r.ret := by
  cases r with
  | failed errno => rfl
  | accepted n =>
    simp only [WriteResult.Answers] at h
    simp only [writeFd, WriteResult.ret]
    rw [BitVec.toInt_ofInt, Int.bmod_def]
    omega

end Buffer

end Mymuduo
