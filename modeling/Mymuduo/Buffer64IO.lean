import Mymuduo.Buffer64
import Mymuduo.BufferGrowth
import Mymuduo.TcpConnection

namespace Mymuduo

open Foundation.Cells

def ReadResult.ret : ReadResult → ℤ
  | .delivered d => d.length
  | .failed _ => -1

def ReadResult.errno : ReadResult → ℕ
  | .delivered _ => 0
  | .failed errno => errno

namespace Buffer64

open Buffer (Iovec extrabufSize scatter)

variable (b : Buffer64)

def offered : List Iovec :=
  [⟨.buffer_, b.writerIndex_.toNat, b.writableBytes.toNat⟩, ⟨.extrabuf, 0, extrabufSize⟩].take
    (if b.writableBytes < .ofNat extrabufSize then 2 else 1)

structure Returned where
  buf : Buffer64
  thrown : Bool
  n : Int64
  saveErrno : ℕ

/-- `n` is signed in its test against zero and unsigned in the one against `writable`. -/
def readFd (saveErrno : ℕ) (r : ReadResult) : Returned :=
  let writable := b.writableBytes
  let cells := scatter b.offered r.bytes ⟨b.buffer_.cells, List.replicate extrabufSize 0⟩
  let b := { b with buffer_ := b.buffer_.withCells cells.buffer_ }
  let n := Int64.ofInt r.ret
  if n < 0 then ⟨b, false, n, r.errno⟩
  else if n.toUInt64 ≤ writable then
    ⟨{ b with writerIndex_ := b.writerIndex_ + n.toUInt64 }, false, n, saveErrno⟩
  else
    let a := ({ b with writerIndex_ := b.buffer_.size } : Buffer64).append
      (cells.extrabuf.take (n.toUInt64 - writable).toNat)
    ⟨a.buf, a.thrown, n, saveErrno⟩

/-- The local `n` is unsigned, and `saveErrno = nullptr` changes only the parameter. -/
def writeFd (saveErrno : ℕ) (r : WriteResult) : Returned :=
  let n : UInt64 := (Int64.ofInt r.ret).toUInt64
  ⟨b, false, n.toInt64, if n < 0 then r.errno else saveErrno⟩

inductive SysCall
  | readv (r : ReadResult)
  | write (r : WriteResult)

namespace SysCall

def Answers : SysCall → Prop
  | .readv r => r.bytes.length ≤ (b.offered.map (·.iov_len)).sum
  | .write r => r.Answers b.readableBytes.toNat

def ret : SysCall → ℤ
  | .readv r => r.ret
  | .write r => r.ret

def failure : SysCall → Option ℕ
  | .readv (.failed errno) | .write (.failed errno) => some errno
  | .readv (.delivered _) | .write (.accepted _) => none

end SysCall

def io (saveErrno : ℕ) : SysCall → Returned
  | .readv r => b.readFd saveErrno r
  | .write r => b.writeFd saveErrno r

def errorBranch (n : Int64) : SysCall → Bool
  | .readv _ => !decide (n > 0) && !decide (n = 0)
  | .write _ => !decide (n > 0)

/-- What `handleRead` and `handleWrite` start with: their `savedErrno` is zero. -/
def handle (s : SysCall) : Returned × Bool :=
  let r := b.io 0 s
  (r, errorBranch r.n s)

/-- The contract of the two functions and of what their callers make of it. -/
structure Contract (s : SysCall) : Prop where
  returns : ∀ saveErrno, (b.io saveErrno s).thrown = false ∧ (b.io saveErrno s).n.toInt = s.ret
  stores : ∀ saveErrno, (b.io saveErrno s).saveErrno = s.failure.getD saveErrno
  unchanged : s.failure.isSome = true → ∀ saveErrno, (b.io saveErrno s).buf = b
  branch : (b.handle s).2 = true ↔ s.failure.isSome = true ∨ s = .write (.accepted 0)
  available : ∀ errno, s.failure = some errno → (b.handle s).1.saveErrno = errno

/-- The bytes that went to `extrabuf` find room, before the content or in a larger vector. -/
def SpillFits (d : List Byte) : Prop :=
  d.length - b.writableBytes.toNat ≤ b.readerIndex_.toNat - kCheapPrepend.toNat ∨
    b.buffer_.cells.length + (d.length - b.writableBytes.toNat) < 2 ^ 63

def Keeps : SysCall → Prop
  | .readv (.failed _) | .write (.accepted _) => True
  | .readv (.delivered d) => d.length ≤ b.writableBytes.toNat ∨ b.SpillFits d
  | .write (.failed _) => False

def filled (d : List Byte) : Buffer64 :=
  { b with
    buffer_ := b.buffer_.withCells
      (overlay b.buffer_.cells b.writerIndex_.toNat (d.take b.writableBytes.toNat))
    writerIndex_ := b.buffer_.size }

variable {b}

theorem scatter_nil (vs : List Iovec) (c : Buffer.Cells) : scatter vs [] c = c := by
  induction vs generalizing c with
  | nil => rfl
  | cons v vs ih =>
    obtain ⟨area, base, len⟩ := v
    have hwrite : c.write ⟨area, base, len⟩ [] = c := by
      cases area <;> simp [Buffer.Cells.write, overlay]
    rw [scatter, List.drop_nil, List.take_nil, hwrite]
    exact ih c

theorem readFd_failed (saveErrno errno : ℕ) :
    b.readFd saveErrno (.failed errno) = ⟨b, false, -1, errno⟩ := by
  have hneg : Int64.ofInt (-1) < 0 := by decide
  simp only [readFd, ReadResult.bytes, ReadResult.ret, ReadResult.errno, scatter_nil,
    CharVector.withCells_self, if_pos hneg]
  rfl

theorem toInt_count {n : ℕ} (h : n < 2 ^ 63) : (Int64.ofInt n).toInt = n :=
  Int64.toInt_ofInt_of_le (by omega) (by omega)

theorem toNat_count {n : ℕ} (h : n < 2 ^ 63) : (Int64.ofInt n).toUInt64.toNat = n := by
  rw [Int64.ofInt_eq_ofNat, Int64.toUInt64_ofNat']
  exact UInt64.toNat_ofNat_of_lt' (h.trans (by decide))

theorem not_neg_count {n : ℕ} (h : n < 2 ^ 63) : ¬ Int64.ofInt n < 0 := by
  rw [Int64.lt_iff_toInt_lt, toInt_count h, Int64.toInt_zero]
  omega

theorem readFd_delivered {d : List Byte} (hd : d.length < 2 ^ 63) (saveErrno : ℕ) :
    let cells := scatter b.offered d ⟨b.buffer_.cells, List.replicate extrabufSize 0⟩
    let n := Int64.ofInt d.length
    let v := b.buffer_.withCells cells.buffer_
    b.readFd saveErrno (.delivered d) =
      if n.toUInt64 ≤ b.writableBytes then
        ⟨⟨v, b.readerIndex_, b.writerIndex_ + n.toUInt64⟩, false, n, saveErrno⟩
      else
        let a := (⟨v, b.readerIndex_, v.size⟩ : Buffer64).append
          (cells.extrabuf.take (n.toUInt64 - b.writableBytes).toNat)
        ⟨a.buf, a.thrown, n, saveErrno⟩ :=
  if_neg (not_neg_count hd)

namespace WF

theorem offered (h : b.WF) : b.offered = b.toBuffer.offered := by
  have hiff : b.writableBytes < .ofNat extrabufSize ↔ b.toBuffer.writableBytes < extrabufSize := by
    rw [UInt64.lt_iff_toNat_lt, h.toNat_writableBytes]
    rfl
  rw [Buffer64.offered, Buffer.offered, Buffer.vec, Buffer.iovcnt, h.toNat_writableBytes]
  simp only [hiff]
  rfl

theorem offered_sum (h : b.WF) :
    (b.offered.map (·.iov_len)).sum = b.toBuffer.offeredBytes := by
  rw [h.offered, Buffer.offeredBytes]

theorem count_lt {n : ℕ} (hn : n ≤ b.toBuffer.offeredBytes) : n < 2 ^ 63 := by
  have hsize := b.length_toBuffer_lt
  rw [Buffer.offeredBytes_eq] at hn
  have hw : b.toBuffer.writableBytes ≤ b.toBuffer.buffer_.length := Nat.sub_le _ _
  split at hn
  · next hlt =>
    simp only [extrabufSize] at hn hlt
    omega
  · omega

theorem toBuffer_filled (h : b.WF) {d : List Byte} (hd : b.toBuffer.writableBytes ≤ d.length) :
    (b.filled d).toBuffer = b.toBuffer.filled d := by
  have hlen : (overlay b.buffer_.cells b.writerIndex_.toNat
      (d.take b.toBuffer.writableBytes)).length = b.buffer_.cells.length :=
    (wf_iff.mp h).length_filled hd
  rw [Buffer64.filled, toBuffer, CharVector.toNat_size, h.toNat_writableBytes,
    CharVector.withCells_cells hlen]
  rfl

theorem readFd_fits (h : b.WF) {d : List Byte} (hd : d.length ≤ b.toBuffer.writableBytes)
    (saveErrno : ℕ) :
    ∃ c, c.toBuffer = (b.toBuffer.readFd saveErrno (.delivered d)).buf ∧
      b.readFd saveErrno (.delivered d) = ⟨c, false, .ofInt d.length, saveErrno⟩ := by
  have hroom : b.writerIndex_.toNat + d.length ≤ b.buffer_.cells.length := by
    have hw : b.writerIndex_.toNat ≤ b.buffer_.cells.length := (wf_iff.mp h).writer_le
    simp only [Buffer.writableBytes, toBuffer] at hd
    omega
  have hcount : d.length < 2 ^ 63 := by
    have hfits := b.buffer_.length_lt
    omega
  have hle : (Int64.ofInt d.length).toUInt64 ≤ b.writableBytes := by
    rw [UInt64.le_iff_toNat_le, toNat_count hcount, h.toNat_writableBytes]
    exact hd
  have hadd : (b.writerIndex_ + (Int64.ofInt d.length).toUInt64).toNat =
      b.writerIndex_.toNat + d.length := by
    have hfits := b.buffer_.length_lt
    rw [UInt64.toNat_add, toNat_count hcount, Nat.mod_eq_of_lt (by omega)]
  have hcells : (scatter b.offered d ⟨b.buffer_.cells, List.replicate extrabufSize 0⟩).buffer_ =
      overlay b.buffer_.cells b.writerIndex_.toNat d := by
    rw [h.offered]
    refine (Buffer.scatter_buffer d _).trans ?_
    rw [List.take_of_length_le hd]
    rfl
  rw [readFd_delivered hcount, if_pos hle, Buffer.readFd_of_le hd]
  refine ⟨_, ?_, rfl⟩
  rw [toBuffer, hadd, hcells, CharVector.withCells_cells (length_overlay hroom)]
  rfl

theorem filled (h : b.WF) {d : List Byte} (hd : b.toBuffer.writableBytes ≤ d.length) :
    (b.filled d).WF := by
  rw [wf_iff, h.toBuffer_filled hd]
  exact ((wf_iff.mp h).filled hd).1

theorem readFd_spills (h : b.WF) {d : List Byte} (hd : ¬ d.length ≤ b.toBuffer.writableBytes)
    (hk : d.length ≤ b.toBuffer.offeredBytes) (saveErrno : ℕ) :
    ∃ l, Makes (b.filled d) (b.toBuffer.readFd saveErrno (.delivered d)).buf l ∧
      b.readFd saveErrno (.delivered d) = ⟨l.buf, l.thrown, .ofInt d.length, saveErrno⟩ := by
  have hcount := count_lt hk
  have hle := Nat.le_of_not_le hd
  have hlt : ¬ (Int64.ofInt d.length).toUInt64 ≤ b.writableBytes := by
    rw [UInt64.le_iff_toNat_le, toNat_count hcount, h.toNat_writableBytes]
    exact hd
  have hrest : ((Int64.ofInt d.length).toUInt64 - b.writableBytes).toNat =
      d.length - b.toBuffer.writableBytes := by
    rw [UInt64.toNat_sub_of_le, toNat_count hcount, h.toNat_writableBytes]
    exact UInt64.le_of_lt (UInt64.not_le.mp hlt)
  have hcells : (scatter b.offered d ⟨b.buffer_.cells, List.replicate extrabufSize 0⟩).buffer_ =
      overlay b.buffer_.cells b.writerIndex_.toNat (d.take b.toBuffer.writableBytes) := by
    rw [h.offered]
    exact Buffer.scatter_buffer d _
  have hspill : (scatter b.offered d ⟨b.buffer_.cells, List.replicate extrabufSize 0⟩).extrabuf.take
      (d.length - b.toBuffer.writableBytes) = d.drop b.toBuffer.writableBytes := by
    rw [h.offered]
    exact Buffer.scatter_spill hd hk
  have hlen : (overlay b.buffer_.cells b.writerIndex_.toNat
      (d.take b.toBuffer.writableBytes)).length = b.buffer_.cells.length :=
    (wf_iff.mp h).length_filled hle
  have hmakes : Makes (b.filled d) ((b.filled d).toBuffer.append (d.drop b.toBuffer.writableBytes))
      ((b.filled d).append (d.drop b.toBuffer.writableBytes)) := by
    apply (h.filled hle).append
    · simp only [List.length_drop]
      omega
    · have hsize := b.buffer_.length_lt
      simp only [Buffer64.filled, CharVector.toNat_size, List.length_drop]
      omega
  rw [h.toBuffer_filled hle] at hmakes
  refine ⟨(b.filled d).append (d.drop b.toBuffer.writableBytes), ?_, ?_⟩
  · rw [(wf_iff.mp h).readFd_overflow hd hk]
    exact hmakes
  · rw [readFd_delivered hcount, if_neg hlt, hrest, hcells, hspill, CharVector.withCells_size hlen,
      Buffer64.filled, h.toNat_writableBytes]

theorem readFd_makes (h : b.WF) {d : List Byte} (hk : d.length ≤ b.toBuffer.offeredBytes)
    (saveErrno : ℕ) : ∃ c l, c.WF ∧ Makes c (b.toBuffer.readFd saveErrno (.delivered d)).buf l ∧
      (b.readFd saveErrno (.delivered d)).buf = l.buf := by
  by_cases hd : d.length ≤ b.toBuffer.writableBytes
  · obtain ⟨c, hc, hread⟩ := h.readFd_fits hd saveErrno
    exact ⟨b, ⟨c, false⟩, h, .done c hc, by rw [hread]⟩
  · obtain ⟨l, hl, hread⟩ := h.readFd_spills hd hk saveErrno
    exact ⟨_, l, h.filled (Nat.le_of_not_le hd), hl, by rw [hread]⟩

theorem readFd_thrown (h : b.WF) {d : List Byte} (hd : ¬ d.length ≤ b.toBuffer.writableBytes)
    (hk : d.length ≤ b.toBuffer.offeredBytes) (saveErrno : ℕ) :
    (b.readFd saveErrno (.delivered d)).thrown = false ↔ b.SpillFits d := by
  have hsize := (wf_iff.mp h).size_readFd_spills hd hk saveErrno
  have hspills : b.SpillFits d ↔ (b.toBuffer.readFd saveErrno (.delivered d)).buf.size < 2 ^ 63 := by
    have hlt : b.toBuffer.size < 2 ^ 63 := b.buffer_.length_lt
    rw [SpillFits, h.toNat_writableBytes, hsize]
    change d.length - b.toBuffer.writableBytes ≤ b.toBuffer.readerIndex_ - Buffer.kCheapPrepend ∨
      b.toBuffer.size + (d.length - b.toBuffer.writableBytes) < 2 ^ 63 ↔ _
    split
    · next hroom => exact iff_of_true (Or.inl hroom) hlt
    · next hroom => exact or_iff_right hroom
  obtain ⟨l, hl, heq⟩ := h.readFd_spills hd hk saveErrno
  rw [hspills, heq]
  cases hl with
  | done c hc =>
    refine iff_of_true rfl ?_
    rw [← hc]
    exact c.buffer_.length_lt
  | refused hu => exact iff_of_false (by simp) (Nat.not_lt.mpr hu)

end WF

/-- A signed test and an unsigned one: the error branches of the two callers. -/
theorem errorBranch_iff {s : SysCall} {n : Int64} (hn : n.toInt = s.ret) :
    errorBranch n s = true ↔ s.failure.isSome = true ∨ s = .write (.accepted 0) := by
  have hpos : n > 0 ↔ 0 < s.ret := by
    rw [gt_iff_lt, Int64.lt_iff_toInt_lt, Int64.toInt_zero, hn]
  have hzero : n = 0 ↔ s.ret = 0 := by
    rw [← Int64.toInt_inj, Int64.toInt_zero, hn]
  cases s with
  | readv r =>
    simp only [errorBranch, hpos, hzero]
    cases r with
    | delivered d =>
      simp only [SysCall.ret, ReadResult.ret, SysCall.failure]
      simp
    | failed errno => simp [SysCall.ret, ReadResult.ret, SysCall.failure]
  | write r =>
    simp only [errorBranch, hpos]
    cases r with
    | accepted m => simp [SysCall.ret, WriteResult.ret, SysCall.failure]
    | failed errno => simp [SysCall.ret, WriteResult.ret, SysCall.failure]

theorem handle_branch {s : SysCall} (hn : (b.io 0 s).n.toInt = s.ret) :
    (b.handle s).2 = true ↔ s.failure.isSome = true ∨ s = .write (.accepted 0) :=
  errorBranch_iff (n := (b.io 0 s).n) hn

theorem writeFd_n {len saveErrno : ℕ} {r : WriteResult} (h : r.Answers len) :
    (b.writeFd saveErrno r).n.toInt = r.ret := by
  rw [writeFd, Int64.toInt64_toUInt64]
  cases r with
  | accepted n => exact toInt_count h.2
  | failed errno => rfl

theorem writeFd_saveErrno (saveErrno : ℕ) (r : WriteResult) :
    (b.writeFd saveErrno r).saveErrno = saveErrno := by
  simp only [writeFd]
  exact if_neg UInt64.not_lt_zero

theorem WF.readFd_n {r : ReadResult} (h : b.WF) (hs : SysCall.Answers b (.readv r)) (saveErrno : ℕ) :
    (b.readFd saveErrno r).n.toInt = r.ret := by
  cases r with
  | failed errno =>
    rw [readFd_failed]
    rfl
  | delivered d =>
    have hd : d.length ≤ b.toBuffer.offeredBytes := h.offered_sum ▸ hs
    have hcount := WF.count_lt hd
    rw [readFd_delivered hcount]
    split <;> exact toInt_count hcount

theorem handleRead_branch {r : ReadResult} (h : b.WF) (hs : SysCall.Answers b (.readv r))
    (c : TcpConnection) : (c.handleRead r).2 = .error ↔ (b.handle (.readv r)).2 = true := by
  rw [handle_branch (b := b) (s := .readv r) (h.readFd_n hs 0)]
  cases r with
  | failed errno => simp [TcpConnection.handleRead, Buffer.readFd, SysCall.failure]
  | delivered d =>
    simp only [TcpConnection.handleRead, Buffer.readFd_n, SysCall.failure]
    by_cases hd : d = []
    · simp [hd]
    · simp [hd, List.length_pos_iff]

theorem handleWrite_branch {len : ℕ} {w : WriteResult} (hw : w.Answers len) :
    (b.handle (.write w)).2 = true ↔ w.taken = 0 := by
  rw [handle_branch (b := b) (s := .write w) (writeFd_n hw)]
  cases w <;> simp [SysCall.failure, WriteResult.taken]

theorem contract_readFd_failed (errno : ℕ) : b.Contract (.readv (.failed errno)) := by
  have hio : ∀ saveErrno, b.io saveErrno (.readv (.failed errno)) = ⟨b, false, -1, errno⟩ :=
    fun saveErrno ↦ readFd_failed saveErrno errno
  refine ⟨fun saveErrno ↦ ?_, fun saveErrno ↦ ?_, fun _ saveErrno ↦ ?_, ?_, ?_⟩
  · rw [hio]
    exact ⟨rfl, rfl⟩
  · rw [hio]
    rfl
  · rw [hio]
  · apply handle_branch
    rw [hio]
    rfl
  · intro errno' he
    obtain rfl : errno = errno' := Option.some.inj he
    exact congrArg Returned.saveErrno (hio 0)

theorem contract_readFd_delivered {d : List Byte} (hd : d.length < 2 ^ 63)
    (hio : ∀ saveErrno, ∃ c, b.readFd saveErrno (.delivered d) =
      ⟨c, false, .ofInt d.length, saveErrno⟩) : b.Contract (.readv (.delivered d)) := by
  refine ⟨fun saveErrno ↦ ?_, fun saveErrno ↦ ?_, fun hf ↦ ?_, ?_, ?_⟩
  · obtain ⟨c, hc⟩ := hio saveErrno
    rw [io, hc]
    exact ⟨rfl, toInt_count hd⟩
  · obtain ⟨c, hc⟩ := hio saveErrno
    rw [io, hc]
    rfl
  · simp [SysCall.failure] at hf
  · apply handle_branch
    obtain ⟨c, hc⟩ := hio 0
    rw [io, hc]
    exact toInt_count hd
  · intro errno he
    simp [SysCall.failure] at he

theorem contract_writeFd_accepted {len n : ℕ} (h : (WriteResult.accepted n).Answers len) :
    b.Contract (.write (.accepted n)) := by
  refine ⟨fun saveErrno ↦ ⟨rfl, writeFd_n h⟩, fun saveErrno ↦ writeFd_saveErrno saveErrno _,
    fun hf ↦ ?_, handle_branch (writeFd_n h), ?_⟩
  · simp [SysCall.failure] at hf
  · intro errno he
    simp [SysCall.failure] at he

/-- The contract is kept by a `readFd` that finds room for what it read, and by a
`writeFd` whose `write` did not fail. -/
theorem io_contract (h : b.WF) {s : SysCall} (hs : s.Answers b) : b.Contract s ↔ b.Keeps s := by
  cases s with
  | readv r =>
    cases r with
    | failed errno => exact iff_of_true (contract_readFd_failed errno) trivial
    | delivered d =>
      have hk : d.length ≤ b.toBuffer.offeredBytes := by
        rw [← h.offered_sum]
        exact hs
      have hcount := WF.count_lt hk
      rw [Keeps, h.toNat_writableBytes]
      constructor
      · intro hc
        by_cases hd : d.length ≤ b.toBuffer.writableBytes
        · exact Or.inl hd
        · exact Or.inr ((h.readFd_thrown hd hk 0).mp (hc.returns 0).1)
      · intro hroom
        apply contract_readFd_delivered hcount
        intro saveErrno
        by_cases hd : d.length ≤ b.toBuffer.writableBytes
        · obtain ⟨c, -, hc⟩ := h.readFd_fits hd saveErrno
          exact ⟨c, hc⟩
        · have hthrown := (h.readFd_thrown hd hk saveErrno).mpr (hroom.resolve_left hd)
          obtain ⟨l, -, hl⟩ := h.readFd_spills hd hk saveErrno
          rw [hl] at hthrown
          refine ⟨l.buf, ?_⟩
          rw [hl, ← hthrown]
  | write r =>
    cases r with
    | accepted n => exact iff_of_true (contract_writeFd_accepted hs) trivial
    | failed errno =>
      refine iff_of_false ?_ id
      intro hc
      have hstored : (b.writeFd (errno + 1) (.failed errno)).saveErrno = errno :=
        hc.stores (errno + 1)
      rw [writeFd_saveErrno] at hstored
      omega

def twoLeft : Buffer64 := ⟨⟨List.replicate 12 7, by decide⟩, 8, 10⟩

theorem io_contract_overflow : twoLeft.Contract (.readv (.delivered [1, 2, 3])) :=
  (io_contract (b := twoLeft) (s := .readv (.delivered [1, 2, 3]))
    ⟨by decide, by decide, by decide⟩ (by unfold SysCall.Answers; decide)).mpr
    (Or.inr (Or.inr (by decide)))

/-- The code of a failed `write` does not reach `handleWrite`. -/
theorem not_io_contract : twoLeft.WF ∧ SysCall.Answers twoLeft (.write (.failed EPIPE)) ∧
    ¬ twoLeft.Contract (.write (.failed EPIPE)) := by
  refine ⟨⟨by decide, by decide, by decide⟩, trivial, ?_⟩
  intro hc
  have hstored := hc.available EPIPE rfl
  exact absurd hstored (by decide)

end Buffer64

end Mymuduo
