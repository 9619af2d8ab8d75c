import Mymuduo.Buffer

namespace Mymuduo

open Foundation.Cells

/-- `std::vector<char>`, with its greatest size. -/
structure CharVector where
  cells : List Byte
  length_lt : cells.length < 2 ^ 63

namespace CharVector

variable (v : CharVector)

def size : UInt64 := .ofNat v.cells.length

/-- `none` is `std::length_error`. -/
def ofSize (n : UInt64) : Option CharVector :=
  if h : n.toNat < 2 ^ 63 then some ⟨List.replicate n.toNat 0, by simpa using h⟩ else none

theorem length_resize_lt {n : ℕ} (h : n < 2 ^ 63) (cells : List Byte) :
    (Buffer.resize cells n).length < 2 ^ 63 := by
  simp only [Buffer.resize, List.length_append, List.length_take, List.length_replicate]
  omega

def resize (n : UInt64) : Option CharVector :=
  if h : n.toNat < 2 ^ 63 then some ⟨Buffer.resize v.cells n.toNat, length_resize_lt h v.cells⟩
  else none

def withCells (cells : List Byte) : CharVector :=
  ⟨cells.take v.cells.length, (List.length_take_le _ _).trans_lt v.length_lt⟩

variable {v}

@[simp] theorem toNat_size : v.size.toNat = v.cells.length :=
  UInt64.toNat_ofNat_of_lt' (v.length_lt.trans (by decide))

theorem withCells_cells {cells : List Byte} (h : cells.length = v.cells.length) :
    (v.withCells cells).cells = cells := List.take_of_length_le h.le

theorem ofSize_of_lt {n : UInt64} (h : n.toNat < 2 ^ 63) : ∃ w, ofSize n = some w ∧ w.size = n := by
  refine ⟨_, dif_pos h, ?_⟩
  rw [← UInt64.toNat_inj, toNat_size, List.length_replicate]

theorem size_of_ofSize {n : UInt64} (h : ofSize n = some v) : v.size = n := by
  rcases Nat.lt_or_ge n.toNat (2 ^ 63) with hlt | hge
  · obtain ⟨w, hw, hsize⟩ := ofSize_of_lt hlt
    obtain rfl : w = v := Option.some.inj (hw.symm.trans h)
    exact hsize
  · rw [ofSize, dif_neg hge.not_gt] at h
    simp at h

theorem resize_of_lt {n : UInt64} (h : n.toNat < 2 ^ 63) :
    ∃ w, v.resize n = some w ∧ w.cells = Buffer.resize v.cells n.toNat ∧ w.size = n := by
  refine ⟨_, dif_pos h, rfl, ?_⟩
  rw [← UInt64.toNat_inj, toNat_size]
  simp only [Buffer.resize, List.length_append, List.length_take, List.length_replicate]
  omega

theorem resize_of_ge {n : UInt64} (h : 2 ^ 63 ≤ n.toNat) : v.resize n = none :=
  dif_neg h.not_gt

theorem withCells_size {cells : List Byte} (h : cells.length = v.cells.length) :
    (v.withCells cells).size = v.size := by
  rw [size, withCells_cells h, h, size]

@[simp] theorem withCells_self : v.withCells v.cells = v := by
  simp [withCells]

end CharVector

/-- `Buffer` as the machine computes it: indices and lengths are `size_t`. -/
structure Buffer64 where
  buffer_ : CharVector
  readerIndex_ : UInt64
  writerIndex_ : UInt64

namespace Buffer64

def kCheapPrepend : UInt64 := 8

def ofSize (initialSize : UInt64) : Option Buffer64 :=
  (CharVector.ofSize (kCheapPrepend + initialSize)).map fun v ↦ ⟨v, kCheapPrepend, kCheapPrepend⟩

structure Left where
  buf : Buffer64
  thrown : Bool

variable (b : Buffer64)

def readableBytes : UInt64 := b.writerIndex_ - b.readerIndex_

def writableBytes : UInt64 := b.buffer_.size - b.writerIndex_

def prependableBytes : UInt64 := b.readerIndex_

def readable : List Byte := slice b.buffer_.cells b.readerIndex_.toNat b.writerIndex_.toNat

def retrieveAll : Buffer64 :=
  { b with readerIndex_ := kCheapPrepend, writerIndex_ := kCheapPrepend }

def retrieve (len : UInt64) : Buffer64 :=
  if len < b.readableBytes then { b with readerIndex_ := b.readerIndex_ + len } else b.retrieveAll

def retrieveAsString (len : UInt64) : Option (Buffer64 × List Byte) :=
  if len > b.readableBytes then none
  else some (b.retrieve len,
    slice b.buffer_.cells b.readerIndex_.toNat (b.readerIndex_.toNat + len.toNat))

def retrieveAllAsString : Option (Buffer64 × List Byte) := b.retrieveAsString b.readableBytes

def makeSpace (len : UInt64) : Left :=
  if b.writableBytes + b.prependableBytes - kCheapPrepend < len then
    match b.buffer_.resize (b.writerIndex_ + len) with
    | some v => ⟨{ b with buffer_ := v }, false⟩
    | none => ⟨b, true⟩
  else
    let readable := b.readableBytes
    ⟨{ buffer_ := b.buffer_.withCells (copyForward b.buffer_.cells b.readerIndex_.toNat
        kCheapPrepend.toNat (b.writerIndex_.toNat - b.readerIndex_.toNat)).cells
       readerIndex_ := kCheapPrepend
       writerIndex_ := kCheapPrepend + readable }, false⟩

def ensureWriteableBytes (len : UInt64) : Left :=
  if b.writableBytes < len then b.makeSpace len else ⟨b, false⟩

def append (data : List Byte) : Left :=
  let len := UInt64.ofNat data.length
  let e := b.ensureWriteableBytes len
  if e.thrown then e
  else ⟨{ e.buf with
    buffer_ := e.buf.buffer_.withCells (overlay e.buf.buffer_.cells e.buf.writerIndex_.toNat data)
    writerIndex_ := e.buf.writerIndex_ + len }, false⟩

/-- The same buffer over unbounded numbers. -/
def toBuffer : Buffer := ⟨b.buffer_.cells, b.readerIndex_.toNat, b.writerIndex_.toNat⟩

structure WF : Prop where
  cheap : kCheapPrepend ≤ b.readerIndex_
  reader_le : b.readerIndex_ ≤ b.writerIndex_
  writer_le : b.writerIndex_ ≤ b.buffer_.size

variable {b}

@[simp] theorem toNat_kCheapPrepend : kCheapPrepend.toNat = Buffer.kCheapPrepend := rfl

theorem wf_iff : b.WF ↔ b.toBuffer.WF := by
  constructor
  · intro ⟨hc, hr, hw⟩
    rw [UInt64.le_iff_toNat_le] at hc hr hw
    exact ⟨hc, hr, CharVector.toNat_size ▸ hw⟩
  · intro ⟨hc, hr, hw⟩
    refine ⟨UInt64.le_iff_toNat_le.mpr hc, UInt64.le_iff_toNat_le.mpr hr, ?_⟩
    rw [UInt64.le_iff_toNat_le, CharVector.toNat_size]
    exact hw

theorem length_toBuffer_lt : b.toBuffer.buffer_.length < 2 ^ 63 := b.buffer_.length_lt

/-- What a call comes to that ought to make `u` of the buffer: it does, or `u` is too
large for a vector, and it throws and changes nothing. -/
inductive Makes (b : Buffer64) (u : Buffer) : Left → Prop
  | done (c : Buffer64) (hc : c.toBuffer = u) : Makes b u ⟨c, false⟩
  | refused (hu : 2 ^ 63 ≤ u.size) : Makes b u ⟨b, true⟩

theorem Makes.wf {u : Buffer} {l : Left} (h : Makes b u l) (hb : b.WF) (hu : u.WF) : l.buf.WF := by
  cases h with
  | done c hc => exact wf_iff.mpr (hc ▸ hu)
  | refused => exact hb

namespace WF

theorem toNat_readableBytes (h : b.WF) : b.readableBytes.toNat = b.toBuffer.readableBytes :=
  UInt64.toNat_sub_of_le _ _ h.reader_le

theorem toNat_writableBytes (h : b.WF) : b.writableBytes.toNat = b.toBuffer.writableBytes := by
  rw [writableBytes, UInt64.toNat_sub_of_le _ _ h.writer_le, CharVector.toNat_size]
  rfl

theorem toNat_room (h : b.WF) :
    (b.writableBytes + b.prependableBytes - kCheapPrepend).toNat =
      b.toBuffer.writableBytes + b.toBuffer.prependableBytes - Buffer.kCheapPrepend := by
  have hsize := b.length_toBuffer_lt
  obtain ⟨hc, hr, hw⟩ := wf_iff.mp h
  have hsum : (b.writableBytes + b.prependableBytes).toNat =
      b.toBuffer.writableBytes + b.toBuffer.prependableBytes := by
    rw [UInt64.toNat_add, h.toNat_writableBytes, Nat.mod_eq_of_lt]
    · rfl
    · change b.toBuffer.writableBytes + b.toBuffer.readerIndex_ < 2 ^ 64
      simp only [Buffer.writableBytes]
      omega
  rw [UInt64.toNat_sub_of_le, hsum]
  · rfl
  · rw [UInt64.le_iff_toNat_le, hsum]
    simp only [toNat_kCheapPrepend, Buffer.prependableBytes]
    omega

theorem retrieveAll (h : b.WF) :
    b.retrieveAll.WF ∧ b.retrieveAll.toBuffer = b.toBuffer.retrieveAll :=
  ⟨wf_iff.mpr (wf_iff.mp h).retrieveAll, rfl⟩

theorem retrieve (h : b.WF) (len : UInt64) :
    (b.retrieve len).WF ∧ (b.retrieve len).toBuffer = b.toBuffer.retrieve len.toNat := by
  have heq : (b.retrieve len).toBuffer = b.toBuffer.retrieve len.toNat := by
    simp only [Buffer64.retrieve, Buffer.retrieve, UInt64.lt_iff_toNat_lt, h.toNat_readableBytes]
    split
    · next hlt =>
      have hw := b.writerIndex_.toNat_lt
      have hsum : (b.readerIndex_ + len).toNat = b.readerIndex_.toNat + len.toNat := by
        rw [UInt64.toNat_add, Nat.mod_eq_of_lt]
        simp only [Buffer.readableBytes, toBuffer] at hlt
        omega
      simp only [toBuffer, hsum]
    · rfl
  refine ⟨wf_iff.mpr ?_, heq⟩
  rw [heq]
  exact (wf_iff.mp h).retrieve len.toNat

theorem ensureWriteableBytes (h : b.WF) {len : UInt64}
    (hsum : b.writerIndex_.toNat + len.toNat < 2 ^ 64) :
    Makes b (b.toBuffer.ensureWriteableBytes len.toNat) (b.ensureWriteableBytes len) := by
  have hw := wf_iff.mp h
  simp only [Buffer64.ensureWriteableBytes, UInt64.lt_iff_toNat_lt, h.toNat_writableBytes]
  split
  · next hlt =>
    simp only [Buffer64.makeSpace, UInt64.lt_iff_toNat_lt, h.toNat_room]
    split
    · next hroom =>
      have hadd : (b.writerIndex_ + len).toNat = b.toBuffer.writerIndex_ + len.toNat := by
        rw [UInt64.toNat_add, Nat.mod_eq_of_lt hsum]
        rfl
      have hgrown : b.toBuffer.ensureWriteableBytes len.toNat = { b.toBuffer with
          buffer_ := Buffer.resize b.toBuffer.buffer_ (b.toBuffer.writerIndex_ + len.toNat) } := by
        rw [Buffer.ensureWriteableBytes, if_pos hlt, Buffer.makeSpace, if_pos hroom]
      rcases Nat.lt_or_ge (b.writerIndex_ + len).toNat (2 ^ 63) with hfits | hover
      · obtain ⟨v, hv, hcells, -⟩ := CharVector.resize_of_lt (v := b.buffer_) hfits
        rw [hv]
        refine .done _ ?_
        rw [hgrown, ← hadd]
        simp only [toBuffer, hcells]
      · rw [CharVector.resize_of_ge hover]
        refine .refused ?_
        rw [hgrown, Buffer.size, Buffer.length_resize]
        · exact hadd ▸ hover
        · simp only [Buffer.writableBytes] at hlt
          omega
    · next hroom =>
      refine .done _ ?_
      have hread : (kCheapPrepend + b.readableBytes).toNat =
          Buffer.kCheapPrepend + b.toBuffer.readableBytes := by
        have hsize := b.length_toBuffer_lt
        obtain ⟨hc, hr, hw⟩ := hw
        rw [UInt64.toNat_add, h.toNat_readableBytes, Nat.mod_eq_of_lt]
        · rfl
        · simp only [toNat_kCheapPrepend, Buffer.readableBytes]
          omega
      rw [Buffer.ensureWriteableBytes, if_pos hlt, Buffer.makeSpace, if_neg hroom]
      simp only [toBuffer, hread, toNat_kCheapPrepend, Buffer.slide, Buffer.readableBytes]
      rw [CharVector.withCells_cells length_copyForward]
  · next hge =>
    refine .done _ ?_
    rw [Buffer.ensureWriteableBytes, if_neg hge]

theorem append (h : b.WF) {data : List Byte} (hlen : data.length < 2 ^ 64)
    (hsum : b.writerIndex_.toNat + data.length < 2 ^ 64) :
    Makes b (b.toBuffer.append data) (b.append data) := by
  have hw := wf_iff.mp h
  have hnat : (UInt64.ofNat data.length).toNat = data.length := UInt64.toNat_ofNat_of_lt' hlen
  have hsize := hw.size_append data
  have hmakes : Makes b (b.toBuffer.ensureWriteableBytes (UInt64.ofNat data.length).toNat)
      (b.ensureWriteableBytes (.ofNat data.length)) := h.ensureWriteableBytes (by rwa [hnat])
  rw [hnat] at hmakes
  rw [Buffer64.append]
  generalize b.ensureWriteableBytes (.ofNat data.length) = e at hmakes
  cases hmakes with
  | refused hu => exact .refused (hsize ▸ hu)
  | done c hc =>
    obtain ⟨hcw, -, hroom⟩ := hw.ensureWriteableBytes data.length
    rw [← hc] at hcw hroom
    have hend : c.writerIndex_.toNat + data.length ≤ c.buffer_.cells.length := by
      have hle : c.writerIndex_.toNat ≤ c.buffer_.cells.length := hcw.writer_le
      simp only [Buffer.writableBytes, toBuffer] at hroom
      omega
    have hadd : (c.writerIndex_ + .ofNat data.length).toNat = c.writerIndex_.toNat + data.length := by
      have hfits := c.buffer_.length_lt
      rw [UInt64.toNat_add, hnat, Nat.mod_eq_of_lt (by omega)]
    refine .done _ ?_
    rw [Buffer.append, ← hc]
    simp only [toBuffer, hadd, CharVector.withCells_cells (length_overlay hend)]

/-- A request whose sum wraps resizes the vector to end before its content. -/
theorem ensureWriteableBytes_wraps (h : b.WF) {len : UInt64}
    (hsum : 2 ^ 64 ≤ b.writerIndex_.toNat + len.toNat) :
    (b.ensureWriteableBytes len).thrown = false ∧ ¬ (b.ensureWriteableBytes len).buf.WF := by
  have hsize := b.length_toBuffer_lt
  obtain ⟨hc, hr, hw⟩ := wf_iff.mp h
  have hlen := len.toNat_lt
  have hindex : b.writerIndex_.toNat ≤ b.toBuffer.buffer_.length := hw
  have hlt : b.writableBytes < len := by
    rw [UInt64.lt_iff_toNat_lt, h.toNat_writableBytes, Buffer.writableBytes]
    omega
  have hroom : b.writableBytes + b.prependableBytes - kCheapPrepend < len := by
    rw [UInt64.lt_iff_toNat_lt, h.toNat_room]
    simp only [Buffer.writableBytes, Buffer.prependableBytes]
    omega
  have hadd : (b.writerIndex_ + len).toNat = b.writerIndex_.toNat + len.toNat - 2 ^ 64 := by
    rw [UInt64.toNat_add]
    omega
  obtain ⟨v, hv, -, hend⟩ := CharVector.resize_of_lt (v := b.buffer_) (n := b.writerIndex_ + len)
    (by omega)
  rw [Buffer64.ensureWriteableBytes, if_pos hlt, Buffer64.makeSpace, if_pos hroom, hv]
  refine ⟨rfl, ?_⟩
  intro hwf
  have hle := UInt64.le_iff_toNat_le.mp hwf.writer_le
  simp only [hend] at hle
  omega

end WF

end Buffer64

end Mymuduo
