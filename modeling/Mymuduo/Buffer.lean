import Mathlib.Order.Lattice.Nat
import Mymuduo.Foundation.Cells

namespace Mymuduo

open Foundation.Cells

abbrev Byte := UInt8

/-- The vector with its two indices, as in `Buffer.h`. -/
structure Buffer where
  buffer_ : List Byte
  readerIndex_ : ℕ
  writerIndex_ : ℕ

namespace Buffer

def kCheapPrepend : ℕ := 8

def kInitialSize : ℕ := 1024

/-- `std::vector<char>::resize`: new cells are zero. -/
def resize (v : List Byte) (n : ℕ) : List Byte := v.take n ++ List.replicate (n - v.length) 0

def ofSize (initialSize : ℕ) : Buffer :=
  ⟨List.replicate (kCheapPrepend + initialSize) 0, kCheapPrepend, kCheapPrepend⟩

variable (b : Buffer)

def size : ℕ := b.buffer_.length

def readableBytes : ℕ := b.writerIndex_ - b.readerIndex_

def writableBytes : ℕ := b.buffer_.length - b.writerIndex_

def prependableBytes : ℕ := b.readerIndex_

def readable : List Byte := slice b.buffer_ b.readerIndex_ b.writerIndex_

def retrieveAll : Buffer :=
  { b with readerIndex_ := kCheapPrepend, writerIndex_ := kCheapPrepend }

def retrieve (len : ℕ) : Buffer :=
  if len < b.readableBytes then { b with readerIndex_ := b.readerIndex_ + len } else b.retrieveAll

/-- `none` is the `LOG_FATAL` exit. -/
def retrieveAsString (len : ℕ) : Option (Buffer × List Byte) :=
  if len > b.readableBytes then none
  else some (b.retrieve len, slice b.buffer_ b.readerIndex_ (b.readerIndex_ + len))

def retrieveAllAsString : Option (Buffer × List Byte) := b.retrieveAsString b.readableBytes

def slide : Copying Byte :=
  copyForward b.buffer_ b.readerIndex_ kCheapPrepend b.readableBytes

def makeSpace (len : ℕ) : Buffer :=
  if b.writableBytes + b.prependableBytes - kCheapPrepend < len then
    { b with buffer_ := resize b.buffer_ (b.writerIndex_ + len) }
  else
    { buffer_ := b.slide.cells
      readerIndex_ := kCheapPrepend
      writerIndex_ := kCheapPrepend + b.readableBytes }

def ensureWriteableBytes (len : ℕ) : Buffer :=
  if b.writableBytes < len then b.makeSpace len else b

def append (data : List Byte) : Buffer :=
  let e := b.ensureWriteableBytes data.length
  { e with
    buffer_ := overlay e.buffer_ e.writerIndex_ data
    writerIndex_ := e.writerIndex_ + data.length }

/-- `kCheapPrepend <= readerIndex_ <= writerIndex_ <= buffer_.size()`. -/
structure WF : Prop where
  cheap : kCheapPrepend ≤ b.readerIndex_
  reader_le : b.readerIndex_ ≤ b.writerIndex_
  writer_le : b.writerIndex_ ≤ b.buffer_.length

variable {b}

theorem ofSize_wf (initialSize : ℕ) : (ofSize initialSize).WF :=
  ⟨le_rfl, le_rfl, by simp [ofSize]⟩

@[simp] theorem ofSize_readable (initialSize : ℕ) : (ofSize initialSize).readable = [] := by
  simp [readable, slice, ofSize]

theorem length_resize {v : List Byte} {n : ℕ} (h : v.length ≤ n) : (resize v n).length = n := by
  simp [resize, List.take_of_length_le h, h]

theorem slice_resize {v : List Byte} {a c n : ℕ} (hc : c ≤ v.length) (h : v.length ≤ n) :
    slice (resize v n) a c = slice v a c := by
  rw [resize, List.take_of_length_le h, slice_append_left hc]

namespace WF

theorem length_readable (h : b.WF) : b.readable.length = b.readableBytes :=
  length_slice h.writer_le

theorem readable_eq_nil (h : b.WF) : b.readable = [] ↔ b.readableBytes = 0 := by
  rw [← h.length_readable, List.length_eq_zero_iff]

theorem retrieveAll (h : b.WF) : b.retrieveAll.WF :=
  ⟨le_rfl, le_rfl, h.cheap.trans (h.reader_le.trans h.writer_le)⟩

theorem retrieve (h : b.WF) (len : ℕ) : (b.retrieve len).WF := by
  unfold Buffer.retrieve
  split
  · next hlt =>
    simp only [readableBytes] at hlt
    exact ⟨h.cheap.trans (Nat.le_add_right _ _), show b.readerIndex_ + len ≤ b.writerIndex_ by omega, h.writer_le⟩
  · exact h.retrieveAll

theorem grow (h : b.WF) {len : ℕ} (hlen : b.writableBytes < len) :
    let g : Buffer := { b with buffer_ := resize b.buffer_ (b.writerIndex_ + len) }
    g.WF ∧ g.readable = b.readable ∧ g.writableBytes = len := by
  have hsize : b.buffer_.length ≤ b.writerIndex_ + len := by
    simp only [writableBytes] at hlen
    omega
  refine ⟨⟨h.cheap, h.reader_le, ?_⟩, slice_resize h.writer_le hsize, ?_⟩
  · simp only [length_resize hsize]
    omega
  · simp only [writableBytes, length_resize hsize]
    omega

theorem slide (h : b.WF) :
    let g : Buffer := ⟨b.slide.cells, kCheapPrepend, kCheapPrepend + b.readableBytes⟩
    g.WF ∧ g.readable = b.readable ∧
      g.writableBytes = b.writableBytes + b.prependableBytes - kCheapPrepend := by
  obtain ⟨hc, hr, hw⟩ := h
  have hlen : b.slide.cells.length = b.buffer_.length := length_copyForward
  have hend : b.readerIndex_ + b.readableBytes = b.writerIndex_ := by
    simp only [readableBytes]
    omega
  refine ⟨⟨le_rfl, Nat.le_add_right _ _, ?_⟩, ?_, ?_⟩
  · simp only [hlen]
    omega
  · simp only [readable]
    rw [Buffer.slide, slice_copyForward hc (by omega), hend]
  · simp only [writableBytes, prependableBytes, hlen]
    omega

theorem makeSpace (h : b.WF) {len : ℕ} (hlen : b.writableBytes < len) :
    (b.makeSpace len).WF ∧ (b.makeSpace len).readable = b.readable ∧
      len ≤ (b.makeSpace len).writableBytes := by
  unfold Buffer.makeSpace
  split
  · obtain ⟨hg, hr, hw⟩ := h.grow hlen
    exact ⟨hg, hr, hw.ge⟩
  · next hroom =>
    obtain ⟨hg, hr, hw⟩ := h.slide
    exact ⟨hg, hr, by omega⟩

theorem ensureWriteableBytes (h : b.WF) (len : ℕ) :
    (b.ensureWriteableBytes len).WF ∧ (b.ensureWriteableBytes len).readable = b.readable ∧
      len ≤ (b.ensureWriteableBytes len).writableBytes := by
  unfold Buffer.ensureWriteableBytes
  split
  · next hlt => exact h.makeSpace hlt
  · next hge => exact ⟨h, rfl, by omega⟩

theorem append (h : b.WF) (data : List Byte) :
    (b.append data).WF ∧ (b.append data).readable = b.readable ++ data := by
  obtain ⟨he, hr, hlen⟩ := h.ensureWriteableBytes data.length
  have hroom : (b.ensureWriteableBytes data.length).writerIndex_ + data.length ≤
      (b.ensureWriteableBytes data.length).buffer_.length := by
    have hw := he.writer_le
    simp only [writableBytes] at hlen
    omega
  refine ⟨⟨he.cheap, he.reader_le.trans (Nat.le_add_right _ _), ?_⟩, ?_⟩
  · simp only [Buffer.append, length_overlay hroom]
    exact hroom
  · rw [← hr]
    exact slice_overlay he.reader_le he.writer_le

theorem size_append (h : b.WF) (data : List Byte) :
    (b.append data).size = (b.ensureWriteableBytes data.length).size := by
  obtain ⟨he, -, hlen⟩ := h.ensureWriteableBytes data.length
  have hw := he.writer_le
  apply length_overlay
  simp only [writableBytes] at hlen
  omega

theorem readable_append (h : b.WF) (data : List Byte) :
    (b.append data).readable = b.readable ++ data := (h.append data).2

theorem readable_retrieve (h : b.WF) (len : ℕ) :
    (b.retrieve len).readable = b.readable.drop len := by
  unfold Buffer.retrieve
  split
  · simp only [readable, slice_drop]
  · next hge =>
    rw [List.drop_eq_nil_of_le (by rw [h.length_readable]; omega)]
    simp [readable, slice, Buffer.retrieveAll]

end WF

@[simp] theorem readable_retrieveAll : b.retrieveAll.readable = [] := by
  simp [readable, slice, retrieveAll]

end Buffer

end Mymuduo
