import Mymuduo.Foundation.Machine
import Mymuduo.Buffer

namespace Mymuduo

namespace ByteQueue

open Foundation.Machine Foundation.Cells Buffer

inductive Op
  | append (data : List Byte)
  | ensureWriteableBytes (len : ℕ)
  | retrieve (len : ℕ)
  | retrieveAll
  | retrieveAsString (len : ℕ)
  | retrieveAllAsString

/-- What a buffer is for: a queue of bytes. The second component is the string
an operation returns, and `none` is the refusal to read past the end. -/
def exec (q : List Byte) : Op → Option (List Byte × List Byte)
  | .append data => some (q ++ data, [])
  | .ensureWriteableBytes _ => some (q, [])
  | .retrieve len => some (q.drop (min len q.length), [])
  | .retrieveAll => some ([], [])
  | .retrieveAsString len => if q.length < len then none else some (q.drop len, q.take len)
  | .retrieveAllAsString => some ([], q)

def step (q : List Byte) (o : Op) : Option (List Byte) := (exec q o).map (·.1)

end ByteQueue

namespace Buffer

open Foundation.Machine Foundation.Cells ByteQueue

def exec (b : Buffer) : Op → Option (Buffer × List Byte)
  | .append data => some (b.append data, [])
  | .ensureWriteableBytes len => some (b.ensureWriteableBytes len, [])
  | .retrieve len => some (b.retrieve len, [])
  | .retrieveAll => some (b.retrieveAll, [])
  | .retrieveAsString len => b.retrieveAsString len
  | .retrieveAllAsString => b.retrieveAllAsString

def step (b : Buffer) (o : Op) : Option Buffer := (b.exec o).map (·.1)

variable (b : Buffer)

def makeSpaceSubtractions (len : ℕ) : List (ℕ × ℕ) :=
  (b.buffer_.length, b.writerIndex_) ::
  (b.writableBytes + b.prependableBytes, kCheapPrepend) ::
  if b.writableBytes + b.prependableBytes - kCheapPrepend < len then []
  else [(b.writerIndex_, b.readerIndex_)]

def ensureWriteableBytesSubtractions (len : ℕ) : List (ℕ × ℕ) :=
  (b.buffer_.length, b.writerIndex_) ::
  if b.writableBytes < len then b.makeSpaceSubtractions len else []

/-- The unsigned subtractions an operation evaluates, as minuend and
subtrahend, in the order of evaluation. -/
def subtractions : Op → List (ℕ × ℕ)
  | .append data => b.ensureWriteableBytesSubtractions data.length
  | .ensureWriteableBytes len => b.ensureWriteableBytesSubtractions len
  | .retrieve _ => [(b.writerIndex_, b.readerIndex_)]
  | .retrieveAll => []
  | .retrieveAsString _ => List.replicate 2 (b.writerIndex_, b.readerIndex_)
  | .retrieveAllAsString => List.replicate 3 (b.writerIndex_, b.readerIndex_)

variable {b}

namespace WF

theorem retrieveAsString (h : b.WF) (len : ℕ) :
    b.retrieveAsString len =
      if b.readable.length < len then none else some (b.retrieve len, b.readable.take len) := by
  rw [h.length_readable, Buffer.retrieveAsString]
  by_cases hlen : b.readableBytes < len
  · rw [if_pos hlen, if_pos hlen]
  · have hend : min b.writerIndex_ (b.readerIndex_ + len) = b.readerIndex_ + len := by
      have hr := h.reader_le
      simp only [readableBytes] at hlen
      omega
    rw [if_neg hlen, if_neg hlen, readable, slice_take, hend]

theorem retrieveAllAsString (h : b.WF) :
    b.retrieveAllAsString = some (b.retrieve b.readableBytes, b.readable) := by
  have hlen := h.length_readable
  rw [Buffer.retrieveAllAsString, h.retrieveAsString, if_neg (by omega),
    List.take_of_length_le hlen.le]

theorem exec_refines (h : b.WF) {o : Op} {q out : List Byte}
    (ho : ByteQueue.exec b.readable o = some (q, out)) :
    ∃ b', b.exec o = some (b', out) ∧ b'.WF ∧ b'.readable = q := by
  cases o with
  | append data =>
    obtain ⟨rfl, rfl⟩ : b.readable ++ data = q ∧ [] = out := by simpa [ByteQueue.exec] using ho
    exact ⟨_, rfl, h.append data⟩
  | ensureWriteableBytes len =>
    obtain ⟨rfl, rfl⟩ : b.readable = q ∧ [] = out := by simpa [ByteQueue.exec] using ho
    obtain ⟨hw, hr, -⟩ := h.ensureWriteableBytes len
    exact ⟨_, rfl, hw, hr⟩
  | retrieve len =>
    obtain ⟨rfl, rfl⟩ : b.readable.drop (min len b.readable.length) = q ∧ [] = out := by
      simpa only [ByteQueue.exec, Option.some.injEq, Prod.mk.injEq] using ho
    refine ⟨_, rfl, h.retrieve len, ?_⟩
    rw [h.readable_retrieve]
    rcases le_total len b.readable.length with hl | hl
    · rw [min_eq_left hl]
    · rw [min_eq_right hl, List.drop_length, List.drop_eq_nil_of_le hl]
  | retrieveAll =>
    obtain ⟨rfl, rfl⟩ : [] = q ∧ [] = out := by simpa [ByteQueue.exec] using ho
    exact ⟨_, rfl, h.retrieveAll, readable_retrieveAll⟩
  | retrieveAsString len =>
    simp only [ByteQueue.exec] at ho
    split at ho
    · simp at ho
    · next hlen =>
      obtain ⟨rfl, rfl⟩ : b.readable.drop len = q ∧ b.readable.take len = out := by
        simpa using ho
      exact ⟨b.retrieve len, by rw [Buffer.exec, h.retrieveAsString, if_neg hlen],
        h.retrieve len, h.readable_retrieve len⟩
  | retrieveAllAsString =>
    obtain ⟨rfl, rfl⟩ : [] = q ∧ b.readable = out := by simpa [ByteQueue.exec] using ho
    refine ⟨_, h.retrieveAllAsString, h.retrieve _, ?_⟩
    rw [h.readable_retrieve, List.drop_eq_nil_of_le h.length_readable.le]

theorem makeSpace_subtractions (h : b.WF) (len : ℕ) :
    ∀ p ∈ b.makeSpaceSubtractions len, p.2 ≤ p.1 := by
  intro p hp
  have hspace : kCheapPrepend ≤ b.writableBytes + b.prependableBytes :=
    h.cheap.trans (Nat.le_add_left _ _)
  simp only [makeSpaceSubtractions, List.mem_cons] at hp
  rcases hp with rfl | rfl | hp
  · exact h.writer_le
  · exact hspace
  · split at hp
    · simp at hp
    · obtain rfl := List.mem_singleton.mp hp
      exact h.reader_le

theorem ensureWriteableBytes_subtractions (h : b.WF) (len : ℕ) :
    ∀ p ∈ b.ensureWriteableBytesSubtractions len, p.2 ≤ p.1 := by
  intro p hp
  rcases List.mem_cons.mp hp with rfl | hp
  · exact h.writer_le
  · split at hp
    · exact h.makeSpace_subtractions len p hp
    · simp at hp

theorem subtractions (h : b.WF) (o : Op) : ∀ p ∈ b.subtractions o, p.2 ≤ p.1 := by
  intro p hp
  cases o with
  | append data => exact h.ensureWriteableBytes_subtractions _ p hp
  | ensureWriteableBytes len => exact h.ensureWriteableBytes_subtractions _ p hp
  | retrieve len | retrieveAsString len | retrieveAllAsString =>
    obtain rfl : p = (b.writerIndex_, b.readerIndex_) := by
      simpa [Buffer.subtractions] using hp
    exact h.reader_le
  | retrieveAll => simp [Buffer.subtractions] at hp

theorem slide_clean (h : b.WF) : b.slide.clean = true := by
  have hr := h.reader_le
  have hw := h.writer_le
  refine copyForward_clean h.cheap ?_
  simp only [readableBytes]
  omega

end WF

theorem step_refines {o : Op} {q : List Byte} (h : b.WF)
    (ho : ByteQueue.step b.readable o = some q) :
    ∃ b', b.step o = some b' ∧ b'.WF ∧ b'.readable = q := by
  obtain ⟨⟨q, out⟩, hq, rfl⟩ := Option.map_eq_some_iff.mp ho
  obtain ⟨b', hb, hw, hr⟩ := h.exec_refines hq
  exact ⟨b', Option.map_eq_some_iff.mpr ⟨_, hb, rfl⟩, hw, hr⟩

/-- A run of the queue is a run of every well-formed buffer that holds it. -/
theorem run_refines {os : List Op} {q : List Byte} (h : b.WF)
    (ho : run ByteQueue.step b.readable os = some q) :
    ∃ b', run Buffer.step b os = some b' ∧ b'.WF ∧ b'.readable = q := by
  induction os generalizing b with
  | nil => exact ⟨b, rfl, h, by simpa using ho⟩
  | cons o os ih =>
    obtain ⟨u, hu, hq⟩ := run_cons.mp ho
    obtain ⟨c, hc, hw, rfl⟩ := step_refines h hu
    obtain ⟨d, hd, hdw, hdr⟩ := ih hw hq
    exact ⟨d, run_cons.mpr ⟨c, hc, hd⟩, hdw, hdr⟩

/-- Whatever a queue can do from empty, a fresh buffer of any size does too, with
the same results, its indices in order, its copies clean, and no subtraction
below zero. -/
theorem refines_byte_queue (initialSize : ℕ) (os : List Op) (o : Op) {q r out : List Byte}
    (hos : run ByteQueue.step [] os = some q) (ho : ByteQueue.exec q o = some (r, out)) :
    ∃ b b' : Buffer, run Buffer.step (ofSize initialSize) os = some b ∧ b.exec o = some (b', out) ∧
      b.WF ∧ b.readable = q ∧ b'.WF ∧ b'.readable = r ∧
      (∀ len, o = .ensureWriteableBytes len → len ≤ b'.writableBytes) ∧
      b.slide.clean = true ∧ ∀ p ∈ b.subtractions o, p.2 ≤ p.1 := by
  obtain ⟨b, hb, hw, rfl⟩ := run_refines (ofSize_wf initialSize) (by simpa using hos)
  obtain ⟨b', hb', hw', hr⟩ := hw.exec_refines ho
  refine ⟨b, b', hb, hb', hw, rfl, hw', hr, ?_, hw.slide_clean, hw.subtractions o⟩
  rintro len rfl
  obtain ⟨rfl, -⟩ : b.ensureWriteableBytes len = b' ∧ [] = out := by
    simpa [Buffer.exec] using hb'
  exact (hw.ensureWriteableBytes len).2.2

theorem refines_byte_queue_sliding :
    ∃ b b' : Buffer, run Buffer.step (ofSize 4) [.append [1, 2, 3], .retrieve 2] = some b ∧
      b.exec (.append [4, 5, 6]) = some (b', []) ∧ b.WF ∧ b.readable = [3] ∧ b'.WF ∧
      b'.readable = [3, 4, 5, 6] ∧
      (∀ len, Op.append [4, 5, 6] = .ensureWriteableBytes len → len ≤ b'.writableBytes) ∧
      b.slide.clean = true ∧ ∀ p ∈ b.subtractions (.append [4, 5, 6]), p.2 ≤ p.1 :=
  refines_byte_queue 4 [.append [1, 2, 3], .retrieve 2] (.append [4, 5, 6]) rfl rfl

end Buffer

end Mymuduo
