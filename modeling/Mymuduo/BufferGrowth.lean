import Mymuduo.BufferIO
import Mymuduo.ByteQueue

namespace Mymuduo

open Foundation.Machine Foundation.Cells

namespace Buffer

inductive Act
  | op (o : ByteQueue.Op)
  | readFd (r : ReadResult)

variable (b : Buffer)

def act : Act → Option Buffer
  | .op o => b.step o
  | .readFd r => if r.bytes.length ≤ b.offeredBytes then some (b.readFd 0 r).buf else none

/-- The `ensureWriteableBytes(len)` request that an operation makes, with the buffer it
is made on. -/
def request : Act → Option (Buffer × ℕ)
  | .op (.append data) => some (b, data.length)
  | .op (.ensureWriteableBytes len) => some (b, len)
  | .op (.retrieve _) | .op .retrieveAll | .op (.retrieveAsString _) | .op .retrieveAllAsString => none
  | .readFd (.failed _) => none
  | .readFd (.delivered d) =>
    if d.length ≤ b.writableBytes then none else some (b.filled d, d.length - b.writableBytes)

/-- The bytes that a request asks to have room for, those already held included. -/
def occupancy (p : Buffer × ℕ) : ℕ := p.1.readableBytes + p.2

variable {b}

theorem size_retrieve (len : ℕ) : (b.retrieve len).size = b.size := by
  unfold Buffer.retrieve
  split <;> rfl

theorem step_retrieveAsString (len : ℕ) {c : Buffer}
    (h : b.step (.retrieveAsString len) = some c) : c = b.retrieve len := by
  obtain ⟨⟨d, out⟩, hd, rfl⟩ := Option.map_eq_some_iff.mp h
  simp only [exec, retrieveAsString, Option.ite_none_left_eq_some, Option.some.injEq,
    Prod.mk.injEq] at hd
  exact hd.2.1.symm

namespace WF

theorem size_ensureWriteableBytes (h : b.WF) (len : ℕ) :
    b.size ≤ (b.ensureWriteableBytes len).size ∧
      (b.ensureWriteableBytes len).size ≤
        max b.size (kCheapPrepend + 2 * (b.readableBytes + len)) := by
  obtain ⟨hc, hr, hw⟩ := h
  unfold Buffer.ensureWriteableBytes
  split
  · next hlt =>
    unfold Buffer.makeSpace
    split
    · next hgrow =>
      have hsize : b.buffer_.length ≤ b.writerIndex_ + len := by
        simp only [writableBytes] at hlt
        omega
      simp only [size, length_resize hsize]
      simp only [writableBytes, prependableBytes] at hlt hgrow
      simp only [readableBytes]
      omega
    · simp only [size, Buffer.slide, length_copyForward]
      omega
  · simp only [size]
    omega

theorem size_filled (h : b.WF) {d : List Byte} (hd : b.writableBytes ≤ d.length) :
    (b.filled d).size = b.size := h.length_filled hd

theorem size_readFd_fits (h : b.WF) {d : List Byte} (hd : d.length ≤ b.writableBytes) (e : ℕ) :
    (b.readFd e (.delivered d)).buf.size = b.size := by
  have hw := h.writer_le
  rw [readFd_of_le hd]
  apply length_overlay
  simp only [writableBytes] at hd
  omega

theorem size_ensureWriteableBytes_full (h : b.WF) (hfull : b.writerIndex_ = b.size) {len : ℕ}
    (hlen : 0 < len) : (b.ensureWriteableBytes len).size =
      if len ≤ b.readerIndex_ - kCheapPrepend then b.size else b.size + len := by
  obtain ⟨hc, hr, hw⟩ := h
  have hnone : b.writableBytes = 0 := by
    rw [writableBytes, hfull, size, Nat.sub_self]
  rw [Buffer.ensureWriteableBytes, if_pos (hnone ▸ hlen), Buffer.makeSpace, hnone, Nat.zero_add,
    prependableBytes]
  by_cases hroom : len ≤ b.readerIndex_ - kCheapPrepend
  · rw [if_neg (Nat.not_lt.mpr hroom), if_pos hroom]
    exact length_copyForward
  · rw [if_pos (Nat.lt_of_not_le hroom), if_neg hroom, size, hfull]
    exact length_resize (Nat.le_add_right _ _)

theorem size_readFd_spills (h : b.WF) {d : List Byte} (hd : ¬ d.length ≤ b.writableBytes)
    (hk : d.length ≤ b.offeredBytes) (e : ℕ) : (b.readFd e (.delivered d)).buf.size =
      if d.length - b.writableBytes ≤ b.readerIndex_ - kCheapPrepend then b.size
      else b.size + (d.length - b.writableBytes) := by
  have hle := Nat.le_of_not_le hd
  have hf := (h.filled hle).1
  have hsize := h.size_filled hle
  rw [h.readFd_overflow hd hk, hf.size_append, List.length_drop,
    hf.size_ensureWriteableBytes_full hsize.symm (by omega), hsize]
  rfl

theorem size_act (h : b.WF) {a : Act} {c : Buffer} (ha : b.act a = some c) :
    c.WF ∧ (b.request a = none ∧ c.size = b.size ∨
      ∃ p, b.request a = some p ∧ p.1.WF ∧ p.1.size = b.size ∧
        c.size = (p.1.ensureWriteableBytes p.2).size) := by
  cases a with
  | op o =>
    cases o with
    | append data =>
      obtain rfl := Option.some.inj ha
      exact ⟨(h.append data).1, Or.inr ⟨_, rfl, h, rfl, h.size_append data⟩⟩
    | ensureWriteableBytes len =>
      obtain rfl := Option.some.inj ha
      exact ⟨(h.ensureWriteableBytes len).1, Or.inr ⟨_, rfl, h, rfl, rfl⟩⟩
    | retrieve len =>
      obtain rfl := Option.some.inj ha
      exact ⟨h.retrieve len, Or.inl ⟨rfl, size_retrieve len⟩⟩
    | retrieveAll =>
      obtain rfl := Option.some.inj ha
      exact ⟨h.retrieveAll, Or.inl ⟨rfl, rfl⟩⟩
    | retrieveAsString len =>
      obtain rfl := step_retrieveAsString len ha
      exact ⟨h.retrieve len, Or.inl ⟨rfl, size_retrieve len⟩⟩
    | retrieveAllAsString =>
      obtain rfl := step_retrieveAsString b.readableBytes ha
      exact ⟨h.retrieve _, Or.inl ⟨rfl, size_retrieve _⟩⟩
  | readFd r =>
    simp only [act, Option.ite_none_right_eq_some, Option.some.injEq] at ha
    obtain ⟨hk, rfl⟩ := ha
    cases r with
    | failed errno => exact ⟨h, Or.inl ⟨rfl, rfl⟩⟩
    | delivered d =>
      refine ⟨(h.readFd_delivered hk 0).1, ?_⟩
      by_cases hd : d.length ≤ b.writableBytes
      · exact Or.inl ⟨if_pos hd, h.size_readFd_fits hd 0⟩
      · have hle := Nat.le_of_not_le hd
        obtain ⟨hf, -⟩ := h.filled hle
        refine Or.inr ⟨_, if_neg hd, hf, h.size_filled hle, ?_⟩
        rw [h.readFd_overflow hd hk, hf.size_append, List.length_drop]

theorem size_le_act (h : b.WF) {a : Act} {c : Buffer} (ha : b.act a = some c) :
    c.WF ∧ b.size ≤ c.size := by
  obtain ⟨hw, ⟨-, hsize⟩ | ⟨p, -, hp, hpsize, hsize⟩⟩ := h.size_act ha
  · exact ⟨hw, hsize.ge⟩
  · have hge := (hp.size_ensureWriteableBytes p.2).1
    rw [hpsize, ← hsize] at hge
    exact ⟨hw, hge⟩

theorem size_mono (h : b.WF) {as : List Act} {c : Buffer} (hr : run act b as = some c) :
    b.size ≤ c.size := by
  apply run_relation (I := WF) (Q := fun c d ↦ c.size ≤ d.size) ?_ ?_ ?_ h hr
  · exact fun c ↦ le_rfl
  · exact fun c d e ↦ le_trans
  · exact fun c a d hc ha ↦ hc.size_le_act ha

end WF

end Buffer

open Buffer

structure Gauge where
  buf : Buffer
  peak : ℕ

namespace Gauge

def ofSize (initialSize : ℕ) : Gauge := ⟨.ofSize initialSize, 0⟩

def step (g : Gauge) (a : Act) : Option Gauge :=
  (g.buf.act a).map fun b ↦ ⟨b, max g.peak (((g.buf.request a).map occupancy).getD 0)⟩

structure Bounded (initialSize : ℕ) (g : Gauge) : Prop where
  wf : g.buf.WF
  size_le : g.buf.size ≤ max (kCheapPrepend + initialSize) (kCheapPrepend + 2 * g.peak)

variable {initialSize : ℕ} {g u : Gauge} {a : Act}

theorem ofSize_bounded (initialSize : ℕ) : (ofSize initialSize).Bounded initialSize :=
  ⟨ofSize_wf initialSize, by simp [ofSize, Buffer.ofSize, Buffer.size]⟩

theorem step_size (h : g.buf.WF) (hs : g.step a = some u) :
    u.buf.WF ∧ (u.buf.size = g.buf.size ∧ u.peak = g.peak ∨
      ∃ occupied, u.peak = max g.peak occupied ∧
        u.buf.size ≤ max g.buf.size (kCheapPrepend + 2 * occupied)) := by
  obtain ⟨b, hb, rfl⟩ := Option.map_eq_some_iff.mp hs
  obtain ⟨hw, ⟨hnone, hsize⟩ | ⟨p, hp, hpw, hpsize, hsize⟩⟩ := h.size_act hb
  · refine ⟨hw, Or.inl ⟨hsize, ?_⟩⟩
    simp [hnone]
  · have hle := (hpw.size_ensureWriteableBytes p.2).2
    rw [hpsize, ← hsize] at hle
    refine ⟨hw, Or.inr ⟨occupancy p, ?_, hle⟩⟩
    simp [hp]

theorem size_mono (h : g.buf.WF) (hs : g.step a = some u) : g.buf.size ≤ u.buf.size := by
  obtain ⟨b, hb, rfl⟩ := Option.map_eq_some_iff.mp hs
  exact (h.size_le_act hb).2

theorem Bounded.step (h : g.Bounded initialSize) (hs : g.step a = some u) :
    u.Bounded initialSize := by
  obtain ⟨hw, hle⟩ := h
  obtain ⟨hw', ⟨hsize, hpeak⟩ | ⟨occupied, hpeak, hsize⟩⟩ := step_size hw hs
  · refine ⟨hw', ?_⟩
    rw [hsize, hpeak]
    exact hle
  · refine ⟨hw', ?_⟩
    rw [hpeak]
    omega

/-- Consumed space does not accumulate: the vector stays below twice the largest
occupancy it was asked for, and it never shrinks. -/
theorem size_bounded {as : List Act} (h : run step (ofSize initialSize) as = some g) :
    g.buf.size ≤ max (kCheapPrepend + initialSize) (kCheapPrepend + 2 * g.peak) ∧
      ∀ a u, g.step a = some u → g.buf.size ≤ u.buf.size := by
  have hb : g.Bounded initialSize :=
    run_invariant (fun _ _ _ hg hs ↦ hg.step hs) (ofSize_bounded initialSize) h
  exact ⟨hb.size_le, fun a u hs ↦ size_mono hb.wf hs⟩

theorem size_bounded_grown :
    ∃ g, run step (ofSize 4) [.op (.append [1, 2, 3, 4]), .op (.retrieve 2),
        .op (.ensureWriteableBytes 3)] = some g ∧
      (g.buf.size = 15 ∧ g.peak = 5) ∧
      g.buf.size ≤ max (kCheapPrepend + 4) (kCheapPrepend + 2 * g.peak) := by
  obtain ⟨g, hg, hsize⟩ := Option.map_eq_some_iff.mp (show
    (run step (ofSize 4) [.op (.append [1, 2, 3, 4]), .op (.retrieve 2),
      .op (.ensureWriteableBytes 3)]).map (fun g ↦ (g.buf.size, g.peak)) = some (15, 5) by
    decide +kernel)
  exact ⟨g, hg, Prod.mk.inj hsize, (size_bounded hg).1⟩

end Gauge

end Mymuduo
