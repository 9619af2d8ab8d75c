import Mymuduo.Buffer64IO

namespace Mymuduo

open Foundation.Machine Foundation.Cells

namespace Buffer64

inductive Op
  | append (data : List Byte)
  | ensureWriteableBytes (len : UInt64)
  | retrieve (len : UInt64)
  | retrieveAll
  | retrieveAsString (len : UInt64)
  | retrieveAllAsString
  | readFd (r : ReadResult)

variable (b : Buffer64)

/-- An operation that throws leaves a buffer that can be used on. -/
def step : Op → Option Buffer64
  | .append data => if data.length < 2 ^ 64 then some (b.append data).buf else none
  | .ensureWriteableBytes len => some (b.ensureWriteableBytes len).buf
  | .retrieve len => some (b.retrieve len)
  | .retrieveAll => some b.retrieveAll
  | .retrieveAsString len => (b.retrieveAsString len).map (·.1)
  | .retrieveAllAsString => b.retrieveAllAsString.map (·.1)
  | .readFd r =>
    if r.bytes.length ≤ (b.offered.map (·.iov_len)).sum then some (b.readFd 0 r).buf else none

def request : Op → Option (Buffer64 × UInt64)
  | .append data => some (b, .ofNat data.length)
  | .ensureWriteableBytes len => some (b, len)
  | .retrieve _ | .retrieveAll | .retrieveAsString _ | .retrieveAllAsString => none
  | .readFd (.failed _) => none
  | .readFd (.delivered d) =>
    let n := Int64.ofInt d.length
    if n.toUInt64 ≤ b.writableBytes then none
    else some (b.filled d, n.toUInt64 - b.writableBytes)

/-- The constructor throws, or it makes a buffer in order with the room it was asked for. -/
def Builds (initialSize : UInt64) : Prop :=
  ∀ b, ofSize initialSize = some b → b.WF ∧ b.writableBytes = initialSize

/-- A request throws and leaves the buffer as it was, or it makes the room it was asked
for, with the indices in order and the content unchanged. -/
def Honours (len : UInt64) : Prop :=
  (b.ensureWriteableBytes len).thrown = true ∧ (b.ensureWriteableBytes len).buf = b ∨
    (b.ensureWriteableBytes len).thrown = false ∧ (b.ensureWriteableBytes len).buf.WF ∧
      (b.ensureWriteableBytes len).buf.readable = b.readable ∧
      len ≤ (b.ensureWriteableBytes len).buf.writableBytes

def Fits (len : UInt64) : Prop := b.writerIndex_.toNat + len.toNat < 2 ^ 64

def Requests (P : Buffer64 → UInt64 → Prop) (b : Buffer64) (o : Op) : Prop :=
  ∀ c len, b.request o = some (c, len) → P c len

variable {b}

theorem builds_iff {initialSize : UInt64} :
    Builds initialSize ↔ kCheapPrepend.toNat + initialSize.toNat < 2 ^ 64 := by
  have hadd := UInt64.toNat_add kCheapPrepend initialSize
  have hinit := initialSize.toNat_lt
  rw [toNat_kCheapPrepend] at hadd ⊢
  simp only [Buffer.kCheapPrepend] at hadd ⊢
  constructor
  · intro hbuilds
    by_contra hwraps
    obtain ⟨v, hv, hsize⟩ := CharVector.ofSize_of_lt (n := kCheapPrepend + initialSize) (by omega)
    have hsome : ofSize initialSize = some ⟨v, kCheapPrepend, kCheapPrepend⟩ := by
      rw [ofSize, hv]
      rfl
    have hle : kCheapPrepend ≤ v.size := (hbuilds _ hsome).1.writer_le
    rw [hsize, UInt64.le_iff_toNat_le, toNat_kCheapPrepend] at hle
    simp only [Buffer.kCheapPrepend] at hle
    omega
  · intro hfits b hb
    obtain ⟨v, hv, rfl⟩ := Option.map_eq_some_iff.mp hb
    have hsize := CharVector.size_of_ofSize hv
    have hle : kCheapPrepend ≤ v.size := by
      rw [hsize, UInt64.le_iff_toNat_le, toNat_kCheapPrepend]
      simp only [Buffer.kCheapPrepend]
      omega
    refine ⟨⟨UInt64.le_refl _, UInt64.le_refl _, hle⟩, ?_⟩
    rw [writableBytes, hsize, UInt64.add_comm]
    exact UInt64.add_sub_cancel _ _

theorem WF.honours_iff (h : b.WF) {len : UInt64} : b.Honours len ↔ b.Fits len := by
  rw [Fits]
  constructor
  · intro hh
    by_contra hwraps
    obtain ⟨hthrown, hwf⟩ := h.ensureWriteableBytes_wraps (Nat.le_of_not_lt hwraps)
    rcases hh with ⟨ht, -⟩ | ⟨-, hw, -⟩
    · rw [hthrown] at ht
      exact absurd ht (by decide)
    · exact hwf hw
  · intro hsum
    have hmakes := h.ensureWriteableBytes hsum
    rw [Honours]
    generalize b.ensureWriteableBytes len = l at hmakes
    cases hmakes with
    | refused => exact Or.inl ⟨rfl, rfl⟩
    | done c hc =>
      obtain ⟨hw, hread, hroom⟩ := (wf_iff.mp h).ensureWriteableBytes len.toNat
      rw [← hc] at hw hread hroom
      have hcw := wf_iff.mpr hw
      refine Or.inr ⟨rfl, hcw, hread, ?_⟩
      rw [UInt64.le_iff_toNat_le, hcw.toNat_writableBytes]
      exact hroom

theorem step_retrieveAsString (len : UInt64) {c : Buffer64}
    (h : b.step (.retrieveAsString len) = some c) : c = b.retrieve len := by
  obtain ⟨⟨d, out⟩, hd, rfl⟩ := Option.map_eq_some_iff.mp h
  simp only [retrieveAsString, Option.ite_none_left_eq_some, Option.some.injEq,
    Prod.mk.injEq] at hd
  exact hd.2.1.symm

theorem WF.step (h : b.WF) {o : Op} {c : Buffer64} (hreq : Requests Fits b o)
    (hs : b.step o = some c) : c.WF := by
  have hw := wf_iff.mp h
  cases o with
  | append data =>
    simp only [Buffer64.step, Option.ite_none_right_eq_some, Option.some.injEq] at hs
    obtain ⟨hlen, rfl⟩ := hs
    have hsum := hreq _ _ rfl
    rw [Fits, UInt64.toNat_ofNat_of_lt' hlen] at hsum
    exact (h.append hlen hsum).wf h (hw.append data).1
  | ensureWriteableBytes len =>
    obtain rfl := Option.some.inj hs
    exact (h.ensureWriteableBytes (hreq _ _ rfl)).wf h (hw.ensureWriteableBytes len.toNat).1
  | retrieve len =>
    obtain rfl := Option.some.inj hs
    exact (h.retrieve len).1
  | retrieveAll =>
    obtain rfl := Option.some.inj hs
    exact h.retrieveAll.1
  | retrieveAsString len =>
    obtain rfl := step_retrieveAsString len hs
    exact (h.retrieve len).1
  | retrieveAllAsString =>
    obtain rfl := step_retrieveAsString b.readableBytes hs
    exact (h.retrieve _).1
  | readFd r =>
    simp only [Buffer64.step, Option.ite_none_right_eq_some, Option.some.injEq] at hs
    obtain ⟨hk, rfl⟩ := hs
    rw [h.offered_sum] at hk
    cases r with
    | failed errno =>
      rw [readFd_failed]
      exact h
    | delivered d =>
      have hd : d.length ≤ b.toBuffer.offeredBytes := hk
      obtain ⟨c, l, hc, hl, hread⟩ := h.readFd_makes hd 0
      rw [hread]
      exact hl.wf hc (hw.readFd_delivered hd 0).1

theorem WF.request (h : b.WF) {o : Op} {c : Buffer64} {len : UInt64}
    (hr : b.request o = some (c, len)) : c.WF := by
  cases o with
  | append | ensureWriteableBytes =>
    obtain ⟨rfl, -⟩ := Prod.mk.inj (Option.some.inj hr)
    exact h
  | retrieve | retrieveAll | retrieveAsString | retrieveAllAsString => simp [Buffer64.request] at hr
  | readFd r =>
    cases r with
    | failed => simp [Buffer64.request] at hr
    | delivered d =>
      simp only [Buffer64.request, Option.ite_none_left_eq_some, Option.some.injEq,
        Prod.mk.injEq] at hr
      obtain ⟨hlt, rfl, -⟩ := hr
      apply h.filled
      rw [UInt64.le_iff_toNat_le, h.toNat_writableBytes, Int64.ofInt_eq_ofNat,
        Int64.toUInt64_ofNat', UInt64.toNat_ofNat'] at hlt
      have hmod := Nat.mod_le d.length (2 ^ 64)
      omega

theorem WF.requests_iff (h : b.WF) {o : Op} : Requests Honours b o ↔ Requests Fits b o := by
  constructor
  · intro hreq c len hr
    exact (h.request hr).honours_iff.mp (hreq c len hr)
  · intro hreq c len hr
    exact (h.request hr).honours_iff.mpr (hreq c len hr)

def Promised (initialSize : UInt64) (os : List Op) : Prop :=
  Builds initialSize ∧ ∀ b, ofSize initialSize = some b → Along step (Requests Honours) b os

def Unwrapped (initialSize : UInt64) (os : List Op) : Prop :=
  kCheapPrepend.toNat + initialSize.toNat < 2 ^ 64 ∧
    ∀ b, ofSize initialSize = some b → Along step (Requests Fits) b os

/-- The arithmetic of the buffer is right in exactly the runs in which neither
`kCheapPrepend + initialSize` nor a `writerIndex_ + len` wraps. -/
theorem limits_kept (initialSize : UInt64) (os : List Op) :
    Promised initialSize os ↔ Unwrapped initialSize os := by
  rw [Promised, Unwrapped, builds_iff]
  apply and_congr_right
  intro hinit
  apply forall₂_congr
  intro b hb
  have hwf := (builds_iff.mpr hinit b hb).1
  exact along_congr (I := WF) (fun b o c hb hh hs ↦ hb.step (hb.requests_iff.mp hh) hs)
    (fun b o hb ↦ hb.requests_iff) hwf

def negativePrepend : UInt64 := 0xFFFFFFFFFFFFFFF8

theorem not_limits_kept : ¬ Promised negativePrepend [] ∧
    ¬ Promised 4 [.ensureWriteableBytes negativePrepend] := by
  constructor
  · intro h
    exact absurd (builds_iff.mp h.1) (by decide)
  · intro h
    obtain ⟨hbuilds, hrun⟩ := h
    obtain ⟨v, hv, -⟩ := CharVector.ofSize_of_lt (n := kCheapPrepend + 4) (by decide)
    have hb : ofSize 4 = some ⟨v, kCheapPrepend, kCheapPrepend⟩ := by
      rw [ofSize, hv]
      rfl
    have hhonours := (hrun _ hb).1 _ _ rfl
    exact absurd ((hbuilds _ hb).1.honours_iff.mp hhonours)
      (show ¬ kCheapPrepend.toNat + negativePrepend.toNat < 2 ^ 64 by decide)

def Op.toAct : Op → Buffer.Act
  | .append data => .op (.append data)
  | .ensureWriteableBytes len => .op (.ensureWriteableBytes len.toNat)
  | .retrieve len => .op (.retrieve len.toNat)
  | .retrieveAll => .op .retrieveAll
  | .retrieveAsString len => .op (.retrieveAsString len.toNat)
  | .retrieveAllAsString => .op .retrieveAllAsString
  | .readFd r => .readFd r

theorem Makes.exact {u : Buffer} {l : Left} (h : Makes b u l) (hu : u.size < 2 ^ 63) :
    l.buf.toBuffer = u := by
  cases h with
  | done c hc => exact hc
  | refused hge => exact absurd hu hge.not_gt

theorem WF.retrieveAsString_exact (h : b.WF) (len : UInt64) {u : Buffer}
    (hs : b.toBuffer.step (.retrieveAsString len.toNat) = some u) :
    ∃ c, b.step (.retrieveAsString len) = some c ∧ c.toBuffer = u := by
  obtain rfl := Buffer.step_retrieveAsString len.toNat hs
  refine ⟨b.retrieve len, ?_, (h.retrieve len).2⟩
  have hle : ¬ len > b.readableBytes := by
    intro hgt
    rw [gt_iff_lt, UInt64.lt_iff_toNat_lt, h.toNat_readableBytes] at hgt
    simp [Buffer.step, Buffer.exec, Buffer.retrieveAsString, hgt] at hs
  rw [Buffer64.step, retrieveAsString, if_neg hle]
  rfl

theorem WF.step_exact (h : b.WF) {o : Op} {u : Buffer} (hs : b.toBuffer.act o.toAct = some u)
    (hu : u.size < 2 ^ 63) : ∃ c, b.step o = some c ∧ c.toBuffer = u := by
  have hw := wf_iff.mp h
  have hindex : b.writerIndex_.toNat < 2 ^ 63 := hw.writer_le.trans_lt b.length_toBuffer_lt
  cases o with
  | append data =>
    obtain rfl := Option.some.inj hs
    have hend := (hw.append data).1.writer_le
    have hlen : data.length < 2 ^ 63 := by
      simp only [Buffer.append, Buffer.size] at hend hu
      omega
    refine ⟨_, if_pos (by omega), ?_⟩
    exact (h.append (by omega) (by omega)).exact hu
  | ensureWriteableBytes len =>
    obtain rfl := Option.some.inj hs
    have hroom := (hw.ensureWriteableBytes len.toNat).2.2
    have hlen : len.toNat < 2 ^ 63 := by
      simp only [Buffer.writableBytes, Buffer.size] at hroom hu
      omega
    exact ⟨_, rfl, (h.ensureWriteableBytes (by omega)).exact hu⟩
  | retrieve len =>
    obtain rfl := Option.some.inj hs
    exact ⟨_, rfl, (h.retrieve len).2⟩
  | retrieveAll =>
    obtain rfl := Option.some.inj hs
    exact ⟨_, rfl, rfl⟩
  | retrieveAsString len => exact h.retrieveAsString_exact len hs
  | retrieveAllAsString =>
    refine h.retrieveAsString_exact b.readableBytes ?_
    rw [h.toNat_readableBytes]
    exact hs
  | readFd r =>
    simp only [Op.toAct, Buffer.act, Option.ite_none_right_eq_some, Option.some.injEq] at hs
    obtain ⟨hk, rfl⟩ := hs
    refine ⟨_, if_pos (h.offered_sum ▸ hk), ?_⟩
    cases r with
    | failed errno =>
      rw [readFd_failed]
      rfl
    | delivered d =>
      have hd : d.length ≤ b.toBuffer.offeredBytes := hk
      obtain ⟨c, l, -, hl, hread⟩ := h.readFd_makes hd 0
      rw [hread]
      exact hl.exact hu

/-- A run whose vector stays below the limit is the run over unbounded numbers. -/
theorem WF.run_exact (h : b.WF) {os : List Op} {u : Buffer}
    (hr : run Buffer.act b.toBuffer (os.map Op.toAct) = some u) (hu : u.size < 2 ^ 63) :
    ∃ c, run Buffer64.step b os = some c ∧ c.toBuffer = u := by
  induction os generalizing b with
  | nil =>
    obtain rfl : b.toBuffer = u := by simpa using hr
    exact ⟨b, rfl, rfl⟩
  | cons o os ih =>
    obtain ⟨v, hv, hrest⟩ := run_cons.mp hr
    have hvw := ((wf_iff.mp h).size_act hv).1
    obtain ⟨c, hc, rfl⟩ := h.step_exact hv ((hvw.size_mono hrest).trans_lt hu)
    obtain ⟨d, hd, hdu⟩ := ih (wf_iff.mpr hvw) hrest
    exact ⟨d, run_cons.mpr ⟨c, hc, hd⟩, hdu⟩

end Buffer64

end Mymuduo
