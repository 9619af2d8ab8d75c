import Mymuduo.BufferIO
import Mymuduo.Poller

namespace Mymuduo

inductive StateE
  | kDisconnected
  | kConnecting
  | kConnected
  | kDisconnecting
  deriving DecidableEq

def EWOULDBLOCK : ℕ := 11
def EPIPE : ℕ := 32
def ECONNRESET : ℕ := 104

/-- A message is given up after a failed `write` on what `errno` is once `LOG_ERROR` has run. -/
def WriteResult.isFault (errno : ℕ) : WriteResult → Bool
  | .accepted _ => false
  | .failed code => code != EWOULDBLOCK && (errno == EPIPE || errno == ECONNRESET)

def WriteResult.taken : WriteResult → ℕ
  | .accepted n => n
  | .failed _ => 0

inductive Notice
  | writeComplete
  | highWaterMark (len : ℕ)
  deriving DecidableEq

/-- `reg` is `channel_` with its poller; the two flags say which callbacks are set. -/
structure TcpConnection where
  state_ : StateE
  reg : Registration Unit
  writeCompleteCallback_ : Bool
  highWaterMarkCallback_ : Bool
  highWaterMark_ : ℕ
  inputBuffer_ : Buffer
  outputBuffer_ : Buffer

namespace TcpConnection

def ofFd (sockfd : ℕ) (writeComplete highWater : Bool) (mark : ℕ) : TcpConnection :=
  { state_ := .kConnecting, reg := ⟨(), .ofFd sockfd, .empty⟩, writeCompleteCallback_ := writeComplete
    highWaterMarkCallback_ := highWater, highWaterMark_ := mark
    inputBuffer_ := .ofSize Buffer.kInitialSize, outputBuffer_ := .ofSize Buffer.kInitialSize }

variable (c : TcpConnection)

def isWriting : Bool := c.reg.channel.isWriting

def setState (state : StateE) : TcpConnection := { c with state_ := state }

def enableReading : TcpConnection := { c with reg := c.reg.enableReading }
def enableWriting : TcpConnection := { c with reg := c.reg.enableWriting }
def disableWriting : TcpConnection := { c with reg := c.reg.disableWriting }
def disableAll : TcpConnection := { c with reg := c.reg.disableAll }
def remove : TcpConnection := { c with reg := c.reg.remove }

structure Handled where
  conn : TcpConnection
  notice : Option Notice

def writesDirectly : Bool := !c.isWriting && c.outputBuffer_.readableBytes = 0

def nwrote (w : WriteResult) : ℕ := if c.writesDirectly then w.taken else 0

def faultError (w : WriteResult) (errno : ℕ) : Bool := c.writesDirectly && w.isFault errno

def notifyComplete : Option Notice := if c.writeCompleteCallback_ then some .writeComplete else none

def notifyHighWater (remaining : ℕ) : Option Notice :=
  let oldLen := c.outputBuffer_.readableBytes
  if c.highWaterMark_ ≤ oldLen + remaining ∧ oldLen < c.highWaterMark_ ∧ c.highWaterMarkCallback_ then
    some (.highWaterMark (oldLen + remaining))
  else none

def bufferOutput (data : List Byte) : TcpConnection :=
  let c := { c with outputBuffer_ := c.outputBuffer_.append data }
  if c.isWriting then c else c.enableWriting

/-- `sendInLoop` behind its test for `kDisconnected`; `w` answers its `write`, and `errno`
is what its `LOG_ERROR` leaves. -/
def sendInLoop (data : List Byte) (w : WriteResult) (errno : ℕ) : Handled :=
  let nwrote := c.nwrote w
  let remaining := data.length - nwrote
  if c.writesDirectly && w.ret ≥ 0 && remaining = 0 then ⟨c, c.notifyComplete⟩
  else if !c.faultError w errno && 0 < remaining then
    ⟨c.bufferOutput ((data.drop nwrote).take remaining), c.notifyHighWater remaining⟩
  else ⟨c, none⟩

/-- `handleWrite` up to its test for `kDisconnecting`, which it reaches when it
has emptied the buffer. -/
def handleWrite (w : WriteResult) : Handled × Bool :=
  if c.isWriting then
    let r := c.outputBuffer_.writeFd 0 w
    if r.n > 0 then
      let c := { c with outputBuffer_ := r.buf.retrieve r.n.toNat }
      if c.outputBuffer_.readableBytes = 0 then (⟨c.disableWriting, c.notifyComplete⟩, true)
      else (⟨c, none⟩, false)
    else (⟨{ c with outputBuffer_ := r.buf }, none⟩, false)
  else (⟨c, none⟩, false)

inductive Reading
  | message
  | close
  | error
  deriving DecidableEq

def handleRead (r : ReadResult) : TcpConnection × Reading :=
  let r := c.inputBuffer_.readFd 0 r
  ({ c with inputBuffer_ := r.buf },
    if r.n > 0 then .message else if r.n = 0 then .close else .error)

/-- While the connection is open, its channel asks for `EPOLLOUT` exactly as long
as output is buffered. -/
def Synced : Prop := c.isWriting = true ↔ c.outputBuffer_.readable ≠ []

variable {c} {data : List Byte} {w : WriteResult} {errno : ℕ}

@[simp] theorem isWriting_enableReading : c.enableReading.isWriting = c.isWriting :=
  Registration.isWriting_enableReading c.reg

@[simp] theorem isWriting_enableWriting : c.enableWriting.isWriting = true :=
  Registration.isWriting_enableWriting c.reg

@[simp] theorem isWriting_disableWriting : c.disableWriting.isWriting = false :=
  Registration.isWriting_disableWriting c.reg

@[simp] theorem isWriting_disableAll : c.disableAll.isWriting = false :=
  Registration.isWriting_disableAll c.reg

@[simp] theorem isWriting_remove : c.remove.isWriting = c.isWriting :=
  Registration.isWriting_remove c.reg

@[simp] theorem isWriting_setState (state : StateE) : (c.setState state).isWriting = c.isWriting := rfl

@[simp] theorem isWriting_bufferOutput : (c.bufferOutput data).isWriting = true := by
  unfold bufferOutput
  simp only
  split
  · assumption
  · exact isWriting_enableWriting

@[simp] theorem outputBuffer_bufferOutput :
    (c.bufferOutput data).outputBuffer_ = c.outputBuffer_.append data := by
  unfold bufferOutput
  simp only
  split <;> rfl

@[simp] theorem state_bufferOutput : (c.bufferOutput data).state_ = c.state_ := by
  unfold bufferOutput
  simp only
  split <;> rfl

theorem state_sendInLoop :
    (c.sendInLoop data w errno).conn.state_ = c.state_ := by
  simp only [sendInLoop]
  split
  · rfl
  · split
    · exact state_bufferOutput
    · rfl

theorem state_handleWrite :
    (c.handleWrite w).1.conn.state_ = c.state_ := by
  simp only [handleWrite]
  split
  · split
    · split <;> rfl
    · rfl
  · rfl

theorem reg_sendInLoop :
    (c.sendInLoop data w errno).conn.reg = c.reg ∨
      (c.sendInLoop data w errno).conn.reg = c.reg.enableWriting := by
  simp only [sendInLoop, bufferOutput]
  split
  · exact Or.inl rfl
  · split
    · split
      · exact Or.inl rfl
      · exact Or.inr rfl
    · exact Or.inl rfl

theorem reg_handleWrite : (c.handleWrite w).1.conn.reg = c.reg ∨
    c.isWriting = true ∧ (c.handleWrite w).1.conn.reg = c.reg.disableWriting := by
  simp only [handleWrite]
  split
  · next hw =>
    split
    · split
      · exact Or.inr ⟨hw, rfl⟩
      · exact Or.inl rfl
    · exact Or.inl rfl
  · exact Or.inl rfl

theorem writesDirectly_iff (h : c.outputBuffer_.WF) :
    c.writesDirectly = true ↔ c.isWriting = false ∧ c.outputBuffer_.readable = [] := by
  simp [writesDirectly, h.readable_eq_nil]

theorem nwrote_le (hw : w.Answers data.length) : c.nwrote w ≤ data.length := by
  unfold nwrote
  split
  · cases w with
    | accepted n => exact hw.1
    | failed errno => exact Nat.zero_le _
  · exact Nat.zero_le _

theorem nwrote_of_faultError (hf : c.faultError w errno = true) : c.nwrote w = 0 := by
  cases w with
  | accepted n => simp [faultError, WriteResult.isFault] at hf
  | failed code => simp [nwrote, WriteResult.taken]

theorem faultError_iff : c.faultError w errno = true ↔
    c.writesDirectly = true ∧ w.ret < 0 ∧ w.errno ≠ EWOULDBLOCK ∧
      (errno = EPIPE ∨ errno = ECONNRESET) := by
  cases w with
  | accepted n =>
    have hret : ¬ (WriteResult.accepted n).ret < 0 := Int.not_lt.mpr (Int.natCast_nonneg n)
    simp [faultError, WriteResult.isFault, hret]
  | failed code => simp [faultError, WriteResult.isFault, WriteResult.ret, WriteResult.errno]

/-- What `sendInLoop` does with the bytes: a prefix goes to the kernel, the rest
behind what is buffered. -/
inductive Sends (c : TcpConnection) (data : List Byte) (w : WriteResult) (errno : ℕ) :
    TcpConnection → Prop
  | faulted (hf : c.faultError w errno = true) : Sends c data w errno c
  | finished (hf : c.faultError w errno = false) (hn : c.nwrote w = data.length) :
      Sends c data w errno c
  | buffered (hf : c.faultError w errno = false) (hlt : c.nwrote w < data.length) :
      Sends c data w errno (c.bufferOutput (data.drop (c.nwrote w)))

theorem sendInLoop_sends (hw : w.Answers data.length) :
    Sends c data w errno (c.sendInLoop data w errno).conn := by
  have hn := nwrote_le (c := c) hw
  have hret : w.ret ≥ 0 → c.faultError w errno = false := by
    cases w <;> simp [faultError, WriteResult.isFault, WriteResult.ret]
  simp only [sendInLoop]
  split
  · next hcomplete =>
    simp only [Bool.and_eq_true, decide_eq_true_eq] at hcomplete
    exact .finished (hret hcomplete.1.2) (by omega)
  · split
    · next hbuffer =>
      simp only [Bool.and_eq_true, Bool.not_eq_true', decide_eq_true_eq] at hbuffer
      rw [List.take_of_length_le (by simp)]
      exact .buffered hbuffer.1 (by omega)
    · next hbuffer =>
      cases hf : c.faultError w errno with
      | true => exact .faulted hf
      | false =>
        simp only [hf, Bool.not_false, Bool.true_and, decide_eq_true_eq] at hbuffer
        exact .finished hf (by omega)

namespace Sends

variable {d : TcpConnection} (hs : Sends c data w errno d)
include hs

theorem stream (h : c.outputBuffer_.WF) (hf : c.faultError w errno = false) :
    data.take (c.nwrote w) ++ d.outputBuffer_.readable = c.outputBuffer_.readable ++ data := by
  have hdirect : 0 < c.nwrote w → c.outputBuffer_.readable = [] := by
    intro hpos
    by_cases hd : c.writesDirectly = true
    · exact ((writesDirectly_iff h).mp hd).2
    · simp [nwrote, hd] at hpos
  cases hs with
  | faulted hft => simp [hf] at hft
  | finished _ hn =>
    by_cases hpos : 0 < c.nwrote w
    · simp [hdirect hpos, hn]
    · have hnil : data = [] := List.eq_nil_of_length_eq_zero (by omega)
      simp [hnil]
  | buffered _ hlt =>
    rw [outputBuffer_bufferOutput, h.readable_append]
    by_cases hpos : 0 < c.nwrote w
    · simp [hdirect hpos]
    · simp [Nat.eq_zero_of_not_pos hpos]

theorem eq_of_faulted (hf : c.faultError w errno = true) : d = c := by
  cases hs with
  | faulted => rfl
  | finished hn => simp [hf] at hn
  | buffered hn => simp [hf] at hn

theorem wf (h : c.outputBuffer_.WF) : d.outputBuffer_.WF := by
  cases hs with
  | faulted | finished => exact h
  | buffered => simpa only [outputBuffer_bufferOutput] using (h.append _).1

theorem synced (h : c.outputBuffer_.WF) (hc : c.Synced) : d.Synced := by
  cases hs with
  | faulted | finished => exact hc
  | buffered _ hlt =>
    have hne : data.drop (c.nwrote w) ≠ [] := by simpa using hlt
    simp [Synced, h.readable_append, hne]

end Sends

/-- What `handleWrite` does: nothing, or the kernel takes bytes off the front,
in part or all of them. -/
inductive Writes (c : TcpConnection) (w : WriteResult) : Handled × Bool → Prop
  | idle (hw : c.isWriting = false ∨ w.taken = 0) : Writes c w (⟨c, none⟩, false)
  | part (hw : c.isWriting = true) (hlt : w.taken < c.outputBuffer_.readable.length) :
      Writes c w (⟨{ c with outputBuffer_ := c.outputBuffer_.retrieve w.taken }, none⟩, false)
  | all (hw : c.isWriting = true) (hpos : 0 < w.taken)
      (heq : w.taken = c.outputBuffer_.readable.length) :
      Writes c w (⟨({ c with outputBuffer_ := c.outputBuffer_.retrieve w.taken } :
        TcpConnection).disableWriting, c.notifyComplete⟩, true)

theorem handleWrite_writes (h : c.outputBuffer_.WF)
    (hw : c.isWriting = true → w.Answers c.outputBuffer_.readableBytes) :
    Writes c w (c.handleWrite w) := by
  by_cases hwr : c.isWriting = true
  · have hans := hw hwr
    simp only [handleWrite, if_pos hwr, Buffer.writeFd_n hans]
    cases w with
    | failed errno => exact .idle (Or.inr rfl)
    | accepted n =>
      have hle : n ≤ c.outputBuffer_.readable.length := h.length_readable.symm ▸ hans.1
      have hrest : (c.outputBuffer_.retrieve n).readableBytes =
          c.outputBuffer_.readable.length - n := by
        rw [← (h.retrieve n).length_readable, h.readable_retrieve, List.length_drop]
      by_cases hpos : 0 < n
      · have hret : (WriteResult.accepted n).ret > 0 := by simpa [WriteResult.ret] using hpos
        rw [if_pos hret]
        simp only [Buffer.writeFd, WriteResult.ret, Int.toNat_natCast, hrest]
        by_cases hall : n = c.outputBuffer_.readable.length
        · rw [if_pos (by omega)]
          exact .all hwr hpos hall
        · rw [if_neg (by omega)]
          exact .part hwr (show n < _ by omega)
      · have hret : ¬ (WriteResult.accepted n).ret > 0 := by simpa [WriteResult.ret] using hpos
        rw [if_neg hret]
        exact .idle (Or.inr (Nat.eq_zero_of_not_pos hpos))
  · simp only [handleWrite, if_neg hwr]
    exact .idle (Or.inl (by simpa using hwr))

namespace Writes

variable {r : Handled × Bool} (hw : Writes c w r)
include hw

theorem stream (h : c.outputBuffer_.WF) (hwr : c.isWriting = true) :
    c.outputBuffer_.readable.take w.taken ++ r.1.conn.outputBuffer_.readable =
      c.outputBuffer_.readable := by
  cases hw with
  | idle hidle =>
    rcases hidle with hn | hn
    · simp [hwr] at hn
    · simp [hn]
  | part => rw [h.readable_retrieve, List.take_append_drop]
  | all => exact (congrArg _ (h.readable_retrieve _)).trans (List.take_append_drop ..)

theorem eq_of_not_writing (hwr : c.isWriting = false) : r.1.conn = c := by
  cases hw with
  | idle => rfl
  | part hn => simp [hwr] at hn
  | all hn => simp [hwr] at hn

theorem wf (h : c.outputBuffer_.WF) : r.1.conn.outputBuffer_.WF := by
  cases hw with
  | idle => exact h
  | part | all => exact h.retrieve _

theorem synced (h : c.outputBuffer_.WF) (hc : c.Synced) : r.1.conn.Synced := by
  cases hw with
  | idle => exact hc
  | part hwr hlt =>
    have hne : (c.outputBuffer_.retrieve w.taken).readable ≠ [] := by
      simpa [h.readable_retrieve] using hlt
    exact iff_of_true hwr hne
  | all hwr hpos heq =>
    have hnil : (c.outputBuffer_.retrieve w.taken).readable = [] := by
      simp [h.readable_retrieve, heq]
    exact iff_of_false (by simp) (not_not.mpr hnil)

end Writes

end TcpConnection

end Mymuduo
