import Mymuduo.Foundation.Machine
import Mymuduo.TcpConnection

namespace Mymuduo

open Foundation.Machine

namespace TcpConnection

variable {c : TcpConnection} {data : List Byte} {w : WriteResult} {errno : ℕ}

def Handled.completions (h : Handled) : ℕ := if h.notice = some .writeComplete then 1 else 0

def sendInLoopCall (c : TcpConnection) (data : List Byte) (w : WriteResult) (errno : ℕ) : Handled :=
  if c.state_ = .kDisconnected then ⟨c, none⟩ else c.sendInLoop data w errno

def WritesWhole (c : TcpConnection) (data : List Byte) (w : WriteResult) : Prop :=
  c.state_ ≠ .kDisconnected ∧ c.writesDirectly = true ∧ w = .accepted data.length

def drops (c : TcpConnection) (w : WriteResult) (errno : ℕ) : Bool :=
  c.state_ = .kDisconnected || c.faultError w errno

theorem sendInLoopCall_of_open (h : c.state_ ≠ .kDisconnected) :
    c.sendInLoopCall data w errno = c.sendInLoop data w errno := if_neg h

theorem notifyHighWater_ne (remaining : ℕ) :
    c.notifyHighWater remaining ≠ some .writeComplete := by
  simp only [notifyHighWater]
  split <;> simp

theorem sendInLoop_notice_of_part (hw : w.Answers data.length)
    (h : ¬ (c.writesDirectly = true ∧ w = .accepted data.length)) :
    (c.sendInLoop data w errno).notice ≠ some .writeComplete := by
  have hpart : (c.writesDirectly && w.ret ≥ 0 && data.length - c.nwrote w = 0) = false := by
    cases hd : c.writesDirectly with
    | false => rfl
    | true =>
      cases w with
      | failed errno => simp [WriteResult.ret]
      | accepted n =>
        have hle : n ≤ data.length := hw.1
        have hne : n ≠ data.length := by
          intro hn
          exact h ⟨hd, by rw [hn]⟩
        have hlt : ¬ data.length ≤ n := by omega
        simp [nwrote, hd, WriteResult.taken, Nat.sub_eq_zero_iff_le, hlt]
  simp only [sendInLoop, hpart]
  split
  · simp at *
  · split
    · exact notifyHighWater_ne _
    · simp

theorem sendInLoop_of_whole (hcb : c.writeCompleteCallback_ = true) (hd : c.writesDirectly = true) :
    c.sendInLoop data (.accepted data.length) errno = ⟨c, some .writeComplete⟩ := by
  simp [sendInLoop, hd, nwrote, WriteResult.taken, WriteResult.ret, notifyComplete, hcb]

theorem sendInLoopCall_completions (hcb : c.writeCompleteCallback_ = true)
    (hw : w.Answers data.length) :
    c.WritesWhole data w ∧ (c.sendInLoopCall data w errno).conn = c ∧
        (c.sendInLoopCall data w errno).completions = 1 ∨
      ¬ c.WritesWhole data w ∧ (c.sendInLoopCall data w errno).completions = 0 := by
  by_cases hst : c.state_ = .kDisconnected
  · refine Or.inr ⟨fun h ↦ h.1 hst, ?_⟩
    simp [sendInLoopCall, hst, Handled.completions]
  · rw [sendInLoopCall_of_open hst]
    by_cases h : c.writesDirectly = true ∧ w = .accepted data.length
    · obtain ⟨hd, rfl⟩ := h
      refine Or.inl ⟨⟨hst, hd, rfl⟩, ?_⟩
      simp [sendInLoop_of_whole hcb hd, Handled.completions]
    · refine Or.inr ⟨fun hwhole ↦ h hwhole.2, ?_⟩
      simp [Handled.completions, sendInLoop_notice_of_part hw h]

theorem handleWrite_completions (h : c.outputBuffer_.WF) (hcb : c.writeCompleteCallback_ = true)
    (hw : c.isWriting = true → w.Answers c.outputBuffer_.readableBytes) :
    c.outputBuffer_.readable ≠ [] ∧ (c.handleWrite w).1.conn.outputBuffer_.readable = [] ∧
        (c.handleWrite w).1.completions = 1 ∨
      (c.outputBuffer_.readable = [] ↔ (c.handleWrite w).1.conn.outputBuffer_.readable = []) ∧
        (c.handleWrite w).1.completions = 0 := by
  have hwrites := handleWrite_writes h hw
  generalize c.handleWrite w = r at hwrites
  cases hwrites with
  | idle => exact Or.inr ⟨Iff.rfl, rfl⟩
  | part hwr hlt =>
    refine Or.inr ⟨?_, rfl⟩
    have hne : c.outputBuffer_.readable ≠ [] := by
      intro hnil
      simp [hnil] at hlt
    simp [h.readable_retrieve, hne, hlt]
  | all hwr hpos heq =>
    have hne : c.outputBuffer_.readable ≠ [] := by
      intro hnil
      simp [hnil] at heq
      omega
    refine Or.inl ⟨hne, ?_, ?_⟩
    · simp [disableWriting, h.readable_retrieve, heq]
    · simp [Handled.completions, notifyComplete, hcb]

end TcpConnection

namespace TcpConnection

variable {c d : TcpConnection} {data : List Byte} {w : WriteResult} {errno : ℕ}

theorem Sends.callback_eq (hs : Sends c data w errno d) :
    d.writeCompleteCallback_ = c.writeCompleteCallback_ := by
  cases hs with
  | faulted | finished => rfl
  | buffered =>
    simp only [bufferOutput]
    split <;> rfl

theorem Writes.callback_eq {r : Handled × Bool} (hw : Writes c w r) :
    r.1.conn.writeCompleteCallback_ = c.writeCompleteCallback_ := by
  cases hw with
  | idle | part | all => rfl

theorem drops_of_open (hst : c.state_ ≠ .kDisconnected) : c.drops w errno = c.faultError w errno := by
  simp [drops, hst]

end TcpConnection

/-- A connection with the account of its output: the messages handed over, each marked
as kept or dropped, the bytes that the kernel has accepted and the write-complete
notifications queued. -/
structure Ledger where
  conn : TcpConnection
  handed : List (List Byte × Bool)
  accepted : List Byte
  completions : ℕ

namespace Ledger

inductive Act
  | sendInLoop (data : List Byte) (w : WriteResult) (errno : ℕ)
  | handleWrite (w : WriteResult)
  | setState (state : StateE)
  | enableReading
  | disableAll

def ofConnection (c : TcpConnection) : Ledger := ⟨c, [], [], 0⟩

def kept (l : Ledger) : List Byte := (l.handed.filter (·.2)).flatMap (·.1)

def step (l : Ledger) : Act → Option Ledger
  | .sendInLoop data w errno =>
    if w.Answers data.length then
      let h := l.conn.sendInLoopCall data w errno
      some ⟨h.conn, l.handed ++ [(data, !l.conn.drops w errno)],
        l.accepted ++ if l.conn.state_ = .kDisconnected then [] else data.take (l.conn.nwrote w),
        l.completions + h.completions⟩
    else none
  | .handleWrite w =>
    if l.conn.isWriting = true → w.Answers l.conn.outputBuffer_.readableBytes then
      let h := (l.conn.handleWrite w).1
      some ⟨h.conn, l.handed,
        l.accepted ++ if l.conn.isWriting then l.conn.outputBuffer_.readable.take w.taken else [],
        l.completions + h.completions⟩
    else none
  | .setState state => some { l with conn := l.conn.setState state }
  | .enableReading => some { l with conn := l.conn.enableReading }
  | .disableAll => some { l with conn := l.conn.disableAll }

/-- The invariant of the account. -/
structure Balanced (l : Ledger) : Prop where
  callback : l.conn.writeCompleteCallback_ = true
  wf : l.conn.outputBuffer_.WF
  stream : l.accepted ++ l.conn.outputBuffer_.readable = l.kept
  count : l.completions + (if l.conn.outputBuffer_.readable = [] then 0 else 1) ≤ l.handed.length

variable {l m : Ledger} {a : Act}

theorem kept_snoc {data : List Byte} {b : Bool} (hm : m.handed = l.handed ++ [(data, b)]) :
    m.kept = l.kept ++ if b then data else [] := by
  cases b <;> simp [kept, hm]

inductive Entry (l : Ledger) : Act → Ledger → Prop
  | whole (data : List Byte) (w : WriteResult) (errno : ℕ) (hw : l.conn.WritesWhole data w)
      (hempty : l.conn.outputBuffer_.readable = []) :
      Entry l (.sendInLoop data w errno)
        ⟨l.conn, l.handed ++ [(data, true)], l.accepted ++ data, l.completions + 1⟩
  | quiet (data : List Byte) (w : WriteResult) (errno : ℕ) (hw : ¬ l.conn.WritesWhole data w)
      (c : TcpConnection) (b : Bool) (acc : List Byte) (hwf : c.outputBuffer_.WF)
      (hcb : c.writeCompleteCallback_ = l.conn.writeCompleteCallback_)
      (hstream : acc ++ c.outputBuffer_.readable =
        l.conn.outputBuffer_.readable ++ if b then data else []) :
      Entry l (.sendInLoop data w errno) ⟨c, l.handed ++ [(data, b)], l.accepted ++ acc, l.completions⟩
  | emptied (w : WriteResult) (c : TcpConnection) (hne : l.conn.outputBuffer_.readable ≠ [])
      (hempty : c.outputBuffer_.readable = []) (hwf : c.outputBuffer_.WF)
      (hcb : c.writeCompleteCallback_ = l.conn.writeCompleteCallback_) :
      Entry l (.handleWrite w)
        ⟨c, l.handed, l.accepted ++ l.conn.outputBuffer_.readable, l.completions + 1⟩
  | unfinished (w : WriteResult) (c : TcpConnection) (acc : List Byte)
      (hempty : l.conn.outputBuffer_.readable = [] ↔ c.outputBuffer_.readable = [])
      (hstream : acc ++ c.outputBuffer_.readable = l.conn.outputBuffer_.readable)
      (hwf : c.outputBuffer_.WF) (hcb : c.writeCompleteCallback_ = l.conn.writeCompleteCallback_) :
      Entry l (.handleWrite w) ⟨c, l.handed, l.accepted ++ acc, l.completions⟩
  | other (a : Act) (c : TcpConnection) (hc : c.outputBuffer_ = l.conn.outputBuffer_)
      (hcb : c.writeCompleteCallback_ = l.conn.writeCompleteCallback_)
      (ha : ∀ data w errno, a ≠ .sendInLoop data w errno) (ha' : ∀ w, a ≠ .handleWrite w) :
      Entry l a { l with conn := c }

theorem entry_sendInLoop (hb : l.Balanced) {data : List Byte} {w : WriteResult} {errno : ℕ}
    (h : l.step (.sendInLoop data w errno) = some m) : Entry l (.sendInLoop data w errno) m := by
  simp only [step, Option.ite_none_right_eq_some, Option.some.injEq] at h
  obtain ⟨hw, rfl⟩ := h
  rcases TcpConnection.sendInLoopCall_completions hb.callback hw with
    ⟨hwhole, hconn, hone⟩ | ⟨hpart, hzero⟩
  · obtain ⟨hst, hd, rfl⟩ := hwhole
    have hempty := ((TcpConnection.writesDirectly_iff hb.wf).mp hd).2
    have hkept : l.conn.drops (.accepted data.length) errno = false := by
      simp [TcpConnection.drops_of_open hst, TcpConnection.faultError, WriteResult.isFault]
    have hall : data.take (l.conn.nwrote (.accepted data.length)) = data := by
      simp [TcpConnection.nwrote, hd, WriteResult.taken]
    rw [hconn, hone, hkept, hall, if_neg hst]
    exact .whole data _ errno ⟨hst, hd, rfl⟩ hempty
  · rw [hzero]
    by_cases hst : l.conn.state_ = .kDisconnected
    · refine .quiet data w errno hpart _ _ _ ?_ ?_ ?_
      · simpa [TcpConnection.sendInLoopCall, hst] using hb.wf
      · simp [TcpConnection.sendInLoopCall, hst]
      · simp [TcpConnection.sendInLoopCall, TcpConnection.drops, hst]
    · have hsends : l.conn.Sends data w errno (l.conn.sendInLoop data w errno).conn :=
        TcpConnection.sendInLoop_sends hw
      rw [TcpConnection.sendInLoopCall_of_open hst, TcpConnection.drops_of_open hst, if_neg hst]
      refine .quiet data w errno hpart _ _ _ (hsends.wf hb.wf) hsends.callback_eq ?_
      cases hf : l.conn.faultError w errno with
      | true =>
        rw [TcpConnection.nwrote_of_faultError hf, hsends.eq_of_faulted hf]
        simp
      | false => simpa using hsends.stream hb.wf hf

theorem entry_handleWrite (hb : l.Balanced) {w : WriteResult}
    (h : l.step (.handleWrite w) = some m) : Entry l (.handleWrite w) m := by
  simp only [step, Option.ite_none_right_eq_some, Option.some.injEq] at h
  obtain ⟨hw, rfl⟩ := h
  have hwrites := TcpConnection.handleWrite_writes hb.wf hw
  have hstream : (if l.conn.isWriting then l.conn.outputBuffer_.readable.take w.taken else []) ++
      (l.conn.handleWrite w).1.conn.outputBuffer_.readable = l.conn.outputBuffer_.readable := by
    cases hwr : l.conn.isWriting with
    | true => simpa using hwrites.stream hb.wf hwr
    | false => simp [hwrites.eq_of_not_writing hwr]
  rcases TcpConnection.handleWrite_completions hb.wf hb.callback hw with
    ⟨hne, hempty, hone⟩ | ⟨hempty, hzero⟩
  · rw [hempty, List.append_nil] at hstream
    rw [hone, hstream]
    exact .emptied w _ hne hempty (hwrites.wf hb.wf) hwrites.callback_eq
  · rw [hzero]
    exact .unfinished w _ _ hempty hstream (hwrites.wf hb.wf) hwrites.callback_eq

theorem step_entry (hb : l.Balanced) (h : l.step a = some m) : Entry l a m := by
  cases a with
  | sendInLoop data w errno => exact entry_sendInLoop hb h
  | handleWrite w => exact entry_handleWrite hb h
  | setState | enableReading | disableAll =>
    obtain rfl := Option.some.inj h
    exact .other _ _ rfl rfl (by simp) (by simp)

theorem Balanced.entry (hb : l.Balanced) (h : Entry l a m) : m.Balanced := by
  obtain ⟨hcb, hwf, hstream, hcount⟩ := hb
  cases h with
  | whole data w errno hw hempty =>
    refine ⟨hcb, hwf, ?_, ?_⟩
    · rw [kept_snoc (l := l) rfl, ← hstream, hempty]
      simp
    · simp only [hempty, if_true, List.length_append, List.length_singleton] at hcount ⊢
      omega
  | quiet data w errno hw c b acc hwf' hcb' hs =>
    refine ⟨hcb'.trans hcb, hwf', ?_, ?_⟩
    · rw [kept_snoc (l := l) rfl, List.append_assoc, hs, ← List.append_assoc, hstream]
    · simp only [List.length_append, List.length_singleton]
      split <;> omega
  | emptied w c hne hempty hwf' hcb' =>
    refine ⟨hcb'.trans hcb, hwf', ?_, ?_⟩
    · rw [hempty, List.append_nil, hstream]
      rfl
    · simp only [if_neg hne] at hcount
      simp only [hempty, if_true]
      omega
  | unfinished w c acc hempty hs hwf' hcb' =>
    refine ⟨hcb'.trans hcb, hwf', ?_, ?_⟩
    · rw [List.append_assoc, hs, hstream]
      rfl
    · simpa only [hempty] using hcount
  | other a c hc hcb' =>
    refine ⟨hcb'.trans hcb, ?_, ?_, ?_⟩
    · rwa [hc]
    · rw [hc]
      exact hstream
    · rwa [hc]

theorem ofConnection_balanced (sockfd mark : ℕ) (highWater : Bool) :
    (ofConnection (.ofFd sockfd true highWater mark)).Balanced :=
  ⟨rfl, Buffer.ofSize_wf _, by simp [ofConnection, TcpConnection.ofFd, kept], Nat.le_of_eq (by
    simp [ofConnection, TcpConnection.ofFd])⟩

/-- A notification is queued once where output becomes complete, and nowhere else. -/
theorem completions_of_output {sockfd mark : ℕ} {highWater : Bool} {as : List Act}
    (h : run step (ofConnection (.ofFd sockfd true highWater mark)) as = some l) :
    l.completions + (if l.conn.outputBuffer_.readableBytes = 0 then 0 else 1) ≤ l.handed.length ∧
    ∀ a m, l.step a = some m →
      (m.completions ≠ l.completions →
        m.conn.outputBuffer_.readableBytes = 0 ∧ m.accepted = m.kept) ∧
      (∀ w, a = .handleWrite w → l.conn.outputBuffer_.readableBytes ≠ 0 →
        m.conn.outputBuffer_.readableBytes = 0 → m.completions = l.completions + 1) ∧
      (∀ data w errno, a = .sendInLoop data w errno → l.conn.WritesWhole data w →
        m.completions = l.completions + 1) := by
  have hb : l.Balanced := run_invariant (fun l a m hl hm ↦ hl.entry (step_entry hl hm))
    (ofConnection_balanced sockfd mark highWater) h
  refine ⟨?_, ?_⟩
  · simpa only [hb.wf.readable_eq_nil] using hb.count
  · intro a m hm
    have hentry := step_entry hb hm
    have hb' := hb.entry hentry
    simp only [ne_eq, ← hb.wf.readable_eq_nil, ← hb'.wf.readable_eq_nil]
    have hstream := hb'.stream
    cases hentry with
    | whole data w errno hw hempty =>
      refine ⟨fun _ ↦ ⟨hempty, ?_⟩, ?_, fun _ _ _ _ _ ↦ rfl⟩
      · simpa [hempty] using hstream
      · intro w' hw'
        simp at hw'
    | quiet data w errno hw c b acc hwf' hcb' hs =>
      refine ⟨fun hne ↦ absurd rfl hne, ?_, ?_⟩
      · intro w' hw'
        simp at hw'
      · intro data' w' errno' ha hwhole
        obtain ⟨rfl, rfl, -⟩ := Act.sendInLoop.inj ha
        exact absurd hwhole hw
    | emptied w c hne hempty hwf' hcb' =>
      refine ⟨fun _ ↦ ⟨hempty, ?_⟩, fun _ _ _ _ ↦ rfl, ?_⟩
      · simpa [hempty] using hstream
      · intro data' w' errno' ha
        simp at ha
    | unfinished w c acc hempty hs hwf' hcb' =>
      refine ⟨fun hne ↦ absurd rfl hne, ?_, ?_⟩
      · intro w' _ hne hnil
        exact absurd (hempty.mpr hnil) hne
      · intro data' w' errno' ha
        simp at ha
    | other a c hc hcb' ha ha' =>
      refine ⟨fun hne ↦ absurd rfl hne, ?_, ?_⟩
      · intro w' hw'
        exact absurd hw' (ha' w')
      · intro data' w' errno' hw'
        exact absurd hw' (ha data' w' errno')

theorem completions_of_output_partial :
    ∃ l, run step (ofConnection (.ofFd 7 true false 64))
        [.setState .kConnected, .enableReading, .sendInLoop [1, 2, 3] (.accepted 1) 0,
          .sendInLoop [] (.failed EWOULDBLOCK) EWOULDBLOCK, .handleWrite (.accepted 2)] = some l ∧
      l.completions = 1 ∧
      l.completions + (if l.conn.outputBuffer_.readableBytes = 0 then 0 else 1) ≤
        l.handed.length := by
  obtain ⟨l, hl, hone⟩ := Option.map_eq_some_iff.mp (show
    (run step (ofConnection (.ofFd 7 true false 64))
      [.setState .kConnected, .enableReading, .sendInLoop [1, 2, 3] (.accepted 1) 0,
        .sendInLoop [] (.failed EWOULDBLOCK) EWOULDBLOCK, .handleWrite (.accepted 2)]).map completions = some 1 by
    decide +kernel)
  exact ⟨l, hl, hone, (completions_of_output hl).1⟩

end Ledger

end Mymuduo
