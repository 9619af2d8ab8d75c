import Mymuduo.Foundation.Threshold
import Mymuduo.WriteComplete

namespace Mymuduo

open Foundation.Machine Foundation.Threshold Ledger

namespace Buffer.WF

variable {b : Buffer}

theorem readableBytes_append (h : b.WF) (data : List Byte) :
    (b.append data).readableBytes = b.readableBytes + data.length := by
  rw [← (h.append data).1.length_readable, h.readable_append, List.length_append, h.length_readable]

theorem readableBytes_retrieve (h : b.WF) (len : ℕ) :
    (b.retrieve len).readableBytes = b.readableBytes - len := by
  rw [← (h.retrieve len).length_readable, h.readable_retrieve, List.length_drop, h.length_readable]

end Buffer.WF

namespace TcpConnection

def Handled.highWater (h : Handled) : Option ℕ :=
  match h.notice with
  | some (.highWaterMark len) => some len
  | some .writeComplete | none => none

def level (c : TcpConnection) : ℕ := c.outputBuffer_.readableBytes

def perform (c : TcpConnection) : Act → Option Handled
  | .sendInLoop data w errno =>
    if w.Answers data.length then some (c.sendInLoopCall data w errno) else none
  | .handleWrite w =>
    if c.isWriting = true → w.Answers c.outputBuffer_.readableBytes then some (c.handleWrite w).1
    else none
  | .setState state => some ⟨c.setState state, none⟩
  | .enableReading => some ⟨c.enableReading, none⟩
  | .disableAll => some ⟨c.disableAll, none⟩

def Crosses (c d : TcpConnection) : Prop := c.level < c.highWaterMark_ ∧ c.highWaterMark_ ≤ d.level

instance (c d : TcpConnection) : Decidable (c.Crosses d) := instDecidableAnd

structure Performs (c : TcpConnection) (a : Act) (h : Handled) : Prop where
  wf : h.conn.outputBuffer_.WF
  callback : h.conn.highWaterMarkCallback_ = c.highWaterMarkCallback_
  mark : h.conn.highWaterMark_ = c.highWaterMark_
  reported : h.highWater = if c.Crosses h.conn then some h.conn.level else none
  raised : c.level < h.conn.level → ∃ data w errno, a = .sendInLoop data w errno
  lowered : h.conn.level < c.level → ∃ w, a = .handleWrite w

variable {c d : TcpConnection} {data : List Byte} {w : WriteResult} {errno : ℕ} {a : Act}
  {h : Handled}

theorem not_crosses (hle : d.level ≤ c.level) : ¬ c.Crosses d := by
  intro hc
  obtain ⟨hlt, hge⟩ := hc
  omega

theorem highWater_notifyComplete :
    (⟨d, c.notifyComplete⟩ : Handled).highWater = none := by
  simp only [Handled.highWater, notifyComplete]
  cases c.writeCompleteCallback_ <;> rfl

theorem level_bufferOutput (hwf : c.outputBuffer_.WF) :
    (c.bufferOutput data).level = c.level + data.length := by
  rw [level, outputBuffer_bufferOutput, hwf.readableBytes_append, level]

theorem settings_bufferOutput :
    (c.bufferOutput data).highWaterMarkCallback_ = c.highWaterMarkCallback_ ∧
      (c.bufferOutput data).highWaterMark_ = c.highWaterMark_ := by
  unfold bufferOutput
  simp only
  split <;> exact ⟨rfl, rfl⟩

theorem performs_quiet (hwf : c.outputBuffer_.WF) (hd : d.outputBuffer_ = c.outputBuffer_)
    (hcb : d.highWaterMarkCallback_ = c.highWaterMarkCallback_)
    (hm : d.highWaterMark_ = c.highWaterMark_) {n : Option Notice}
    (hn : (⟨d, n⟩ : Handled).highWater = none) : Performs c a ⟨d, n⟩ := by
  have hlevel : d.level = c.level := by rw [level, hd, level]
  refine ⟨hd ▸ hwf, hcb, hm, ?_, fun hlt ↦ absurd hlt hlevel.le.not_gt,
    fun hlt ↦ absurd hlt hlevel.ge.not_gt⟩
  rw [hn, if_neg (not_crosses hlevel.le)]

theorem performs_lowered (hwf : d.outputBuffer_.WF) (hle : d.level ≤ c.level)
    (hcb : d.highWaterMarkCallback_ = c.highWaterMarkCallback_)
    (hm : d.highWaterMark_ = c.highWaterMark_) {n : Option Notice}
    (hn : (⟨d, n⟩ : Handled).highWater = none) : Performs c (.handleWrite w) ⟨d, n⟩ := by
  refine ⟨hwf, hcb, hm, ?_, fun hlt ↦ absurd hlt hle.not_gt, fun _ ↦ ⟨w, rfl⟩⟩
  rw [hn, if_neg (not_crosses hle)]

/-- The test is made on the length before the bytes are appended, with the length after. -/
theorem performs_buffered (hwf : c.outputBuffer_.WF) (hcb : c.highWaterMarkCallback_ = true)
    {rest : List Byte} :
    Performs c (.sendInLoop data w errno) ⟨c.bufferOutput rest, c.notifyHighWater rest.length⟩ := by
  have hlevel : (c.bufferOutput rest).level = c.level + rest.length := level_bufferOutput hwf
  refine ⟨?_, settings_bufferOutput.1, settings_bufferOutput.2, ?_, fun _ ↦ ⟨data, w, errno, rfl⟩, ?_⟩
  · rw [outputBuffer_bufferOutput]
    exact (hwf.append rest).1
  · by_cases hc : c.Crosses (c.bufferOutput rest)
    · have hc' := hc
      rw [Crosses, hlevel] at hc'
      rw [if_pos hc, hlevel]
      simp only [Handled.highWater, notifyHighWater]
      rw [if_pos ⟨hc'.2, hc'.1, hcb⟩]
      rfl
    · have hc' := hc
      rw [Crosses, hlevel] at hc'
      rw [if_neg hc]
      simp only [Handled.highWater, notifyHighWater]
      rw [if_neg (fun hn ↦ hc' ⟨hn.2.1, hn.1⟩)]
  · intro hlt
    rw [hlevel] at hlt
    omega

theorem performs_sendInLoop (hwf : c.outputBuffer_.WF) (hcb : c.highWaterMarkCallback_ = true) :
    Performs c (.sendInLoop data w errno) (c.sendInLoopCall data w errno) := by
  by_cases hst : c.state_ = .kDisconnected
  · rw [sendInLoopCall, if_pos hst]
    exact performs_quiet hwf rfl rfl rfl rfl
  · rw [sendInLoopCall_of_open hst]
    simp only [sendInLoop]
    split
    · exact performs_quiet hwf rfl rfl rfl highWater_notifyComplete
    · split
      · next hrest =>
        have hlen : data.length - c.nwrote w =
            ((data.drop (c.nwrote w)).take (data.length - c.nwrote w)).length := by simp
        nth_rewrite 2 [hlen]
        exact performs_buffered hwf hcb
      · exact performs_quiet hwf rfl rfl rfl rfl

theorem performs_handleWrite (hwf : c.outputBuffer_.WF)
    (hw : c.isWriting = true → w.Answers c.outputBuffer_.readableBytes) :
    Performs c (.handleWrite w) (c.handleWrite w).1 := by
  have hwrites := handleWrite_writes hwf hw
  have hwf' := hwrites.wf hwf
  generalize c.handleWrite w = r at hwrites hwf'
  have hle : (c.outputBuffer_.retrieve w.taken).readableBytes ≤ c.outputBuffer_.readableBytes := by
    rw [hwf.readableBytes_retrieve]
    omega
  cases hwrites with
  | idle => exact performs_quiet hwf rfl rfl rfl rfl
  | part => exact performs_lowered hwf' hle rfl rfl rfl
  | all => exact performs_lowered hwf' hle rfl rfl highWater_notifyComplete

theorem perform_performs (hwf : c.outputBuffer_.WF) (hcb : c.highWaterMarkCallback_ = true)
    (hp : c.perform a = some h) : Performs c a h := by
  cases a with
  | sendInLoop data w errno =>
    simp only [perform, Option.ite_none_right_eq_some, Option.some.injEq] at hp
    obtain ⟨-, rfl⟩ := hp
    exact performs_sendInLoop hwf hcb
  | handleWrite w =>
    simp only [perform, Option.ite_none_right_eq_some, Option.some.injEq] at hp
    obtain ⟨hw, rfl⟩ := hp
    exact performs_handleWrite hwf hw
  | setState | enableReading | disableAll =>
    obtain rfl := Option.some.inj hp
    apply performs_quiet hwf <;> rfl

end TcpConnection

/-- A call with the argument of the high-water mark callback it queued, if it queued one. -/
structure ReportedCall where
  act : Act
  report : Option ℕ

/-- A connection with the history of its calls, each with the lengths of the output buffer
before and after. -/
structure Watch where
  conn : TcpConnection
  history : List (Move ReportedCall ℕ)

namespace Watch

open TcpConnection

def ofConnection (c : TcpConnection) : Watch := ⟨c, []⟩

def step (s : Watch) (a : Act) : Option Watch :=
  (s.conn.perform a).map fun h ↦
    ⟨h.conn, s.history ++ [⟨⟨a, h.highWater⟩, s.conn.level, h.conn.level⟩]⟩

/-- A call reports exactly when it takes the level over the mark; only `sendInLoop` does
that, and only `handleWrite` takes it back below. -/
structure Edge (mark : ℕ) (m : Move ReportedCall ℕ) : Prop where
  reported : m.event.report = if m.Rises mark then some m.after else none
  rises : m.Rises mark → ∃ data w errno, m.event.act = .sendInLoop data w errno
  falls : m.Falls mark → ∃ w, m.event.act = .handleWrite w

structure Traced (mark : ℕ) (s : Watch) : Prop where
  wf : s.conn.outputBuffer_.WF
  callback : s.conn.highWaterMarkCallback_ = true
  mark_eq : s.conn.highWaterMark_ = mark
  path : Path 0 s.history s.conn.level
  edges : ∀ m ∈ s.history, Edge mark m

variable {mark : ℕ} {s t : Watch} {a : Act} {m : Move ReportedCall ℕ}

theorem Edge.report_eq (h : Edge mark m) {len : ℕ} :
    m.event.report = some len ↔
      (∃ data w errno, m.event.act = .sendInLoop data w errno) ∧ m.Rises mark ∧ len = m.after := by
  rw [h.reported]
  constructor
  · intro hr
    rw [Option.ite_none_right_eq_some, Option.some.injEq] at hr
    exact ⟨h.rises hr.1, hr.1, hr.2.symm⟩
  · intro ⟨_, hr, hlen⟩
    rw [if_pos hr, hlen]

theorem Edge.rises_of_report (h : Edge mark m) (hr : m.event.report.isSome = true) :
    m.Rises mark := by
  obtain ⟨len, hlen⟩ := Option.isSome_iff_exists.mp hr
  exact (h.report_eq.mp hlen).2.1

theorem ofFd_traced (sockfd mark : ℕ) (writeComplete : Bool) :
    (ofConnection (.ofFd sockfd writeComplete true mark)).Traced mark :=
  ⟨Buffer.ofSize_wf _, rfl, rfl, rfl, by simp [ofConnection]⟩

theorem Traced.step (h : s.Traced mark) (hs : s.step a = some t) : t.Traced mark := by
  obtain ⟨r, hr, rfl⟩ := Option.map_eq_some_iff.mp hs
  obtain ⟨hwf, hcb, hmark, hreported, hraised, hlowered⟩ :=
    perform_performs h.wf h.callback hr
  refine ⟨hwf, hcb.trans h.callback, hmark.trans h.mark_eq, path_snoc.mpr ⟨h.path, rfl⟩, ?_⟩
  intro m hm
  rcases List.mem_append.mp hm with hm | hm
  · exact h.edges m hm
  · obtain rfl := List.mem_singleton.mp hm
    have hcross : s.conn.Crosses r.conn ↔
        (⟨⟨a, r.highWater⟩, s.conn.level, r.conn.level⟩ : Move ReportedCall ℕ).Rises mark := by
      rw [Crosses, h.mark_eq]
      rfl
    exact ⟨hreported.trans (if_congr hcross rfl rfl), fun hrise ↦ hraised (hrise.1.trans_le hrise.2),
      fun hfall ↦ hlowered (hfall.2.trans_le hfall.1)⟩

theorem history_acts {as : List Act} (h : run step s as = some t) :
    t.history.map (·.event.act) = s.history.map (·.event.act) ++ as := by
  induction as generalizing s with
  | nil =>
    obtain rfl : s = t := by simpa using h
    simp
  | cons a as ih =>
    obtain ⟨u, hu, ht⟩ := run_cons.mp h
    obtain ⟨r, -, rfl⟩ := Option.map_eq_some_iff.mp hu
    rw [ih ht]
    simp

/-- The high-water mark callback is queued at the rising edges of the output buffer's length,
once at each, and nowhere else. -/
theorem highWater_edges {sockfd : ℕ} {writeComplete : Bool} {as : List Act} (hmark : 0 < mark)
    (h : run step (ofConnection (.ofFd sockfd writeComplete true mark)) as = some s) :
    s.history.map (·.event.act) = as ∧ Path 0 s.history s.conn.outputBuffer_.readableBytes ∧
    (∀ m ∈ s.history, ∀ len, m.event.report = some len ↔
      (∃ data w errno, m.event.act = .sendInLoop data w errno) ∧ m.Rises mark ∧ len = m.after) ∧
    (∀ p m q n r, s.history = p ++ m :: q ++ n :: r → m.event.report.isSome = true →
      n.event.report.isSome = true →
      ∃ k ∈ q, (∃ w, k.event.act = .handleWrite w) ∧ k.Falls mark) ∧
    (mark ≤ s.conn.outputBuffer_.readableBytes → ∃ p m q, s.history = p ++ m :: q ∧
      m.Rises mark ∧ m.event.report = some m.after ∧
      ∀ n ∈ q, ¬ n.Rises mark ∧ n.event.report = none) := by
  have ht : s.Traced mark :=
    run_invariant (fun _ _ _ hs hstep ↦ hs.step hstep) (ofFd_traced sockfd mark writeComplete) h
  refine ⟨history_acts h, ht.path, fun m hm len ↦ (ht.edges m hm).report_eq, ?_, ?_⟩
  · intro p m q n r hsplit hm hn
    have hedge : ∀ k ∈ p ++ m :: q ++ n :: r, Edge mark k := hsplit ▸ ht.edges
    have hmr := (hedge m (by simp)).rises_of_report hm
    have hnr := (hedge n (by simp)).rises_of_report hn
    obtain ⟨k, hk, hfall⟩ := falls_between (hsplit ▸ ht.path) hmr hnr
    exact ⟨k, hk, (hedge k (by simp [hk])).falls hfall, hfall⟩
  · intro hlevel
    obtain ⟨p, m, q, hsplit, hrise, hq⟩ := exists_last_rise ht.path hmark hlevel
    have hedge : ∀ k ∈ p ++ m :: q, Edge mark k := hsplit ▸ ht.edges
    refine ⟨p, m, q, hsplit, hrise, ?_, ?_⟩
    · rw [(hedge m (by simp)).reported, if_pos hrise]
    · intro n hn
      have hno := not_rises_of_le (hq n hn).1
      refine ⟨hno, ?_⟩
      rw [(hedge n (by simp [hn])).reported, if_neg hno]

theorem highWater_edges_twice :
    ∃ s, run step (ofConnection (.ofFd 7 false true 4))
        [.setState .kConnected, .enableReading, .sendInLoop [1, 2, 3, 4, 5, 6] (.accepted 1) 0,
          .sendInLoop [7] (.failed EWOULDBLOCK) EWOULDBLOCK, .handleWrite (.accepted 4),
          .sendInLoop [8, 9] (.failed EWOULDBLOCK) EWOULDBLOCK] = some s ∧
      s.history.map (·.event.report) = [none, none, some 5, none, none, some 4] ∧
      Path 0 s.history s.conn.outputBuffer_.readableBytes := by
  obtain ⟨s, hs, hreports⟩ := Option.map_eq_some_iff.mp (show
    (run step (ofConnection (.ofFd 7 false true 4))
      [.setState .kConnected, .enableReading, .sendInLoop [1, 2, 3, 4, 5, 6] (.accepted 1) 0,
        .sendInLoop [7] (.failed EWOULDBLOCK) EWOULDBLOCK, .handleWrite (.accepted 4),
        .sendInLoop [8, 9] (.failed EWOULDBLOCK) EWOULDBLOCK]).map
      (fun s ↦ s.history.map (·.event.report)) = some [none, none, some 5, none, none, some 4] by
    decide +kernel)
  exact ⟨s, hs, hreports, (highWater_edges (by decide) hs).2.1⟩

end Watch

end Mymuduo
