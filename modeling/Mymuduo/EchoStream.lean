import Mymuduo.ByteQueue
import Mymuduo.EchoServer

namespace Mymuduo

open Foundation.Machine

variable {T : Type}

namespace EchoServer

variable [DecidableEq T] {e e' : EchoServer T} {a : System.Act T}

def threadId (e : EchoServer T) : T := e.sys.loop.threadId_

def unechoed (e : EchoServer T) : List Byte :=
  OnMessage.pending e.sys.mem e.threadId e.sys.conn.inputBuffer_.readable e.onMessage
    (e.sys.stack e.threadId)

/-- The connection is the echo server's own: nothing else sends on it or shuts it down. -/
structure Serves (e : EchoServer T) : Prop where
  reached : e.sys.Reached
  established : e.sys.Established
  guarded : e.sys.Guarded
  input : e.sys.conn.inputBuffer_.WF
  closed : .closed ∈ e.sys.trace ↔ e.sys.conn.state_ = .kDisconnected
  open_ : e.sys.conn.state_ ≠ .kDisconnecting
  away : ∀ t, t ≠ e.threadId → ∀ f ∈ e.sys.stack t, f.still = true
  waiting : ∀ cb ∈ e.sys.loop.waiting, cb.call = none
  late : e.onMessage ≠ .outside → e.sys.conn.state_ ≠ .kConnecting
  stands : e.onMessage.Stands e.sys.mem e.threadId e.sys.conn.inputBuffer_.readable
    (e.sys.stack e.threadId)

theorem Serves.still_or_sends (hs : e.Serves) {t : T} {f : Frame T} (hf : f ∈ e.sys.stack t) :
    f.still = true ∨ t = e.threadId ∧ f.Sends e.threadId := by
  by_cases ht : t = e.threadId
  · subst ht
    exact (hs.stands.still_or_sends hf).imp_right fun h ↦ ⟨rfl, h⟩
  · exact Or.inl (hs.away t ht f hf)

theorem Serves.not_setDisconnecting (hs : e.Serves) {t : T} {f : Frame T} {fs : List (Frame T)}
    (hst : e.sys.stack t = f :: fs) : f ≠ .setDisconnecting := by
  rintro rfl
  rcases hs.still_or_sends (show Frame.setDisconnecting ∈ e.sys.stack t by simp [hst]) with h | ⟨-, h⟩
  · simp [Frame.still] at h
  · cases h

theorem Serves.state_step (hs : e.Serves) {s : System T} (h : System.Step e.sys a s) :
    (.closed ∈ s.trace ↔ s.conn.state_ = .kDisconnected) ∧ s.conn.state_ ≠ .kDisconnecting := by
  cases h with
  | @exec t io f fs l hst ho hio hl =>
    have hturns := (Frame.exec_turns (e.sys.site t) e.sys.conn io f).state
    have hne := hs.not_setDisconnecting hst
    have hagain : f = .functor .connectEstablished → e.sys.conn.state_ = .kConnecting := by
      rintro rfl
      by_contra hstate
      refine hs.established.not_again hstate ?_
      rw [← hs.reached.loop_of_head hst rfl, hst]
      exact List.mem_cons_self
    simp only [System.commit, List.mem_append]
    refine ⟨⟨fun hmem ↦ ?_, fun hstate ↦ ?_⟩, ?_⟩
    · rcases hmem with hmem | hmem
      · have hdis := hs.closed.mp hmem
        rcases hturns with heq | ⟨hf, -⟩ | ⟨hf, -⟩ | ⟨-, heq⟩
        · exact heq.trans hdis
        · simp [hagain hf] at hdis
        · exact absurd hf hne
        · exact heq
      · cases Frame.exec_shows hmem with
        | destroyed | closed => rfl
    · rcases hturns with heq | ⟨-, heq⟩ | ⟨-, heq⟩ | ⟨rfl | rfl, -⟩
      · exact Or.inl (hs.closed.mpr (heq.symm.trans hstate))
      · simp [heq] at hstate
      · simp [heq] at hstate
      · exact Or.inr (List.mem_singleton_self _)
      · exact Or.inr (List.mem_singleton_self _)
    · rcases hturns with heq | ⟨-, heq⟩ | ⟨hf, -⟩ | ⟨-, heq⟩
      · exact heq ▸ hs.open_
      · simp [heq]
      · exact absurd hf hne
      · simp [heq]
  | enter hu he =>
    rw [he.conn_eq]
    refine ⟨?_, hs.open_⟩
    rcases he.trace_eq with htr | ⟨u, htr⟩
    · rw [htr]
      exact hs.closed
    · rw [htr, ← hs.closed]
      simp
  | assign | retrieve | poll | loop => exact ⟨hs.closed, hs.open_⟩

theorem proceeds_outside {m : OnMessage} (h : e.proceeds a = some m) (hm : e.onMessage = .outside)
    (hne : m ≠ .outside) : ∃ t io fs, a = .exec t io ∧ e.sys.stack t = .messageCallback :: fs := by
  cases a with
  | exec t io =>
    cases hst : e.sys.stack t with
    | nil =>
      simp only [proceeds, hst, hm, Option.some.injEq] at h
      exact absurd h.symm hne
    | cons f fs =>
      simp only [proceeds, hst, hm] at h
      by_cases hf : f = .messageCallback
      · exact ⟨t, io, fs, rfl, hf ▸ hst⟩
      · exact absurd (OnMessage.next_outside h hf) hne
  | send | retrieve | shutdown => simp [proceeds, hm] at h
  | assign | release | newConnection | destroyServer | removeConnectionInLoop =>
    simp [proceeds, hm] at h
    exact absurd h.symm hne
  | poll | handleEvent | loop =>
    simp only [proceeds, hm, Option.some.injEq] at h
    exact absurd h.symm hne

theorem Serves.late_step (hs : e.Serves) {s : System T} {m : OnMessage} (hp : e.proceeds a = some m)
    (h : System.Step e.sys a s) (hne : m ≠ .outside) : s.conn.state_ ≠ .kConnecting := by
  intro hstate
  have hconnecting := h.connecting hstate
  by_cases hm : e.onMessage = .outside
  · obtain ⟨t, io, fs, -, hst⟩ := proceeds_outside hp hm hne
    have hmem : Frame.messageCallback ∈ e.sys.stack t := by simp [hst]
    exact hs.established.of_late hmem rfl hconnecting
  · exact hs.late hm hconnecting

theorem Serves.away_step (hs : e.Serves) {s : System T} {m : OnMessage}
    (hp : e.proceeds a = some m) (h : System.Step e.sys a s) :
    ∀ t, t ≠ e.threadId → ∀ f ∈ s.stack t, f.still = true := by
  intro u hu
  cases h.flow hs.reached.control with
  | exec t io f fs hst hio hst' =>
    rw [hst']
    by_cases hut : u = t
    · subst hut
      have hold := hs.away u hu
      rw [hst, List.forall_mem_cons] at hold
      rw [Function.update_self]
      exact fun g hg ↦ (List.mem_append.mp hg).elim (Frame.exec_still hold.1) (hold.2 g)
    · rw [Function.update_of_ne hut]
      exact hs.away u hu
  | enter t f hut he =>
    rw [he.stack_eq]
    by_cases hut : u = t
    · subst hut
      rw [Function.update_self, List.forall_mem_cons]
      refine ⟨?_, hs.away u hu⟩
      cases he with
      | send t data len =>
        simp only [proceeds, Option.ite_none_right_eq_some] at hp
        exact absurd hp.1.1 hu
      | shutdown => simp [proceeds] at hp
      | handleEvent => exact absurd rfl hu
      | newConnection | destroyServer =>
        simp only [Frame.runInLoop]
        split <;> rfl
      | removeConnectionInLoop => rfl
    · rw [Function.update_of_ne hut]
      exact hs.away u hu
  | begin cb hst hst' =>
    rw [hst', Function.update_of_ne (show u ≠ e.sys.loop.threadId_ from hu)]
    exact hs.away u hu
  | idle q hf hst' =>
    rw [hst']
    exact hs.away u hu

theorem Serves.waiting_step (hs : e.Serves) {s : System T} (h : System.Step e.sys a s) :
    ∀ cb ∈ s.loop.waiting, cb.call = none := by
  intro cb hcb
  cases h.flow hs.reached.control with
  | exec t io f fs hst hio hst' hq =>
    rw [hq, List.mem_append, Option.mem_toList] at hcb
    rcases hcb with hcb | hcb
    · exact hs.waiting cb hcb
    · rcases hs.still_or_sends (show f ∈ e.sys.stack t by simp [hst]) with hf | ⟨-, hf⟩
      · exact Frame.queued_of_still hf hcb
      · rcases Frame.exec_queued hcb with rfl | ⟨n, rfl⟩
        · cases hf
        · rfl
  | enter t f hu he =>
    rw [he.loop_eq] at hcb
    exact hs.waiting cb hcb
  | begin f hst hst' hq =>
    refine hs.waiting cb ?_
    rw [hq]
    exact List.mem_cons_of_mem f hcb
  | idle q hf hst' hq =>
    rw [hq, List.mem_append] at hcb
    rcases hcb with hcb | hcb
    · exact hs.waiting cb hcb
    · have hforeign := hf cb hcb
      cases cb with
      | foreign => rfl
      | _ => simp [Functor.isForeign] at hforeign

theorem Serves.input_step (hs : e.Serves) {s : System T} (h : System.Step e.sys a s) :
    s.conn.inputBuffer_.WF := by
  cases h with
  | @exec t io f fs l hst ho hio hl =>
    by_cases hf : f = .handleRead
    · subst hf
      simp only [Frame.Accepts] at hio
      change (e.sys.conn.handleRead io.read).1.inputBuffer_.WF
      cases hres : io.read with
      | failed errno => exact hs.input
      | delivered d =>
        rw [hres] at hio
        exact (hs.input.readFd_delivered hio.1 0).1
    · have hin := (Frame.exec_turns (e.sys.site t) e.sys.conn io f).input hf
      exact hin.symm ▸ hs.input
  | enter hu he => exact he.conn_eq.symm ▸ hs.input
  | retrieve => exact hs.input.retrieve _
  | assign | poll | loop => exact hs.input

def Leads (e : EchoServer T) (a : System.Act T) (m : OnMessage) (s : System T) : Prop :=
  m.Stands s.mem e.threadId s.conn.inputBuffer_.readable (s.stack e.threadId) ∧
    ∃ obs, s.trace = e.sys.trace ++ obs ∧ OnMessage.HandsOn e.sys.conn e.onMessage obs e.unechoed (e.reads a)
      (m.pending s.mem e.threadId s.conn.inputBuffer_.readable (s.stack e.threadId))

theorem Serves.leads_idle (hs : e.Serves) {s : System T} (obs : List (Obs T))
    (hst : s.stack e.threadId = e.sys.stack e.threadId)
    (hin : s.conn.inputBuffer_ = e.sys.conn.inputBuffer_)
    (hmem : ∀ m : Call T, m.thread = e.threadId → m.bytes s.mem = m.bytes e.sys.mem)
    (htr : s.trace = e.sys.trace ++ obs) (hk : keptBytes obs = []) (hr : e.reads a = []) :
    e.Leads a e.onMessage s := by
  obtain ⟨hstands, hpending⟩ := hs.stands.congr_mem hmem
  rw [Leads, hst, hin]
  refine ⟨hstands, obs, htr, .all ?_⟩
  rw [hk, hr, hpending, List.append_nil]
  rfl

theorem Serves.leads_exec (hs : e.Serves) {t : T} {io : Reply} {f : Frame T} {fs : List (Frame T)}
    {l : EventLoop T (Functor T)} {m : OnMessage} (hst : e.sys.stack t = f :: fs)
    (hio : f.Accepts (e.sys.site t) e.sys.conn io) (hm : e.onMessage.next f = some m) :
    e.Leads (.exec t io) m (e.sys.commit t fs (f.exec (e.sys.site t) e.sys.conn io) l) := by
  have hreads : e.reads (.exec t io) = if f = .handleRead then io.read.bytes else [] := by
    simp [reads, hst]
  by_cases ht : t = e.threadId
  · subst ht
    have hstands := hs.stands
    rw [hst] at hstands
    obtain ⟨hs', hb⟩ := OnMessage.Stands.executes (e := e.sys.site e.threadId) hstands
      (by simp [System.site, threadId]) hs.input hio hm
    refine ⟨?_, _, rfl, ?_⟩
    · simp only [System.commit, Function.update_self]
      exact hs'
    · rw [hreads, unechoed, hst]
      simp only [System.commit, Function.update_self]
      exact hb
  · have hmem : f ∈ e.sys.stack t := by simp [hst]
    have hroam : f.roams = true := hs.reached.confined t ht f hmem
    obtain rfl : e.onMessage = m := Option.some.inj ((OnMessage.next_of_roams hroam).symm.trans hm)
    have hr : f ≠ .handleRead := by
      rintro rfl
      simp [Frame.roams] at hroam
    refine hs.leads_idle (f.exec (e.sys.site t) e.sys.conn io).obs ?_ ?_ (fun _ _ ↦ rfl)
      rfl (Frame.keptBytes_of_still (hs.away t ht f hmem)) ?_
    · exact Function.update_of_ne (Ne.symm ht) ..
    · exact (Frame.exec_turns (e.sys.site t) e.sys.conn io f).input hr
    · rw [hreads, if_neg hr]

theorem not_callback_of_inUserCode (hu : e.sys.inUserCode e.threadId = true) :
    (e.sys.stack e.threadId).head? ≠ some .messageCallback := by
  intro hhead
  obtain ⟨fs, hfs⟩ := List.head?_eq_some_iff.mp hhead
  simp [System.inUserCode, hfs] at hu

theorem Serves.leads_push (hs : e.Serves) {s : System T} {t : T} {f : Frame T}
    (hu : e.sys.inUserCode t = true) (he : System.Entry e.sys a t f s) (hf : f.still = true)
    (hm : t = e.threadId → e.onMessage = .outside) (htr : s.trace = e.sys.trace) :
    e.Leads a e.onMessage s := by
  have hreads : e.reads a = [] := by cases he <;> rfl
  by_cases ht : t = e.threadId
  · subst ht
    have hout := hm rfl
    have hstands := hs.stands
    rw [hout] at hstands
    obtain ⟨hst, hb⟩ := hstands.of_outside
    have hnil := hb.resolve_right (not_callback_of_inUserCode hu)
    have hafter : ∀ g ∈ f :: e.sys.stack e.threadId, g.still = true := List.forall_mem_cons.mpr ⟨hf, hst⟩
    rw [Leads, unechoed, hout, he.stack_eq, Function.update_self, he.conn_eq, he.mem_eq, hreads, hnil,
      OnMessage.pending_outside hst, OnMessage.pending_outside hafter]
    exact ⟨.outside hafter (Or.inl rfl), [], by rw [htr, List.append_nil], .all rfl⟩
  · refine hs.leads_idle [] ?_ ?_ ?_ (by rw [htr, List.append_nil]) rfl hreads
    · rw [he.stack_eq, Function.update_of_ne (Ne.symm ht)]
    · rw [he.conn_eq]
    · exact fun m _ ↦ by rw [he.mem_eq]

theorem Serves.leads_enter (hs : e.Serves) {s : System T} {m : OnMessage} {t : T} {f : Frame T}
    (hu : e.sys.inUserCode t = true) (he : System.Entry e.sys a t f s) (hp : e.proceeds a = some m) :
    e.Leads a m s := by
  have hlife : ∀ cb : Functor T, cb.call = none → (Frame.runInLoop (e.sys.site t) cb).still = true := by
    intro cb hcb
    simp only [Frame.runInLoop]
    split <;> simp [Frame.still, Frame.call, hcb]
  cases he with
  | send t data len =>
    simp only [proceeds, Option.ite_none_right_eq_some, Option.some.injEq] at hp
    obtain ⟨⟨ht, hm⟩, rfl⟩ := hp
    have hstands := hs.stands
    rw [hm] at hstands
    obtain ⟨fs, hst, hfs, hb⟩ := hstands.of_retrieved
    have hpush : (e.sys.push t (.send data len)).stack e.threadId = .send data len :: .userCode :: fs := by
      change Function.update e.sys.stack t (.send data len :: e.sys.stack t) e.threadId = _
      rw [show t = e.threadId from ht, Function.update_self, hst]
    rw [Leads, unechoed, hm, hst, hpush, OnMessage.pending_userCode hfs, OnMessage.pending_sending hfs]
    exact ⟨.sending (.send data len) hfs hb, [], (List.append_nil _).symm, .all (List.append_nil _).symm⟩
  | shutdown => simp [proceeds] at hp
  | newConnection hc =>
    simp only [proceeds, Option.ite_none_right_eq_some, Option.some.injEq] at hp
    obtain ⟨hm, rfl⟩ := hp
    exact hs.leads_push hu (.newConnection hc) (hlife _ rfl) (fun hb ↦ hm.resolve_right (not_not.mpr hb)) rfl
  | destroyServer hc =>
    simp only [proceeds, Option.ite_none_right_eq_some, Option.some.injEq] at hp
    obtain ⟨hm, rfl⟩ := hp
    exact hs.leads_push hu (.destroyServer hc) (hlife _ rfl) (fun hb ↦ hm.resolve_right (not_not.mpr hb)) rfl
  | removeConnectionInLoop hr =>
    simp only [proceeds, Option.ite_none_right_eq_some, Option.some.injEq] at hp
    obtain ⟨hm, rfl⟩ := hp
    exact hs.leads_push hu (.removeConnectionInLoop hr) rfl (fun hb ↦ hm.resolve_right (not_not.mpr hb)) rfl
  | handleEvent revents hr hst =>
    obtain rfl := Option.some.inj hp
    refine hs.leads_push hu (.handleEvent revents hr hst) rfl (fun _ ↦ ?_) rfl
    have hstands := hs.stands
    rw [threadId, hst] at hstands
    exact hstands.outside_of_nil

theorem Serves.leads_assign (hs : e.Serves) {m : OnMessage} {t : T} {data : ℕ} {bytes : List Byte}
    (hp : e.proceeds (.assign t data bytes) = some m) : e.Leads (.assign t data bytes) m
      { e.sys with mem := Function.update e.sys.mem t (System.assignCells (e.sys.mem t) data bytes) } := by
  have hstands := hs.stands
  simp only [proceeds] at hp
  split at hp
  · next ht =>
    obtain rfl : t = e.threadId := ht
    cases hm : e.onMessage with
    | outside =>
      simp only [hm, Option.some.injEq] at hp
      rw [hm] at hstands
      obtain ⟨hst, hb⟩ := hstands.of_outside
      rw [Leads, unechoed, hm, ← hp, OnMessage.pending_outside hst, OnMessage.pending_outside hst]
      exact ⟨.outside hst hb, [], (List.append_nil _).symm, .all (List.append_nil _).symm⟩
    | entered =>
      simp only [hm, hs.input.retrieveAllAsString, Option.map_some, Option.some.injEq,
        Option.ite_none_right_eq_some] at hp
      obtain ⟨hbytes, rfl⟩ := hp
      rw [hm] at hstands
      obtain ⟨fs, hst, hfs⟩ := hstands.of_entered
      rw [Leads, unechoed, hm, hst, OnMessage.pending_userCode hfs, OnMessage.pending_userCode hfs]
      refine ⟨.copied hfs ?_, [], (List.append_nil _).symm, .all (List.append_nil _).symm⟩
      rw [hbytes]
      exact Call.bytes_assign
    | copied | retrieved | sent => simp [hm] at hp
  · next ht =>
    obtain rfl := Option.some.inj hp
    refine hs.leads_idle [] rfl rfl (fun m hm ↦ ?_) (List.append_nil _).symm rfl rfl
    refine System.bytes_update ?_
    rintro rfl
    exact ht hm

theorem Serves.leads_release (hs : e.Serves) {m : OnMessage} {t : T} {data : ℕ} {bytes : List Byte}
    (hu : e.sys.inUserCode t = true) (hp : e.proceeds (.release t data bytes) = some m) :
    e.Leads (.release t data bytes) m
      { e.sys with mem := Function.update e.sys.mem t (System.assignCells (e.sys.mem t) data bytes) } := by
  simp only [proceeds, Option.ite_none_right_eq_some, Option.some.injEq] at hp
  obtain ⟨hp, rfl⟩ := hp
  by_cases ht : t = e.threadId
  · subst ht
    have hstands := hs.stands
    rcases hp.resolve_left (not_not.mpr rfl) with hm | hm
    · rw [hm] at hstands
      obtain ⟨hst, hb⟩ := hstands.of_outside
      rw [Leads, unechoed, hm, OnMessage.pending_outside hst, OnMessage.pending_outside hst]
      exact ⟨.outside hst hb, [], (List.append_nil _).symm, .all (List.append_nil _).symm⟩
    · rw [hm] at hstands
      obtain ⟨fs, hst, hfs, hb⟩ := hstands.of_sent fun f fs hst hf ↦ by
        rw [System.inUserCode, hst] at hu
        cases hf <;> simp at hu
      rw [Leads, unechoed, hm, hst, OnMessage.pending_userCode hfs, OnMessage.pending_userCode hfs]
      exact ⟨.sent hfs hb, [], (List.append_nil _).symm, .all (List.append_nil _).symm⟩
  · refine hs.leads_idle [] rfl rfl (fun m hm ↦ System.bytes_update ?_) (List.append_nil _).symm rfl rfl
    rintro rfl
    exact ht hm

theorem Serves.leads_retrieve (hs : e.Serves) {m : OnMessage} {len : ℕ}
    (hp : e.proceeds (.retrieve len) = some m) : e.Leads (.retrieve len) m { e.sys with
      conn := { e.sys.conn with inputBuffer_ := e.sys.conn.inputBuffer_.retrieve len } } := by
  cases hm : e.onMessage with
  | copied data =>
    simp only [proceeds, hm, Option.ite_none_right_eq_some, Option.some.injEq] at hp
    obtain ⟨rfl, rfl⟩ := hp
    have hstands := hs.stands
    rw [hm] at hstands
    obtain ⟨fs, hst, hfs, hmsg⟩ := hstands.of_copied
    have hlen := hs.input.length_readable
    have hnil : (e.sys.conn.inputBuffer_.retrieve e.sys.conn.inputBuffer_.readableBytes).readable = [] := by
      rw [hs.input.readable_retrieve, ← hlen, List.drop_length]
    rw [Leads, unechoed, hm, hst, hnil, OnMessage.pending_userCode hfs, OnMessage.pending_userCode hfs]
    refine ⟨.retrieved hfs rfl, [], (List.append_nil _).symm, .all ?_⟩
    rw [hlen] at hmsg
    calc keptBytes [] ++ (Call.bytes e.sys.mem ⟨0, e.threadId, data, _⟩ ++ [])
      _ = e.sys.conn.inputBuffer_.readable := by rw [hmsg, List.append_nil]; rfl
      _ = _ := (List.append_nil _).symm
  | outside | entered | retrieved | sent => simp [proceeds, hm] at hp

theorem Serves.leads_loop (hs : e.Serves) {b : EventLoop.Act T (Functor T)} {l : EventLoop T (Functor T)}
    (ha : e.sys.allows b = true) (hl : e.sys.loop.step b = some l) :
    e.Leads (.loop b) e.onMessage { e.sys with loop := l, stack := e.sys.entered b } := by
  by_cases hb : ∃ cb, b = .beginFunctor cb
  · obtain ⟨cb, rfl⟩ := hb
    have hst : e.sys.stack e.threadId = [] := List.isEmpty_iff.mp ha
    have hcall : cb.call = none := by
      refine hs.waiting cb ?_
      rcases EventLoop.step_waiting hs.reached.control hl with ⟨t, f, hf, -⟩ | ⟨f, hf, hw⟩ | ⟨hf, -⟩
      · exact nomatch hf
      · obtain rfl := EventLoop.Act.beginFunctor.inj hf
        rw [hw]
        exact List.mem_cons_self
      · rcases hf with hf | hf <;> simp [EventLoop.Act.onQueue] at hf
    have hstands := hs.stands
    rw [hst] at hstands
    have hout := hstands.outside_of_nil
    rw [hout] at hstands
    obtain ⟨-, hb⟩ := hstands.of_outside
    have hnil := hb.resolve_right (by simp)
    have hafter : ∀ g ∈ [Frame.functor cb], g.still = true := by
      simpa [Frame.still, Frame.call] using hcall
    have hentered : e.sys.entered (.beginFunctor cb) e.threadId = [.functor cb] := Function.update_self ..
    rw [Leads, unechoed, hout, hst]
    simp only [hentered, hnil]
    rw [OnMessage.pending_outside hafter, OnMessage.pending_outside (by simp)]
    exact ⟨.outside hafter (Or.inl rfl), [], (List.append_nil _).symm, .all rfl⟩
  · have hsame : e.sys.entered b = e.sys.stack := by
      cases b with
      | beginFunctor cb => exact absurd ⟨cb, rfl⟩ hb
      | _ => rfl
    exact hs.leads_idle [] (by rw [hsame]) rfl (fun _ _ ↦ rfl) (List.append_nil _).symm rfl rfl

theorem Serves.leads (hs : e.Serves) {s : System T} {m : OnMessage} (hp : e.proceeds a = some m)
    (h : System.Step e.sys a s) : e.Leads a m s := by
  cases h with
  | @exec t io f fs l hst ho hio hl =>
    simp only [proceeds, hst] at hp
    exact hs.leads_exec hst hio hp
  | enter hu he => exact hs.leads_enter hu he hp
  | assign hu ha =>
    rcases ha with rfl | rfl
    · exact hs.leads_assign hp
    · exact hs.leads_release hu hp
  | retrieve hu => exact hs.leads_retrieve hp
  | poll hr hl =>
    obtain rfl := Option.some.inj hp
    exact hs.leads_idle [] rfl rfl (fun _ _ ↦ rfl) (List.append_nil _).symm rfl rfl
  | loop ha hl =>
    obtain rfl := Option.some.inj hp
    exact hs.leads_loop ha hl

theorem Serves.step (hs : e.Serves) (h : e.step a = some e') : e'.Serves := by
  obtain ⟨m, s, hp, hsys, rfl⟩ := step_iff.mp h
  have hst := System.step_cases hsys
  obtain ⟨hclosed, hopen⟩ := hs.state_step hst
  have hL : EchoServer.threadId ⟨s, m, e.received ++ e.reads a⟩ = e.threadId := hst.threadId_eq
  refine ⟨hs.reached.step hsys, hs.established.step hs.reached.confined hs.reached.control hst,
    hs.guarded.step hs.reached hst, hs.input_step hst, hclosed, hopen, ?_, hs.waiting_step hst,
    hs.late_step hp hst, ?_⟩
  · rw [hL]
    exact hs.away_step hp hst
  · rw [hL]
    exact (hs.leads hp hst).1

/-- What the connection has sent and is about to send, of what it has received. -/
structure Echoes (e : EchoServer T) : Prop where
  serves : e.Serves
  sublist : (keptBytes e.sys.trace ++ e.unechoed).Sublist e.received
  whole : (∀ m, .dropped m ∉ e.sys.trace) → .closed ∉ e.sys.trace →
    keptBytes e.sys.trace ++ e.unechoed = e.received
  isPrefix : (∀ m, .dropped m ∉ e.sys.trace) → keptBytes e.sys.trace <+: e.received

theorem Serves.keeps_nothing (hs : e.Serves) {s : System T} (h : System.Step e.sys a s)
    (hclosed : .closed ∈ e.sys.trace) : keptBytes s.trace = keptBytes e.sys.trace := by
  cases h with
  | @exec t io f fs l hst ho hio hl =>
    have hnone : keptBytes (f.exec (e.sys.site t) e.sys.conn io).obs = [] := by
      rcases hs.still_or_sends (show f ∈ e.sys.stack t by simp [hst]) with hf | ⟨rfl, hf⟩
      · exact Frame.keptBytes_of_still hf
      · simp only [keptBytes, List.flatMap_eq_nil_iff]
        intro o ho
        cases o with
        | kept m msg =>
          obtain ⟨rfl, -⟩ := Frame.exec_kept ho
          refine absurd (hs.closed.mp hclosed) (hs.guarded m ?_)
          rw [← threadId, hst]
          exact List.mem_cons_self
        | _ => rfl
    simp only [System.commit, keptBytes_append, hnone, List.append_nil]
  | enter hu he =>
    rcases he.trace_eq with htr | ⟨u, htr⟩
    · rw [htr]
    · rw [htr, keptBytes_append]
      exact List.append_nil _
  | assign | retrieve | poll | loop => rfl

theorem Echoes.step (he : e.Echoes) (h : e.step a = some e') : e'.Echoes := by
  have hserves := he.serves.step h
  obtain ⟨m, s, hp, hsys, rfl⟩ := step_iff.mp h
  have hst := System.step_cases hsys
  have hL : EchoServer.threadId ⟨s, m, e.received ++ e.reads a⟩ = e.threadId := hst.threadId_eq
  obtain ⟨-, obs, htr, hands⟩ := he.serves.leads hp hst
  have hunechoed : EchoServer.unechoed ⟨s, m, e.received ++ e.reads a⟩ =
      m.pending s.mem e.threadId s.conn.inputBuffer_.readable (s.stack e.threadId) := by
    rw [unechoed, hL]
  have hdropped : (∀ m, .dropped m ∉ s.trace) → ∀ m, .dropped m ∉ e.sys.trace :=
    fun h m hm ↦ h m (hst.trace_mono hm)
  have hgrown : e.received <+: e.received ++ e.reads a := List.prefix_append ..
  rw [← hunechoed] at hands
  cases hands with
  | all hall =>
    have hflow : keptBytes s.trace ++ EchoServer.unechoed ⟨s, m, e.received ++ e.reads a⟩ =
        keptBytes e.sys.trace ++ e.unechoed ++ e.reads a := by
      rw [htr, keptBytes_append, List.append_assoc, hall, List.append_assoc]
    have hwhole : (∀ m, .dropped m ∉ s.trace) → .closed ∉ e.sys.trace →
        keptBytes s.trace ++ EchoServer.unechoed ⟨s, m, e.received ++ e.reads a⟩ =
          e.received ++ e.reads a := fun hd hc ↦ hflow.trans (by rw [he.whole (hdropped hd) hc])
    refine ⟨hserves, ?_, fun hd hc ↦ hwhole hd fun hm ↦ hc (hst.trace_mono hm), fun hd ↦ ?_⟩
    · simp only [hflow]
      exact he.sublist.append (.refl _)
    · by_cases hc : .closed ∈ e.sys.trace
      · simp only [he.serves.keeps_nothing hst hc]
        exact (he.isPrefix (hdropped hd)).trans hgrown
      · exact ⟨_, hwhole hd hc⟩
  | lost hm hk hnil hl =>
    have hkept : keptBytes s.trace = keptBytes e.sys.trace := by
      rw [htr, keptBytes_append, hk, List.append_nil]
    refine ⟨hserves, ?_, fun hd hc ↦ ?_, fun hd ↦ ?_⟩
    · simp only [hkept, hnil, List.append_nil]
      exact ((List.sublist_append_left _ _).trans he.sublist).trans hgrown.sublist
    · exfalso
      rcases hl with hstate | ⟨n, hn⟩
      · have hopen : e.sys.conn.state_ ≠ .kDisconnected := fun h ↦
          hc (hst.trace_mono (he.serves.closed.mpr h))
        cases hstate' : e.sys.conn.state_ with
        | kConnected => exact hstate hstate'
        | kConnecting => exact he.serves.late hm hstate'
        | kDisconnecting => exact he.serves.open_ hstate'
        | kDisconnected => exact hopen hstate'
      · exact hd n (htr ▸ List.mem_append_right _ hn)
    · simp only [hkept]
      exact (he.isPrefix (hdropped hd)).trans hgrown

theorem ofSystem_echoes (l b : T) (fd : ℕ) (wc hw : Bool) (mark : ℕ) (mem : T → ℕ → Byte) :
    (ofSystem (.ofConnection l b (.ofFd fd wc hw mark) mem)).Echoes := by
  have hinput : (TcpConnection.ofFd fd wc hw mark).inputBuffer_.readable = [] :=
    Buffer.ofSize_readable Buffer.kInitialSize
  have hnothing : (ofSystem (.ofConnection l b (.ofFd fd wc hw mark) mem)).unechoed = [] := hinput
  refine ⟨⟨System.ofConnection_reached .., System.ofConnection_established .., ?_,
    Buffer.ofSize_wf Buffer.kInitialSize, ?_, ?_, ?_, ?_, ?_, ?_⟩, ?_, ?_, ?_⟩
  · simp [System.Guarded, ofSystem, System.ofConnection]
  · simp [ofSystem, System.ofConnection, TcpConnection.ofFd]
  · simp [ofSystem, System.ofConnection, TcpConnection.ofFd]
  · simp [ofSystem, System.ofConnection]
  · simp [ofSystem, System.ofConnection, EventLoop.ofThread, EventLoop.waiting]
  · exact fun h ↦ absurd rfl h
  · exact .outside (by simp [ofSystem, System.ofConnection]) (Or.inl hinput)
  · rw [hnothing]
    exact .refl _
  · intro _ _
    rw [hnothing]
    rfl
  · exact fun _ ↦ List.prefix_rfl

theorem Serves.at_rest (hs : e.Serves) (hst : e.sys.stack e.threadId = []) :
    e.sys.conn.inputBuffer_.readable = [] ∧ e.unechoed = [] := by
  have hstands := hs.stands
  rw [hst] at hstands
  have hout := hstands.outside_of_nil
  rw [hout] at hstands
  obtain ⟨-, hb⟩ := hstands.of_outside
  have hnil := hb.resolve_right (by simp)
  exact ⟨hnil, by rw [unechoed, hst, hout, OnMessage.pending_outside (by simp), hnil]⟩

/-- The echo server sends nothing but what it has received, in order; as long as no message is
dropped it sends all of it up to `handleClose`, and between two events nothing is left but what
waits for the socket. If each write of `handleWrite` takes a byte, the socket takes that by the time
that `EPOLLOUT` has been reported once more than there are such bytes. -/
theorem echo_stream {l b : T} {fd mark : ℕ} {wc hw : Bool} {mem : T → ℕ → Byte}
    {as : List (System.Act T)}
    (h : run step (ofSystem (.ofConnection l b (.ofFd fd wc hw mark) mem)) as = some e) :
    (accepted e.sys.trace ++ e.sys.conn.outputBuffer_.readable).Sublist e.received ∧
    ((∀ m, .dropped m ∉ e.sys.trace) →
      accepted e.sys.trace ++ e.sys.conn.outputBuffer_.readable <+: e.received ∧
      (.closed ∉ e.sys.trace → e.sys.stack e.sys.loop.threadId_ = [] →
        e.sys.conn.inputBuffer_.readable = [] ∧
        accepted e.sys.trace ++ e.sys.conn.outputBuffer_.readable = e.received ∧
        ∀ bs u, run step e bs = some u → Along System.step System.Takes e.sys bs →
          .closed ∉ u.sys.trace →
          e.sys.conn.outputBuffer_.readableBytes < bs.countP System.Act.reportsOut →
          e.received <+: accepted u.sys.trace)) := by
  have he : e.Echoes := run_invariant (fun _ _ _ he ht ↦ he.step ht) (ofSystem_echoes ..) h
  have hsys := run_sys h
  have hflow : e.sys.Flowing :=
    run_invariant (fun _ _ _ hs ht ↦ hs.step ht) (System.ofConnection_flowing ..) hsys
  rw [hflow.streams.stream]
  refine ⟨(List.sublist_append_left _ _).trans he.sublist, fun hd ↦ ⟨he.isPrefix hd, fun hc hst ↦ ?_⟩⟩
  obtain ⟨hinput, hnothing⟩ := he.serves.at_rest hst
  have hall : keptBytes e.sys.trace = e.received := by
    have hwhole := he.whole hd hc
    rwa [hnothing, List.append_nil] at hwhole
  refine ⟨hinput, hall, fun bs u hu hG hopen hn ↦ ?_⟩
  obtain ⟨o, ho, -, hdrained, -⟩ := hflow.drains (run_sys hu) hG hopen hn
  rw [← hall, ← hflow.streams.stream, ho, accepted_append]
  exact (List.prefix_append_right_inj _).mpr hdrained

section

/-- Thread 0 runs the echo server; it reads three bytes and writes two of them at once. -/
def echoesInPart : List (System.Act ℕ) :=
  [.newConnection, .exec 0 System.noCall, .exec 0 System.noCall, .exec 0 System.noCall, .loop .enter,
    .loop .clearQuit, .loop .testQuit, .poll false (some EPOLLIN), .handleEvent, .exec 0 System.noCall,
    .exec 0 { write := .accepted 0, read := .delivered [1, 2, 3] }, .exec 0 System.noCall,
    .assign 0 0 [1, 2, 3],
    .retrieve 3, .send 0 0 3, .exec 0 System.noCall, .exec 0 System.noCall,
    .exec 0 (System.answer (.accepted 2)), .release 0 0 [0, 0, 0], .exec 0 System.noCall]

def echoesTheRest : List (System.Act ℕ) :=
  [.loop .beginCalling, .loop .swap, .loop .endCalling, .loop .testQuit, .poll false (some EPOLLOUT),
    .handleEvent, .exec 0 System.noCall, .exec 0 (System.answer (.accepted 1)), .exec 0 System.noCall,
    .loop .beginCalling, .loop .swap, .loop .endCalling, .loop .testQuit, .poll false (some EPOLLOUT)]

def echoLoop : EchoServer ℕ :=
  ofSystem (.ofConnection 0 0 (.ofFd 7 false false (64 * 1024 * 1024)) fun _ _ ↦ 0)

theorem echo_stream_inPart : ∃ e u, run step echoLoop echoesInPart = some e ∧
    run step e echoesTheRest = some u ∧ e.received = [1, 2, 3] ∧ e.received <+: accepted u.sys.trace := by
  obtain ⟨e, he, hshape⟩ := Option.map_eq_some_iff.mp
    (show (run step echoLoop echoesInPart).map (fun e ↦ ((e.sys.trace, e.received),
      decide (e.sys.stack e.sys.loop.threadId_ = [] ∧ e.sys.conn.outputBuffer_.readableBytes = 1 ∧
        Along System.step System.Takes e.sys echoesTheRest),
      (run step e echoesTheRest).map fun u ↦ decide (.closed ∉ u.sys.trace))) =
        some (([.connectionCallback true, .messageCallback, .passed ⟨0, 0, 0, 3⟩ [1, 2, 3],
          .write [1, 2, 3] (.accepted 2), .kept ⟨0, 0, 0, 3⟩ [1, 2, 3]], [1, 2, 3]), true, some true)
      by decide +kernel)
  simp only [Prod.mk.injEq, decide_eq_true_eq] at hshape
  obtain ⟨⟨htrace, hreceived⟩, ⟨hrest, hone, hG⟩, hend⟩ := hshape
  obtain ⟨u, hu, hopen⟩ := Option.map_eq_some_iff.mp hend
  obtain ⟨-, hkept⟩ := echo_stream he
  obtain ⟨-, hall⟩ := hkept (by simp [htrace])
  obtain ⟨-, -, hdrained⟩ := hall (by simp [htrace]) hrest
  exact ⟨e, u, he, hu, hreceived,
    hdrained _ u hu hG (of_decide_eq_true hopen) (by rw [hone]; decide)⟩

end

end EchoServer

end Mymuduo
