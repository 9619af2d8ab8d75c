import Mymuduo.OutputDrain
import Mymuduo.SendValue

namespace Mymuduo

open Foundation.Machine

variable {T : Type}

/-- Where the loop thread stands in `onMessage`; the string `msg` lies at `data`. -/
inductive OnMessage
  | outside
  | entered
  | copied (data : ℕ)
  | retrieved (data len : ℕ)
  | sent
  deriving DecidableEq

def OnMessage.next (m : OnMessage) : Frame T → Option OnMessage
  | .messageCallback => some .entered
  | .userCode => if m = .outside ∨ m = .sent then some .outside else none
  | _ => some m

/-- A connection of the echo server, and the bytes that the kernel has delivered to it. -/
structure EchoServer (T : Type) where
  sys : System T
  onMessage : OnMessage
  received : List Byte

namespace EchoServer

def ofSystem (s : System T) : EchoServer T := ⟨s, .outside, []⟩

variable [DecidableEq T] (e : EchoServer T)

/-- Where `onMessage` stands after a step, if the echo server takes such a step: it copies all that
the input buffer holds, retrieves it, sends the copy and destroys it, and calls nothing else. -/
def proceeds : System.Act T → Option OnMessage
  | .exec t _ =>
    match e.sys.stack t with
    | [] => some e.onMessage
    | f :: _ => e.onMessage.next f
  | .assign t data bytes =>
    if t = e.sys.loop.threadId_ then
      match e.onMessage with
      | .outside => some .outside
      | .entered =>
        if e.sys.conn.inputBuffer_.retrieveAllAsString.map Prod.snd = some bytes then
          some (.copied data)
        else none
      | _ => none
    else some e.onMessage
  | .release t _ _ =>
    if t ≠ e.sys.loop.threadId_ ∨ e.onMessage = .outside ∨ e.onMessage = .sent then some e.onMessage
    else none
  | .retrieve len =>
    match e.onMessage with
    | .copied data =>
      if len = e.sys.conn.inputBuffer_.readableBytes then some (.retrieved data len) else none
    | _ => none
  | .send t data len =>
    if t = e.sys.loop.threadId_ ∧ e.onMessage = .retrieved data len then some .sent else none
  | .shutdown _ => none
  | .newConnection | .destroyServer | .removeConnectionInLoop =>
    if e.onMessage = .outside ∨ e.sys.base ≠ e.sys.loop.threadId_ then some e.onMessage else none
  | .poll .. | .handleEvent | .loop _ => some e.onMessage

def reads : System.Act T → List Byte
  | .exec t io => if (e.sys.stack t).head? = some .handleRead then io.read.bytes else []
  | _ => []

def step (a : System.Act T) : Option (EchoServer T) :=
  (e.proceeds a).bind fun m ↦ (e.sys.step a).map fun s ↦ ⟨s, m, e.received ++ e.reads a⟩

variable {e} {e' : EchoServer T} {a : System.Act T}

theorem step_iff : e.step a = some e' ↔ ∃ m s, e.proceeds a = some m ∧ e.sys.step a = some s ∧
    e' = ⟨s, m, e.received ++ e.reads a⟩ := by
  simp only [step, Option.bind_eq_some_iff, Option.map_eq_some_iff]
  constructor
  · rintro ⟨m, hm, s, hs, rfl⟩
    exact ⟨m, s, hm, hs, rfl⟩
  · rintro ⟨m, s, hm, hs, rfl⟩
    exact ⟨m, hm, s, hs, rfl⟩

theorem run_sys {as : List (System.Act T)} (h : run step e as = some e') :
    run System.step e.sys as = some e'.sys := by
  have hstep : ∀ (e : EchoServer T) (a : System.Act T) (e' : EchoServer T), True →
      e.step a = some e' → run System.step e.sys [a] = some e'.sys := by
    intro e a e' _ h
    obtain ⟨m, s, -, hs, rfl⟩ := step_iff.mp h
    exact run_cons.mpr ⟨s, hs, rfl⟩
  have hsim := run_simulation EchoServer.sys (fun a ↦ [a]) (fun _ _ _ _ _ ↦ trivial) hstep trivial h
  rwa [List.flatMap_singleton'] at hsim

end EchoServer

theorem Call.bytes_assign [DecidableEq T] {mem : T → ℕ → Byte} {t : T} {data : ℕ} {bytes : List Byte} :
    Call.bytes (Function.update mem t (System.assignCells (mem t) data bytes))
      ⟨0, t, data, bytes.length⟩ = bytes := by
  apply List.ext_getElem
  · simp
  · intro i _ hi
    simp [Call.bytes, Call.denotes, System.assignCells, List.getD_eq_getElem?_getD, List.getElem?_eq_getElem hi]

theorem TcpConnection.input_bufferOutput {c : TcpConnection} {data : List Byte} :
    (c.bufferOutput data).inputBuffer_ = c.inputBuffer_ := by
  simp only [bufferOutput]
  split <;> rfl

namespace Frame

def still : Frame T → Bool
  | .send .. | .shutdown | .setDisconnecting => false
  | f => f.call.isNone

inductive Sends (t : T) : Frame T → Prop
  | send (data len : ℕ) : Sends t (.send data len)
  | sendInLoop (m : Call T) (hm : m.thread = t) : Sends t (.functor (.sendInLoop m))
  | writeOrBuffer (m : Call T) (hm : m.thread = t) : Sends t (.writeOrBuffer m)

def carried (mem : T → ℕ → Byte) (t : T) : Frame T → List Byte
  | .send data len => Call.bytes mem ⟨0, t, data, len⟩
  | .functor (.sendInLoop m) | .writeOrBuffer m => m.bytes mem
  | _ => []

variable {e : Site T} {c : TcpConnection} {io : Reply} {f g : Frame T}

theorem carried_of_still {mem : T → ℕ → Byte} {t : T} (hf : f.still = true) : f.carried mem t = [] := by
  cases f with
  | functor cb => cases cb <;> first | rfl | simp [still, call, Functor.call] at hf
  | send | writeOrBuffer => simp [still, call] at hf
  | _ => rfl

theorem exec_still (hf : f.still = true) (hg : g ∈ (f.exec e c io).frames) : g.still = true := by
  cases exec_next hg with
  | sendHere | sendAway | shutdown | shutdownHere | shutdownAway => simp [still] at hf
  | sendInLoop m => simp [still, call, Functor.call] at hf
  | _ => rfl

theorem queued_of_still (hf : f.still = true) {cb : Functor T}
    (hq : (f.exec e c io).queued = some cb) : cb.call = none := by
  rcases exec_queued hq with rfl | ⟨n, rfl⟩
  · simpa [still, call] using hf
  · rfl

theorem keptBytes_of_still (hf : f.still = true) : keptBytes (f.exec e c io).obs = [] := by
  simp only [keptBytes, List.flatMap_eq_nil_iff]
  intro o ho
  cases o with
  | kept m msg =>
    obtain ⟨rfl, -⟩ := exec_kept ho
    simp [still, call] at hf
  | _ => rfl

theorem Turns.input {d : TcpConnection} (h : Turns e c io f d) (hf : f ≠ .handleRead) :
    d.inputBuffer_ = c.inputBuffer_ := by
  cases h with
  | read => exact absurd rfl hf
  | sent m =>
    simp only [TcpConnection.sendInLoop]
    split
    · rfl
    · split
      · exact TcpConnection.input_bufferOutput
      · rfl
  | written =>
    simp only [TcpConnection.handleWrite]
    split
    · split
      · split <;> rfl
      · rfl
    · rfl
  | same | established | disconnecting | destroyed | closed | removed => rfl

inductive Forwards (e : Site T) (c : TcpConnection) (f : Frame T) (o : Outcome T) : Prop
  | moved (g : Frame T) (hg : g.Sends e.thread) (hfs : o.frames = [g]) (hk : keptBytes o.obs = [])
      (hb : g.carried e.mem e.thread = f.carried e.mem e.thread)
  | kept (hfs : o.frames = []) (hk : keptBytes o.obs = f.carried e.mem e.thread)
  | lost (hfs : o.frames = []) (hk : keptBytes o.obs = [])
      (hl : c.state_ ≠ .kConnected ∨ ∃ m, .dropped m ∈ o.obs)

theorem Sends.exec (hf : f.Sends e.thread) (he : e.inLoop = true) (hio : f.Accepts e c io) :
    Forwards e c f (f.exec e c io) := by
  cases hf with
  | send data len =>
    simp only [Frame.exec]
    split
    · exact .moved (.functor (.sendInLoop ⟨e.passed, e.thread, data, len⟩)) (.sendInLoop _ rfl)
        (by simp [runInLoop, he]) rfl rfl
    · next hc => exact .lost rfl rfl (Or.inl hc)
  | sendInLoop m hm =>
    simp only [Frame.exec, execFunctor]
    split
    · exact .lost rfl rfl (Or.inr ⟨m, List.mem_singleton_self _⟩)
    · exact .moved (.writeOrBuffer m) (.writeOrBuffer m hm) rfl rfl rfl
  | writeOrBuffer m hm =>
    have hagain : io.again = none := by
      by_contra hsome
      exact hio.2 (Option.isSome_iff_ne_none.mpr hsome) hm
    have hkept : keptBytes (Frame.exec e c io (.writeOrBuffer m)).obs =
        if c.faultError io.write io.errno then [] else m.bytes e.mem := by
      rw [keptBytes_writeOrBuffer, message, hagain, Call.read_none]
    cases hfault : c.faultError io.write io.errno with
    | true =>
      refine .lost rfl (by rw [hkept, hfault]; rfl) (Or.inr ⟨m, ?_⟩)
      simp [Frame.exec, hfault]
    | false => exact .kept rfl (by rw [hkept, hfault]; rfl)

end Frame

namespace OnMessage

variable {mem : T → ℕ → Byte} {t : T} {b : List Byte} {m m' : OnMessage}

def carried (mem : T → ℕ → Byte) (t : T) : OnMessage → List Byte
  | .retrieved data len => Call.bytes mem ⟨0, t, data, len⟩
  | _ => []

/-- What has been received and not been handed on, oldest first; `b` is the input buffer and `st`
the stack of the loop thread `t`. -/
def pending (mem : T → ℕ → Byte) (t : T) (b : List Byte) (m : OnMessage) (st : List (Frame T)) :
    List Byte := st.flatMap (Frame.carried mem t) ++ m.carried mem t ++ b

/-- `onMessage` stands at `m`, on the stack of the loop thread. -/
inductive Stands (mem : T → ℕ → Byte) (t : T) (b : List Byte) : OnMessage → List (Frame T) → Prop
  | outside {st : List (Frame T)} (hst : ∀ f ∈ st, f.still = true)
      (hb : b = [] ∨ st.head? = some .messageCallback) : Stands mem t b .outside st
  | entered {fs : List (Frame T)} (hfs : ∀ f ∈ fs, f.still = true) :
      Stands mem t b .entered (.userCode :: fs)
  | copied {data : ℕ} {fs : List (Frame T)} (hfs : ∀ f ∈ fs, f.still = true)
      (hmsg : Call.bytes mem ⟨0, t, data, b.length⟩ = b) : Stands mem t b (.copied data) (.userCode :: fs)
  | retrieved {data len : ℕ} {fs : List (Frame T)} (hfs : ∀ f ∈ fs, f.still = true) (hb : b = []) :
      Stands mem t b (.retrieved data len) (.userCode :: fs)
  | sending {f : Frame T} {fs : List (Frame T)} (hf : f.Sends t) (hfs : ∀ f ∈ fs, f.still = true)
      (hb : b = []) : Stands mem t b .sent (f :: .userCode :: fs)
  | sent {fs : List (Frame T)} (hfs : ∀ f ∈ fs, f.still = true) (hb : b = []) :
      Stands mem t b .sent (.userCode :: fs)

theorem flatMap_carried {fs : List (Frame T)} (hfs : ∀ f ∈ fs, f.still = true) :
    fs.flatMap (Frame.carried mem t) = [] :=
  List.flatMap_eq_nil_iff.mpr fun f hf ↦ Frame.carried_of_still (hfs f hf)

theorem pending_userCode {fs : List (Frame T)} (hfs : ∀ f ∈ fs, f.still = true) :
    pending mem t b m (.userCode :: fs) = m.carried mem t ++ b := by
  rw [pending, flatMap_carried (List.forall_mem_cons.mpr ⟨rfl, hfs⟩), List.nil_append]

theorem pending_sending {f : Frame T} {fs : List (Frame T)} (hfs : ∀ f ∈ fs, f.still = true) :
    pending mem t b .sent (f :: .userCode :: fs) = f.carried mem t ++ b := by
  rw [pending, List.flatMap_cons, flatMap_carried (List.forall_mem_cons.mpr ⟨rfl, hfs⟩)]
  simp only [List.append_nil, carried]

theorem next_of_roams {f : Frame T} (hf : f.roams = true) : m.next f = some m := by
  cases f <;> first | rfl | simp [Frame.roams] at hf

theorem next_of_sends {f : Frame T} (hf : f.Sends t) : m.next f = some m := by
  cases hf <;> rfl

inductive HandsOn (c : TcpConnection) (m : OnMessage) (obs : List (Obs T)) (p r p' : List Byte) : Prop
  | all (h : keptBytes obs ++ p' = p ++ r)
  | lost (hm : m ≠ .outside) (hk : keptBytes obs = []) (hp : p' = [])
      (hl : c.state_ ≠ .kConnected ∨ ∃ m, .dropped m ∈ obs)

variable [DecidableEq T] {e : Site T} {c : TcpConnection} {io : Reply} {f : Frame T}
  {fs : List (Frame T)}

omit [DecidableEq T] in
theorem next_outside (h : next .outside f = some m') (hf : f ≠ .messageCallback) : m' = .outside := by
  cases f with
  | messageCallback => exact absurd rfl hf
  | _ => exact (Option.some.inj h).symm

def Executes (e : Site T) (c : TcpConnection) (io : Reply) (f : Frame T) (fs : List (Frame T))
    (m m' : OnMessage) : Prop :=
  let o := f.exec e c io
  Stands e.mem e.thread o.conn.inputBuffer_.readable m' (o.frames ++ fs) ∧
    HandsOn c m o.obs (pending e.mem e.thread c.inputBuffer_.readable m (f :: fs))
      (if f = .handleRead then io.read.bytes else [])
      (pending e.mem e.thread o.conn.inputBuffer_.readable m' (o.frames ++ fs))

omit [DecidableEq T] in
theorem pending_outside {st : List (Frame T)} (hst : ∀ f ∈ st, f.still = true) :
    pending mem t b .outside st = b := by
  simp [pending, flatMap_carried hst, carried]

theorem executes_handleRead (hfs : ∀ g ∈ fs, g.still = true) (hb : c.inputBuffer_.readable = [])
    (hwf : c.inputBuffer_.WF) (hio : (Frame.handleRead : Frame T).Accepts e c io) :
    Executes e c io .handleRead fs .outside .outside := by
  have hall : ∀ r : TcpConnection.Reading, ∀ g ∈ Frame.readBranch r :: fs, g.still = true := by
    intro r
    refine List.forall_mem_cons.mpr ⟨?_, hfs⟩
    cases r <;> rfl
  have hbefore : ∀ g ∈ Frame.handleRead :: fs, g.still = true := List.forall_mem_cons.mpr ⟨rfl, hfs⟩
  have hinput : (c.handleRead io.read).1.inputBuffer_.readable = io.read.bytes ∧
      (io.read.bytes = [] ∨ (c.handleRead io.read).2 = .message) := by
    simp only [Frame.Accepts] at hio
    cases hres : io.read with
    | failed errno => exact ⟨hb, Or.inl rfl⟩
    | delivered d =>
      rw [hres] at hio
      obtain ⟨-, hread⟩ := hwf.readFd_delivered hio.1 0
      rw [hb, List.nil_append] at hread
      refine ⟨hread, ?_⟩
      by_cases hd : d = []
      · exact Or.inl hd
      · right
        have hpos : ((c.inputBuffer_.readFd 0 (.delivered d)).n : ℤ) > 0 := by
          rw [Buffer.readFd_n]
          exact_mod_cast List.length_pos_iff.mpr hd
        simp only [TcpConnection.handleRead, if_pos hpos]
  refine ⟨.outside (hall _) ?_, .all ?_⟩
  · refine hinput.2.imp (hinput.1.trans ·) fun hmessage ↦ ?_
    simp [Frame.exec, hmessage, Frame.readBranch]
  · rw [pending_outside hbefore, hb, if_pos rfl]
    refine Eq.trans (b := io.read.bytes) ?_ rfl
    exact (congrArg _ (pending_outside (hall _))).trans hinput.1

theorem executes_outside (hst : ∀ g ∈ f :: fs, g.still = true)
    (hb : c.inputBuffer_.readable = [] ∨ f = .messageCallback) (hr : f ≠ .handleRead)
    (hm : next .outside f = some m') : Executes e c io f fs .outside m' := by
  obtain ⟨hf, hfs⟩ := List.forall_mem_cons.mp hst
  have hin := (Frame.exec_turns e c io f).input hr
  by_cases hmc : f = .messageCallback
  · subst hmc
    obtain rfl := Option.some.inj hm
    refine ⟨.entered hfs, .all ?_⟩
    rw [pending_outside hst]
    exact (pending_userCode hfs).trans (List.append_nil _).symm
  · obtain rfl := next_outside hm hmc
    have hnil := hb.resolve_right hmc
    have hafter : ∀ g ∈ (f.exec e c io).frames ++ fs, g.still = true := fun g hg ↦
      (List.mem_append.mp hg).elim (Frame.exec_still hf) (hfs g)
    refine ⟨.outside hafter (Or.inl (hin ▸ hnil)), .all ?_⟩
    rw [pending_outside hst, pending_outside hafter, Frame.keptBytes_of_still hf, if_neg hr, hin, hnil]

theorem executes_sends (hf : f.Sends e.thread) (hfs : ∀ g ∈ fs, g.still = true)
    (hb : c.inputBuffer_.readable = []) (he : e.inLoop = true) (hio : f.Accepts e c io) :
    Executes e c io f (.userCode :: fs) .sent .sent := by
  have hr : f ≠ .handleRead := by
    rintro rfl
    cases hf
  have hin : (f.exec e c io).conn.inputBuffer_.readable = [] :=
    ((Frame.exec_turns e c io f).input hr) ▸ hb
  have hpending : ∀ g : Frame T, pending e.mem e.thread [] .sent (g :: .userCode :: fs) =
      g.carried e.mem e.thread := fun g ↦ (pending_sending hfs).trans (List.append_nil _)
  have hidle : pending e.mem e.thread [] .sent (.userCode :: fs) = [] := pending_userCode hfs
  rw [Executes, if_neg hr, hb, hpending]
  simp only [hin]
  cases hf.exec he hio with
  | moved g hg hframes hk hbytes =>
    rw [hframes, List.singleton_append]
    exact ⟨.sending hg hfs rfl, .all (by rw [hk, hpending, hbytes, List.nil_append, List.append_nil])⟩
  | kept hframes hk =>
    rw [hframes, List.nil_append]
    exact ⟨.sent hfs rfl, .all (by rw [hk, hidle])⟩
  | lost hframes hk hl =>
    rw [hframes, List.nil_append]
    exact ⟨.sent hfs rfl, .lost (by simp) hk hidle hl⟩

theorem Stands.executes (h : Stands e.mem e.thread c.inputBuffer_.readable m (f :: fs))
    (he : e.inLoop = true) (hwf : c.inputBuffer_.WF) (hio : f.Accepts e c io)
    (hm : m.next f = some m') : Executes e c io f fs m m' := by
  generalize hst : f :: fs = st at h
  cases h with
  | outside hstill hb =>
    subst hst
    by_cases hr : f = .handleRead
    · subst hr
      obtain rfl := Option.some.inj hm
      refine executes_handleRead (List.forall_mem_cons.mp hstill).2 (hb.resolve_right ?_) hwf hio
      exact fun h ↦ nomatch Option.some.inj h
    · exact executes_outside hstill (hb.imp_right Option.some.inj) hr hm
  | entered | copied | retrieved =>
    obtain ⟨rfl, rfl⟩ := List.cons.inj hst
    simp [next] at hm
  | sending hf hfs hb =>
    obtain ⟨rfl, rfl⟩ := List.cons.inj hst
    obtain rfl := Option.some.inj ((next_of_sends hf).symm.trans hm)
    exact executes_sends hf hfs hb he hio
  | sent hfs hb =>
    obtain ⟨rfl, rfl⟩ := List.cons.inj hst
    obtain rfl : OnMessage.outside = m' := by simpa [next] using hm
    refine ⟨.outside hfs (Or.inl hb), .all ?_⟩
    rw [pending_userCode hfs]
    exact (pending_outside hfs).trans (List.append_nil _).symm

omit [DecidableEq T] in
theorem Stands.still_or_sends {st : List (Frame T)} (h : Stands mem t b m st) {g : Frame T}
    (hg : g ∈ st) : g.still = true ∨ g.Sends t := by
  cases h with
  | outside hst => exact Or.inl (hst g hg)
  | entered hfs | copied hfs | retrieved hfs | sent hfs =>
    exact Or.inl ((List.mem_cons.mp hg).elim (fun h ↦ h ▸ rfl) (hfs g))
  | sending hf hfs =>
    rcases List.mem_cons.mp hg with rfl | hg
    · exact Or.inr hf
    · exact Or.inl ((List.mem_cons.mp hg).elim (fun h ↦ h ▸ rfl) (hfs g))

omit [DecidableEq T] in
theorem Stands.outside_of_nil (h : Stands mem t b m ([] : List (Frame T))) : m = .outside := by
  generalize hst : ([] : List (Frame T)) = st at h
  cases h with
  | outside => rfl
  | _ => exact nomatch hst

omit [DecidableEq T] in
theorem Stands.of_entered {st : List (Frame T)} (h : Stands mem t b .entered st) :
    ∃ fs, st = .userCode :: fs ∧ ∀ f ∈ fs, f.still = true := by
  cases h with
  | entered hfs => exact ⟨_, rfl, hfs⟩

omit [DecidableEq T] in
theorem Stands.of_copied {data : ℕ} {st : List (Frame T)} (h : Stands mem t b (.copied data) st) :
    ∃ fs, st = .userCode :: fs ∧ (∀ f ∈ fs, f.still = true) ∧
      Call.bytes mem ⟨0, t, data, b.length⟩ = b := by
  cases h with
  | copied hfs hmsg => exact ⟨_, rfl, hfs, hmsg⟩

omit [DecidableEq T] in
theorem Stands.of_retrieved {data len : ℕ} {st : List (Frame T)}
    (h : Stands mem t b (.retrieved data len) st) :
    ∃ fs, st = .userCode :: fs ∧ (∀ f ∈ fs, f.still = true) ∧ b = [] := by
  cases h with
  | retrieved hfs hb => exact ⟨_, rfl, hfs, hb⟩

omit [DecidableEq T] in
theorem Stands.of_sent {st : List (Frame T)} (h : Stands mem t b .sent st)
    (hout : ∀ f fs, st = f :: fs → ¬ f.Sends t) :
    ∃ fs, st = .userCode :: fs ∧ (∀ f ∈ fs, f.still = true) ∧ b = [] := by
  cases h with
  | sending hf => exact absurd hf (hout _ _ rfl)
  | sent hfs hb => exact ⟨_, rfl, hfs, hb⟩

omit [DecidableEq T] in
theorem Stands.of_outside {st : List (Frame T)} (h : Stands mem t b .outside st) :
    (∀ f ∈ st, f.still = true) ∧ (b = [] ∨ st.head? = some .messageCallback) := by
  cases h with
  | outside hst hb => exact ⟨hst, hb⟩

omit [DecidableEq T] in
theorem Stands.congr_mem {st : List (Frame T)} (h : Stands mem t b m st) {mem' : T → ℕ → Byte}
    (hmem : ∀ m : Call T, m.thread = t → m.bytes mem' = m.bytes mem) :
    Stands mem' t b m st ∧ pending mem' t b m st = pending mem t b m st := by
  cases h with
  | outside hst hb =>
    exact ⟨.outside hst hb, by rw [pending_outside hst, pending_outside hst]⟩
  | entered hfs => exact ⟨.entered hfs, by rw [pending_userCode hfs, pending_userCode hfs]; rfl⟩
  | copied hfs hmsg =>
    refine ⟨.copied hfs ((hmem _ rfl).trans hmsg), ?_⟩
    rw [pending_userCode hfs, pending_userCode hfs]
    rfl
  | retrieved hfs hb =>
    refine ⟨.retrieved hfs hb, ?_⟩
    rw [pending_userCode hfs, pending_userCode hfs]
    exact congrArg (· ++ b) (hmem _ rfl)
  | sending hf hfs hb =>
    refine ⟨.sending hf hfs hb, ?_⟩
    have hbytes : ∀ f : Frame T, f.Sends t → f.carried mem' t = f.carried mem t := by
      intro f hf
      cases hf with
      | send => exact hmem _ rfl
      | sendInLoop m hm | writeOrBuffer m hm => exact hmem m hm
    rw [pending_sending hfs, pending_sending hfs, hbytes _ hf]
  | sent hfs hb => exact ⟨.sent hfs hb, by rw [pending_userCode hfs, pending_userCode hfs]; rfl⟩

end OnMessage

end Mymuduo
