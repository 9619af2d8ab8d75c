import Mymuduo.Establishment

namespace Mymuduo

open Foundation.Machine

variable {T : Type}

/-- What the user has been told once `state_` has a value. -/
def StateE.heard : StateE → List Bool
  | .kConnecting => []
  | .kConnected | .kDisconnecting => [true]
  | .kDisconnected => [true, false]

def flagsOf (tr : List (Obs T)) : List Bool :=
  tr.filterMap fun | .connectionCallback b => some b | _ => none

theorem flagsOf_append (p q : List (Obs T)) : flagsOf (p ++ q) = flagsOf p ++ flagsOf q :=
  List.filterMap_append

theorem flagsOf_eq_nil {tr : List (Obs T)} (h : ∀ b, .connectionCallback b ∉ tr) : flagsOf tr = [] := by
  rw [flagsOf, List.filterMap_eq_nil_iff]
  intro o ho
  cases o with
  | connectionCallback b => exact absurd ho (h b)
  | _ => rfl

def ReadResult.hasFailed : ReadResult → Bool
  | .delivered _ => false
  | .failed _ => true

namespace Frame

/-- The frames that run as soon as they are pushed. -/
def prompt : Frame T → Bool
  | .connectionCallback | .messageCallback | .destroyConnected | .setDisconnecting | .handleClose
  | .handleEvent _ | .writeOrBuffer _ => true
  | _ => false

def fits (st : StateE) : Frame T → Prop
  | .setDisconnecting | .destroyConnected => st = .kConnected
  | .handleClose | .handleEvent _ | .messageCallback | .writeOrBuffer _ => st ≠ .kDisconnected
  | _ => True

/-- The frames of an event that can still close the connection. -/
def ofEvent : Frame T → Bool
  | .handleEvent _ | .handleRead | .handleClose => true
  | _ => false

def announces : Frame T → Bool
  | .functor .connectEstablished | .destroyConnected | .handleClose => true
  | _ => false

def unheard (st : StateE) : List (Frame T) → List Bool
  | .connectionCallback :: _ => [st = .kConnected]
  | _ => []

/-- `connectDestroyed` does not find `kDisconnecting`, which its test for
`kConnected` passes over, and nothing is read from a connection that is closed. -/
def Heeds (c : TcpConnection) (io : Reply) : Frame T → Prop
  | .functor .connectDestroyed => c.state_ ≠ .kDisconnecting
  | .handleRead => c.state_ = .kDisconnected → io.read.hasFailed = true
  | _ => True

theorem heeds_iff {c : TcpConnection} {io : Reply} {f : Frame T} : f.Heeds c io ↔
    (f = .functor .connectDestroyed → c.state_ ≠ .kDisconnecting) ∧
      (f = .handleRead → c.state_ = .kDisconnected → io.read.hasFailed = true) := by
  cases f with
  | functor cb => cases cb <;> simp [Heeds]
  | _ => simp [Heeds]

instance [DecidableEq T] (c : TcpConnection) (io : Reply) (f : Frame T) : Decidable (f.Heeds c io) :=
  decidable_of_iff _ heeds_iff.symm

structure Timely (st : StateE) (f : Frame T) : Prop where
  late : f.late = true → st ≠ .kConnecting
  established : f = .functor .connectEstablished → st = .kConnecting
  destroyed : f = .functor .connectDestroyed → st ≠ .kConnecting

variable {e : Site T} {c : TcpConnection} {io : Reply} {f : Frame T} {fs : List (Frame T)} {st : StateE}

theorem fits_of_not_prompt (h : f.prompt = false) : f.fits st := by
  cases f <;> simp_all [prompt, fits]

theorem unheard_eq_nil (h : .connectionCallback ∉ fs) : unheard st fs = [] := by
  cases fs with
  | nil => rfl
  | cons g gs =>
    cases g with
    | connectionCallback => exact absurd List.mem_cons_self h
    | _ => rfl

theorem not_mem_of_prompt (hfs : ∀ g ∈ fs, g.prompt = false) (hf : f.prompt = true) : f ∉ fs := by
  intro hmem
  simp [hfs f hmem] at hf

theorem prompt_dispatch (revents : BitVec 32) :
    ∀ g ∈ (dispatch revents : List (Frame T)).tail, g.prompt = false := by
  intro g hg
  have hrest : g ∈ (if revents &&& EPOLLERR != 0 then [.handleError] else []) ++
      (if revents &&& (EPOLLIN ||| EPOLLPRI) != 0 then [.handleRead] else []) ++
      (if revents &&& EPOLLOUT != 0 then [.handleWrite] else []) := by
    simp only [dispatch, List.append_assoc] at hg ⊢
    split at hg
    · simpa using hg
    · exact List.mem_of_mem_tail hg
  simp only [List.mem_append] at hrest
  rcases hrest with (hg | hg) | hg <;> split at hg <;> simp_all [prompt]

variable (e c io) in
theorem exec_prompt (f : Frame T) : ∀ g ∈ (f.exec e c io).frames.tail, g.prompt = false := by
  intro g hg
  cases f with
  | handleEvent revents => exact prompt_dispatch revents g hg
  | functor cb =>
    cases cb with
    | connectDestroyed =>
      simp only [exec, execFunctor] at hg
      split at hg
      · obtain rfl : g = .removeChannel := by simpa using hg
        rfl
      · simp at hg
    | sendInLoop m =>
      simp only [exec, execFunctor] at hg
      split at hg <;> simp at hg
    | _ => simp [exec, execFunctor] at hg
  | handleClose =>
    obtain rfl : g = .closeCallback := by simpa [exec] using hg
    rfl
  | send | shutdown | handleWrite | drained | closeCallback =>
    simp only [exec] at hg
    split at hg <;> simp at hg
  | _ => simp [exec] at hg

theorem handleRead_error (hr : io.read.hasFailed = true) : (c.handleRead io.read).2 = .error := by
  cases hread : io.read with
  | delivered d => simp [hread, ReadResult.hasFailed] at hr
  | failed errno => simp [TcpConnection.handleRead, Buffer.readFd]

theorem exec_fits (hf : f.fits c.state_) (hh : f.Heeds c io) {g : Frame T}
    (hg : g ∈ (f.exec e c io).frames) : g.fits (f.exec e c io).conn.state_ := by
  have hread : f = .handleRead → (c.handleRead io.read).2 ≠ .error → c.state_ ≠ .kDisconnected := by
    rintro rfl hne hst
    exact hne (handleRead_error (hh hst))
  cases exec_next hg with
  | shutdown hc => exact hc
  | destroyConnected hc => exact hc
  | sendInLoop m hc =>
    have hconn : (exec e c io (.functor (.sendInLoop m))).conn = c := by
      simp [exec, execFunctor, hc]
    rwa [hconn]
  | eventClose => exact hf
  | readMessage hr => exact hread rfl (by simp [hr])
  | readClose hr => exact hread rfl (by simp [hr])
  | connectEstablished | destroyed | closed => trivial
  | _ => exact fits_of_not_prompt rfl

/-- Closing is for good: no frame that is pushed as it should be leaves `kDisconnected`. -/
theorem exec_disconnected (hf : f.fits c.state_) (ht : f.Timely c.state_)
    (hc : c.state_ = .kDisconnected) : (f.exec e c io).conn.state_ = .kDisconnected := by
  rcases (exec_turns e c io f).state with
    heq | ⟨rfl, -⟩ | ⟨rfl, -⟩ | ⟨-, heq⟩
  · exact heq.trans hc
  · simpa [hc] using ht.established rfl
  · simp [fits, hc] at hf
  · exact heq

theorem flags_exec (hf : f ≠ .connectionCallback) : flagsOf (f.exec e c io).obs = [] := by
  apply flagsOf_eq_nil
  intro b hb
  cases exec_shows hb with
  | connectionCallback => exact hf rfl

theorem unheard_exec (hf : f.announces = false) (hfs : ∀ g ∈ fs, g.prompt = false) :
    unheard st ((f.exec e c io).frames ++ fs) = [] := by
  apply unheard_eq_nil
  intro hmem
  rcases List.mem_append.mp hmem with hmem | hmem
  · cases exec_next hmem with
    | connectEstablished | destroyed | closed => simp [announces] at hf
  · exact not_mem_of_prompt hfs rfl hmem

theorem heard_exec (hf : f.fits c.state_) (ha : f.announces = false) :
    (f.exec e c io).conn.state_.heard = c.state_.heard := by
  rcases (exec_turns e c io f).state with
    heq | ⟨rfl, -⟩ | ⟨rfl, heq⟩ | ⟨rfl | rfl, -⟩
  · rw [heq]
  · simp [announces] at ha
  · have hc : c.state_ = .kConnected := hf
    rw [heq, hc]
    rfl
  all_goals simp [announces] at ha

/-- The user is told of each state once: what he has heard and what he is about to
hear is what the state says. -/
theorem exec_tells (hf : f.fits c.state_) (ht : f.Timely c.state_)
    (hfs : ∀ g ∈ fs, g.prompt = false) {x : List Bool}
    (h : x ++ unheard c.state_ (f :: fs) = c.state_.heard) :
    x ++ flagsOf (f.exec e c io).obs ++
      unheard (f.exec e c io).conn.state_ ((f.exec e c io).frames ++ fs) =
        (f.exec e c io).conn.state_.heard := by
  by_cases hcb : f = .connectionCallback
  · subst hcb
    simpa [exec, flagsOf, unheard] using h
  · have hx : x = c.state_.heard := by
      have hnil : unheard c.state_ (f :: fs) = [] := by
        cases f <;> simp_all [unheard]
      rwa [hnil, List.append_nil] at h
    rw [flags_exec hcb, List.append_nil]
    by_cases ha : f.announces = true
    · have hdown : (∃ gs, (f.exec e c io).frames = .connectionCallback :: gs) := by
        cases f with
        | functor cb => cases cb <;> simp_all [announces, exec, execFunctor]
        | _ => simp_all [announces, exec]
      obtain ⟨gs, hgs⟩ := hdown
      rw [hgs, List.cons_append, unheard, hx]
      cases f with
      | functor cb =>
        cases cb with
        | connectEstablished =>
          rw [ht.established rfl]
          rfl
        | _ => simp [announces] at ha
      | destroyConnected =>
        have hc : c.state_ = .kConnected := hf
        rw [hc]
        rfl
      | handleClose =>
        have hc : c.state_ ≠ .kDisconnected := hf
        have hc' := ht.late rfl
        cases hst : c.state_ <;> first | rfl | contradiction
      | _ => simp [announces] at ha
    · rw [Bool.not_eq_true] at ha
      rw [unheard_exec ha hfs, List.append_nil, heard_exec hf ha, hx]

end Frame

/-- The channel is in the epoll set while the connection is open, and out of it
once it is closed. -/
structure TcpConnection.Attended (c : TcpConnection) : Prop where
  sound : c.reg.Sound
  wired : c.state_ = .kConnected ∨ c.state_ = .kDisconnecting → c.reg.Wired
  idle : c.state_ = .kDisconnected → c.isWriting = false ∧ c.reg.isRegistered = false

namespace TcpConnection.Attended

variable {c d : TcpConnection}

theorem ofFd (fd : ℕ) (wc hw : Bool) (mark : ℕ) : (TcpConnection.ofFd fd wc hw mark).Attended :=
  ⟨Registration.ofFd_sound () fd, by simp [TcpConnection.ofFd], by simp [TcpConnection.ofFd]⟩

theorem of_open (hc : c.Attended) (h : c.state_ ≠ .kConnecting) (h' : c.state_ ≠ .kDisconnected) :
    c.reg.Wired := by
  apply hc.wired
  cases hst : c.state_ <;> simp_all

theorem congr (hc : c.Attended) (hst : d.state_ = c.state_) (hreg : d.reg = c.reg) : d.Attended := by
  refine ⟨?_, ?_, ?_⟩
  · rw [hreg]
    exact hc.sound
  · rw [hst, hreg]
    exact hc.wired
  · rw [hst, TcpConnection.isWriting, hreg]
    exact hc.idle

theorem rewired (hc : c.Attended) (hst : d.state_ = c.state_) (hne : c.state_ ≠ .kDisconnected)
    {e : BitVec 32} (hreg : d.reg = c.reg.setEvents e) (hw : c.reg.Wired → d.reg.Wired) :
    d.Attended := by
  refine ⟨?_, ?_, ?_⟩
  · rw [hreg]
    exact hc.sound.setEvents e
  · rw [hst]
    exact fun h ↦ hw (hc.wired h)
  · rw [hst]
    exact fun h ↦ absurd h hne

theorem closed (hc : c.Attended) (hw : c.reg.Wired) :
    ((c.setState .kDisconnected).disableAll).Attended := by
  refine ⟨hc.sound.setEvents _, ?_, fun _ ↦ ⟨?_, ?_⟩⟩
  · simp [TcpConnection.setState, TcpConnection.disableAll]
  · exact TcpConnection.isWriting_disableAll
  · exact Registration.disableAll_unregistered hc.sound hw.1

end TcpConnection.Attended

namespace Frame

variable {e : Site T} {c d : TcpConnection} {io : Reply} {f : Frame T}

theorem Turns.attended (h : Turns e c io f d) (hc : c.Attended) (hf : f.fits c.state_)
    (ht : f.Timely c.state_) (hr : f ≠ .removeChannel) : d.Attended := by
  cases h with
  | same => exact hc
  | established =>
    refine ⟨hc.sound.setEvents _, fun _ ↦ Registration.wired_enableReading, ?_⟩
    simp [TcpConnection.setState, TcpConnection.enableReading]
  | disconnecting =>
    refine ⟨hc.sound, fun _ ↦ hc.wired (Or.inl hf), ?_⟩
    simp [TcpConnection.setState]
  | destroyed => exact hc.closed (hc.wired (Or.inl hf))
  | closed => exact hc.closed (hc.of_open (ht.late rfl) hf)
  | removed => exact absurd rfl hr
  | sent m =>
    have hst : (c.sendInLoop (message e c io m) io.write io.errno).conn.state_ = c.state_ :=
      TcpConnection.state_sendInLoop
    rcases TcpConnection.reg_sendInLoop with hreg | hreg
    · exact hc.congr hst hreg
    · exact hc.rewired hst hf hreg fun hw ↦ hreg ▸ hw.enableWriting
  | written =>
    have hst := TcpConnection.state_handleWrite (c := c) (w := io.write)
    rcases TcpConnection.reg_handleWrite (c := c) (w := io.write) with hreg | ⟨hw, hreg⟩
    · exact hc.congr hst hreg
    · refine hc.rewired hst (fun hdis ↦ ?_) hreg fun hw ↦ hreg ▸ hw.disableWriting
      simp [(hc.idle hdis).1] at hw
  | read => exact hc.congr rfl rfl

end Frame

def StateE.closings : StateE → ℕ
  | .kDisconnected => 1
  | _ => 0

def Frame.outer : Frame T → Bool
  | .send _ _ | .shutdown | .functor _ | .queueInLoop _ | .removeConnectionInLoop | .handleEvent _ => true
  | _ => false

def Untold (o : List (Obs T)) : Prop :=
  (∀ b, .connectionCallback b ∉ o) ∧ .messageCallback ∉ o ∧ .closeCallback ∉ o

structure Stacked (st : StateE) (fs : List (Frame T)) : Prop where
  prompt : ∀ f ∈ fs.tail, f.prompt = false
  fits : ∀ f ∈ fs, f.fits st
  destroying : .destroyConnected ∈ fs → .removeChannel ∈ fs
  removing : .removeChannel ∈ fs → st = .kDisconnected ∨ .destroyConnected ∈ fs

structure Watched (st : StateE) (r : Option (BitVec 32)) (fs : List (Frame T)) : Prop where
  ready : st = .kDisconnected → r = none ∨ .removeChannel ∈ fs
  handled : ∀ f ∈ fs, f.ofEvent = true → r = none

structure Told [DecidableEq T] (st : StateE) (tr : List (Obs T)) (fs : List (Frame T)) : Prop where
  flags : flagsOf tr ++ Frame.unheard st fs = st.heard
  closes : tr.count .closeCallback + fs.count .closeCallback ≤ st.closings
  messages : ∀ x y, tr = x ++ .messageCallback :: y → flagsOf x = [true]

namespace Frame

variable {e : Site T} {c : TcpConnection} {io : Reply} {f : Frame T} {fs : List (Frame T)}
  {st : StateE} {ready : Option (BitVec 32)} {tr o : List (Obs T)}

theorem fits_of_outer (hf : f.outer = true) (hst : st ≠ .kDisconnected) : f.fits st := by
  cases f <;> simp_all [outer, fits]

theorem exec_removes_channel (h : .removeChannel ∈ (f.exec e c io).frames) :
    f = .functor .connectDestroyed := by
  cases exec_next h with
  | removeChannel => rfl

theorem exec_destroys (h : .destroyConnected ∈ (f.exec e c io).frames) :
    f = .functor .connectDestroyed ∧ c.state_ = .kConnected := by
  cases exec_next h with
  | destroyConnected hc => exact ⟨rfl, hc⟩

theorem exec_ofEvent {g : Frame T} (hg : g ∈ (f.exec e c io).frames) (h : g.ofEvent = true) :
    f.ofEvent = true := by
  cases exec_next hg with
  | eventClose | eventRead | readClose => rfl
  | _ => simp [ofEvent] at h

theorem Turns.eq_of_roams {d : TcpConnection} (h : Turns e c io f d) (hf : f.roams = true)
    (hne : f ≠ .setDisconnecting) : d = c := by
  cases h with
  | same => rfl
  | disconnecting => exact absurd rfl hne
  | _ => simp [roams] at hf

variable (e c io) in
theorem exec_away (hf : f.roams = true) (hne : f ≠ .shutdown ∧ f ≠ .setDisconnecting) :
    (f.exec e c io).conn = c ∧ Untold (f.exec e c io).obs ∧
      ∀ g ∈ (f.exec e c io).frames, g ≠ .shutdown ∧ g ≠ .setDisconnecting := by
  refine ⟨(exec_turns e c io f).eq_of_roams hf hne.2, ⟨fun b hb ↦ ?_, fun hb ↦ ?_, fun hb ↦ ?_⟩,
    fun g hg ↦ ⟨?_, ?_⟩⟩
  · cases exec_shows hb with
    | connectionCallback => simp [roams] at hf
  · cases exec_shows hb with
    | messageCallback => simp [roams] at hf
  · cases exec_shows hb with
    | closeCallback => simp [roams] at hf
  · rintro rfl
    cases exec_next hg
  · rintro rfl
    cases exec_next hg with
    | shutdown => exact hne.1 rfl

variable [DecidableEq T]

variable (e c io) in
theorem exec_closings (f : Frame T) :
    (f.exec e c io).obs.count .closeCallback + (f.exec e c io).frames.count .closeCallback =
      (if f = .closeCallback then 1 else 0) + (if f = .handleClose then 1 else 0) := by
  by_cases hcc : f = .closeCallback
  · subst hcc
    simp only [exec]
    split <;> simp
  · have hobs : (f.exec e c io).obs.count .closeCallback = 0 := by
      refine List.count_eq_zero.mpr fun h ↦ ?_
      cases exec_shows h with
      | closeCallback => exact hcc rfl
    by_cases hhc : f = .handleClose
    · subst hhc
      simp [exec]
    · have hframes : (f.exec e c io).frames.count .closeCallback = 0 := by
        refine List.count_eq_zero.mpr fun h ↦ ?_
        cases exec_next h with
        | closing => exact hhc rfl
      simp [hobs, hframes, hcc, hhc]

end Frame

variable {e : Site T} {c : TcpConnection} {io : Reply} {f : Frame T} {fs : List (Frame T)}
  {st : StateE} {r : Option (BitVec 32)} {tr o : List (Obs T)}

namespace Stacked

theorem head (hs : Stacked st (f :: fs)) : f.fits st := hs.fits f List.mem_cons_self

theorem not_mem_rest (hs : Stacked st (f :: fs)) {g : Frame T} (hg : g.prompt = true) : g ∉ fs :=
  Frame.not_mem_of_prompt hs.prompt hg

theorem exec (hs : Stacked c.state_ (f :: fs)) (hh : f.Heeds c io) (ht : f.Timely c.state_) :
    Stacked (f.exec e c io).conn.state_ ((f.exec e c io).frames ++ fs) := by
  refine ⟨fun g hg ↦ ?_, fun g hg ↦ ?_, fun hd ↦ ?_, fun hr ↦ ?_⟩
  · cases hfr : (f.exec e c io).frames with
    | nil =>
      rw [hfr, List.nil_append] at hg
      exact hs.prompt g (List.mem_of_mem_tail hg)
    | cons k ks =>
      rw [hfr, List.cons_append, List.tail_cons, List.mem_append] at hg
      rcases hg with hg | hg
      · apply Frame.exec_prompt e c io f g
        rwa [hfr]
      · exact hs.prompt g hg
  · rcases List.mem_append.mp hg with hg | hg
    · exact Frame.exec_fits hs.head hh hg
    · exact Frame.fits_of_not_prompt (hs.prompt g hg)
  · rcases List.mem_append.mp hd with hd | hd
    · obtain ⟨rfl, hc⟩ := Frame.exec_destroys hd
      simp [Frame.exec, Frame.execFunctor, hc]
    · exact absurd hd (hs.not_mem_rest rfl)
  · rcases List.mem_append.mp hr with hr | hr
    · obtain rfl := Frame.exec_removes_channel hr
      have hborn := ht.destroyed rfl
      have hheed : c.state_ ≠ .kDisconnecting := hh
      cases hst : c.state_ with
      | kConnected => simp [Frame.exec, Frame.execFunctor, hst]
      | kDisconnected => exact Or.inl hst
      | kConnecting | kDisconnecting => contradiction
    · rcases hs.removing (List.mem_cons_of_mem f hr) with hst | hd
      · exact Or.inl (Frame.exec_disconnected hs.head ht hst)
      · obtain rfl | hd := List.mem_cons.mp hd
        · exact Or.inl rfl
        · exact absurd hd (hs.not_mem_rest rfl)

theorem push (hs : Stacked st fs) (hfs : ∀ g ∈ fs, g.prompt = false) (hf : f.outer = true)
    (hfit : f.fits st) : Stacked st (f :: fs) := by
  have hd : f ≠ .destroyConnected := by
    rintro rfl
    simp [Frame.outer] at hf
  have hr : f ≠ .removeChannel := by
    rintro rfl
    simp [Frame.outer] at hf
  refine ⟨hfs, ?_, fun h ↦ ?_, fun h ↦ ?_⟩
  · rw [List.forall_mem_cons]
    exact ⟨hfit, hs.fits⟩
  · rcases List.mem_cons.mp h with h | h
    · exact absurd h.symm hd
    · exact List.mem_cons_of_mem f (hs.destroying h)
  · rcases List.mem_cons.mp h with h | h
    · exact absurd h.symm hr
    · exact (hs.removing h).imp_right (List.mem_cons_of_mem f)

end Stacked

namespace Watched

theorem exec (hw : Watched c.state_ r (f :: fs)) (hs : Stacked c.state_ (f :: fs))
    (ht : f.Timely c.state_) (hr : f ≠ .removeChannel) :
    Watched (f.exec e c io).conn.state_ r ((f.exec e c io).frames ++ fs) := by
  refine ⟨fun hst ↦ ?_, fun g hg hev ↦ ?_⟩
  · have hkeep : .removeChannel ∈ f :: fs → r = none ∨
        .removeChannel ∈ (f.exec e c io).frames ++ fs := by
      intro hin
      rcases List.mem_cons.mp hin with hin | hin
      · exact absurd hin.symm hr
      · exact Or.inr (List.mem_append_right _ hin)
    rcases (Frame.exec_turns e c io f).state with
      heq | ⟨-, heq⟩ | ⟨-, heq⟩ | ⟨hf, -⟩
    · exact (hw.ready (heq ▸ hst)).elim Or.inl hkeep
    · simp [heq] at hst
    · simp [heq] at hst
    · rcases hf with rfl | rfl
      · exact hkeep (hs.destroying List.mem_cons_self)
      · exact Or.inl (hw.handled _ List.mem_cons_self rfl)
  · rcases List.mem_append.mp hg with hg | hg
    · exact hw.handled f List.mem_cons_self (Frame.exec_ofEvent hg hev)
    · exact hw.handled g (List.mem_cons_of_mem f hg) hev

theorem push (hw : Watched st r fs)
    (hev : f.ofEvent = true → r = none) : Watched st r (f :: fs) := by
  refine ⟨fun hst ↦ (hw.ready hst).imp_right (List.mem_cons_of_mem f), ?_⟩
  rw [List.forall_mem_cons]
  exact ⟨hev, hw.handled⟩

end Watched

namespace Told

variable [DecidableEq T]

theorem exec (hc : Told c.state_ tr (f :: fs)) (hs : Stacked c.state_ (f :: fs))
    (ht : f.Timely c.state_) :
    Told (f.exec e c io).conn.state_ (tr ++ (f.exec e c io).obs) ((f.exec e c io).frames ++ fs) := by
  refine ⟨?_, ?_, fun x y hsplit ↦ ?_⟩
  · rw [flagsOf_append]
    exact Frame.exec_tells hs.head ht hs.prompt hc.flags
  · have hold := hc.closes
    have hnew := Frame.exec_closings e c io f
    rw [List.count_cons] at hold
    rw [List.count_append, List.count_append]
    by_cases hf : f = .handleClose
    · subst hf
      have hst : c.state_ ≠ .kDisconnected := hs.head
      have hzero : c.state_.closings = 0 := by
        cases h : c.state_ <;> first | rfl | contradiction
      have hone : (Frame.exec e c io .handleClose).conn.state_.closings = 1 := rfl
      simp only [reduceCtorEq, if_false, if_true] at hnew
      omega
    · have hmono : c.state_.closings ≤ (f.exec e c io).conn.state_.closings := by
        cases h : c.state_ with
        | kDisconnected => rw [Frame.exec_disconnected hs.head ht h]
        | _ => exact Nat.zero_le _
      rw [if_neg hf] at hnew
      simp only [beq_iff_eq] at hold
      omega
  · rcases append_eq_split hsplit with ⟨z, htr, -⟩ | ⟨z, hx, hq⟩
    · exact hc.messages x z htr
    · have hmem : .messageCallback ∈ (f.exec e c io).obs :=
        hq ▸ List.mem_append_right z List.mem_cons_self
      cases Frame.exec_shows hmem with
      | messageCallback =>
        obtain rfl : z = [] := by
          cases z <;> simp_all [Frame.exec]
        have hflags := hc.flags
        have hlate := ht.late rfl
        have hfit : c.state_ ≠ .kDisconnected := hs.head
        rw [hx, List.append_nil]
        simp only [Frame.unheard, List.append_nil] at hflags
        rw [hflags]
        cases h : c.state_ <;> first | rfl | contradiction

theorem push (hc : Told st tr fs) (hfs : ∀ g ∈ fs, g.prompt = false) (hf : f.outer = true) :
    Told st tr (f :: fs) := by
  have hold : Frame.unheard st fs = [] := Frame.unheard_eq_nil (Frame.not_mem_of_prompt hfs rfl)
  have hnew : Frame.unheard st (f :: fs) = [] := by
    cases f <;> simp_all [Frame.outer, Frame.unheard]
  have hne : f ≠ .closeCallback := by
    rintro rfl
    simp [Frame.outer] at hf
  refine ⟨?_, ?_, hc.messages⟩
  · rw [hnew, ← hold]
    exact hc.flags
  · rw [List.count_cons_of_ne hne]
    exact hc.closes

theorem untold (hc : Told st tr fs) (ho : Untold o) : Told st (tr ++ o) fs := by
  refine ⟨?_, ?_, fun x y hsplit ↦ ?_⟩
  · rw [flagsOf_append, flagsOf_eq_nil ho.1, List.append_nil]
    exact hc.flags
  · rw [List.count_append, List.count_eq_zero.mpr ho.2.2]
    exact hc.closes
  · rcases append_eq_split hsplit with ⟨z, htr, -⟩ | ⟨z, -, hq⟩
    · exact hc.messages x z htr
    · exact absurd (hq ▸ List.mem_append_right z List.mem_cons_self) ho.2.1

end Told

end Mymuduo
