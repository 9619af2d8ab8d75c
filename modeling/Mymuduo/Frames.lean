import Mymuduo.Execution

namespace Mymuduo.Frame

variable {T : Type} {e : Site T} {c d : TcpConnection} {io : Reply} {f : Frame T}

/-- The frames that a frame leads to. -/
inductive Next (e : Site T) (c : TcpConnection) (io : Reply) : Frame T → Frame T → Prop
  | sendHere (data len : ℕ) (hc : c.state_ = .kConnected) (he : e.inLoop = true) :
      Next e c io (.send data len) (.functor (.sendInLoop ⟨e.passed, e.thread, data, len⟩))
  | sendAway (data len : ℕ) (hc : c.state_ = .kConnected) (he : e.inLoop = false) :
      Next e c io (.send data len) (.queueInLoop (.sendInLoop ⟨e.passed, e.thread, data, len⟩))
  | shutdown (hc : c.state_ = .kConnected) : Next e c io .shutdown .setDisconnecting
  | shutdownHere (he : e.inLoop = true) : Next e c io .setDisconnecting (.functor .shutdownInLoop)
  | shutdownAway (he : e.inLoop = false) : Next e c io .setDisconnecting (.queueInLoop .shutdownInLoop)
  | connectEstablished : Next e c io (.functor .connectEstablished) .connectionCallback
  | destroyConnected (hc : c.state_ = .kConnected) :
      Next e c io (.functor .connectDestroyed) .destroyConnected
  | removeChannel : Next e c io (.functor .connectDestroyed) .removeChannel
  | sendInLoop (m : Call T) (hc : c.state_ ≠ .kDisconnected) :
      Next e c io (.functor (.sendInLoop m)) (.writeOrBuffer m)
  | notify (n : Notice) : Next e c io (.functor (.notify n)) .userCode
  | foreign (k : ℕ) : Next e c io (.functor (.foreign k)) .userCode
  | destroyed : Next e c io .destroyConnected .connectionCallback
  | eventClose (revents : BitVec 32) : Next e c io (.handleEvent revents) .handleClose
  | eventError (revents : BitVec 32) : Next e c io (.handleEvent revents) .handleError
  | eventRead (revents : BitVec 32) : Next e c io (.handleEvent revents) .handleRead
  | eventWrite (revents : BitVec 32) : Next e c io (.handleEvent revents) .handleWrite
  | readMessage (hr : (c.handleRead io.read).2 = .message) : Next e c io .handleRead .messageCallback
  | readClose (hr : (c.handleRead io.read).2 = .close) : Next e c io .handleRead .handleClose
  | readError (hr : (c.handleRead io.read).2 = .error) : Next e c io .handleRead .handleError
  | handleWrite (hd : (c.handleWrite io.write).2 = true) : Next e c io .handleWrite .drained
  | drained (hc : c.state_ = .kDisconnecting) : Next e c io .drained (.functor .shutdownInLoop)
  | closed : Next e c io .handleClose .connectionCallback
  | closing : Next e c io .handleClose .closeCallback
  | connectionCallback : Next e c io .connectionCallback .userCode
  | messageCallback : Next e c io .messageCallback .userCode
  | closeCallback (he : e.inBase = true) : Next e c io .closeCallback .removeConnectionInLoop
  | removeConnectionInLoop : Next e c io .removeConnectionInLoop (.queueInLoop .connectDestroyed)

theorem mem_dispatch {revents : BitVec 32} {g : Frame T} (hg : g ∈ dispatch revents) :
    g = .handleClose ∨ g = .handleError ∨ g = .handleRead ∨ g = .handleWrite := by
  simp only [dispatch, List.mem_append] at hg
  rcases hg with ((hg | hg) | hg) | hg <;> split at hg <;> simp_all

theorem exec_next {g : Frame T} (hg : g ∈ (f.exec e c io).frames) : Next e c io f g := by
  cases f with
  | functor cb =>
    cases cb with
    | connectEstablished =>
      obtain rfl := List.mem_singleton.mp hg
      exact .connectEstablished
    | connectDestroyed =>
      simp only [exec, execFunctor] at hg
      split at hg
      · next hc =>
        rcases List.mem_pair.mp hg with rfl | rfl
        · exact .destroyConnected hc
        · exact .removeChannel
      · obtain rfl := List.mem_singleton.mp hg
        exact .removeChannel
    | sendInLoop m =>
      simp only [exec, execFunctor] at hg
      split at hg
      · simp at hg
      · next hc =>
        obtain rfl := List.mem_singleton.mp hg
        exact .sendInLoop m hc
    | shutdownInLoop => simp [exec, execFunctor] at hg
    | notify n =>
      obtain rfl := List.mem_singleton.mp hg
      exact .notify n
    | foreign k =>
      obtain rfl := List.mem_singleton.mp hg
      exact .foreign k
  | send data len =>
    simp only [exec] at hg
    split at hg
    · next hc =>
      obtain rfl := List.mem_singleton.mp hg
      cases he : e.inLoop with
      | true => simpa [runInLoop, he] using Next.sendHere data len hc he
      | false => simpa [runInLoop, he] using Next.sendAway data len hc he
    · simp at hg
  | shutdown =>
    simp only [exec] at hg
    split at hg
    · next hc =>
      obtain rfl := List.mem_singleton.mp hg
      exact .shutdown hc
    · simp at hg
  | drained =>
    simp only [exec] at hg
    split at hg
    · next hc =>
      obtain rfl := List.mem_singleton.mp hg
      exact .drained hc
    · simp at hg
  | handleWrite =>
    simp only [exec] at hg
    split at hg
    · next hd =>
      obtain rfl := List.mem_singleton.mp hg
      exact .handleWrite hd
    · simp at hg
  | closeCallback =>
    simp only [exec] at hg
    split at hg
    · next he =>
      obtain rfl := List.mem_singleton.mp hg
      exact .closeCallback he
    · simp at hg
  | handleEvent revents =>
    rcases mem_dispatch hg with rfl | rfl | rfl | rfl
    · exact .eventClose revents
    · exact .eventError revents
    · exact .eventRead revents
    · exact .eventWrite revents
  | handleClose =>
    rcases List.mem_pair.mp hg with rfl | rfl
    · exact .closed
    · exact .closing
  | handleRead =>
    obtain rfl := List.mem_singleton.mp hg
    cases hr : (c.handleRead io.read).2 with
    | message => exact .readMessage hr
    | close => exact .readClose hr
    | error => exact .readError hr
  | setDisconnecting =>
    obtain rfl := List.mem_singleton.mp hg
    cases he : e.inLoop with
    | true => simpa [runInLoop, he] using Next.shutdownHere he
    | false => simpa [runInLoop, he] using Next.shutdownAway he
  | destroyConnected =>
    obtain rfl := List.mem_singleton.mp hg
    exact .destroyed
  | connectionCallback =>
    obtain rfl := List.mem_singleton.mp hg
    exact .connectionCallback
  | messageCallback =>
    obtain rfl := List.mem_singleton.mp hg
    exact .messageCallback
  | removeConnectionInLoop =>
    obtain rfl := List.mem_singleton.mp hg
    exact .removeConnectionInLoop
  | userCode | queueInLoop | writeOrBuffer | removeChannel | handleError => simp [exec] at hg

theorem exec_queued {cb : Functor T} (h : (f.exec e c io).queued = some cb) :
    f = .queueInLoop cb ∨ ∃ n, cb = .notify n := by
  have hnotice : ∀ n : Option Notice, n.map Functor.notify = some cb → ∃ m, cb = .notify m := by
    intro n hn
    obtain ⟨m, -, rfl⟩ := Option.map_eq_some_iff.mp hn
    exact ⟨m, rfl⟩
  cases f with
  | queueInLoop g => exact Or.inl (by rw [Option.some.inj h])
  | writeOrBuffer m => exact Or.inr (hnotice _ h)
  | handleWrite => exact Or.inr (hnotice _ h)
  | functor g =>
    cases g with
    | sendInLoop m =>
      simp only [exec, execFunctor] at h
      split at h <;> simp at h
    | _ => simp [exec, execFunctor] at h
  | send data len =>
    simp only [exec] at h
    split at h <;> simp at h
  | _ => simp [exec] at h

/-- What a frame makes of the connection. -/
inductive Turns (e : Site T) (c : TcpConnection) (io : Reply) : Frame T → TcpConnection → Prop
  | same (f : Frame T) : Turns e c io f c
  | established :
      Turns e c io (.functor .connectEstablished) (c.setState .kConnected).enableReading
  | disconnecting : Turns e c io .setDisconnecting (c.setState .kDisconnecting)
  | destroyed : Turns e c io .destroyConnected (c.setState .kDisconnected).disableAll
  | closed : Turns e c io .handleClose (c.setState .kDisconnected).disableAll
  | removed : Turns e c io .removeChannel c.remove
  | sent (m : Call T) : Turns e c io (.writeOrBuffer m) (c.sendInLoop (message e c io m) io.write io.errno).conn
  | written : Turns e c io .handleWrite (c.handleWrite io.write).1.conn
  | read : Turns e c io .handleRead (c.handleRead io.read).1

variable (e c io) in
theorem exec_turns (f : Frame T) : Turns e c io f (f.exec e c io).conn := by
  cases f with
  | functor cb =>
    cases cb with
    | connectEstablished => exact .established
    | sendInLoop m =>
      simp only [exec, execFunctor]
      split <;> exact .same _
    | connectDestroyed | shutdownInLoop | notify | foreign => exact .same _
  | send data len =>
    simp only [exec]
    split <;> exact .same _
  | setDisconnecting => exact .disconnecting
  | destroyConnected => exact .destroyed
  | handleClose => exact .closed
  | removeChannel => exact .removed
  | writeOrBuffer m => exact .sent m
  | handleWrite => exact .written
  | handleRead => exact .read
  | userCode | shutdown | queueInLoop | handleEvent | drained | handleError | connectionCallback
    | messageCallback | closeCallback | removeConnectionInLoop => exact .same _

theorem Turns.state (h : Turns e c io f d) : d.state_ = c.state_ ∨
    (f = .functor .connectEstablished ∧ d.state_ = .kConnected) ∨
    (f = .setDisconnecting ∧ d.state_ = .kDisconnecting) ∨
    (f = .destroyConnected ∨ f = .handleClose) ∧ d.state_ = .kDisconnected := by
  cases h with
  | same | removed | read => exact Or.inl rfl
  | established => exact Or.inr (Or.inl ⟨rfl, rfl⟩)
  | disconnecting => exact Or.inr (Or.inr (Or.inl ⟨rfl, rfl⟩))
  | destroyed => exact Or.inr (Or.inr (Or.inr ⟨Or.inl rfl, rfl⟩))
  | closed => exact Or.inr (Or.inr (Or.inr ⟨Or.inr rfl, rfl⟩))
  | sent => exact Or.inl TcpConnection.state_sendInLoop
  | written => exact Or.inl TcpConnection.state_handleWrite

theorem Turns.isWriting (h : Turns e c io f d) (hd : d.isWriting = true) :
    (∃ m, f = .writeOrBuffer m) ∨ c.isWriting = true := by
  cases h with
  | same | disconnecting | read => exact Or.inr hd
  | established => exact Or.inr (by simpa using hd)
  | removed => exact Or.inr (by simpa using hd)
  | destroyed | closed => simp at hd
  | sent m => exact Or.inl ⟨m, rfl⟩
  | written =>
    right
    by_contra hw
    simp only [TcpConnection.handleWrite, if_neg hw] at hd
    exact hw hd

theorem sendInLoop_sends {m : Call T} (hio : (Frame.writeOrBuffer m).Accepts e c io) :
    c.Sends (message e c io m) io.write io.errno (c.sendInLoop (message e c io m) io.write io.errno).conn := by
  apply TcpConnection.sendInLoop_sends
  rw [message, Call.length_read]
  exact hio.1

theorem Turns.wf (h : Turns e c io f d) (hio : f.Accepts e c io) (hc : c.outputBuffer_.WF) :
    d.outputBuffer_.WF := by
  cases h with
  | sent m => exact (sendInLoop_sends hio).wf hc
  | written => exact (TcpConnection.handleWrite_writes hc fun _ ↦ hio).wf hc
  | same | established | disconnecting | destroyed | closed | removed | read => exact hc

theorem Turns.synced {d : TcpConnection} (h : Turns e c io f d) (hwf : c.outputBuffer_.WF)
    (hio : f.Accepts e c io) (hc : c.Synced) :
    d.Synced ∨ f = .destroyConnected ∨ f = .handleClose := by
  cases h with
  | sent m => exact Or.inl ((sendInLoop_sends hio).synced hwf hc)
  | written => exact Or.inl ((TcpConnection.handleWrite_writes hwf fun _ ↦ hio).synced hwf hc)
  | established =>
    left
    rw [TcpConnection.Synced, TcpConnection.isWriting_enableReading]
    exact hc
  | destroyed => exact Or.inr (Or.inl rfl)
  | closed => exact Or.inr (Or.inr rfl)
  | same | disconnecting | removed | read => exact Or.inl hc

/-- What a frame shows, and when. -/
inductive Shows (e : Site T) (c : TcpConnection) (io : Reply) : Frame T → Obs T → Prop
  | passed (data len : ℕ) (hc : c.state_ = .kConnected) :
      Shows e c io (.send data len) (.passed ⟨e.passed, e.thread, data, len⟩
        (Call.bytes e.mem ⟨e.passed, e.thread, data, len⟩))
  | gaveUp (m : Call T) (hc : c.state_ = .kDisconnected) :
      Shows e c io (.functor (.sendInLoop m)) (.dropped m)
  | wrote (m : Call T) (hd : c.writesDirectly = true) :
      Shows e c io (.writeOrBuffer m) (.write (m.bytes e.mem) io.write)
  | faulted (m : Call T) (hf : c.faultError io.write io.errno = true) :
      Shows e c io (.writeOrBuffer m) (.dropped m)
  | kept (m : Call T) (hf : c.faultError io.write io.errno = false) :
      Shows e c io (.writeOrBuffer m) (.kept m (message e c io m))
  | drained (hw : c.isWriting = true) :
      Shows e c io .handleWrite (.write c.outputBuffer_.readable io.write)
  | shutdownWrite (hw : c.isWriting = false) : Shows e c io (.functor .shutdownInLoop) .shutdownWrite
  | destroyed : Shows e c io .destroyConnected .closed
  | closed : Shows e c io .handleClose .closed
  | connectionCallback :
      Shows e c io .connectionCallback (.connectionCallback (c.state_ = .kConnected))
  | messageCallback : Shows e c io .messageCallback .messageCallback
  | closeCallback : Shows e c io .closeCallback .closeCallback
  | removed : Shows e c io .removeChannel .destroyed

theorem exec_shows {o : Obs T} (h : o ∈ (f.exec e c io).obs) : Shows e c io f o := by
  cases f with
  | functor cb =>
    cases cb with
    | sendInLoop m =>
      simp only [exec, execFunctor] at h
      split at h
      · next hc =>
        obtain rfl := List.mem_singleton.mp h
        exact .gaveUp m hc
      · simp at h
    | shutdownInLoop =>
      simp only [exec, execFunctor] at h
      split at h
      · simp at h
      · next hw =>
        obtain rfl := List.mem_singleton.mp h
        exact .shutdownWrite (by simpa using hw)
    | connectEstablished | connectDestroyed | notify | foreign => simp [exec, execFunctor] at h
  | send data len =>
    simp only [exec] at h
    split at h
    · next hc =>
      obtain rfl := List.mem_singleton.mp h
      exact .passed data len hc
    · simp at h
  | writeOrBuffer m =>
    simp only [exec, List.mem_append] at h
    rcases h with h | h
    · split at h
      · next hd =>
        obtain rfl := List.mem_singleton.mp h
        exact .wrote m hd
      · simp at h
    · obtain rfl := List.mem_singleton.mp h
      cases hf : c.faultError io.write io.errno with
      | true => exact .faulted m hf
      | false => exact .kept m hf
  | handleWrite =>
    simp only [exec] at h
    split at h
    · next hw =>
      obtain rfl := List.mem_singleton.mp h
      exact .drained hw
    · simp at h
  | destroyConnected =>
    obtain rfl := List.mem_singleton.mp h
    exact .destroyed
  | handleClose =>
    obtain rfl := List.mem_singleton.mp h
    exact .closed
  | connectionCallback =>
    obtain rfl := List.mem_singleton.mp h
    exact .connectionCallback
  | messageCallback =>
    obtain rfl := List.mem_singleton.mp h
    exact .messageCallback
  | closeCallback =>
    obtain rfl := List.mem_singleton.mp h
    exact .closeCallback
  | removeChannel =>
    obtain rfl := List.mem_singleton.mp h
    exact .removed
  | userCode | shutdown | setDisconnecting | queueInLoop | handleEvent | handleRead | drained
    | handleError | removeConnectionInLoop => simp [exec] at h

theorem exec_erased (h : (f.exec e c io).erased = true) : f = .removeConnectionInLoop := by
  cases f with
  | removeConnectionInLoop => rfl
  | functor cb =>
    cases cb with
    | sendInLoop m =>
      simp only [exec, execFunctor] at h
      split at h <;> simp at h
    | _ => simp [exec, execFunctor] at h
  | send data len =>
    simp only [exec] at h
    split at h <;> simp at h
  | _ => simp [exec] at h

theorem exec_posted (h : (f.exec e c io).posted = true) : f = .closeCallback ∧ e.inBase = false := by
  cases f with
  | closeCallback => exact ⟨rfl, by simpa [exec] using h⟩
  | functor cb =>
    cases cb with
    | sendInLoop m =>
      simp only [exec, execFunctor] at h
      split at h <;> simp at h
    | _ => simp [exec, execFunctor] at h
  | send data len =>
    simp only [exec] at h
    split at h <;> simp at h
  | _ => simp [exec] at h

end Mymuduo.Frame
