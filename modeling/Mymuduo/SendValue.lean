import Mymuduo.OutputStream

namespace Mymuduo

open Foundation.Machine

variable {T : Type}

theorem Frame.exec_passed {e : Site T} {c : TcpConnection} {io : Reply} {f : Frame T} {m : Call T}
    {msg : List Byte} (h : .passed m msg ∈ (f.exec e c io).obs) :
    msg = m.bytes e.mem ∧ m.id = e.passed := by
  cases exec_shows h with
  | passed data len hc => exact ⟨rfl, rfl⟩

def Frame.FindsAgain (mem : T → ℕ → Byte) (io : Reply) : Frame T → Prop
  | .writeOrBuffer m => ∀ cells ∈ io.again, m.denotes cells = m.bytes mem
  | _ => True

instance (mem : T → ℕ → Byte) (io : Reply) : (f : Frame T) → Decidable (f.FindsAgain mem io)
  | .writeOrBuffer m => inferInstanceAs (Decidable (∀ cells ∈ io.again, m.denotes cells = m.bytes mem))
  | .userCode | .send .. | .shutdown | .setDisconnecting | .queueInLoop _ | .functor _
  | .destroyConnected | .removeChannel | .handleEvent _ | .handleRead | .handleWrite | .drained
  | .handleClose | .handleError | .connectionCallback | .messageCallback | .closeCallback
  | .removeConnectionInLoop => isTrue trivial

theorem Call.read_of_findsAgain {mem : T → ℕ → Byte} {io : Reply} {m : Call T} {nwrote : ℕ}
    (h : (Frame.writeOrBuffer m).FindsAgain mem io) : m.read mem io.again nwrote = m.bytes mem := by
  cases ha : io.again with
  | none => exact read_none
  | some cells =>
    rw [read, Option.getD_some, h cells ha]
    exact List.take_append_drop ..

namespace System

variable [DecidableEq T] {s s' : System T} {a : Act T}

/-- Nobody changes the bytes of a message that is still in flight, or ends their life. -/
def Untouched (s : System T) : Act T → Prop
  | .assign t data bytes => ∀ m ∈ s.inFlight t,
      m.bytes (Function.update s.mem t (assignCells (s.mem t) data bytes)) = m.bytes s.mem
  | .release t data bytes => ∀ m ∈ s.inFlight t, ∀ i < m.len,
      m.data + i < data ∨ data + bytes.length ≤ m.data + i
  | .exec t io => ∀ f ∈ (s.stack t).head?, f.FindsAgain s.mem io
  | _ => True

instance (s : System T) : (a : Act T) → Decidable (s.Untouched a)
  | .assign t data bytes => inferInstanceAs (Decidable (∀ m ∈ s.inFlight t,
      m.bytes (Function.update s.mem t (assignCells (s.mem t) data bytes)) = m.bytes s.mem))
  | .release t data bytes => inferInstanceAs (Decidable (∀ m ∈ s.inFlight t, ∀ i < m.len,
      m.data + i < data ∨ data + bytes.length ≤ m.data + i))
  | .exec t io => inferInstanceAs (Decidable (∀ f ∈ (s.stack t).head?, f.FindsAgain s.mem io))
  | .send .. | .shutdown _ | .retrieve _ | .newConnection | .destroyServer
  | .removeConnectionInLoop | .poll .. | .handleEvent | .loop _ => isTrue trivial

/-- Where `sendInLoop` runs for `m`, it offers the bytes that the message had when `send` was
called, and these, unless it drops them all, go to the kernel and then behind what is buffered. -/
def KeepsValue (s : System T) : Act T → Prop
  | .exec t io => ∀ m fs s', s.stack t = .writeOrBuffer m :: fs → s.step (.exec t io) = some s' →
      (∃ msg, .passed m msg ∈ s.trace) ∧ ∀ msg, .passed m msg ∈ s.trace →
        ∃ o, s'.trace = s.trace ++ o ∧ (∀ d w, .write d w ∈ o → d = msg) ∧
          (accepted o ++ s'.conn.outputBuffer_.readable = s.conn.outputBuffer_.readable ++ msg ∨
            .dropped m ∈ o ∧ accepted o = [] ∧
              s'.conn.outputBuffer_.readable = s.conn.outputBuffer_.readable)
  | _ => True

theorem bytes_update {mem : T → ℕ → Byte} {t : T} {cells : ℕ → Byte} {m : Call T}
    (h : m.thread ≠ t) : m.bytes (Function.update mem t cells) = m.bytes mem := by
  simp [Call.bytes, Function.update_of_ne h]

omit [DecidableEq T] in
theorem assignCells_of_outside {cells : ℕ → Byte} {data i : ℕ} {bytes : List Byte}
    (h : i < data ∨ data + bytes.length ≤ i) : assignCells cells data bytes i = cells i := by
  rcases h with h | h
  · exact if_neg (Nat.not_le.mpr h)
  · rw [assignCells, if_pos (by omega), List.getD_eq_getElem?_getD,
      List.getElem?_eq_none (by omega), Option.getD_none]

theorem bytes_release {mem : T → ℕ → Byte} {t : T} {data : ℕ} {bytes : List Byte} {m : Call T}
    (h : ∀ i < m.len, m.data + i < data ∨ data + bytes.length ≤ m.data + i) :
    m.bytes (Function.update mem t (assignCells (mem t) data bytes)) = m.bytes mem := by
  by_cases ht : m.thread = t
  · subst ht
    simp only [Call.bytes, Call.denotes, Function.update_self]
    exact List.map_congr_left fun i hi ↦ assignCells_of_outside (h i (List.mem_range.mp hi))
  · exact bytes_update ht

/-- The value that a message had when it passed is the one in memory while it is in flight. -/
structure Valued (s : System T) : Prop where
  flying : ∀ t, ∀ m ∈ s.inFlight t, .passed m (m.bytes s.mem) ∈ s.trace
  unique : ∀ m msg msg', .passed m msg ∈ s.trace → .passed m msg' ∈ s.trace → msg' = msg

theorem ofConnection_valued (l b : T) (c : TcpConnection) (mem : T → ℕ → Byte) :
    (ofConnection l b c mem).Valued := by
  refine ⟨fun t m hm ↦ ?_, by simp [ofConnection]⟩
  rw [ofConnection_inFlight] at hm
  simp at hm

theorem Ordered.id_lt (hs : s.Ordered) {m : Call T} {msg : List Byte} (hm : .passed m msg ∈ s.trace) :
    m.id < (passedCalls s.trace).length := by
  have hid : m.id ∈ (passedCalls s.trace).map Call.id :=
    List.mem_map_of_mem (mem_passedCalls.mpr ⟨msg, hm⟩)
  simpa [hs.ids] using hid

theorem Valued.extend (hv : s.Valued) (hs : s.Ordered) (hs' : s'.Ordered) {o : List (Obs T)}
    (htr : s'.trace = s.trace ++ o)
    (hmem : ∀ t, ∀ m ∈ s.inFlight t, m.bytes s'.mem = m.bytes s.mem)
    (hp : ∀ m msg, .passed m msg ∈ o → msg = m.bytes s'.mem ∧ m.id = (passedCalls s.trace).length) :
    s'.Valued := by
  refine ⟨fun t m hm ↦ ?_, fun m msg msg' hm hm' ↦ ?_⟩
  · rw [htr, List.mem_append]
    have hin : m ∈ s.inFlight t ++ callsOf t (passedCalls o) := by
      rw [← inFlight_step hs hs' htr t]
      exact List.mem_append_right _ hm
    rcases List.mem_append.mp hin with hin | hin
    · rw [hmem t m hin]
      exact Or.inl (hv.flying t m hin)
    · obtain ⟨msg, hmsg⟩ := mem_passedCalls.mp (List.mem_of_mem_filter hin)
      exact Or.inr ((hp m msg hmsg).1 ▸ hmsg)
  · rw [htr, List.mem_append] at hm hm'
    rcases hm with hm | hm <;> rcases hm' with hm' | hm'
    · exact hv.unique m msg msg' hm hm'
    · have hlt := hs.id_lt hm
      have hid := (hp m msg' hm').2
      omega
    · have hlt := hs.id_lt hm'
      have hid := (hp m msg hm).2
      omega
    · rw [(hp m msg hm).1, (hp m msg' hm').1]

theorem Valued.step (hv : s.Valued) (hr : s.Reached) (hG : s.Untouched a) (h : s.step a = some s') :
    s'.Valued := by
  have hs' := (hr.step h).ordered
  cases step_cases h with
  | exec => exact hv.extend hr.ordered hs' rfl (fun _ _ _ ↦ rfl) fun m msg hm ↦ Frame.exec_passed hm
  | enter hu he =>
    rcases he.trace_eq with htr | ⟨u, htr⟩
    · exact hv.extend hr.ordered hs' (o := []) (by simpa using htr) (by simp [he.mem_eq]) (by simp)
    · exact hv.extend hr.ordered hs' htr (by simp [he.mem_eq]) (by simp)
  | @assign a t data bytes hu ha =>
    refine hv.extend hr.ordered hs' (o := []) (by simp) (fun u m hm ↦ ?_) (by simp)
    by_cases hut : m.thread = t
    · rw [hr.ordered.thread_of_inFlight hm] at hut
      subst hut
      rcases ha with rfl | rfl
      · exact hG m hm
      · exact bytes_release (hG m hm)
    · exact bytes_update hut
  | retrieve | poll | loop =>
    exact hv.extend hr.ordered hs' (o := []) (by simp) (fun _ _ _ ↦ rfl) (by simp)

theorem Valued.keepsValue (hv : s.Valued) (hr : s.Reached) (hstr : s.Streams) (hG : s.Untouched a) :
    s.KeepsValue a := by
  cases a with
  | exec t io =>
    intro m fs s' hst h
    have hmem : .writeOrBuffer m ∈ s.stack t := by
      rw [hst]
      exact List.mem_cons_self
    obtain rfl := hr.loop_of_head hst rfl
    have hpassed := hv.flying _ m (inFlight_of_frame hmem rfl)
    refine ⟨⟨_, hpassed⟩, fun msg hmsg ↦ ?_⟩
    obtain rfl := hv.unique m _ msg hpassed hmsg
    have hio := accepts_of_step hst h
    obtain ⟨l, rfl⟩ := step_exec hst h
    have hread : Frame.message (s.site s.loop.threadId_) s.conn io m = m.bytes s.mem :=
      Call.read_of_findsAgain (hG _ (by rw [hst]; rfl))
    refine ⟨_, rfl, fun d w hw ↦ ?_, ?_⟩
    · cases Frame.exec_shows hw with
      | wrote m hd => rfl
    · have hstream := (Frame.exec_writeOrBuffer_stream hstr.wf m hio).stream
      rw [Frame.keptBytes_writeOrBuffer, hread] at hstream
      cases hf : s.conn.faultError io.write io.errno with
      | true =>
        refine Or.inr ⟨by simp [Frame.exec, hf], ?_, ?_⟩
        · rw [Frame.accepted_writeOrBuffer m hio, TcpConnection.nwrote_of_faultError hf, List.take_zero]
        · simp only [commit, Frame.exec, (Frame.sendInLoop_sends hio).eq_of_faulted hf]
      | false =>
        rw [hf] at hstream
        exact Or.inl hstream
  | _ => trivial

/-- While no message in flight is changed, and none ends its life, what `sendInLoop` writes and
buffers for a call is the value that the message had when `send` was called. -/
theorem send_keeps_value {l b : T} {fd mark : ℕ} {wc hw : Bool} {mem : T → ℕ → Byte}
    {as : List (Act T)} (hG : Along step Untouched (ofConnection l b (.ofFd fd wc hw mark) mem) as) :
    Along step KeepsValue (ofConnection l b (.ofFd fd wc hw mark) mem) as :=
  Along.imp_invariant (I := fun s ↦ s.Reached ∧ s.Streams ∧ s.Valued)
    (fun _ _ _ ⟨hr, hs, hv⟩ hG ht ↦ ⟨hr.step ht, hs.step (step_cases ht), hv.step hr hG ht⟩)
    (fun _ _ ⟨hr, hs, hv⟩ hG ↦ hv.keepsValue hr hs hG)
    ⟨ofConnection_reached l b _ mem, ofConnection_streams l b fd wc hw mark mem,
      ofConnection_valued l b _ mem⟩ hG

section

/-- Thread 1 sends cells 4 and 5 and then assigns `cells`; the loop comes to the call. -/
def sendThenAssign (data : ℕ) (cells : List Byte) : List (Act ℕ) :=
  [.newConnection, .exec 0 noCall, .exec 0 noCall, .exec 0 noCall, .send 1 4 2, .exec 1 noCall, .exec 1 noCall,
    .loop (.wakeup 1), .assign 1 data cells, .loop .enter, .loop .clearQuit, .loop .testQuit,
    .poll true none, .loop .handleRead, .loop .beginCalling, .loop .swap,
    .loop (.beginFunctor (.sendInLoop ⟨0, 1, 4, 2⟩)), .exec 0 noCall]

theorem send_keeps_value_elsewhere :
    Along step Untouched singleLoop (sendThenAssign 6 [9, 9] ++ [.exec 0 (answer (.accepted 2))]) ∧
    (run step singleLoop (sendThenAssign 6 [9, 9] ++ [.exec 0 (answer (.accepted 2))])).isSome = true ∧
    Along step KeepsValue singleLoop
      (sendThenAssign 6 [9, 9] ++ [.exec 0 (answer (.accepted 2))]) := by
  have hG : Along step Untouched singleLoop
      (sendThenAssign 6 [9, 9] ++ [.exec 0 (answer (.accepted 2))]) := by decide +kernel
  exact ⟨hG, by decide +kernel, send_keeps_value hG⟩

/-- Thread 1 reuses its string while the call is queued: the call passed with the
bytes 4 and 5, and 9 and 9 go to the kernel. -/
theorem send_value_lost :
    ¬ ∀ (as : List (Act ℕ)) s s' t io m fs msg o, run step singleLoop as = some s →
      s.stack t = .writeOrBuffer m :: fs → m.thread ≠ s.loop.threadId_ → .passed m msg ∈ s.trace →
      s.step (.exec t io) = some s' → s'.trace = s.trace ++ o → ∀ d w, .write d w ∈ o → d = msg := by
  intro h
  obtain ⟨s, hs, heq⟩ := Option.map_eq_some_iff.mp
    (show (run step singleLoop (sendThenAssign 4 [9, 9])).map
        (fun s ↦ (s.loop.threadId_, s.stack 0, s.trace,
          (s.step (.exec 0 (answer (.accepted 2)))).map System.trace)) =
      some (0, [.writeOrBuffer ⟨0, 1, 4, 2⟩], [.connectionCallback true, .passed ⟨0, 1, 4, 2⟩ [4, 5]],
        some [.connectionCallback true, .passed ⟨0, 1, 4, 2⟩ [4, 5], .write [9, 9] (.accepted 2),
          .kept ⟨0, 1, 4, 2⟩ [9, 9]]) by decide +kernel)
  simp only [Prod.mk.injEq] at heq
  obtain ⟨hL, hst, htr, hstep⟩ := heq
  obtain ⟨s', hs', htr'⟩ := Option.map_eq_some_iff.mp hstep
  have hlost := h _ s s' 0 _ _ _ [4, 5] [.write [9, 9] (.accepted 2), .kept ⟨0, 1, 4, 2⟩ [9, 9]] hs hst
    (by simp [hL]) (by simp [htr]) hs' (by rw [htr', htr]; rfl) [9, 9] (.accepted 2) (by simp)
  simp at hlost

end

end System

end Mymuduo
