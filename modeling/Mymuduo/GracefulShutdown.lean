import Mymuduo.Establishment
import Mymuduo.OutputStream

namespace Mymuduo

open Foundation.Machine

variable {T : Type}

/-- The connection was closed, or a write failed for good. -/
def Excused (tr : List (Obs T)) : Prop :=
  .closed ∈ tr ∨ ∃ d, .write d (.failed EPIPE) ∈ tr ∨ .write d (.failed ECONNRESET) ∈ tr

/-- At every `SHUT_WR` that nothing excuses, each message that passed before some
`shutdown()` call has been kept and all kept bytes are accepted; no `write`
follows a `SHUT_WR`. -/
structure Graceful (tr : List (Obs T)) : Prop where
  delivered : ∀ pre post, tr = pre ++ .shutdownWrite :: post → ¬ Excused pre →
    (∀ x y t, pre = x ++ .shutdownCalled t :: y → ∀ m msg, .passed m msg ∈ x →
      ∃ msg', .kept m msg' ∈ pre) ∧ accepted pre = keptBytes pre
  silent : ∀ pre post, tr = pre ++ .shutdownWrite :: post → ∀ d w, .write d w ∉ post

theorem Excused.append {tr : List (Obs T)} (h : Excused tr) (o : List (Obs T)) : Excused (tr ++ o) := by
  rcases h with h | ⟨d, h | h⟩
  · exact Or.inl (List.mem_append_left o h)
  · exact Or.inr ⟨d, Or.inl (List.mem_append_left o h)⟩
  · exact Or.inr ⟨d, Or.inr (List.mem_append_left o h)⟩

theorem Graceful.extend {tr o : List (Obs T)} (h : Graceful tr) (ho : .shutdownWrite ∉ o)
    (hw : .shutdownWrite ∈ tr → ∀ d w, .write d w ∉ o) : Graceful (tr ++ o) := by
  refine ⟨fun pre post hsplit hex ↦ ?_, fun pre post hsplit d w hmem ↦ ?_⟩
  · rcases append_eq_split hsplit with ⟨z, htr, -⟩ | ⟨z, -, hq⟩
    · exact h.delivered pre z htr hex
    · exact absurd (hq ▸ List.mem_append_right z List.mem_cons_self) ho
  · rcases append_eq_split hsplit with ⟨z, htr, rfl⟩ | ⟨z, -, hq⟩
    · rcases List.mem_append.mp hmem with hmem | hmem
      · exact h.silent pre z htr d w hmem
      · exact hw (htr ▸ List.mem_append_right pre List.mem_cons_self) d w hmem
    · exact ho (hq ▸ List.mem_append_right z List.mem_cons_self)

theorem Graceful.shut {tr : List (Obs T)} (h : Graceful tr) (hd : ¬ Excused tr →
    (∀ m msg, .passed m msg ∈ tr → ∃ msg', .kept m msg' ∈ tr) ∧ accepted tr = keptBytes tr) :
    Graceful (tr ++ [.shutdownWrite]) := by
  refine ⟨fun pre post hsplit hex ↦ ?_, fun pre post hsplit d w hmem ↦ ?_⟩
  · rcases append_eq_split hsplit with ⟨z, htr, -⟩ | ⟨z, hpre, hq⟩
    · exact h.delivered pre z htr hex
    · obtain rfl : z = [] := by cases z <;> simp_all
      rw [List.append_nil] at hpre
      subst hpre
      refine ⟨fun x y t hx m msg hm ↦ ?_, (hd hex).2⟩
      exact (hd hex).1 m msg (hx ▸ List.mem_append_left _ hm)
  · rcases append_eq_split hsplit with ⟨z, htr, rfl⟩ | ⟨z, -, hq⟩
    · simp only [List.mem_append, List.mem_singleton, reduceCtorEq, or_false] at hmem
      exact h.silent pre z htr d w hmem
    · cases z <;> simp_all

namespace Frame

variable {e : Site T} {c : TcpConnection} {io : Reply} {f : Frame T}

theorem exec_shutdownWrite (h : .shutdownWrite ∈ (f.exec e c io).obs) :
    f = .functor .shutdownInLoop ∧ c.isWriting = false := by
  cases exec_shows h with
  | shutdownWrite hw => exact ⟨rfl, hw⟩

theorem exec_write {d : List Byte} {w : WriteResult} (h : .write d w ∈ (f.exec e c io).obs) :
    (∃ m, f = .writeOrBuffer m) ∨ c.isWriting = true := by
  cases exec_shows h with
  | wrote m hd => exact Or.inl ⟨m, rfl⟩
  | drained hw => exact Or.inr hw

end Frame

namespace System

variable [DecidableEq T] {s s' : System T} {a : Act T}

/-- Every send that has passed its check has run. -/
def Settled (s : System T) : Prop := ∀ m ∈ passedCalls s.trace, m ∈ ranCalls s.trace

/-- The connection is closed, and no `shutdown()` stands between its check and its
store, which would put another state in the place of `kDisconnected`. -/
def ClosedForGood (s : System T) : Prop :=
  s.conn.state_ = .kDisconnected ∧ ∀ t, .setDisconnecting ∉ s.stack t

/-- `SHUT_WR` is issued only when no send that has passed its check is still to run,
or when the connection is closed for good. -/
def ShutsSettled (s : System T) : Act T → Prop
  | .exec t _ => (s.stack t).head? = some (.functor .shutdownInLoop) → s.conn.isWriting = false →
      s.Settled ∨ s.ClosedForGood
  | _ => True

/-- `state_` has moved beyond `kConnected`. -/
def Left (s : System T) : Prop :=
  s.conn.state_ = .kDisconnecting ∨ s.conn.state_ = .kDisconnected

structure Shut (s : System T) : Prop where
  left : s.Left
  idle : s.conn.isWriting = false
  unwritten : ∀ m, .writeOrBuffer m ∉ s.stack s.loop.threadId_
  unsent : (∀ t, s.inFlight t = []) ∨ s.ClosedForGood

structure Shutting (s : System T) : Prop where
  synced : s.conn.Synced ∨ .closed ∈ s.trace
  closed : s.conn.state_ = .kDisconnected → .closed ∈ s.trace ∧ s.conn.isWriting = false
  writing : ∀ m, .writeOrBuffer m ∈ s.stack s.loop.threadId_ → s.conn.state_ ≠ .kDisconnected
  asked : ∀ t, ∀ f ∈ s.stack t,
    f = .functor .shutdownInLoop ∨ f = .queueInLoop .shutdownInLoop → s.Left
  queued : .shutdownInLoop ∈ s.loop.waiting → s.Left
  dropped : ∀ m, .dropped m ∈ s.trace → Excused s.trace
  shut : .shutdownWrite ∈ s.trace → s.Shut
  graceful : Graceful s.trace

theorem Left.step (hl : s.Left) (he : s.Established) (hcf : s.Confined) (h : Step s a s') : s'.Left := by
  cases h with
  | @exec t io f fs l hst ho hio hq =>
    rcases (Frame.exec_turns (s.site t) s.conn io f).state with
      heq | ⟨rfl, -⟩ | ⟨-, heq⟩ | ⟨-, heq⟩
    · unfold Left commit
      rw [heq]
      exact hl
    · have hmem : Frame.functor .connectEstablished ∈ s.stack t := by
        rw [hst]
        exact List.mem_cons_self
      obtain rfl := hcf.of_not_roams hmem rfl
      refine absurd hmem (he.not_again ?_)
      rcases hl with hl | hl <;> simp [hl]
    · exact Or.inl heq
    · exact Or.inr heq
  | enter hu hen =>
    unfold Left
    rw [hen.conn_eq]
    exact hl
  | assign | retrieve | poll | loop => exact hl

theorem Ordered.nodup (hs : s.Ordered) : (passedCalls s.trace).Nodup := by
  refine List.Nodup.of_map Call.id ?_
  rw [hs.ids]
  exact List.nodup_range

theorem Settled.inFlight_eq_nil (hset : s.Settled) (hs : s.Ordered) (t : T) : s.inFlight t = [] := by
  rw [List.eq_nil_iff_forall_not_mem]
  intro m hm
  have hthread := hs.thread_of_inFlight hm
  have hpassed : m ∈ callsOf t (passedCalls s.trace) := by
    rw [hs.order t]
    exact List.mem_append_right _ hm
  have hran : m ∈ callsOf t (ranCalls s.trace) := by
    rw [callsOf, List.mem_filter]
    exact ⟨hset m (List.mem_of_mem_filter hpassed), by simpa using hthread⟩
  have hnodup : (callsOf t (ranCalls s.trace) ++ s.inFlight t).Nodup := by
    rw [← hs.order t]
    exact hs.nodup.filter _
  exact List.disjoint_of_nodup_append hnodup hran hm

section

variable {t : T} {io : Reply} {f : Frame T} {fs : List (Frame T)} (hr : s.Reached)
  (he : s.Established) (hsh : s.Shutting) (hst : s.stack t = f :: fs)
  (hst' : s'.stack = Function.update s.stack t ((f.exec (s.site t) s.conn io).frames ++ fs))
  (hconn : s'.conn = (f.exec (s.site t) s.conn io).conn)
  (htr : s'.trace = s.trace ++ (f.exec (s.site t) s.conn io).obs)
  (hL : s'.loop.threadId_ = s.loop.threadId_)

include hr hsh hst hconn htr in
theorem Shutting.exec_closed (hs' : s'.conn.state_ = .kDisconnected) :
    .closed ∈ s'.trace ∧ s'.conn.isWriting = false := by
  have hturn := Frame.exec_turns (s.site t) s.conn io f
  rw [hconn] at hs' ⊢
  rw [htr]
  rcases hturn.state with heq | ⟨-, heq⟩ | ⟨-, heq⟩ | ⟨rfl | rfl, -⟩
  · obtain ⟨hcl, hidle⟩ := hsh.closed (heq ▸ hs')
    refine ⟨List.mem_append_left _ hcl, ?_⟩
    by_contra hw
    rcases hturn.isWriting (by simpa using hw) with ⟨m, rfl⟩ | hw
    · have hmem : Frame.writeOrBuffer m ∈ s.stack t := by
        rw [hst]
        exact List.mem_cons_self
      obtain rfl := hr.loop_of_head hst rfl
      exact hsh.writing m hmem (heq ▸ hs')
    · simp [hidle] at hw
  · simp [heq] at hs'
  · simp [heq] at hs'
  · exact ⟨List.mem_append_right _ (by simp [Frame.exec]), by simp [Frame.exec]⟩
  · exact ⟨List.mem_append_right _ (by simp [Frame.exec]), by simp [Frame.exec]⟩

include hsh hst hst' hconn in
theorem Shutting.exec_asked (hleft : s.Left → s'.Left) {u : T} {g : Frame T} (hg : g ∈ s'.stack u)
    (hask : g = .functor .shutdownInLoop ∨ g = .queueInLoop .shutdownInLoop) : s'.Left := by
  rw [hst'] at hg
  by_cases hut : u = t
  · rw [hut, Function.update_self, List.mem_append] at hg
    rcases hg with hg | hg
    · have hnext := Frame.exec_next hg
      rcases hask with rfl | rfl
      · cases hnext with
        | shutdownHere => exact Or.inl (by rw [hconn]; rfl)
        | drained hc => exact hleft (Or.inl hc)
      · cases hnext with
        | shutdownAway => exact Or.inl (by rw [hconn]; rfl)
    · exact hleft (hsh.asked t g (by rw [hst]; exact List.mem_cons_of_mem f hg) hask)
  · rw [Function.update_of_ne hut] at hg
    exact hleft (hsh.asked u g hg hask)

include htr hst in
theorem Shutting.exec_dropped (hsh : s.Shutting) (hE : s.KeepsErrno (.exec t io)) {m : Call T}
    (hm : .dropped m ∈ s'.trace) : Excused s'.trace := by
  rw [htr] at hm ⊢
  rcases List.mem_append.mp hm with hm | hm
  · exact (hsh.dropped m hm).append _
  · rcases Frame.exec_dropped hm with ⟨-, hc⟩ | ⟨rfl, hf, hw⟩
    · exact Excused.append (Or.inl (hsh.closed hc).1) _
    · refine Or.inr ⟨m.bytes s.mem, ?_⟩
      rcases Frame.keepsErrno_iff.mp (hE _ (by rw [hst]; rfl)) hf with hq | hq
      · exact Or.inl (List.mem_append_right _ (hq ▸ hw))
      · exact Or.inr (List.mem_append_right _ (hq ▸ hw))

omit [DecidableEq T] in
theorem Left.not_connected (hl : s.Left) : s.conn.state_ ≠ .kConnected := by
  rcases hl with hl | hl <;> simp [hl]

theorem Left.passed_eq_nil (hl : s.Left) : passedCalls (f.exec (s.site t) s.conn io).obs = [] := by
  rw [List.eq_nil_iff_forall_not_mem]
  intro m hm
  obtain ⟨msg, hmsg⟩ := mem_passedCalls.mp hm
  cases Frame.exec_shows hmsg with
  | passed data len hc => exact hl.not_connected hc

include hst' in
theorem ClosedForGood.exec (hc : s.ClosedForGood) (hst : s.stack t = f :: fs)
    (hconn : s'.conn = (f.exec (s.site t) s.conn io).conn) (hleft : s'.Left) : s'.ClosedForGood := by
  have hmem : f ∈ s.stack t := by
    rw [hst]
    exact List.mem_cons_self
  refine ⟨?_, fun u hu ↦ ?_⟩
  · rcases (Frame.exec_turns (s.site t) s.conn io f).state with
      heq | ⟨-, heq⟩ | ⟨rfl, -⟩ | ⟨-, heq⟩
    · rw [hconn, heq]
      exact hc.1
    · rw [← hconn] at heq
      exact absurd heq hleft.not_connected
    · exact absurd hmem (hc.2 t)
    · rw [hconn, heq]
  · rw [hst'] at hu
    by_cases hut : u = t
    · rw [hut, Function.update_self, List.mem_append] at hu
      rcases hu with hu | hu
      · cases Frame.exec_next hu with
        | shutdown hcon => simp [hc.1] at hcon
      · exact hc.2 t (by rw [hst]; exact List.mem_cons_of_mem f hu)
    · rw [Function.update_of_ne hut] at hu
      exact hc.2 u hu

include hr hst hst' hconn htr hL in
theorem Shut.exec (hs : s.Shut) (hord : s'.Ordered) (hleft : s'.Left) : s'.Shut := by
  have hmem : f ∈ s.stack t := by
    rw [hst]
    exact List.mem_cons_self
  have hnowrite : ∀ m, f ≠ .writeOrBuffer m := by
    rintro m rfl
    obtain rfl := hr.loop_of_head hst rfl
    exact hs.unwritten m hmem
  refine ⟨hleft, ?_, fun m hm ↦ ?_, ?_⟩
  · rw [hconn]
    by_contra hw
    rcases (Frame.exec_turns _ _ _ f).isWriting (by simpa using hw) with ⟨m, hf⟩ | hw
    · exact hnowrite m hf
    · simp [hs.idle] at hw
  · rw [hL, hst'] at hm
    by_cases ht : s.loop.threadId_ = t
    · rw [ht, Function.update_self, List.mem_append] at hm
      rcases hm with hm | hm
      · cases Frame.exec_next hm with
        | sendInLoop m hc =>
          rcases hs.unsent with hnil | hcl
          · have hfly := inFlight_of_frame (m := m) (ht ▸ hmem) rfl
            simp [hnil] at hfly
          · exact hc hcl.1
      · have hnone := hr.rest_call hst _ hm
        simp [Frame.call] at hnone
    · rw [Function.update_of_ne ht] at hm
      exact hs.unwritten m hm
  · rcases hs.unsent with hnil | hcl
    · left
      intro u
      have hflow := inFlight_step hr.ordered hord htr u
      rw [hnil, hs.left.passed_eq_nil] at hflow
      exact (List.append_eq_nil_iff.mp hflow).2
    · exact Or.inr (hcl.exec hst' hst hconn hleft)

include hr hsh hst in
theorem Shutting.shut_of_settled (hG : s.ShutsSettled (.exec t io))
    (h : .shutdownWrite ∈ (f.exec (s.site t) s.conn io).obs) : s.Shut := by
  obtain ⟨rfl, hidle⟩ := Frame.exec_shutdownWrite h
  have hL := hr.loop_of_head hst rfl
  refine ⟨hsh.asked t _ (by rw [hst]; exact List.mem_cons_self) (Or.inl rfl), hidle, fun m hm ↦ ?_, ?_⟩
  · rw [← hL, hst, List.mem_cons] at hm
    rcases hm with hm | hm
    · simp at hm
    · have hnone := hr.rest_call hst _ hm
      simp [Frame.call] at hnone
  · rcases hG (by rw [hst]; rfl) hidle with hset | hcl
    · exact Or.inl fun u ↦ hset.inFlight_eq_nil hr.ordered u
    · exact Or.inr hcl

include hr hsh hst htr in
theorem Shutting.exec_graceful (hstr : s.Streams) (hG : s.ShutsSettled (.exec t io)) :
    Graceful s'.trace := by
  rw [htr]
  by_cases hshut : .shutdownWrite ∈ (f.exec (s.site t) s.conn io).obs
  · obtain ⟨rfl, hidle⟩ := Frame.exec_shutdownWrite hshut
    have hobs : (Frame.exec (s.site t) s.conn io (.functor .shutdownInLoop)).obs = [.shutdownWrite] := by
      simp [Frame.exec, Frame.execFunctor, hidle]
    rw [hobs]
    refine hsh.graceful.shut fun hex ↦ ⟨fun m msg hm ↦ ?_, ?_⟩
    · rcases hG (by rw [hst]; rfl) hidle with hset | hcl
      · have hran := hset m (mem_passedCalls.mpr ⟨msg, hm⟩)
        simp only [ranCalls, List.mem_filterMap] at hran
        obtain ⟨o, ho, hm⟩ := hran
        cases o <;> simp only [Option.some.injEq, reduceCtorEq] at hm
        · exact ⟨_, hm ▸ ho⟩
        · exact absurd (hsh.dropped m (hm ▸ ho)) hex
      · exact absurd (Or.inl (hsh.closed hcl.1).1) hex
    · have hnil : s.conn.outputBuffer_.readable = [] := by
        rcases hsh.synced with hsy | hcl
        · by_contra hne
          have hw := hsy.mpr hne
          simp [hidle] at hw
        · exact absurd (Or.inl hcl) hex
      rw [← hstr.stream, hnil, List.append_nil]
  · refine hsh.graceful.extend hshut fun hin d w hw ↦ ?_
    have hs := hsh.shut hin
    rcases Frame.exec_write hw with ⟨m, rfl⟩ | hwr
    · have hmem : Frame.writeOrBuffer m ∈ s.stack t := by
        rw [hst]
        exact List.mem_cons_self
      obtain rfl := hr.loop_of_head hst rfl
      exact hs.unwritten m hmem
    · simp [hs.idle] at hwr

end

theorem Shutting.exec {t : T} {io : Reply} {f : Frame T} {fs : List (Frame T)} (hr : s.Reached)
    (hr' : s'.Reached) (hstr : s.Streams) (hsh : s.Shutting) (hG : s.ShutsSettled (.exec t io))
    (hE : s.KeepsErrno (.exec t io))
    (hst : s.stack t = f :: fs) (hio : f.Accepts (s.site t) s.conn io)
    (hst' : s'.stack = Function.update s.stack t ((f.exec (s.site t) s.conn io).frames ++ fs))
    (hw : s'.loop.waiting = s.loop.waiting ++ (f.exec (s.site t) s.conn io).queued.toList)
    (hconn : s'.conn = (f.exec (s.site t) s.conn io).conn)
    (htr : s'.trace = s.trace ++ (f.exec (s.site t) s.conn io).obs)
    (hL : s'.loop.threadId_ = s.loop.threadId_) (hleft : s.Left → s'.Left) : s'.Shutting := by
  have hasked : ∀ u, ∀ g ∈ s'.stack u,
      g = .functor .shutdownInLoop ∨ g = .queueInLoop .shutdownInLoop → s'.Left :=
    fun u g hg ↦ hsh.exec_asked hst hst' hconn hleft hg
  refine ⟨?_, hsh.exec_closed hr hst hconn htr, Guarded.exec hsh.writing hr hst hst' hconn hL, hasked,
    fun hin ↦ ?_, fun m ↦ Shutting.exec_dropped hst htr hsh hE, fun hin ↦ ?_, hsh.exec_graceful hr hst htr hstr hG⟩
  · rw [hconn, htr]
    rcases hsh.synced with hsy | hcl
    · rcases (Frame.exec_turns _ _ _ f).synced hstr.wf hio hsy with h | rfl | rfl
      · exact Or.inl h
      · exact Or.inr (List.mem_append_right _ (by simp [Frame.exec]))
      · exact Or.inr (List.mem_append_right _ (by simp [Frame.exec]))
    · exact Or.inr (List.mem_append_left _ hcl)
  · rw [hw, List.mem_append] at hin
    rcases hin with hin | hin
    · exact hleft (hsh.queued hin)
    · rcases Frame.exec_queued (by simpa using hin) with rfl | ⟨n, hn⟩
      · exact hleft (hsh.asked t _ (by rw [hst]; exact List.mem_cons_self) (Or.inr rfl))
      · simp at hn
  · have hs : s.Shut := by
      rw [htr] at hin
      rcases List.mem_append.mp hin with hin | hin
      · exact hsh.shut hin
      · exact hsh.shut_of_settled hr hst hG hin
    exact hs.exec hr hst hst' hconn htr hL hr'.ordered (hleft hs.left)

theorem Shutting.other (hr : s.Reached) (hr' : s'.Reached) (hsh : s.Shutting)
    (hconn : ∃ b, s'.conn = { s.conn with inputBuffer_ := b })
    (htr : s'.trace = s.trace ∨ ∃ u, s'.trace = s.trace ++ [.shutdownCalled u])
    (hL : s'.loop.threadId_ = s.loop.threadId_)
    (hfr : ∀ u, ∀ g ∈ s'.stack u, g ∈ s.stack u ∨ g ≠ .setDisconnecting ∧ (∀ m, g ≠ .writeOrBuffer m) ∧
      (g = .functor .shutdownInLoop ∨ g = .queueInLoop .shutdownInLoop → s.Left))
    (hw : .shutdownInLoop ∈ s'.loop.waiting → s.Left) : s'.Shutting := by
  obtain ⟨b, hconn⟩ := hconn
  have hleft : s.Left → s'.Left := by
    intro hl
    rw [Left, hconn]
    exact hl
  obtain ⟨o, ho, hobs⟩ : ∃ o, s'.trace = s.trace ++ o ∧ ∀ x ∈ o, ∃ u, x = .shutdownCalled u := by
    rcases htr with htr | ⟨u, htr⟩
    · exact ⟨[], by simpa using htr, by simp⟩
    · exact ⟨_, htr, by simp⟩
  have hnot : ∀ x, (∀ u, x ≠ .shutdownCalled u) → x ∉ o := by
    intro x hx hin
    obtain ⟨u, rfl⟩ := hobs x hin
    exact hx u rfl
  have hold : ∀ x, (∀ u, x ≠ .shutdownCalled u) → x ∈ s'.trace → x ∈ s.trace := by
    intro x hx hin
    rw [ho, List.mem_append] at hin
    exact hin.resolve_right (hnot x hx)
  have hpassed : passedCalls o = [] := by
    rw [List.eq_nil_iff_forall_not_mem]
    intro m hm
    obtain ⟨msg, hmsg⟩ := mem_passedCalls.mp hm
    exact hnot _ (by simp) hmsg
  refine ⟨?_, fun hs' ↦ ?_, fun m hm ↦ ?_, fun u g hg hask ↦ ?_, fun hin ↦ hleft (hw hin),
    fun m hm ↦ ?_, fun hin ↦ ?_, ?_⟩
  · rw [hconn, ho]
    exact hsh.synced.imp id (List.mem_append_left o)
  · rw [hconn] at hs' ⊢
    rw [ho]
    exact ⟨List.mem_append_left o (hsh.closed hs').1, (hsh.closed hs').2⟩
  · rw [hL] at hm
    rw [hconn]
    rcases hfr _ _ hm with hm | ⟨-, hm', -⟩
    · exact hsh.writing m hm
    · exact absurd rfl (hm' m)
  · rcases hfr u g hg with hg | ⟨-, -, hg⟩
    · exact hleft (hsh.asked u g hg hask)
    · exact hleft (hg hask)
  · rw [ho]
    exact (hsh.dropped m (hold _ (by simp) hm)).append o
  · have hs := hsh.shut (hold _ (by simp) hin)
    refine ⟨hleft hs.left, by rw [hconn]; exact hs.idle, fun m hm ↦ ?_, ?_⟩
    · rw [hL] at hm
      rcases hfr _ _ hm with hm | ⟨-, hm', -⟩
      · exact hs.unwritten m hm
      · exact absurd rfl (hm' m)
    · rcases hs.unsent with hnil | hcl
      · left
        intro u
        have hflow := inFlight_step hr.ordered hr'.ordered ho u
        rw [hnil, hpassed] at hflow
        exact (List.append_eq_nil_iff.mp hflow).2
      · refine Or.inr ⟨by rw [hconn]; exact hcl.1, fun u hu ↦ ?_⟩
        rcases hfr u _ hu with hu | ⟨hu, -⟩
        · exact hcl.2 u hu
        · exact hu rfl
  · rw [ho]
    exact hsh.graceful.extend (hnot _ (by simp)) fun _ d w ↦ hnot _ (by simp)

theorem Shutting.step (hr : s.Reached) (he : s.Established) (hstr : s.Streams) (hsh : s.Shutting)
    (hG : s.ShutsSettled a) (hE : s.KeepsErrno a) (h : s.step a = some s') : s'.Shutting := by
  have hr' := hr.step h
  have hstep := step_cases h
  have hL := hstep.threadId_eq
  have hleft : s.Left → s'.Left := fun hl ↦ hl.step he hr.confined hstep
  cases hstep.flow hr.control with
  | exec t io f fs hst hio hst' hw hconn htr hserver hready hact =>
    exact hsh.exec hr hr' hstr (hact ▸ hG) (hact ▸ hE) hst hio hst' hw hconn htr hL hleft
  | enter t f hu hen =>
    refine hsh.other hr hr' ⟨s.conn.inputBuffer_, by rw [hen.conn_eq]⟩ hen.trace_eq hL ?_ ?_
    · intro u g hg
      rw [hen.stack_eq] at hg
      by_cases hut : u = t
      · rw [hut, Function.update_self, List.mem_cons] at hg
        rcases hg with rfl | hg
        · right
          cases hen with
          | newConnection | destroyServer =>
            simp only [Frame.runInLoop]
            split <;> simp
          | _ => simp
        · exact Or.inl (hut ▸ hg)
      · rw [Function.update_of_ne hut] at hg
        exact Or.inl hg
    · rw [hen.loop_eq]
      exact hsh.queued
  | begin cb hst hst' hw hconn htr =>
    have hcb : cb = .shutdownInLoop → s.Left := by
      rintro rfl
      exact hsh.queued (by rw [hw]; exact List.mem_cons_self)
    refine hsh.other hr hr' ⟨s.conn.inputBuffer_, by rw [hconn]⟩ (Or.inl htr) hL ?_ ?_
    · intro u g hg
      rw [hst'] at hg
      by_cases hut : u = s.loop.threadId_
      · rw [hut, Function.update_self, List.mem_singleton] at hg
        subst hg
        exact Or.inr ⟨by simp, by simp, by simpa using hcb⟩
      · rw [Function.update_of_ne hut] at hg
        exact Or.inl hg
    · intro hin
      exact hsh.queued (by rw [hw]; exact List.mem_cons_of_mem cb hin)
  | idle q hf hst' hw hconn htr =>
    refine hsh.other hr hr' hconn (Or.inl htr) hL (fun u g hg ↦ Or.inl (hst' ▸ hg)) fun hin ↦ ?_
    rw [hw, List.mem_append] at hin
    rcases hin with hin | hin
    · exact hsh.queued hin
    · have hforeign := hf _ hin
      simp [Functor.isForeign] at hforeign

theorem ofConnection_shutting (l b : T) (fd : ℕ) (wc hw : Bool) (mark : ℕ) (mem : T → ℕ → Byte) :
    (ofConnection l b (.ofFd fd wc hw mark) mem).Shutting := by
  have hgraceful : Graceful ([] : List (Obs T)) := ⟨by simp, by simp⟩
  refine ⟨Or.inl ?_, ?_, ?_, ?_, ?_, ?_, ?_, hgraceful⟩
  · have hnone : ((ofConnection l b (.ofFd fd wc hw mark) mem).conn.isWriting : Bool) = false :=
      show (Channel.kNoneEvent &&& Channel.kWriteEvent != 0) = false by decide
    refine iff_of_false (by simp [hnone]) (not_not.mpr ?_)
    exact Buffer.ofSize_readable Buffer.kInitialSize
  all_goals simp [ofConnection, TcpConnection.ofFd, EventLoop.ofThread, EventLoop.waiting]

/-- While every `SHUT_WR` is issued with no send in flight, and `LOG_ERROR` makes no other error
`EPIPE` or `ECONNRESET`, shutdown is graceful. -/
theorem shutdown_graceful {l b : T} {fd mark : ℕ} {wc hw : Bool} {mem : T → ℕ → Byte}
    {as : List (Act T)} (hG : Along step ShutsSettled (ofConnection l b (.ofFd fd wc hw mark) mem) as)
    (hE : Along step KeepsErrno (ofConnection l b (.ofFd fd wc hw mark) mem) as)
    (h : run step (ofConnection l b (.ofFd fd wc hw mark) mem) as = some s) : Graceful s.trace := by
  obtain ⟨-, -, -, hsh⟩ : s.Reached ∧ s.Established ∧ s.Streams ∧ s.Shutting := run_invariant_along
    (I := fun s ↦ s.Reached ∧ s.Established ∧ s.Streams ∧ s.Shutting)
    (fun _ _ _ ⟨hr, he, hs, hsh⟩ ⟨hG, hE⟩ ht ↦ ⟨hr.step ht,
      he.step hr.confined hr.control (step_cases ht), hs.step (step_cases ht),
      hsh.step hr he hs hG hE ht⟩)
    ⟨ofConnection_reached l b _ mem, ofConnection_established l b fd wc hw mark mem,
      ofConnection_streams l b fd wc hw mark mem, ofConnection_shutting l b fd wc hw mark mem⟩
    (hG.and hE) h
  exact hsh.graceful

section

def SettledAt (s : System T) : Act T → Prop
  | .exec t _ => (s.stack t).head? = some (.functor .shutdownInLoop) → s.conn.isWriting = false →
      ∀ m ∈ passedCalls s.trace, m ∈ ranCalls s.trace
  | _ => True

instance (s : System T) (a : Act T) : Decidable (s.SettledAt a) := by
  cases a <;> unfold SettledAt <;> infer_instance

/-- The loop thread sends three bytes, of which one stays buffered; thread 1 sends
two more and shuts the connection down; then the loop goes on with `rest`. -/
def sendThenShutdown (rest : List (Act ℕ)) : List (Act ℕ) :=
  [.newConnection, .exec 0 noCall, .exec 0 noCall, .exec 0 noCall, .send 0 1 3, .exec 0 noCall,
    .exec 0 noCall, .exec 0 (answer (.accepted 2)), .send 1 4 2, .exec 1 noCall, .exec 1 noCall,
    .loop (.wakeup 1), .shutdown 1, .exec 1 noCall, .exec 1 noCall, .exec 1 noCall,
    .loop (.wakeup 1), .loop .enter, .loop .clearQuit, .loop .testQuit] ++ rest

def runSend : List (Act ℕ) :=
  [.loop .handleRead, .loop .beginCalling, .loop .swap,
    .loop (.beginFunctor (.sendInLoop ⟨1, 1, 4, 2⟩)), .exec 0 noCall, .exec 0 (answer (.accepted 2))]

def functorsFirst : List (Act ℕ) :=
  .poll true none :: runSend ++ [.loop .endFunctor, .loop (.beginFunctor .shutdownInLoop), .exec 0 noCall,
    .loop .endFunctor, .loop .endCalling, .loop .testQuit, .poll false (some EPOLLOUT), .handleEvent,
    .exec 0 noCall, .exec 0 (answer (.accepted 3)), .exec 0 noCall, .exec 0 noCall]

def eventFirst : List (Act ℕ) :=
  [.poll true (some EPOLLOUT), .handleEvent, .exec 0 noCall, .exec 0 (answer (.accepted 1)),
    .exec 0 noCall, .exec 0 noCall] ++ runSend

theorem shutdown_graceful_functorsFirst :
    Along step ShutsSettled singleLoop (sendThenShutdown functorsFirst) ∧
    ∃ s, run step singleLoop (sendThenShutdown functorsFirst) = some s ∧
      .shutdownWrite ∈ s.trace ∧ Graceful s.trace := by
  have hG : Along step ShutsSettled singleLoop (sendThenShutdown functorsFirst) := by
    refine Along.imp (G := SettledAt) (fun s a h ↦ ?_) (by decide +kernel)
    cases a with
    | exec t io => exact fun hst hw ↦ Or.inl (h hst hw)
    | _ => trivial
  obtain ⟨s, hs, hin⟩ := Option.map_eq_some_iff.mp
    (show (run step singleLoop (sendThenShutdown functorsFirst)).map
      (fun s ↦ decide (.shutdownWrite ∈ s.trace)) = some true by decide +kernel)
  exact ⟨hG, s, hs, by simpa using hin, shutdown_graceful hG (by decide +kernel) hs⟩

/-- Thread 1 sends and then shuts down; the `EPOLLOUT` that drains the earlier data
comes first. `SHUT_WR` is issued with the second message in the queue, and the
message is written afterwards. -/
theorem shutdown_not_graceful :
    ¬ ∀ (as : List (Act ℕ)) s, run step singleLoop as = some s → Graceful s.trace := by
  intro h
  obtain ⟨s, hs, htr⟩ := Option.map_eq_some_iff.mp
    (show (run step singleLoop (sendThenShutdown eventFirst)).map System.trace =
      some ([.connectionCallback true, .passed ⟨0, 0, 1, 3⟩ [1, 2, 3], .write [1, 2, 3] (.accepted 2),
        .kept ⟨0, 0, 1, 3⟩ [1, 2, 3], .passed ⟨1, 1, 4, 2⟩ [4, 5], .shutdownCalled 1,
        .write [3] (.accepted 1)] ++ .shutdownWrite ::
          [.write [4, 5] (.accepted 2), .kept ⟨1, 1, 4, 2⟩ [4, 5]]) by decide +kernel)
  exact (h _ s hs).silent _ _ htr [4, 5] (.accepted 2) List.mem_cons_self

end

end System

end Mymuduo
