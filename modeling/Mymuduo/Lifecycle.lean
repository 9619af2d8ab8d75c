import Mymuduo.CallOrder
import Mymuduo.Notification
import Mymuduo.OutputStream

namespace Mymuduo

open Foundation.Machine

variable {T : Type}

namespace System

variable [DecidableEq T] {s s' : System T} {a : Act T}

/-- `shutdown()` is called in the loop thread only. -/
def ShutsInLoop (s : System T) : Act T → Prop
  | .shutdown t => t = s.loop.threadId_
  | _ => True

def Heeded (s : System T) : Act T → Prop
  | .exec t io => ∀ f ∈ (s.stack t).head?, f.Heeds s.conn io
  | _ => True

/-- The user has been told of both ends of the connection, each once. -/
structure Notified (s : System T) : Prop where
  flags : flagsOf s.trace = [true, false]
  closes : s.trace.count .closeCallback ≤ 1
  messages : ∀ x y, s.trace = x ++ .messageCallback :: y → flagsOf x = [true]
  state : s.conn.state_ = .kDisconnected

def AtHome (s : System T) : Prop :=
  s.stack s.loop.threadId_ ≠ [] → s.loop.stage.userCode = true

theorem AtHome.of_inUserCode (hs : s.AtHome) {t : T} (hu : s.inUserCode t = true)
    (ht : t = s.loop.threadId_) : s.loop.stage.userCode = true := by
  by_cases hst : s.stack s.loop.threadId_ = []
  · subst ht
    simp only [inUserCode, hst, Bool.and_eq_true, Bool.or_eq_true, decide_eq_true_eq] at hu
    exact hu.2.resolve_left fun hne ↦ hne rfl
  · exact hs hst

omit [DecidableEq T] in
theorem AtHome.polling (hs : s.AtHome) (hstage : s.loop.stage = .polling) :
    s.stack s.loop.threadId_ = [] := by
  by_contra hne
  have hin := hs hne
  simp [hstage, Stage.userCode] at hin

theorem AtHome.step (hs : s.AtHome) (h : Step s a s') : s'.AtHome := by
  cases h with
  | @exec t io f fs l hst ho hio hl =>
    have hstage : l.stage = s.loop.stage ∧ l.threadId_ = s.loop.threadId_ := by
      cases hq : (f.exec (s.site t) s.conn io).queued with
      | none =>
        rw [hq] at hl
        obtain rfl : s.loop = l := Option.some.inj hl
        exact ⟨rfl, rfl⟩
      | some cb =>
        rw [hq] at hl
        obtain ⟨-, rfl⟩ := EventLoop.step_append.mp hl
        exact ⟨rfl, rfl⟩
    intro hne
    simp only [commit, hstage] at hne ⊢
    by_cases ht : s.loop.threadId_ = t
    · exact hs (by rw [ht, hst]; simp)
    · rw [Function.update_of_ne ht] at hne
      exact hs hne
  | @enter _ t f _ hu he =>
    intro hne
    rw [he.loop_eq] at hne ⊢
    by_cases ht : s.loop.threadId_ = t
    · exact hs.of_inUserCode hu ht.symm
    · rw [he.stack_eq, Function.update_of_ne ht] at hne
      exact hs hne
  | assign | retrieve => exact hs
  | poll hr hl =>
    obtain ⟨⟨⟨hstage, -⟩, -⟩, rfl⟩ := EventLoop.step_pollReturn.mp hl
    intro hne
    have hin := hs hne
    simp [hstage, Stage.userCode] at hin
  | @loop b l ha hl =>
    cases b with
    | append t cb =>
      obtain ⟨-, rfl⟩ := EventLoop.step_append.mp hl
      exact hs
    | storeQuit t =>
      obtain ⟨-, rfl⟩ := EventLoop.step_storeQuit.mp hl
      exact hs
    | wakeup t =>
      obtain ⟨-, rfl⟩ := EventLoop.step_wakeup.mp hl
      exact hs
    | pollReturn woken => simp [allows] at ha
    | beginFunctor cb =>
      obtain ⟨-, rfl⟩ := EventLoop.step_beginFunctor.mp hl
      exact fun _ ↦ rfl
    | _ =>
      have hempty : s.stack s.loop.threadId_ = [] := by
        simp only [allows, Bool.and_eq_true, List.isEmpty_iff] at ha
        first | exact ha | exact ha.2
      have hL := EventLoop.threadId_step hl
      intro hne
      simp [entered, hL, hempty] at hne

/-- What holds of a connection until `connectDestroyed` returns. -/
structure Alive (s : System T) : Prop where
  solo : ∀ t, t ≠ s.loop.threadId_ → .shutdown ∉ s.stack t ∧ .setDisconnecting ∉ s.stack t
  stacked : Stacked s.conn.state_ (s.stack s.loop.threadId_)
  attended : s.conn.Attended
  watched : Watched s.conn.state_ s.ready (s.stack s.loop.threadId_)
  told : Told s.conn.state_ s.trace (s.stack s.loop.threadId_)

theorem Established.timely (he : s.Established) (hcf : s.Confined) {t : T} {f : Frame T}
    {fs : List (Frame T)} (hst : s.stack t = f :: fs) : f.Timely s.conn.state_ := by
  have hmem : f ∈ s.stack t := by
    rw [hst]
    exact List.mem_cons_self
  refine ⟨he.of_late hmem, ?_, ?_⟩
  · rintro rfl
    obtain rfl := hcf.of_not_roams hmem rfl
    by_contra hstate
    exact he.not_again hstate hmem
  · rintro rfl
    obtain rfl := hcf.of_not_roams hmem rfl
    exact he.lined.not_destroying hst

theorem not_prompt_of_inUserCode {t : T} (hs : Stacked s.conn.state_ (s.stack t)) (hu : s.inUserCode t = true) :
    ∀ g ∈ s.stack t, g.prompt = false := by
  have hrest := hs.prompt
  simp only [inUserCode, Bool.and_eq_true] at hu
  cases hst : s.stack t with
  | nil => simp
  | cons g gs =>
    rw [hst] at hu hrest
    rw [List.forall_mem_cons]
    refine ⟨?_, hrest⟩
    cases g <;> simp_all [Frame.prompt]

theorem Entry.outer {t : T} {f : Frame T} (he : Entry s a t f s') : f.outer = true := by
  cases he with
  | newConnection | destroyServer =>
    simp only [Frame.runInLoop]
    split <;> rfl
  | _ => rfl

theorem Entry.event {t : T} {f : Frame T} (he : Entry s a t f s') :
    s.ready ≠ none ∧ s'.ready = none ∧ s.stack s.loop.threadId_ = [] ∨
      f.prompt = false ∧ f.ofEvent = false ∧ s'.ready = s.ready := by
  cases he with
  | handleEvent revents hr hst => exact Or.inl ⟨by simp [hr], rfl, hst⟩
  | newConnection | destroyServer =>
    right
    simp only [Frame.runInLoop]
    split <;> exact ⟨rfl, rfl, rfl⟩
  | _ => exact Or.inr ⟨rfl, rfl, rfl⟩

theorem Entry.untold {t : T} {f : Frame T} (he : Entry s a t f s') :
    ∃ o, s'.trace = s.trace ++ o ∧ Untold o := by
  rcases he.trace_eq with htr | ⟨u, htr⟩
  · exact ⟨[], by rw [htr, List.append_nil], by simp [Untold]⟩
  · exact ⟨[.shutdownCalled u], htr, by simp [Untold]⟩

theorem Alive.exec (hs : s.Alive) (he : s.Established) (hcf : s.Confined) {t : T} {io : Reply}
    {f : Frame T} {fs : List (Frame T)} (hst : s.stack t = f :: fs) (hh : f.Heeds s.conn io)
    (hL : s'.loop.threadId_ = s.loop.threadId_)
    (hst' : s'.stack = Function.update s.stack t ((f.exec (s.site t) s.conn io).frames ++ fs))
    (hconn : s'.conn = (f.exec (s.site t) s.conn io).conn)
    (htr : s'.trace = s.trace ++ (f.exec (s.site t) s.conn io).obs) (hready : s'.ready = s.ready)
    (hd : .destroyed ∉ s'.trace) : s'.Alive := by
  have hmem : f ∈ s.stack t := by
    rw [hst]
    exact List.mem_cons_self
  by_cases ht : t = s.loop.threadId_
  · subst ht
    obtain ⟨hsolo, hstk, hatt, hwat, htold⟩ := hs
    rw [hst] at hstk hwat htold
    have hnew : s'.stack s'.loop.threadId_ =
        (f.exec (s.site s.loop.threadId_) s.conn io).frames ++ fs := by
      rw [hL, hst', Function.update_self]
    have htime := he.timely hcf hst
    have hr : f ≠ .removeChannel := by
      rintro rfl
      exact hd (htr ▸ List.mem_append_right _ List.mem_cons_self)
    refine ⟨fun u hu ↦ ?_, ?_, ?_, ?_, ?_⟩
    · rw [hL] at hu
      rw [hst', Function.update_of_ne hu]
      exact hsolo u hu
    · rw [hnew, hconn]
      exact hstk.exec hh htime
    · rw [hconn]
      exact (Frame.exec_turns _ _ _ f).attended hatt hstk.head htime hr
    · rw [hnew, hconn, hready]
      exact hwat.exec hstk htime hr
    · rw [hnew, hconn, htr]
      exact htold.exec hstk htime
  · have hsolo := hs.solo t ht
    have hne : f ≠ .shutdown ∧ f ≠ .setDisconnecting :=
      ⟨fun h ↦ hsolo.1 (h ▸ hmem), fun h ↦ hsolo.2 (h ▸ hmem)⟩
    obtain ⟨hkeep, hun, hfr⟩ := Frame.exec_away (s.site t) s.conn io (hcf t ht f hmem) hne
    have hsame : s'.stack s'.loop.threadId_ = s.stack s.loop.threadId_ := by
      rw [hL, hst', Function.update_of_ne (Ne.symm ht)]
    rw [hkeep] at hconn
    refine ⟨fun u hu ↦ ?_, ?_, ?_, ?_, ?_⟩
    · rw [hL] at hu
      rw [hst']
      by_cases hut : u = t
      · rw [hut, Function.update_self]
        rw [hst] at hsolo
        refine ⟨fun h ↦ ?_, fun h ↦ ?_⟩
        · rcases List.mem_append.mp h with h | h
          · exact (hfr _ h).1 rfl
          · exact hsolo.1 (List.mem_cons_of_mem f h)
        · rcases List.mem_append.mp h with h | h
          · exact (hfr _ h).2 rfl
          · exact hsolo.2 (List.mem_cons_of_mem f h)
      · rw [Function.update_of_ne hut]
        exact hs.solo u hu
    · rw [hsame, hconn]
      exact hs.stacked
    · rw [hconn]
      exact hs.attended
    · rw [hsame, hconn, hready]
      exact hs.watched
    · rw [hsame, hconn, htr]
      exact hs.told.untold hun

theorem Alive.enter (hs : s.Alive) {t : T} {f : Frame T} (hu : s.inUserCode t = true)
    (hL : s.ShutsInLoop a) (he : Entry s a t f s') : s'.Alive := by
  obtain ⟨o, htr, ho⟩ := he.untold
  by_cases ht : t = s.loop.threadId_
  · subst ht
    have hfs := not_prompt_of_inUserCode hs.stacked hu
    have hnew : s'.stack s'.loop.threadId_ = f :: s.stack s.loop.threadId_ := by
      rw [he.loop_eq, he.stack_eq, Function.update_self]
    have hevent : f.fits s.conn.state_ ∧
        Watched s.conn.state_ s'.ready (f :: s.stack s.loop.threadId_) := by
      rcases he.event with ⟨hr, hr', hst⟩ | ⟨hp, hev, hr'⟩
      · refine ⟨?_, fun _ ↦ Or.inl hr', fun _ _ _ ↦ hr'⟩
        apply Frame.fits_of_outer he.outer
        intro hdis
        rcases hs.watched.ready hdis with hnone | hin
        · exact hr hnone
        · simp [hst] at hin
      · rw [hr']
        exact ⟨Frame.fits_of_not_prompt hp, hs.watched.push (by simp [hev])⟩
    refine ⟨fun u hu ↦ ?_, ?_, ?_, ?_, ?_⟩
    · rw [he.loop_eq] at hu
      rw [he.stack_eq, Function.update_of_ne hu]
      exact hs.solo u hu
    · rw [hnew, he.conn_eq]
      exact hs.stacked.push hfs he.outer hevent.1
    · rw [he.conn_eq]
      exact hs.attended
    · rw [hnew, he.conn_eq]
      exact hevent.2
    · rw [hnew, he.conn_eq, htr]
      exact (hs.told.push hfs he.outer).untold ho
  · have hsame : s'.stack s'.loop.threadId_ = s.stack s.loop.threadId_ := by
      rw [he.loop_eq, he.stack_eq, Function.update_of_ne (Ne.symm ht)]
    have hready : s'.ready = s.ready := by
      cases he with
      | handleEvent => exact absurd rfl ht
      | _ => rfl
    have hne : f ≠ .shutdown ∧ f ≠ .setDisconnecting := by
      have hout := he.outer
      refine ⟨?_, by rintro rfl; simp [Frame.outer] at hout⟩
      cases he with
      | shutdown => exact absurd hL ht
      | newConnection | destroyServer => simp only [Frame.runInLoop]; split <;> simp
      | _ => simp
    refine ⟨fun u hu ↦ ?_, ?_, ?_, ?_, ?_⟩
    · rw [he.loop_eq] at hu
      rw [he.stack_eq]
      by_cases hut : u = t
      · subst hut
        have hsolo := hs.solo u ht
        rw [Function.update_self, List.mem_cons, List.mem_cons, not_or, not_or]
        exact ⟨⟨Ne.symm hne.1, hsolo.1⟩, ⟨Ne.symm hne.2, hsolo.2⟩⟩
      · rw [Function.update_of_ne hut]
        exact hs.solo u hu
    · rw [hsame, he.conn_eq]
      exact hs.stacked
    · rw [he.conn_eq]
      exact hs.attended
    · rw [hsame, he.conn_eq, hready]
      exact hs.watched
    · rw [hsame, he.conn_eq, htr]
      exact hs.told.untold ho

theorem Alive.begin (hs : s.Alive) {cb : Functor T} (hst : s.stack s.loop.threadId_ = [])
    (hL : s'.loop.threadId_ = s.loop.threadId_)
    (hst' : s'.stack = Function.update s.stack s.loop.threadId_ [.functor cb])
    (hconn : s'.conn = s.conn) (htr : s'.trace = s.trace) (hready : s'.ready = s.ready) :
    s'.Alive := by
  obtain ⟨hsolo, hstk, hatt, hwat, htold⟩ := hs
  rw [hst] at hstk hwat htold
  have hnone : ∀ g ∈ ([] : List (Frame T)), g.prompt = false := by simp
  have hnew : s'.stack s'.loop.threadId_ = [.functor cb] := by
    rw [hL, hst', Function.update_self]
  refine ⟨fun u hu ↦ ?_, ?_, ?_, ?_, ?_⟩
  · rw [hL] at hu
    rw [hst', Function.update_of_ne hu]
    exact hsolo u hu
  · rw [hnew, hconn]
    exact hstk.push hnone rfl trivial
  · rw [hconn]
    exact hatt
  · rw [hnew, hconn, hready]
    exact hwat.push (by simp [Frame.ofEvent])
  · rw [hnew, hconn, htr]
    exact htold.push hnone rfl

theorem Alive.idle (hs : s.Alive) (hh : s.AtHome) (hL : s'.loop.threadId_ = s.loop.threadId_)
    (hst' : s'.stack = s.stack) (hconn : ∃ b, s'.conn = { s.conn with inputBuffer_ := b })
    (htr : s'.trace = s.trace) (hready : s'.ready = s.ready ∨ s.loop.stage = .polling ∧
      (s'.ready = none ∨ s.conn.reg.isRegistered = true)) : s'.Alive := by
  obtain ⟨b, hb⟩ := hconn
  have hstate : s'.conn.state_ = s.conn.state_ := by rw [hb]
  refine ⟨?_, ?_, hs.attended.congr hstate (by rw [hb]), ?_, ?_⟩
  · rw [hL, hst']
    exact hs.solo
  · rw [hL, hst', hstate]
    exact hs.stacked
  · rw [hL, hst', hstate]
    rcases hready with hready | ⟨hstage, hr⟩
    · rw [hready]
      exact hs.watched
    · -- the loop polls with nothing of the connection on its stack
      rw [hh.polling hstage]
      refine ⟨fun hdis ↦ Or.inl ?_, by simp⟩
      rcases hr with hr | hr
      · exact hr
      · simp [(hs.attended.idle hdis).2] at hr
  · rw [hL, hst', hstate, htr]
    exact hs.told

theorem Alive.step (hs : s.Alive) (hh : s.AtHome) (he : s.Established) (hcf : s.Confined)
    (hc : s.loop.Control) (hL : s.ShutsInLoop a) (hG : s.Heeded a) (h : Step s a s')
    (hd : .destroyed ∉ s'.trace) : s'.Alive := by
  have hL' := h.threadId_eq
  cases h.flow hc with
  | exec t io f fs hst hio hst' hw hconn htr hserver hready hact =>
    have hheed : f.Heeds s.conn io := by
      subst hact
      exact hG f (by rw [hst]; rfl)
    exact hs.exec he hcf hst hheed hL' hst' hconn htr hready hd
  | enter t f hu hen => exact hs.enter hu hL hen
  | begin cb hst hst' hw hconn htr hserver hready => exact hs.begin hst hL' hst' hconn htr hready
  | idle q hf hst' hw hconn htr hserver hready => exact hs.idle hh hL' hst' hconn htr hready

theorem ofConnection_alive (l b : T) (fd : ℕ) (wc hw : Bool) (mark : ℕ) (mem : T → ℕ → Byte) :
    (ofConnection l b (.ofFd fd wc hw mark) mem).Alive :=
  ⟨by simp [ofConnection], ⟨by simp [ofConnection], by simp [ofConnection], by simp [ofConnection],
    by simp [ofConnection]⟩, .ofFd fd wc hw mark, ⟨fun _ ↦ Or.inl rfl, by simp [ofConnection]⟩,
    ⟨rfl, by simp [ofConnection], by simp [ofConnection]⟩⟩

theorem Step.destroyed (hc : s.loop.Control) (h : Step s a s') (hn : .destroyed ∉ s.trace)
    (hd : .destroyed ∈ s'.trace) : ∃ t fs, s.stack t = .removeChannel :: fs ∧
      s'.conn.state_ = s.conn.state_ ∧ s'.trace = s.trace ++ [.destroyed] := by
  cases h.flow hc with
  | exec t io f fs hst hio hst' hw hconn htr =>
    rw [htr, List.mem_append] at hd
    cases Frame.exec_shows (hd.resolve_left hn) with
    | removed => exact ⟨t, fs, hst, by rw [hconn]; rfl, htr⟩
  | enter t f hu he =>
    obtain ⟨o, htr⟩ : ∃ o, s'.trace = s.trace ++ o ∧ .destroyed ∉ o := by
      rcases he.trace_eq with htr | ⟨u, htr⟩
      · exact ⟨[], by rw [htr, List.append_nil], by simp⟩
      · exact ⟨[.shutdownCalled u], htr, by simp⟩
    rw [htr.1, List.mem_append] at hd
    exact absurd hd (not_or.mpr ⟨hn, htr.2⟩)
  | begin cb hst hst' hw hconn htr => exact absurd (htr ▸ hd) hn
  | idle q hf hst' hw hconn htr => exact absurd (htr ▸ hd) hn

theorem Alive.notified (hs : s.Alive) (hcf : s.Confined) (hc : s.loop.Control) (h : Step s a s')
    (hn : .destroyed ∉ s.trace) (hd : .destroyed ∈ s'.trace) : s'.Notified := by
  obtain ⟨t, fs, hst, hstate, htr⟩ := h.destroyed hc hn hd
  have hmem : .removeChannel ∈ s.stack t := by
    rw [hst]
    exact List.mem_cons_self
  obtain rfl := hcf.of_not_roams hmem rfl
  obtain ⟨-, hstk, -, -, htold⟩ := hs
  rw [hst] at hstk htold
  have hclosed : s.conn.state_ = .kDisconnected := by
    rcases hstk.removing List.mem_cons_self with hclosed | hin
    · exact hclosed
    · rcases List.mem_cons.mp hin with hin | hin
      · simp at hin
      · exact absurd hin (hstk.not_mem_rest rfl)
  have htold' := htold.untold (o := [.destroyed]) (by simp [Untold])
  rw [← htr, hclosed] at htold'
  refine ⟨?_, ?_, htold'.messages, hstate.trans hclosed⟩
  · have hflags := htold'.flags
    rwa [Frame.unheard, List.append_nil] at hflags
    simp
  · have hcloses := htold'.closes
    exact le_trans (Nat.le_add_right _ _) hcloses

/-- The invariant of runs that heed what the callbacks take for granted. -/
structure Living (s : System T) : Prop where
  reached : s.Reached
  established : s.Established
  home : s.AtHome
  alive : .destroyed ∉ s.trace → s.Alive

theorem Living.step (hs : s.Living) (hL : s.ShutsInLoop a) (hG : s.Heeded a) (h : s.step a = some s') :
    s'.Living := by
  obtain ⟨hr, he, hh, ha⟩ := hs
  have hstep := step_cases h
  refine ⟨hr.step h, he.step hr.confined hr.control hstep, hh.step hstep, fun hd ↦ ?_⟩
  have hn : .destroyed ∉ s.trace := fun hin ↦ hd (hstep.trace_mono hin)
  exact (ha hn).step hh he hr.confined hr.control hL hG hstep hd

theorem ofConnection_living (l b : T) (fd : ℕ) (wc hw : Bool) (mark : ℕ) (mem : T → ℕ → Byte) :
    (ofConnection l b (.ofFd fd wc hw mark) mem).Living :=
  ⟨ofConnection_reached l b _ mem, ofConnection_established l b fd wc hw mark mem,
    by simp [AtHome, ofConnection], fun _ ↦ ofConnection_alive l b fd wc hw mark mem⟩

/-- Up to the first return of `connectDestroyed`, with every `shutdown()` in the loop
thread: if no `connectDestroyed` finds the connection in `kDisconnecting`, and no
`readv` succeeds once it is closed, the user is told of both ends of it, once each. -/
theorem lifecycle_notified {l b : T} {fd mark : ℕ} {wc hw : Bool} {mem : T → ℕ → Byte}
    {as : List (Act T)} (hL : Along step ShutsInLoop (ofConnection l b (.ofFd fd wc hw mark) mem) as)
    (hG : Along step Heeded (ofConnection l b (.ofFd fd wc hw mark) mem) as)
    (h : run step (ofConnection l b (.ofFd fd wc hw mark) mem) as = some s)
    (hn : .destroyed ∉ s.trace) (ha : s.step a = some s') (hd : .destroyed ∈ s'.trace) :
    s'.Notified := by
  have hs : s.Living := run_invariant_along (I := Living) (fun _ _ _ hs hG ht ↦ hs.step hG.1 hG.2 ht)
    (ofConnection_living l b fd wc hw mark mem) (hL.and hG) h
  exact (hs.alive hn).notified hs.reached.confined hs.reached.control (step_cases ha) hn hd

section

instance (s : System T) (a : Act T) : Decidable (s.ShutsInLoop a) :=
  match a with
  | .shutdown t => inferInstanceAs (Decidable (t = s.loop.threadId_))
  | .exec .. | .send .. | .assign .. | .release .. | .retrieve _ | .newConnection | .destroyServer
  | .removeConnectionInLoop | .poll .. | .handleEvent | .loop _ => isTrue trivial

instance (s : System T) (a : Act T) : Decidable (s.Heeded a) :=
  match a with
  | .exec t io => inferInstanceAs (Decidable (∀ f ∈ (s.stack t).head?, f.Heeds s.conn io))
  | .send .. | .shutdown _ | .assign .. | .release .. | .retrieve _ | .newConnection | .destroyServer
  | .removeConnectionInLoop | .poll .. | .handleEvent | .loop _ => isTrue trivial

def endOfStream : Reply := { write := .accepted 0, read := .delivered [] }

def connect : List (Act ℕ) :=
  [.loop .enter, .loop .clearQuit, .loop .testQuit, .poll false none, .newConnection, .exec 0 noCall,
    .exec 0 noCall, .exec 0 noCall]

def event (revents : BitVec 32) : List (Act ℕ) :=
  [.loop .beginCalling, .loop .swap, .loop .endCalling, .loop .testQuit, .poll false (some revents),
    .handleEvent, .exec 0 noCall]

def close : List (Act ℕ) := List.replicate 6 (.exec 0 noCall)

def destroy : List (Act ℕ) :=
  [.loop .beginCalling, .loop .swap, .loop (.beginFunctor .connectDestroyed), .exec 0 noCall]

def peerCloses : List (Act ℕ) := connect ++ event EPOLLIN ++ .exec 0 endOfStream :: close ++ destroy

/-- The user shuts the connection down and then destroys the server. -/
def shutThenDestroyed : List (Act ℕ) :=
  connect ++ [.shutdown 0, .exec 0 noCall, .exec 0 noCall, .exec 0 noCall, .destroyServer,
    .exec 0 noCall]

/-- One event runs `handleClose` and then `handleRead`. -/
def hungUpWithPriority : List (Act ℕ) :=
  connect ++ event (EPOLLHUP ||| EPOLLPRI) ++ close ++ .exec 0 endOfStream :: close ++ destroy

/-- What the user has heard when `connectDestroyed` returns after `as`, if it had
not returned before. -/
def hearsLast (as : List (Act ℕ)) : Option (List Bool × ℕ × StateE) :=
  (run step singleLoop as).bind fun s ↦ (s.step (.exec 0 noCall)).bind fun s' ↦
    if .destroyed ∉ s.trace ∧ .destroyed ∈ s'.trace then
      some (flagsOf s'.trace, s'.trace.count .closeCallback, s'.conn.state_)
    else none

theorem of_hearsLast {as : List (Act ℕ)} {p : List Bool × ℕ × StateE} (h : hearsLast as = some p) :
    ∃ s s', run step singleLoop as = some s ∧ s.step (.exec 0 noCall) = some s' ∧
      .destroyed ∉ s.trace ∧ .destroyed ∈ s'.trace ∧
      (flagsOf s'.trace, s'.trace.count .closeCallback, s'.conn.state_) = p := by
  simp only [hearsLast, Option.bind_eq_some_iff, Option.ite_none_right_eq_some, Option.some.injEq] at h
  obtain ⟨s, hs, s', ha, hd, hp⟩ := h
  exact ⟨s, s', hs, ha, hd.1, hd.2, hp⟩

theorem lifecycle_notified_peerCloses : Along step ShutsInLoop singleLoop peerCloses ∧
    Along step Heeded singleLoop peerCloses ∧ ∃ s s', run step singleLoop peerCloses = some s ∧
      .destroyed ∉ s.trace ∧ s.step (.exec 0 noCall) = some s' ∧ .destroyed ∈ s'.trace ∧
      s'.Notified := by
  have hL : Along step ShutsInLoop singleLoop peerCloses := by decide +kernel
  have hG : Along step Heeded singleLoop peerCloses := by decide +kernel
  obtain ⟨s, s', hs, ha, hn, hd, -⟩ := of_hearsLast
    (show hearsLast peerCloses = some ([true, false], 1, .kDisconnected) by decide +kernel)
  exact ⟨hL, hG, s, s', hs, hn, ha, hd, lifecycle_notified hL hG hs hn ha hd⟩

/-- After `shutdown()`, `~TcpServer` leaves the user without the second call of
`connectionCallback_`; and where `EPOLLHUP` comes with `EPOLLPRI`, the user has the
second call twice. -/
theorem lifecycle_not_notified :
    (¬ ∀ s s', Along step ShutsInLoop singleLoop shutThenDestroyed →
      run step singleLoop shutThenDestroyed = some s → .destroyed ∉ s.trace →
      s.step (.exec 0 noCall) = some s' → .destroyed ∈ s'.trace → s'.Notified) ∧
    ¬ ∀ s s', Along step ShutsInLoop singleLoop hungUpWithPriority →
      run step singleLoop hungUpWithPriority = some s → .destroyed ∉ s.trace →
      s.step (.exec 0 noCall) = some s' → .destroyed ∈ s'.trace → s'.Notified := by
  refine ⟨fun h ↦ ?_, fun h ↦ ?_⟩
  · obtain ⟨s, s', hs, ha, hn, hd, hp⟩ := of_hearsLast
      (show hearsLast shutThenDestroyed = some ([true], 0, .kDisconnecting) by decide +kernel)
    have hnot := (h s s' (by decide +kernel) hs hn ha hd).state
    simp only [Prod.mk.injEq] at hp
    simp [hp] at hnot
  · obtain ⟨s, s', hs, ha, hn, hd, hp⟩ := of_hearsLast
      (show hearsLast hungUpWithPriority = some ([true, false, false], 2, .kDisconnected) by
        decide +kernel)
    have hnot := (h s s' (by decide +kernel) hs hn ha hd).flags
    simp only [Prod.mk.injEq] at hp
    simp [hp] at hnot

end

end System

end Mymuduo
