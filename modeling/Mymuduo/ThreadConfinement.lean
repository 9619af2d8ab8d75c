import Mymuduo.Establishment
import Mymuduo.OutputStream
import Mymuduo.Refinement

namespace Mymuduo

open Foundation.Machine

variable {T : Type}

/-- `c` with everything but `state_` taken from `d`. -/
def TcpConnection.graft (d c : TcpConnection) : TcpConnection := { d with state_ := c.state_ }

namespace Frame

def touches : Frame T → Bool
  | .functor .connectEstablished | .functor .shutdownInLoop | .writeOrBuffer _ | .destroyConnected
  | .removeChannel | .handleRead | .handleWrite | .handleClose | .messageCallback => true
  | _ => false

variable {e : Site T} {c d : TcpConnection} {io : Reply} {f : Frame T}

theorem roams_of_touches (h : f.touches = true) : f.roams = false := by
  cases f <;> first | rfl | simp [touches] at h

theorem exec_graft (hf : f.touches = false) : f.exec e (d.graft c) io =
    { f.exec e c io with conn := d.graft (f.exec e c io).conn } := by
  cases f with
  | functor cb =>
    cases cb with
    | sendInLoop m =>
      by_cases hc : c.state_ = .kDisconnected <;>
        simp [exec, execFunctor, TcpConnection.graft, hc]
    | connectDestroyed | notify | foreign => rfl
    | connectEstablished | shutdownInLoop => simp [touches] at hf
  | send data len =>
    by_cases hc : c.state_ = .kConnected <;> simp [exec, TcpConnection.graft, hc]
  | userCode | shutdown | setDisconnecting | queueInLoop | handleEvent | drained | handleError
    | connectionCallback | closeCallback | removeConnectionInLoop => rfl
  | writeOrBuffer | destroyConnected | removeChannel | handleRead | handleWrite | handleClose
    | messageCallback => simp [touches] at hf

theorem accepts_graft (hf : f.touches = false) : f.Accepts e (d.graft c) io ↔ f.Accepts e c io := by
  cases f with
  | writeOrBuffer | handleRead | handleWrite => simp [touches] at hf
  | _ => exact Iff.rfl

end Frame

namespace Reactors

variable [DecidableEq T] {s u : Reactors T} {a : Act T} {i : Option ℕ} {c : ℕ} {t : T}

def graft (c : ℕ) (d : TcpConnection) (s : Reactors T) : Reactors T :=
  { s with conn := Function.update s.conn c (d.graft (s.conn c)) }

/-- Of connection `c`, the step reads and writes `state_` at most. -/
def Ignores (s : Reactors T) (c : ℕ) (a : Act T) : Prop :=
  ∀ d, (s.graft c d).step a = (s.step a).map (graft c d)

/-- The step works on the interest of the channel of `c`, on a buffer of `c`, or on the
map `channels_` of the poller that `c` is registered with. -/
def Touches (s : Reactors T) (c : ℕ) : Act T → Prop
  | .exec t _ => ∃ f, (s.stack t).head? = some (.conn c f) ∧ f.touches = true
  | .retrieve _ d _ => d = c
  | .poll i _ _ => c < s.map.accepted ∧ s.getLoop c = i
  | _ => False

/-- The step works on `connections_` or `nextConnId_`. -/
def TouchesMap (s : Reactors T) : Act T → Prop
  | .exec t _ => (s.stack t).head? = some .newConnection ∨
      (∃ c, (s.stack t).head? = some (.conn c .removeConnectionInLoop)) ∨
        ∃ items, (s.stack t).head? = some (.destructor items)
  | .destroy _ => True
  | _ => False

/-- The thread that takes a step. -/
def runner (s : Reactors T) : Act T → T
  | .exec t _ | .send t _ _ _ | .shutdown t _ | .hold t _ _ | .drop t _ | .assign t _ _
  | .retrieve t _ _ | .loop _ (.append t _) | .loop _ (.storeQuit t) | .loop _ (.wakeup t) => t
  | .poll i _ _ | .handleEvent i _ | .loop i _ => s.threadId i
  | .destroy _ => s.base
  | .exit k => s.threadId (some k)

section

variable {d : TcpConnection}

theorem enqueue_graft {o : Outcome T} {e : ℕ} {q : TcpConnection} :
    (s.graft c d).enqueue t e { o with conn := q } = (s.enqueue t e o).map (graft c d) := by
  unfold enqueue queueInLoop
  cases o.queued with
  | some f =>
    rw [apply_ite (Option.map (graft c d)), Option.map_map]
    rfl
  | none =>
    cases o.posted with
    | true =>
      rw [apply_ite (Option.map (graft c d)), Option.map_map]
      rfl
    | false => rfl

omit [DecidableEq T] in
theorem reports_graft (h : ¬ (c < s.map.accepted ∧ s.getLoop c = i)) (source : Source) :
    (s.graft c d).reports i source = s.reports i source := by
  cases source with
  | acceptor => rfl
  | conn e =>
    by_cases hec : e = c
    · subst hec
      have hfalse : (decide (e < s.map.accepted) && decide (s.getLoop e = i)) = false := by
        simpa [imp_iff_not_or] using h
      change (decide (e < s.map.accepted) && decide (s.getLoop e = i) && _) =
        (decide (e < s.map.accepted) && decide (s.getLoop e = i) && _)
      rw [hfalse, Bool.false_and, Bool.false_and]
    · simp only [reports, graft, Function.update_of_ne hec]
      rfl

theorem commit_graft {e : ℕ} {fs : List (Activity T)} {o : Outcome T} (h : e ≠ c) :
    (s.graft c d).commit t e fs o = (s.commit t e fs o).graft c d := by
  simp only [graft, commit, Function.update_of_ne h.symm, Function.update_comm h]

theorem commit_graft_self {fs : List (Activity T)} {o : Outcome T} :
    (s.graft c d).commit t c fs { o with conn := d.graft o.conn } = (s.commit t c fs o).graft c d := by
  simp only [graft, commit, Function.update_idem, Function.update_self]

theorem exec_graft {io : Reply} {f : Activity T} {fs : List (Activity T)}
    (hf : ∀ g, f = .conn c g → g.touches = false) :
    (s.graft c d).exec t io fs f = (s.exec t io fs f).map (graft c d) := by
  cases f with
  | conn e f =>
    have hsite : (s.graft c d).site e t = s.site e t := rfl
    simp only [exec]
    rw [apply_ite (Option.map (graft c d)), apply_ite (Option.map (graft c d)), Option.map_map]
    by_cases hec : e = c
    · subst hec
      have huntouched := hf f rfl
      have hconn : (s.graft e d).conn e = d.graft (s.conn e) := Function.update_self ..
      rw [hsite, hconn]
      simp only [Frame.accepts_graft huntouched, Frame.exec_graft huntouched, enqueue_graft,
        Option.map_map, Function.comp_def, commit_graft_self]
      rfl
    · have hconn : (s.graft c d).conn e = s.conn e := Function.update_of_ne hec ..
      have henqueue := enqueue_graft (s := s) (c := c) (d := d) (t := t) (e := e)
        (o := f.exec (s.site e t) (s.conn e) io) (q := (f.exec (s.site e t) (s.conn e) io).conn)
      rw [hsite, hconn, henqueue, Option.map_map]
      simp only [Function.comp_def, commit_graft hec]
      rfl
  | userCode => rfl
  | newConnection =>
    simp only [exec]
    rw [apply_ite (Option.map (graft c d))]
    rfl
  | destructor items => cases items <;> rfl
  | quit k =>
    simp only [exec]
    rw [apply_ite (Option.map (graft c d)), apply_ite (Option.map (graft c d)), Option.map_map]
    rfl
  | join k =>
    simp only [exec]
    rw [apply_ite (Option.map (graft c d))]
    rfl

theorem act_graft (h : ¬ s.Touches c a) : (s.graft c d).act a = (s.act a).map (graft c d) := by
  cases a with
  | exec t io =>
    have hstack : (s.graft c d).stack t = s.stack t := rfl
    simp only [act, hstack]
    cases hst : s.stack t with
    | nil => rfl
    | cons f fs =>
      have hf : ∀ g, f = .conn c g → g.touches = false := by
        intro g hg
        rw [← Bool.not_eq_true]
        intro htouch
        exact h ⟨g, by simp [hst, hg], htouch⟩
      simp only [exec_graft hf]
      rw [apply_ite (Option.map (graft c d))]
      rfl
  | handleEvent i accepts =>
    have hunhandled : (s.graft c d).unhandled i = s.unhandled i := rfl
    have hloops : (s.graft c d).loops = s.loops := rfl
    simp only [act, hunhandled, hloops]
    cases hes : s.unhandled i with
    | nil => rfl
    | cons e es =>
      cases (s.loops i).stage with
      | handling woken =>
        simp only
        rw [apply_ite (Option.map (graft c d))]
        cases e.1 with
        | conn k => rfl
        | acceptor =>
          simp only
          rw [apply_ite (Option.map (graft c d)), apply_ite some]
          cases accepts <;> rfl
      | _ => rfl
  | retrieve t e len =>
    have hec : e ≠ c := h
    have hconn : (s.graft c d).conn e = s.conn e := Function.update_of_ne hec ..
    simp only [act, hconn]
    rw [apply_ite (Option.map (graft c d))]
    simp only [Option.map_some, graft, Function.update_comm hec, Function.update_of_ne hec.symm]
    rfl
  | poll i woken active =>
    simp only [act, reports_graft h]
    rw [apply_ite (Option.map (graft c d)), Option.map_map]
    rfl
  | loop i b =>
    simp only [act]
    rw [apply_ite (Option.map (graft c d)), Option.map_map]
    have hbeside : (s.graft c d).beside i b = (s.beside i b).graft c d := by
      cases b with
      | testQuit =>
        simp only [beside]
        rw [apply_ite (graft c d)]
        rfl
      | _ => rfl
    simp only [hbeside]
    rfl
  | _ =>
    unfold act
    rw [apply_ite (Option.map (graft c d))]
    rfl

theorem ignores_of_not_touches (h : ¬ s.Touches c a) : s.Ignores c a := by
  intro d
  unfold step
  rw [apply_ite (Option.map (graft c d)), act_graft h, Option.map_map, Option.map_map]
  rfl

end

theorem Does.aborted (h : Does s a u) : u.aborted = s.aborted ∨
    ∃ t f fs, s.stack t = f :: fs ∧ s.fatal t f = true := by
  cases h with
  | frame hst ho hf hio hu =>
    left
    rcases hu.setLoop_eq with rfl | ⟨j, k, l, -, rfl⟩ <;> rfl
  | abort hst hf => exact Or.inr ⟨_, _, _, hst, hf⟩
  | destruct hst ho hf hu =>
    left
    cases exec_destroys hf hu <;> rfl
  | @loop i b l hi ha hl => exact Or.inl (s.beside_untouched i b).2.2.2.2.2
  | leave | accept | send | shutdown | hold | drop | assign | retrieve | poll | handle | handleAccept
    | destroy | exit => exact Or.inl rfl

theorem Does.map_eq (h : Does s a u) (hm : ¬ s.TouchesMap a) : u.map = s.map := by
  cases h with
  | @frame t io c f fs u hst ho hf hio hu =>
    have herased : (f.exec (s.site c t) (s.conn c) io).erased = false := by
      rw [← Bool.not_eq_true]
      intro herased
      exact hm (Or.inr (Or.inl ⟨c, by rw [hst, Frame.exec_erased herased]; rfl⟩))
    simp only [commit, herased]
    exact hu.untouched.2.1
  | accept hst ho ht => exact absurd (Or.inl (by rw [hst]; rfl)) hm
  | @destruct t io f fs u hst ho hf hu =>
    cases exec_destroys hf hu with
    | emptied => exact absurd (Or.inr (Or.inr ⟨[], by rw [hst]; rfl⟩)) hm
    | entry c items => exact absurd (Or.inr (Or.inr ⟨c :: items, by rw [hst]; rfl⟩)) hm
    | stored | joined | finished => rfl
  | @loop i b l hi ha hl => exact (s.beside_untouched i b).1
  | destroy => exact absurd trivial hm
  | abort | leave | send | shutdown | hold | drop | assign | retrieve | poll | handle | handleAccept
    | exit => rfl

/-- A step of thread `runner` keeps to the threads: what works on a connection is taken
by the thread of the loop that `newConnection` chose for it, what works on the map of the
server by the thread of the server's loop, and no assertion fails. -/
structure Confines (s : Reactors T) (a : Act T) (u : Reactors T) : Prop where
  home : ∀ c, s.Touches c a → s.runner a = s.threadId (s.getLoop c)
  apart : ∀ c, ¬ s.Touches c a → s.Ignores c a
  base : s.TouchesMap a → s.runner a = s.base
  map : ¬ s.TouchesMap a → u.map = s.map
  chosen : ∀ c < s.map.accepted, u.getLoop c = s.getLoop c
  going : u.aborted = false

theorem Sound.confines (hs : s.Sound)
    (hv : ∀ i c, s.Belongs i c → (s.view i c).Confined ∧ (s.view i c).Placed)
    (h : s.step a = some u) : s.Confines a u := by
  obtain ⟨hgoing, u, hdoes, rfl⟩ := step_cases h
  have hconfined : ∀ i c, s.Belongs i c → (s.view i c).Confined := fun i c hb ↦ (hv i c hb).1
  refine ⟨fun c htouch ↦ ?_, fun c ↦ ignores_of_not_touches, fun hm ↦ ?_, hdoes.map_eq,
    hdoes.kept.getLoop, ?_⟩
  · cases a with
    | exec t io =>
      obtain ⟨f, hhead, hf⟩ := htouch
      exact hs.thread_of_frame hconfined (List.mem_of_head? hhead) (Frame.roams_of_touches hf)
    | retrieve t d len =>
      obtain rfl : d = c := htouch
      cases hdoes with
      | @retrieve _ _ _ fs ho hst =>
        have hmem : .conn d .userCode ∈ s.stack t := by simp [hst]
        exact hs.thread_of_frame hconfined hmem rfl
    | poll i woken active =>
      obtain ⟨-, hg⟩ := htouch
      rw [hg]
      rfl
    | send | shutdown | hold | drop | assign | handleEvent | loop | destroy | exit =>
      exact absurd htouch not_false
  · cases a with
    | exec t io =>
      rcases hm with hhead | ⟨c, hhead⟩ | ⟨items, hhead⟩
      · exact hs.stacked t _ (List.mem_of_head? hhead)
      · have hmem := List.mem_of_head? hhead
        have hb : s.Belongs (s.getLoop c) c := ⟨hs.routed c (hs.stacked t _ hmem), fun _ ↦ rfl⟩
        have hframe : .removeConnectionInLoop ∈ (s.view (s.getLoop c) c).stack t :=
          List.mem_filterMap.mpr ⟨_, hmem, by simp [Activity.frame]⟩
        have hplaced := (hv _ c hb).2
        by_contra hbase
        by_cases ht : t = (s.view (s.getLoop c) c).loop.threadId_
        · exact hbase (ht.trans (hplaced.homeRemoval (ht ▸ hframe)).symm)
        · exact (hplaced.elsewhere t ht hbase _ hframe).2 rfl
      · exact absurd (hs.stacked t _ (List.mem_of_head? hhead)) not_false
    | destroy => rfl
    | send | shutdown | hold | drop | assign | retrieve | poll | handleEvent | loop | exit =>
      exact absurd hm not_false
  · change u.aborted = false
    rcases hdoes.aborted with heq | ⟨t, f, fs, hst, hf⟩
    · rw [heq, hgoing]
    · rw [hs.not_fatal hconfined hst] at hf
      simp at hf

section

variable {p : Pool T} {name ipPort : String} {fd : ℕ → ℕ} {wc hw : Bool} {mark : ℕ}
  {mem : T → ℕ → Byte} {as : List (Act T)}

theorem civil_of_lives (hd : ∀ items, .destroy items ∉ as) (s : Reactors T) :
    Along step (Civil False) s as := by
  apply along_of_forall
  intro a ha s
  cases a with
  | destroy items => exact hd items ha
  | exec | poll => exact fun h ↦ absurd h not_false
  | send | shutdown | hold | drop | assign | retrieve | handleEvent | loop | exit => trivial

/-- As long as the server lives, every thread keeps to its connections. -/
theorem threads_confined (hd : ∀ items, .destroy items ∉ as)
    (h : run step (ofPool p name ipPort fd wc hw mark mem) as = some s) (ha : s.step a = some u) :
    s.Confines a u := by
  have hs := run_refines (civil_of_lives hd _) h
  refine hs.sound.confines (fun i c hb ↦ ?_) ha
  have hboth : (s.view i c).Reached ∧ (s.view i c).Established :=
    (hs.views i c hb).invariant (I := fun v ↦ v.Reached ∧ v.Established)
      (fun _ _ _ hI _ h ↦
        ⟨hI.1.step h, hI.2.step hI.1.confined hI.1.control (System.step_cases h)⟩)
      ⟨System.ofConnection_reached .., System.ofConnection_established ..⟩
  exact ⟨hboth.1.confined, hboth.2.placed⟩

end

section

def poolOf (numThreads : ℕ) : Pool ℕ where
  numThreads_ := numThreads
  threadId i := i.elim 0 (· + 1)
  inj i _ j _ h := by cases i <;> cases j <;> simp_all

def opening (i : Option ℕ) : List (Act ℕ) := [.loop i .enter, .loop i .clearQuit, .loop i .testQuit]

def serverOn (numThreads : ℕ) : Reactors ℕ :=
  ofPool (poolOf numThreads) "server" "" (fun c ↦ c) false false 0 fun _ _ ↦ 0

def acceptsAway : List (Act ℕ) :=
  opening none ++ opening (some 0) ++ [.poll none false [(.acceptor, EPOLLIN)],
    .handleEvent none true, .exec 0 System.noCall, .exec 0 System.noCall, .loop (some 0) (.wakeup 0),
    .poll (some 0) true [], .loop (some 0) .handleRead, .loop (some 0) .beginCalling,
    .loop (some 0) .swap, .loop (some 0) (.beginFunctor (.conn 0 .connectEstablished))]

theorem threads_confined_acceptsAway : (∀ items, .destroy items ∉ acceptsAway) ∧
    ∃ s u, run step (serverOn 1) acceptsAway = some s ∧ s.step (.exec 1 System.noCall) = some u ∧
      s.Touches 0 (.exec 1 System.noCall) ∧ s.Confines (.exec 1 System.noCall) u := by
  have hd : ∀ items, .destroy items ∉ acceptsAway := by simp [acceptsAway, opening]
  obtain ⟨u, hu⟩ := Option.isSome_iff_exists.mp
    (show ((run step (serverOn 1) acceptsAway).bind fun s ↦
      if (s.stack 1).head? = some (.conn 0 (.functor .connectEstablished)) then
        s.step (.exec 1 System.noCall)
      else none).isSome = true by decide +kernel)
  obtain ⟨s, hs, hstep⟩ := Option.bind_eq_some_iff.mp hu
  obtain ⟨hhead, hstep⟩ := Option.ite_none_right_eq_some.mp hstep
  exact ⟨hd, s, u, hs, hstep, ⟨_, hhead, rfl⟩, threads_confined hd hs hstep⟩

end

end Reactors

end Mymuduo
