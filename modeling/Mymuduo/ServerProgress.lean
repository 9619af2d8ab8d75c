import Mymuduo.LoopProgress
import Mymuduo.ThreadConfinement

namespace Mymuduo

open Foundation.Machine

variable {T : Type}

namespace Reactors

/-- The thread of loop `i` takes a turn. -/
def Act.turnOf (i : Option ℕ) : Act T → Bool
  | .loop j b => j = i && b.isTurn
  | .poll j _ _ => j = i
  | _ => false

/-- The functors that an action begins to execute in loop `i`. -/
def Act.began (i : Option ℕ) : Act T → List (Job T)
  | .loop j b => if j = i then EventLoop.executed [b] else []
  | _ => []

structure Drives (i : Option ℕ) (a : Act T) (bs : List (EventLoop.Act T (Job T))) : Prop where
  turns : bs.countP EventLoop.Act.isTurn = (a.turnOf i).toNat
  began : EventLoop.executed bs = a.began i
  quit : ∀ t, .storeQuit t ∈ bs → i = none ∧ a = .loop i (.storeQuit t)

variable [DecidableEq T] {s u : Reactors T} {a : Act T} {i j : Option ℕ} {t : T}

omit [DecidableEq T] in
theorem Drives.nothing (hturn : a.turnOf i = false) (hbegan : a.began i = []) : Drives i a [] :=
  ⟨by simp [hturn], hbegan.symm, by simp⟩

omit [DecidableEq T] in
theorem Drives.append (hturn : a.turnOf i = false) (hbegan : a.began i = []) (k : Job T) :
    Drives i a [.append t k] :=
  ⟨by simp [hturn, EventLoop.Act.isTurn], hbegan.symm, by simp⟩

theorem Enqueues.drives {c : ℕ} {o : Outcome T} (h : Enqueues s t c o u) (hturn : a.turnOf i = false)
    (hbegan : a.began i = []) :
    ∃ bs, run EventLoop.step (s.loops i) bs = some (u.loops i) ∧ Drives i a bs := by
  rcases h.setLoop_eq with rfl | ⟨j, k, l, hl, rfl⟩
  · exact ⟨[], rfl, .nothing hturn hbegan⟩
  · by_cases hij : i = j
    · subst hij
      exact ⟨[.append t k], run_cons.mpr ⟨l, hl, by rw [setLoop_self]; rfl⟩, .append hturn hbegan k⟩
    · exact ⟨[], by rw [setLoop_of_ne hij]; rfl, .nothing hturn hbegan⟩

/-- Each loop of a living server goes through its own steps, one by one. -/
theorem Does.drives (h : Does s a u) (hs : s.Sound) :
    ∃ bs, run EventLoop.step (s.loops i) bs = some (u.loops i) ∧ Drives i a bs := by
  cases h with
  | frame hst ho hf hio hu => exact hu.drives rfl rfl
  | destruct hst ho hf hu => exact (hs.not_destroys hst hf).elim
  | @poll j woken active l hi hu hn hr hl =>
    by_cases hij : i = j
    · subst hij
      refine ⟨[.pollReturn woken], run_cons.mpr ⟨l, hl, by rw [setLoop_self]; rfl⟩, ?_, rfl, by simp⟩
      simp [Act.turnOf, EventLoop.Act.isTurn]
    · refine ⟨[], by rw [setLoop_of_ne hij]; rfl, .nothing ?_ rfl⟩
      simpa [Act.turnOf] using Ne.symm hij
  | @loop j b l hi ha hl =>
    by_cases hij : i = j
    · subst hij
      refine ⟨[b], run_cons.mpr ⟨l, hl, by rw [setLoop_self]; rfl⟩, ?_, ?_, ?_⟩
      · cases hb : b.isTurn <;> simp [Act.turnOf, hb]
      · simp [Act.began]
      · intro t ht
        obtain rfl := List.mem_singleton.mp ht
        simp only [allows, Bool.and_eq_true, decide_eq_true_eq] at ha
        exact ⟨ha.1, rfl⟩
    · refine ⟨[], by rw [setLoop_of_ne hij, (s.beside_kept j b).2]; rfl, .nothing ?_ ?_⟩
      · simp [Act.turnOf, Ne.symm hij]
      · simp [Act.began, Ne.symm hij]
  | @exit k hk hx hstage hu => exact absurd hstage (hs.running k).2
  | abort | leave | accept | send | shutdown | hold | drop | assign | retrieve | handle
    | handleAccept | destroy => exact ⟨[], rfl, .nothing rfl rfl⟩

section

variable {p : Pool T} {name ipPort : String} {fd : ℕ → ℕ} {wc hw : Bool} {mark : ℕ}
  {mem : T → ℕ → Byte} {as pre : List (Act T)} {strict : Prop}

theorem Refines.drives (hs : Refines p fd wc hw mark mem strict s)
    (hG : Along Reactors.step (Civil strict) s as) (h : run Reactors.step s as = some u)
    (i : Option ℕ) :
    ∃ bs, run EventLoop.step (s.loops i) bs = some (u.loops i) ∧
      bs.countP EventLoop.Act.isTurn = as.countP (Act.turnOf i) ∧
      EventLoop.executed bs = as.flatMap (Act.began i) ∧
      ∀ t, .storeQuit t ∈ bs → i = none ∧ .loop i (.storeQuit t) ∈ as := by
  induction as generalizing s with
  | nil =>
    obtain rfl : s = u := by simpa using h
    exact ⟨[], rfl, rfl, rfl, by simp⟩
  | cons a as ih =>
    obtain ⟨v, hv, hu⟩ := run_cons.mp h
    have hrefines := hs.step hG.1 hv
    obtain ⟨-, w, hdoes, rfl⟩ := step_cases hv
    obtain ⟨bs, hbs, hdrive⟩ := hdoes.drives hs.sound (i := i)
    obtain ⟨cs, hcs, hturns, hbegan, hquit⟩ := ih hrefines (hG.tail hv) hu
    refine ⟨bs ++ cs, run_append.mpr ⟨w.loops i, hbs, hcs⟩, ?_, ?_, ?_⟩
    · rw [List.countP_append, hdrive.turns, hturns, List.countP_cons]
      cases a.turnOf i <;> simp [Nat.add_comm]
    · rw [EventLoop.executed_append, hdrive.began, hbegan, List.flatMap_cons]
    · intro t ht
      rcases List.mem_append.mp ht with ht | ht
      · obtain ⟨hi, rfl⟩ := hdrive.quit t ht
        exact ⟨hi, List.mem_cons_self⟩
      · exact ⟨(hquit t ht).1, List.mem_cons_of_mem a (hquit t ht).2⟩

/-- No `quit()` of the server's own loop is in force; the loops of the pool are told to
quit by the destructors only. -/
structure Awake (s : Reactors T) (as : List (Act T)) : Prop where
  quit : (s.loops none).quit_ = false
  running : (s.loops none).stage ≠ .stopped
  calls : ∀ t, .loop none (.storeQuit t) ∉ as

theorem Refines.served (hs : Refines p fd wc hw mark mem strict s)
    (hG : Along Reactors.step (Civil strict) s as) (h : run Reactors.step s as = some u)
    (hawake : i = none → s.Awake as)
    (hn : 2 * (s.loops i).waiting.length + 7 ≤ as.countP (Act.turnOf i)) :
    (s.loops i).waiting <+: as.flatMap (Act.began i) := by
  obtain ⟨bs, hbs, hturns, hbegan, hquit⟩ := hs.drives hG h i
  have hgoing : (s.loops i).Going := by
    refine ⟨hs.sound.control i, ?_, ?_⟩
    · intro hq
      cases i with
      | none => simp [(hawake rfl).quit] at hq
      | some k => simp [(hs.sound.running k).1] at hq
    · cases i with
      | none => exact (hawake rfl).running
      | some k => exact (hs.sound.running k).2
  have hnone : ∀ t, .storeQuit t ∉ bs := by
    intro t ht
    obtain ⟨rfl, hin⟩ := hquit t ht
    exact (hawake rfl).calls t hin
  rw [← hbegan]
  exact hgoing.served hnone hbs (by rwa [hturns])

/-- The functors that wait in a loop of a living server are begun by the thread of that
loop, in the order of the queue, within two turns each and seven more, whatever the other
threads queue meanwhile; in the server's own loop as long as nobody quits it. -/
theorem jobs_served (hd : ∀ items, .destroy items ∉ pre ++ as)
    (hpre : run step (ofPool p name ipPort fd wc hw mark mem) pre = some s)
    (h : run step s as = some u) (hawake : i = none → s.Awake as)
    (hn : 2 * (s.loops i).waiting.length + 7 ≤ as.countP (Act.turnOf i)) :
    (s.loops i).waiting <+: as.flatMap (Act.began i) :=
  (run_refines (civil_of_lives (fun items hmem ↦ hd items (List.mem_append_left as hmem)) _)
    hpre).served (civil_of_lives (fun items hmem ↦ hd items (List.mem_append_right pre hmem)) s)
    h hawake hn

/-- The server has not been destroyed, no thread of its pool has ended, and no assertion
has failed. -/
structure Living (s : Reactors T) : Prop where
  serving : s.serving = true
  exited : ∀ k, s.exited k = false
  going : s.aborted = false

theorem Living.does (hl : s.Living) (hs : s.Sound)
    (hv : ∀ i c, s.Belongs i c → (s.view i c).Confined) (h : Does s a u) (hG : s.Civil strict a) :
    u.Living := by
  obtain ⟨hserving, hexited, hgoing⟩ := hl
  have haborted : u.aborted = false := by
    rcases h.aborted with heq | ⟨t, f, fs, hst, hf⟩
    · rw [heq, hgoing]
    · rw [hs.not_fatal hv hst] at hf
      simp at hf
  cases h with
  | frame hst ho hf hio hu =>
    rcases hu.setLoop_eq with rfl | ⟨j, k, l, -, rfl⟩ <;> exact ⟨hserving, hexited, haborted⟩
  | destruct hst ho hf hu => exact (hs.not_destroys hst hf).elim
  | @loop i b l hi ha hl =>
    refine ⟨(s.beside_untouched i b).2.2.2.2.1.trans hserving, fun k ↦ ?_, haborted⟩
    have hbeside : (s.beside i b).exited = s.exited := by
      cases b with
      | testQuit =>
        simp only [beside]
        split <;> rfl
      | _ => rfl
    exact (congrFun hbeside k).trans (hexited k)
  | destroy => exact absurd hG not_false
  | @exit k hk hx hstage hu => exact absurd hstage (hs.running k).2
  | abort | leave | accept | send | shutdown | hold | drop | assign | retrieve | poll | handle
    | handleAccept => exact ⟨hserving, hexited, haborted⟩

theorem run_living (hG : Along step (Civil strict) (ofPool p name ipPort fd wc hw mark mem) as)
    (h : run step (ofPool p name ipPort fd wc hw mark mem) as = some s) :
    Refines p fd wc hw mark mem strict s ∧ s.Living := by
  refine run_invariant_along (I := fun s ↦ Refines p fd wc hw mark mem strict s ∧ s.Living) ?_
    ⟨ofPool_refines, rfl, fun _ ↦ rfl, rfl⟩ hG h
  rintro s a t ⟨hs, hl⟩ ha ht
  have hstep := hs.step ha ht
  obtain ⟨-, u, hdoes, rfl⟩ := step_cases ht
  obtain ⟨hserving, hexited, hgoing⟩ :=
    hl.does hs.sound (fun i c hb ↦ (hs.reached hb).confined) hdoes ha
  exact ⟨hstep, hserving, hexited, hgoing⟩

theorem Sound.appends (hs : s.Sound) (hx : ∀ k, s.exited k = false) (ho : s.owes t = false)
    (hst : s.stack t ≠ []) (hi : i ∈ s.indices) (j : Job T) : ∃ v, s.queueInLoop t i j = some v := by
  have hgone : s.gone i = false := by
    cases i with
    | none => rfl
    | some k => exact hx k
  have hcall : (s.loops i).owes t = false ∧
      (t = (s.loops i).threadId_ → (s.loops i).stage.userCode = true) := by
    refine ⟨owes_eq_false.mp ho i hi, ?_⟩
    rintro rfl
    exact hs.home i hi hst
  refine ⟨s.setLoop i ((s.loops i).queueInLoop t j), ?_⟩
  simp [queueInLoop, hgone, EventLoop.step_append.mpr ⟨hcall, rfl⟩]

theorem Refines.executes (hs : Refines p fd wc hw mark mem strict s) (hl : s.Living)
    {f : Activity T} {fs : List (Activity T)} (hst : s.stack t = f :: fs) (ho : s.owes t = false)
    {io : Reply} (hio : ∀ c g, f = .conn c g → g.Accepts (s.site c t) (s.conn c) io) :
    ∃ v, s.step (.exec t io) = some v := by
  have hact : ∃ v, s.act (.exec t io) = some v := by
    have hexec : ∃ v, s.exec t io fs f = some v := by
      have hnot := hs.sound.not_fatal (fun i c hb ↦ (hs.reached hb).confined) hst
      have hstands := hs.sound.stacked t f (by simp [hst])
      cases f with
      | conn c f =>
        have hne : s.stack t ≠ [] := by simp [hst]
        have henqueue : ∃ v, s.enqueue t c (f.exec (s.site c t) (s.conn c) io) = some v := by
          have hhome := hs.sound.routed c hstands
          simp only [enqueue]
          split
          · exact hs.sound.appends hl.exited ho hne hhome _
          · exact hs.sound.appends hl.exited ho hne none_mem_indices _
          · exact ⟨s, rfl⟩
        obtain ⟨v, hv⟩ := henqueue
        have hfatal : (f.asserts && decide (t ≠ s.threadId (s.getLoop c))) = false := hnot
        exact ⟨_, by simp only [exec, hfatal, Bool.false_eq_true, if_false, if_pos (hio c f rfl), hv]; rfl⟩
      | userCode => exact ⟨_, rfl⟩
      | newConnection =>
        have ht : t = s.base := hstands
        exact ⟨_, by simp only [exec, if_neg (not_not.mpr ht)]; rfl⟩
      | destructor | quit | join => exact absurd hstands not_false
    simpa [act, hst, ho] using hexec
  obtain ⟨v, hv⟩ := hact
  exact ⟨v.settle, step_iff.mpr ⟨hl.going, v, hv, rfl⟩⟩

theorem Refines.proceeds (hs : Refines p fd wc hw mark mem strict s) (hl : s.Living)
    (hi : i ∈ s.indices) (hrun : (s.loops i).stage ≠ .stopped) (hu : s.unoccupied i = true) :
    ∃ a v, s.step a = some v ∧ (a = .handleEvent i false ∨ a.turnOf i = true) := by
  have hact : ∃ a v, s.act a = some v ∧ (a = .handleEvent i false ∨ a.turnOf i = true) := by
    cases he : s.unhandled i with
    | cons e es =>
      obtain ⟨woken, hstage⟩ := hs.sound.handling i (by simp [he])
      obtain ⟨source, revents⟩ := e
      cases source with
      | conn c => exact ⟨.handleEvent i false, _, by simp only [act, he, hstage, hi, hu]; rfl, Or.inl rfl⟩
      | acceptor =>
        exact ⟨.handleEvent i false, _, by simp only [act, he, hstage, hi, hu, hl.serving]; rfl, Or.inl rfl⟩
    | nil =>
      have ho : (s.loops i).owes (s.loops i).threadId_ = false :=
        owes_eq_false.mp (unoccupied_iff.mp hu).1 i hi
      obtain ⟨b, l, hb, hl⟩ := EventLoop.turn_enabled hrun ho
      by_cases hpoll : ∃ woken, b = .pollReturn woken
      · obtain ⟨woken, rfl⟩ := hpoll
        refine ⟨.poll i woken [], (s.fill i []).setLoop i l, ?_, Or.inr (by simp [Act.turnOf])⟩
        simp [act, hi, hu, hl]
      · have hallows : s.allows i b = true := by
          cases b with
          | append | storeQuit | wakeup => simp [EventLoop.Act.isTurn] at hb
          | pollReturn woken => exact absurd ⟨woken, rfl⟩ hpoll
          | beginCalling => simp [allows, hu, he]
          | _ => exact hu
        refine ⟨.loop i b, (s.beside i b).setLoop i l, ?_, Or.inr (by simp [Act.turnOf, hb])⟩
        simp [act, hi, hallows, hl]
  obtain ⟨a, v, hv, ha⟩ := hact
  exact ⟨a, v.settle, step_iff.mpr ⟨hl.going, v, hv, rfl⟩, ha⟩

/-- No thread of a living server waits for another: a thread that has to write a wakeup
descriptor can do so, a thread that has entered something goes on with it however its
system calls end, and a loop whose thread has entered nothing goes its round. -/
theorem threads_move (hd : ∀ items, .destroy items ∉ as)
    (h : run step (ofPool p name ipPort fd wc hw mark mem) as = some s) :
    (∀ t, s.owes t = true → ∃ i v, s.step (.loop i (.wakeup t)) = some v) ∧
      (∀ t f fs io, s.stack t = f :: fs → s.owes t = false →
        (∀ c g, f = .conn c g → g.Accepts (s.site c t) (s.conn c) io) →
          ∃ v, s.step (.exec t io) = some v) ∧
      ∀ i ∈ s.indices, (s.loops i).stage ≠ .stopped → s.unoccupied i = true →
        ∃ a v, s.step a = some v ∧ (a = .handleEvent i false ∨ a.turnOf i = true) := by
  obtain ⟨hs, hl⟩ := run_living (civil_of_lives hd _) h
  refine ⟨fun t ho ↦ ?_, fun t f fs io hst ho hio ↦ hs.executes hl hst ho hio,
    fun i hi hrun hu ↦ hs.proceeds hl hi hrun hu⟩
  obtain ⟨i, hi, ho⟩ := List.any_eq_true.mp ho
  refine ⟨i, ((s.beside i (.wakeup t)).setLoop i ((s.loops i).wakeup t)).settle,
    step_iff.mpr ⟨hl.going, _, ?_, rfl⟩⟩
  simp [act, hi, allows, EventLoop.step_wakeup.mpr ⟨ho, rfl⟩]

end

section

theorem threads_move_acceptsAway : ∃ s, run step (serverOn 1) acceptsAway = some s ∧
    ∃ v, s.step (.exec 1 System.noCall) = some v := by
  obtain ⟨s, hs, hw⟩ := Option.map_eq_some_iff.mp
    (show (run step (serverOn 1) acceptsAway).map (fun s ↦ (s.stack 1, s.owes 1)) =
      some ([.conn 0 (.functor .connectEstablished)], false) by decide +kernel)
  obtain ⟨hst, ho⟩ := Prod.mk.inj hw
  have hd : ∀ items, .destroy items ∉ acceptsAway := by simp [acceptsAway, opening]
  refine ⟨s, hs, (threads_move hd hs).2.1 1 _ [] System.noCall hst ho ?_⟩
  rintro c g he
  obtain ⟨-, rfl⟩ := Activity.conn.inj he
  trivial

def setsUp : List (Act ℕ) :=
  acceptsAway.drop 11 ++ [.exec 1 System.noCall, .exec 1 System.noCall, .exec 1 System.noCall,
    .loop (some 0) .endFunctor, .loop (some 0) .endCalling, .loop (some 0) .testQuit,
    .poll (some 0) false []]

theorem jobs_served_setsUp : ∃ s u, run step (serverOn 1) (acceptsAway.take 11) = some s ∧
    run step s setsUp = some u ∧ (s.loops (some 0)).waiting = [.conn 0 .connectEstablished] ∧
      (s.loops (some 0)).waiting <+: setsUp.flatMap (Act.began (some 0)) := by
  obtain ⟨s, hs, hrest⟩ := Option.bind_eq_some_iff.mp
    (show (run step (serverOn 1) (acceptsAway.take 11)).bind (fun s ↦
      if (s.loops (some 0)).waiting = [.conn 0 .connectEstablished] then
        (run step s setsUp).map fun _ ↦ true else none) = some true by decide +kernel)
  obtain ⟨hw, hrest⟩ := Option.ite_none_right_eq_some.mp hrest
  obtain ⟨u, hu, -⟩ := Option.map_eq_some_iff.mp hrest
  have hd : ∀ items, .destroy items ∉ acceptsAway.take 11 ++ setsUp := by
    simp [setsUp, acceptsAway, opening]
  refine ⟨s, u, hs, hu, hw, jobs_served hd hs hu (by simp) ?_⟩
  rw [hw]
  decide

end

end Reactors

end Mymuduo
