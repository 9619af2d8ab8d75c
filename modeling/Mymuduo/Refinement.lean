import Mymuduo.ReactorView

namespace Mymuduo

open Foundation.Machine

variable {T : Type}

namespace EventLoop

variable {F : Type} [DecidableEq T] [DecidableEq F] {l m : EventLoop T F} {a : Act T F}

theorem step_running (h : l.step a = some m) (hq : l.quit_ = false ∧ l.stage ≠ .stopped)
    (ha : ∀ t, a ≠ .storeQuit t) : m.quit_ = false ∧ m.stage ≠ .stopped := by
  cases a with
  | append t cb =>
    obtain ⟨-, rfl⟩ := step_append.mp h
    exact hq
  | storeQuit t => exact absurd rfl (ha t)
  | wakeup t =>
    obtain ⟨-, rfl⟩ := step_wakeup.mp h
    exact hq
  | testQuit =>
    obtain ⟨-, ⟨hquit, rfl⟩ | ⟨hquit, rfl⟩⟩ := step_testQuit.mp h
    · simp [hq.1] at hquit
    · exact ⟨hquit, by simp⟩
  | clearQuit =>
    obtain ⟨-, rfl⟩ := step_clearQuit.mp h
    exact ⟨rfl, by simp⟩
  | enter | pollReturn | handleRead | beginCalling | swap | beginFunctor | endFunctor | endCalling =>
    simp only [step_enter, step_pollReturn, step_handleRead, step_beginCalling, step_swap,
      step_beginFunctor, step_endFunctor, step_endCalling] at h
    obtain ⟨-, rfl⟩ := h
    exact ⟨hq.1, by simp⟩

theorem step_called (h : l.step a = some m)
    (ha : (∃ t cb, a = .append t cb) ∨ (∃ t, a = .storeQuit t) ∨ ∃ t, a = .wakeup t) :
    m.stage = l.stage := by
  rcases ha with ⟨t, cb, rfl⟩ | ⟨t, rfl⟩ | ⟨t, rfl⟩
  · obtain ⟨-, rfl⟩ := step_append.mp h
    rfl
  · obtain ⟨-, rfl⟩ := step_storeQuit.mp h
    rfl
  · obtain ⟨-, rfl⟩ := step_wakeup.mp h
    rfl

theorem step_handling (h : l.step a = some m) {woken : Bool} (hl : l.stage = .handling woken) :
    a = .beginCalling ∨ ∃ w, m.stage = .handling w := by
  cases a with
  | append t cb =>
    right
    exact ⟨woken, (step_called h (Or.inl ⟨t, cb, rfl⟩)).trans hl⟩
  | storeQuit t =>
    right
    exact ⟨woken, (step_called h (Or.inr (Or.inl ⟨t, rfl⟩))).trans hl⟩
  | wakeup t =>
    right
    exact ⟨woken, (step_called h (Or.inr (Or.inr ⟨t, rfl⟩))).trans hl⟩
  | handleRead =>
    obtain ⟨-, rfl⟩ := step_handleRead.mp h
    exact Or.inr ⟨false, rfl⟩
  | beginCalling => exact Or.inl rfl
  | enter | clearQuit | testQuit | pollReturn | swap | beginFunctor | endFunctor | endCalling =>
    simp only [step_enter, step_clearQuit, step_testQuit, step_pollReturn, step_swap,
      step_beginFunctor, step_endFunctor, step_endCalling, hl] at h
    simp at h

end EventLoop

namespace Reactors

variable [DecidableEq T] {s u : Reactors T} {a : Act T} {i j : Option ℕ} {c : ℕ} {t : T}

omit [DecidableEq T] in
theorem Routes.kept (hk : Kept s u) {k : Job T} (h : s.Routes i k) : u.Routes i k := by
  cases k with
  | conn c f => exact ⟨Nat.lt_of_lt_of_le h.1 hk.accepted, (hk.getLoop c h.1).trans h.2⟩
  | removeConnectionInLoop c => exact ⟨Nat.lt_of_lt_of_le h.1 hk.accepted, h.2⟩
  | foreign n => trivial

omit [DecidableEq T] in
theorem Stands.kept (hk : Kept s u) {f : Activity T} (h : s.Stands t f) : u.Stands t f := by
  cases f with
  | conn c f => exact Nat.lt_of_lt_of_le (show c < s.map.accepted from h) hk.accepted
  | newConnection => exact (show t = s.base from h).trans (congrFun hk.threadId none).symm
  | userCode => trivial
  | destructor | quit | join => exact h

structure Looped (s u : Reactors T) (i : Option ℕ) (b : EventLoop.Act T (Job T)) : Prop where
  step : (s.loops i).step b = some (u.loops i)
  quits : ∀ t, b = .storeQuit t → i = none
  appends : ∀ t k, b = .append t k → u.Routes i k
  stage : (u.loops i).stage = (s.loops i).stage ∨ s.unoccupied i = true
  events : b = .beginCalling → s.unhandled i = []

omit [DecidableEq T] in
theorem eq_or_setLoop [DecidableEq T] {l : EventLoop T (Job T)} (b : EventLoop.Act T (Job T))
    (h : u.loops = (s.setLoop j l).loops) (hj : u.loops j = l → Looped s u j b) (i : Option ℕ) :
    u.loops i = s.loops i ∨ ∃ b, Looped s u i b := by
  by_cases hij : i = j
  · subst hij
    exact Or.inr ⟨b, hj (by rw [h, setLoop_self])⟩
  · exact Or.inl (by rw [h, setLoop_of_ne hij])

theorem Enqueues.looped {f : Frame T} {fs : List (Activity T)} {o : Outcome T} (hs : s.Sound)
    (hst : s.stack t = .conn c f :: fs) (h : Enqueues s t c o u) (i : Option ℕ) :
    (u.commit t c fs o).loops i = s.loops i ∨ ∃ b, Looped s (u.commit t c fs o) i b := by
  have hc : c < s.map.accepted := hs.stacked t (.conn c f) (by simp [hst])
  have hkept : Kept s (u.commit t c fs o) := by
    obtain ⟨hn, ht, ha, hg⟩ := h.kept
    refine ⟨hn, ht, ?_, hg⟩
    simp only [commit]
    split <;> exact ha
  cases h with
  | nothing => exact Or.inl rfl
  | @queued g l hq hl =>
    have hloops : ((s.setLoop (s.getLoop c) l).commit t c fs o).loops =
        (s.setLoop (s.getLoop c) l).loops := rfl
    refine eq_or_setLoop (.append t (.conn c g)) hloops (fun hul ↦ ?_) i
    refine ⟨by rw [hul]; exact hl, by simp, ?_, Or.inl ?_, by simp⟩
    · intro v k hk
      obtain ⟨-, rfl⟩ := EventLoop.Act.append.inj hk
      exact Routes.kept hkept ⟨hc, rfl⟩
    · rw [hul]
      exact EventLoop.step_called hl (Or.inl ⟨_, _, rfl⟩)
  | @posted l hq hp hl =>
    have hloops : ((s.setLoop none l).commit t c fs o).loops = (s.setLoop none l).loops := rfl
    refine eq_or_setLoop (.append t (.removeConnectionInLoop c)) hloops (fun hul ↦ ?_) i
    refine ⟨by rw [hul]; exact hl, by simp, ?_, Or.inl ?_, by simp⟩
    · intro v k hk
      obtain ⟨-, rfl⟩ := EventLoop.Act.append.inj hk
      exact Routes.kept hkept ⟨hc, rfl⟩
    · rw [hul]
      exact EventLoop.step_called hl (Or.inl ⟨_, _, rfl⟩)

theorem Looped.of_allows {b : EventLoop.Act T (Job T)} (ha : s.allows j b = true)
    (hl : (s.loops j).step b = some (u.loops j)) : Looped s u j b := by
  cases b with
  | append t k =>
    simp only [allows, Bool.and_eq_true] at ha
    refine ⟨hl, by simp, ?_, Or.inl (EventLoop.step_called hl (Or.inl ⟨_, _, rfl⟩)), by simp⟩
    intro v k' hk
    obtain ⟨-, rfl⟩ := EventLoop.Act.append.inj hk
    cases k with
    | foreign n => trivial
    | _ => simp [Job.isForeign] at ha
  | storeQuit t =>
    simp only [allows, Bool.and_eq_true, decide_eq_true_eq] at ha
    exact ⟨hl, fun _ _ ↦ ha.1, by simp, Or.inl (EventLoop.step_called hl (Or.inr (Or.inl ⟨_, rfl⟩))),
      by simp⟩
  | wakeup t =>
    exact ⟨hl, by simp, by simp, Or.inl (EventLoop.step_called hl (Or.inr (Or.inr ⟨_, rfl⟩))), by simp⟩
  | pollReturn woken => simp [allows] at ha
  | beginCalling =>
    simp only [allows, Bool.and_eq_true, List.isEmpty_iff] at ha
    exact ⟨hl, by simp, by simp, Or.inr ha.1, fun _ ↦ ha.2⟩
  | _ => exact ⟨hl, by simp, by simp, Or.inr ha, by simp⟩

theorem Does.looped {strict : Prop} (h : Does s a u) (hs : s.Sound) (hG : s.Civil strict a)
    (i : Option ℕ) : u.loops i = s.loops i ∨ ∃ b, Looped s u i b := by
  cases h with
  | frame hst ho hf hio hu => exact hu.looped hs hst i
  | @poll j woken active l hi hu hn hr hl =>
    have hloops : ((s.fill j active).setLoop j l).loops = (s.setLoop j l).loops := rfl
    refine eq_or_setLoop (.pollReturn woken) hloops (fun hul ↦ ?_) i
    exact ⟨by rw [hul]; exact hl, by simp, by simp, Or.inr hu, by simp⟩
  | @loop j b l hi ha hl =>
    have hloops : ((s.beside j b).setLoop j l).loops = (s.setLoop j l).loops := by
      simp only [setLoop, (s.beside_kept j b).2]
    exact eq_or_setLoop b hloops (fun hul ↦ .of_allows ha (by rw [hul]; exact hl)) i
  | destruct hst ho hf hu => exact (hs.not_destroys hst hf).elim
  | destroy => exact absurd hG not_false
  | @exit k hk hx hstage hu => exact absurd hstage (hs.running k).2
  | abort | leave | accept | send | shutdown | hold | drop | assign | retrieve | handle
    | handleAccept => exact Or.inl rfl

theorem Sound.home_kept (hs : s.Sound) (hlooped : ∀ i, u.loops i = s.loops i ∨ ∃ b, Looped s u i b)
    (hst : s.stack t ≠ []) : ∀ i ∈ s.indices, t = s.threadId i → (u.loops i).stage.userCode = true := by
  intro i hi ht
  subst ht
  have hstage := hs.home i hi hst
  rcases hlooped i with heq | ⟨b, hb⟩
  · rwa [heq]
  · rcases hb.stage with heq | hu
    · rwa [heq]
    · exact absurd (unoccupied_iff.mp hu).2 hst

theorem Sound.home_of_inUserCode (hs : s.Sound) (hu : s.inUserCode t = true) :
    ∀ i ∈ s.indices, t = s.threadId i → (s.loops i).stage.userCode = true := by
  by_cases hst : s.stack t = []
  · exact (standsIn_iff.mp hu).2.2 hst
  · exact hs.home_kept (fun _ ↦ Or.inl rfl) hst

theorem Sound.reaches_lt (hs : s.Sound) (hr : s.reaches t c = true) : c < s.map.accepted := by
  simp only [reaches, Bool.or_eq_true, decide_eq_true_eq, List.contains_iff_mem] at hr
  rcases hr with hr | hr
  · exact hs.copied t c hr
  · exact hs.stacked t _ hr

theorem Sound.nested_push (hs : s.Sound) (hu : s.inUserCode t = true) (f : Activity T) :
    Nested (f :: s.stack t) := (hs.nested t).push (standsIn_iff.mp hu).2.1

theorem Does.stacks {strict : Prop} (h : Does s a u) (hs : s.Sound) (hG : s.Civil strict a) :
    u.stack = s.stack ∨ ∃ t fs, u.stack = Function.update s.stack t fs ∧ Nested fs ∧
      (∀ f ∈ fs, u.Stands t f) ∧
        (fs ≠ [] → ∀ i ∈ s.indices, t = s.threadId i → (u.loops i).stage.userCode = true) := by
  have hkept := h.kept
  have hlooped := h.looped hs hG
  cases h with
  | @frame t io c f fs u hst ho hf hio hu =>
    have hne : s.stack t ≠ [] := by simp [hst]
    have hnested := hs.nested t
    have hstands := hs.stacked t
    rw [hst] at hnested hstands
    rw [List.forall_mem_cons] at hstands
    refine Or.inr ⟨t, _, by rw [← hu.untouched.2.2.2.2.1]; rfl, hnested.replace _, ?_,
      fun _ ↦ hs.home_kept hlooped hne⟩
    intro g hg
    rcases List.mem_append.mp hg with hg | hg
    · obtain ⟨k, -, rfl⟩ := List.mem_map.mp hg
      exact Stands.kept (f := .conn c k) hkept hstands.1
    · exact Stands.kept hkept (hstands.2 g hg)
  | @leave t io fs hst ho =>
    have hne : s.stack t ≠ [] := by simp [hst]
    have hnested := hs.nested t
    have hstands := hs.stacked t
    rw [hst] at hnested hstands
    refine Or.inr ⟨t, fs, rfl, hnested.tail, ?_, fun _ ↦ hs.home_kept hlooped hne⟩
    intro g hg
    exact Stands.kept hkept (hstands g (List.mem_cons_of_mem _ hg))
  | @accept t io fs hst ho ht =>
    have hne : s.stack t ≠ [] := by simp [hst]
    have hnested := hs.nested t
    have hstands := hs.stacked t
    rw [hst] at hnested hstands
    refine Or.inr ⟨t, _, rfl, hnested.tail.push ?_, ?_, fun _ ↦ hs.home_kept hlooped hne⟩
    · intro g hg
      rcases hnested.1 g hg with huser | ⟨c, p, q, hp, -⟩
      · exact huser
      · simp at hp
    · rw [List.forall_mem_cons]
      refine ⟨Nat.lt_succ_self s.map.accepted, ?_⟩
      intro g hg
      exact Stands.kept hkept (hstands g (List.mem_cons_of_mem _ hg))
  | @send t c data len hu hr =>
    refine Or.inr ⟨t, _, rfl, hs.nested_push hu _, ?_, fun _ ↦ hs.home_of_inUserCode hu⟩
    rw [List.forall_mem_cons]
    exact ⟨hs.reaches_lt hr, hs.stacked t⟩
  | @shutdown t c hu hr =>
    refine Or.inr ⟨t, _, rfl, hs.nested_push hu _, ?_, fun _ ↦ hs.home_of_inUserCode hu⟩
    rw [List.forall_mem_cons]
    exact ⟨hs.reaches_lt hr, hs.stacked t⟩
  | @handle j accepts woken c revents es hi he hstage hu =>
    have hst := (unoccupied_iff.mp hu).2
    have hlists : s.Lists j (.conn c) := hs.listed j _ (by rw [he]; exact List.mem_cons_self)
    refine Or.inr ⟨s.threadId j, [.conn c (.handleEvent revents)], ?_, ?_, ?_, ?_⟩
    · rw [← hst]
      rfl
    · exact Nested.push trivial (by simp)
    · intro g hg
      obtain rfl := List.mem_singleton.mp hg
      exact Stands.kept (f := .conn c (.handleEvent revents)) hkept hlists.1
    · intro _ i hi' ht
      obtain rfl := hs.threads j hi i hi' ht
      change (s.loops j).stage.userCode = true
      rw [hstage]
      rfl
  | @handleAccept j accepts woken revents fs es hi he hstage hu hfs =>
    have hst := (unoccupied_iff.mp hu).2
    have hlists : s.Lists j .acceptor := hs.listed j _ (by rw [he]; exact List.mem_cons_self)
    refine Or.inr ⟨s.threadId j, fs, rfl, ?_, ?_, ?_⟩
    · rcases hfs with rfl | rfl
      · trivial
      · exact Nested.push trivial (by simp)
    · have hj : j = none := hlists
      subst hj
      rcases hfs with rfl | rfl
      · simp
      · intro g hg
        obtain rfl := List.mem_singleton.mp hg
        rfl
    · intro _ i hi' ht
      obtain rfl := hs.threads j hi i hi' ht
      change (s.loops j).stage.userCode = true
      rw [hstage]
      rfl
  | @loop j b l hi ha hl =>
    cases b with
    | beginFunctor k =>
      have hroutes : s.Routes j k := by
        refine hs.queued j k ?_
        obtain ⟨⟨-, hf⟩, -⟩ := EventLoop.step_beginFunctor.mp hl
        rw [EventLoop.waiting, hf]
        exact List.mem_cons_self
      refine Or.inr ⟨s.threadId j, [k.activity], rfl, Nested.push trivial (by simp), ?_, ?_⟩
      · intro g hg
        obtain rfl := List.mem_singleton.mp hg
        cases k with
        | conn c f => exact Stands.kept (f := .conn c (.functor f)) hkept hroutes.1
        | removeConnectionInLoop c =>
          exact Stands.kept (f := .conn c .removeConnectionInLoop) hkept hroutes.1
        | foreign n => trivial
      · intro _ i hi' ht
        obtain rfl := hs.threads j hi i hi' ht
        obtain ⟨-, rfl⟩ := EventLoop.step_beginFunctor.mp hl
        rw [setLoop_self]
        rfl
    | testQuit =>
      refine Or.inl ?_
      simp only [beside, setLoop]
      split <;> rfl
    | _ => exact Or.inl rfl
  | destruct hst ho hf hu => exact (hs.not_destroys hst hf).elim
  | destroy => exact absurd hG not_false
  | abort | hold | drop | assign | retrieve | poll | exit => exact Or.inl rfl

theorem Does.events (h : Does s a u) (hs : s.Sound) {strict : Prop} (hG : s.Civil strict a)
    (i : Option ℕ) : u.unhandled i <:+ s.unhandled i ∨ ((u.unhandled i).map Prod.fst).Nodup ∧
      (∀ e ∈ u.unhandled i, s.Lists i e.1) ∧ ∃ woken, (u.loops i).stage = .handling woken := by
  have hadvance : ∀ {j e es}, s.unhandled j = e :: es →
      (s.advance j).unhandled i <:+ s.unhandled i := by
    intro j e es he
    by_cases hij : i = j
    · subst hij
      rw [unhandled_advance_self he, he]
      exact List.suffix_cons e es
    · simp only [unhandled, advance, Function.update_of_ne hij]
      exact List.suffix_refl _
  cases h with
  | frame hst ho hf hio hu =>
    left
    have heq := congrFun hu.untouched.2.2.1 i
    exact heq ▸ List.suffix_refl _
  | handle hi he hstage hu => exact Or.inl (hadvance he)
  | handleAccept hi he hstage hu hfs => exact Or.inl (hadvance he)
  | @poll j woken active l hi hu hn hr hl =>
    by_cases hij : i = j
    · subst hij
      have hunhandled : ((s.fill i active).setLoop i l).unhandled i = active := by
        simp [unhandled, fill, setLoop]
      rw [hunhandled]
      refine Or.inr ⟨hn, ?_, woken, ?_⟩
      · intro e hmem
        have hreports := hr e hmem
        cases hsource : e.1 with
        | acceptor =>
          simp only [hsource, reports, Bool.and_eq_true, decide_eq_true_eq] at hreports
          exact hreports.1
        | conn c =>
          simp only [hsource, reports, Bool.and_eq_true, decide_eq_true_eq] at hreports
          exact hreports.1
      · obtain ⟨-, rfl⟩ := EventLoop.step_pollReturn.mp hl
        rw [setLoop_self]
    · left
      simp only [unhandled, fill, setLoop, Function.update_of_ne hij]
      exact List.suffix_refl _
  | @loop j b l hi ha hl =>
    left
    cases b with
    | testQuit =>
      simp only [beside]
      split
      · exact List.suffix_refl _
      · by_cases hij : i = j
        · subst hij
          simp [unhandled, fill, setLoop]
        · simp only [unhandled, fill, setLoop, Function.update_of_ne hij]
          exact List.suffix_refl _
    | _ => exact List.suffix_refl _
  | destruct hst ho hf hu => exact (hs.not_destroys hst hf).elim
  | destroy => exact absurd hG not_false
  | abort | leave | accept | send | shutdown | hold | drop | assign | retrieve | exit =>
    exact Or.inl (List.suffix_refl _)

omit [DecidableEq T] in
theorem Lists.kept (hk : Kept s u) {k : Source} (h : s.Lists i k) : u.Lists i k := by
  cases k with
  | acceptor => exact h
  | conn c =>
    obtain ⟨hc, hg⟩ : c < s.map.accepted ∧ s.getLoop c = i := h
    exact ⟨Nat.lt_of_lt_of_le hc hk.accepted, (hk.getLoop c hc).trans hg⟩

omit [DecidableEq T] in
theorem getNextLoop_mem (hs : s.Sound) : s.getNextLoop.1 ∈ s.indices := by
  unfold getNextLoop
  split
  · exact none_mem_indices
  · next hn =>
    refine List.mem_cons_of_mem _ (List.mem_map.mpr ⟨s.next_, ?_, rfl⟩)
    exact List.mem_range.mpr (hs.next hn)

omit [DecidableEq T] in
theorem getNextLoop_next (hs : s.Sound) (hn : s.numThreads_ ≠ 0) :
    s.getNextLoop.2 < s.numThreads_ := by
  have hlt := hs.next hn
  simp only [getNextLoop, if_neg hn]
  split <;> omega

theorem Does.hands (h : Does s a u) (hs : s.Sound) {strict : Prop} (hG : s.Civil strict a) :
    (u.next_ = s.next_ ∧ u.map.accepted = s.map.accepted) ∨
      u.next_ = s.getNextLoop.2 ∧ u.map.accepted = s.map.accepted + 1 ∧
        u.getLoop s.map.accepted = s.getNextLoop.1 := by
  cases h with
  | @frame t io c f fs u hst ho hf hio hu =>
    left
    refine ⟨?_, ?_⟩
    · rcases hu.setLoop_eq with rfl | ⟨j, k, l, -, rfl⟩ <;> rfl
    · rw [← hu.untouched.2.1]
      simp only [commit]
      split <;> rfl
  | accept => exact Or.inr ⟨rfl, rfl, Function.update_self ..⟩
  | @loop j b l hi ha hl =>
    obtain ⟨hmap, hnext, -⟩ := s.beside_untouched j b
    exact Or.inl ⟨hnext, congrArg ConnectionMap.accepted hmap⟩
  | destruct hst ho hf hu => exact (hs.not_destroys hst hf).elim
  | destroy => exact absurd hG not_false
  | abort | leave | send | shutdown | hold | drop | assign | retrieve | poll | handle | handleAccept
    | exit => exact Or.inl ⟨rfl, rfl⟩

theorem Does.copied (h : Does s a u) (hs : s.Sound) {strict : Prop} (hG : s.Civil strict a)
    (hc : 0 < u.copies t c) : c < s.map.accepted := by
  have hset : ∀ {v d n}, (d < s.map.accepted ∨ n = 0) → 0 < (s.setCopies v d n).copies t c →
      c < s.map.accepted := by
    intro v d n hd hpos
    by_cases ht : t = v
    · subst ht
      by_cases hcd : c = d
      · subst hcd
        rcases hd with hd | rfl
        · exact hd
        · simp [setCopies] at hpos
      · simp only [setCopies, Function.update_self, Function.update_of_ne hcd] at hpos
        exact hs.copied t c hpos
    · simp only [setCopies, Function.update_of_ne ht] at hpos
      exact hs.copied t c hpos
  cases h with
  | @frame t' io d f fs u hst ho hf hio hu =>
    refine hs.copied t c ?_
    rcases hu.setLoop_eq with rfl | ⟨j, k, l, -, rfl⟩ <;> exact hc
  | @hold v d source hr =>
    refine hset (Or.inl ?_) hc
    cases source with
    | none => exact hs.stacked v (.conn d .userCode) (List.contains_iff_mem.mp hr)
    | some w => exact hs.copied w d (by simpa [offers] using hr)
  | drop hu hpos => exact hset (Or.inl (hs.copied _ _ hpos)) hc
  | @loop j b l hi ha hl => exact hs.copied t c ((s.beside_untouched j b).2.2.1 ▸ hc)
  | destruct hst ho hf hu => exact (hs.not_destroys hst hf).elim
  | destroy => exact absurd hG not_false
  | abort | leave | accept | send | shutdown | assign | retrieve | poll | handle | handleAccept
    | exit => exact hs.copied t c hc

theorem Sound.does (hs : s.Sound) (h : Does s a u) {strict : Prop} (hG : s.Civil strict a) :
    u.Sound := by
  have hkept := h.kept
  have hlooped := h.looped hs hG
  have hstacks := h.stacks hs hG
  have hhands := h.hands hs hG
  have hindices : u.indices = s.indices := by rw [indices, indices, hkept.numThreads]
  refine ⟨?_, ?_, ?_, ?_, ?_, ?_, ?_, ?_, ?_, ?_, ?_, ?_, ?_⟩
  · rw [hindices, hkept.threadId]
    exact hs.threads
  · intro i
    rcases hlooped i with heq | ⟨b, hb⟩
    · exact heq ▸ hs.control i
    · exact (hs.control i).step hb.step
  · intro k
    rcases hlooped (some k) with heq | ⟨b, hb⟩
    · exact heq ▸ hs.running k
    · refine EventLoop.step_running hb.step (hs.running k) ?_
      intro t ht
      simpa using hb.quits t ht
  · rw [hkept.numThreads]
    intro hn
    rcases hhands with ⟨hnext, -⟩ | ⟨hnext, -⟩
    · exact hnext ▸ hs.next hn
    · exact hnext ▸ getNextLoop_next hs hn
  · intro c hc
    rw [hindices]
    rcases hhands with ⟨-, hacc⟩ | ⟨-, hacc, hget⟩
    · rw [hacc] at hc
      exact hkept.getLoop c hc ▸ hs.routed c hc
    · by_cases hlt : c < s.map.accepted
      · exact hkept.getLoop c hlt ▸ hs.routed c hlt
      · obtain rfl : c = s.map.accepted := by omega
        exact hget ▸ getNextLoop_mem hs
  · intro i k hk
    rcases hlooped i with heq | ⟨b, hb⟩
    · rw [heq] at hk
      exact Routes.kept hkept (hs.queued i k hk)
    · rcases EventLoop.step_waiting (hs.control i) hb.step with
        ⟨t, k', rfl, hw⟩ | ⟨k', -, hw⟩ | ⟨-, hw⟩
      · rw [hw] at hk
        rcases List.mem_append.mp hk with hk | hk
        · exact Routes.kept hkept (hs.queued i k hk)
        · obtain rfl := List.mem_singleton.mp hk
          exact hb.appends t k rfl
      · exact Routes.kept hkept (hs.queued i k (hw ▸ List.mem_cons_of_mem _ hk))
      · exact Routes.kept hkept (hs.queued i k (hw ▸ hk))
  · intro t f hf
    rcases hstacks with heq | ⟨v, fs, heq, -, hstands, -⟩
    · rw [heq] at hf
      exact Stands.kept hkept (hs.stacked t f hf)
    · rw [heq] at hf
      by_cases ht : t = v
      · subst ht
        rw [Function.update_self] at hf
        exact hstands f hf
      · rw [Function.update_of_ne ht] at hf
        exact Stands.kept hkept (hs.stacked t f hf)
  · intro t
    rcases hstacks with heq | ⟨v, fs, heq, hnested, -⟩
    · exact heq ▸ hs.nested t
    · rw [heq]
      by_cases ht : t = v
      · subst ht
        rwa [Function.update_self]
      · rw [Function.update_of_ne ht]
        exact hs.nested t
  · rw [hindices, hkept.threadId]
    intro i hi hne
    rcases hstacks with heq | ⟨v, fs, heq, -, -, hhome⟩
    · rw [heq] at hne
      exact hs.home_kept hlooped hne i hi rfl
    · rw [heq] at hne
      by_cases ht : s.threadId i = v
      · subst ht
        rw [Function.update_self] at hne
        exact hhome hne i hi rfl
      · rw [Function.update_of_ne ht] at hne
        exact hs.home_kept hlooped hne i hi rfl
  · intro t c hc
    exact Nat.lt_of_lt_of_le (h.copied hs hG hc) hkept.accepted
  · intro i e he
    rcases h.events hs hG i with hsuf | ⟨-, hall, -⟩
    · exact Lists.kept hkept (hs.listed i e (hsuf.subset he))
    · exact Lists.kept hkept (hall e he)
  · intro i
    rcases h.events hs hG i with hsuf | ⟨hn, -⟩
    · exact (hs.distinct i).sublist (hsuf.sublist.map _)
    · exact hn
  · intro i hne
    rcases h.events hs hG i with hsuf | ⟨-, -, hw⟩
    · have hold : s.unhandled i ≠ [] := by
        intro hnil
        rw [hnil, List.suffix_nil] at hsuf
        exact hne hsuf
      obtain ⟨w, hw⟩ := hs.handling i hold
      rcases hlooped i with heq | ⟨b, hb⟩
      · exact ⟨w, heq ▸ hw⟩
      · rcases EventLoop.step_handling hb.step hw with rfl | hw'
        · exact absurd (hb.events rfl) hold
        · exact hw'
    · exact hw

theorem Sound.thread_of_frame (hs : s.Sound) (hv : ∀ i c, s.Belongs i c → (s.view i c).Confined)
    {f : Frame T} (hf : .conn c f ∈ s.stack t) (hroam : f.roams = false) :
    t = s.threadId (s.getLoop c) := by
  have hb : s.Belongs (s.getLoop c) c := ⟨hs.routed c (hs.stacked t _ hf), fun _ ↦ rfl⟩
  have hmem : f ∈ (s.view (s.getLoop c) c).stack t :=
    List.mem_filterMap.mpr ⟨.conn c f, hf, by simp [Activity.frame]⟩
  exact (hv _ c hb).of_not_roams hmem hroam

theorem Sound.not_fatal (hs : s.Sound) (hv : ∀ i c, s.Belongs i c → (s.view i c).Confined)
    {f : Activity T} {fs : List (Activity T)} (hst : s.stack t = f :: fs) : s.fatal t f = false := by
  have hmem : f ∈ s.stack t := by simp [hst]
  cases f with
  | conn c f =>
    by_cases hf : f.asserts = true
    · have hroam : f.roams = false := by
        cases f with
        | functor cb => rfl
        | _ => simp [Frame.asserts] at hf
      simp [fatal, hs.thread_of_frame hv hmem hroam]
    · simp [fatal, hf]
  | newConnection =>
    have ht : t = s.base := hs.stacked t _ hmem
    simp [fatal, ht]
  | _ => rfl

/-- Each step of the server is, for each connection, none or some steps of the system
of one connection. -/
theorem Does.simulates (h : Does s a u) (hs : s.Sound)
    (hv : ∀ i c, s.Belongs i c → (s.view i c).Confined) {strict : Prop} (hG : s.Civil strict a)
    (hbu : u.Belongs i c) : Reaches System.step (System.Civil strict) (s.view i c) (u.view i c) := by
  have hb : s.Belongs i c := hbu.of_kept h.kept
  cases h with
  | @frame t io d f fs u hst ho hf hio hu =>
    by_cases hdc : d = c
    · subst hdc
      have hc : d < s.map.accepted := hs.stacked t (.conn d f) (by simp [hst])
      exact view_frame hb (hv i d hb) hc hst ho hio hu hG
    · exact view_frame_of_ne hs hb.1 hdc hst ho hu
  | @abort t io f fs hst hf =>
    rw [hs.not_fatal hv hst] at hf
    simp at hf
  | @leave t io fs hst ho =>
    refine .of_eq (Eq.symm (setStack_view ?_))
    rw [hst]
    rfl
  | accept hst ho ht => exact view_accept hs hst ho ht hbu
  | send hu hr => exact view_send hs hb.1 hu
  | shutdown hu hr => exact view_shutdown hs hb.1 hu
  | hold | drop => exact .refl _
  | assign hu => exact view_assign hs hb.1 hu
  | retrieve ho hst => exact view_retrieve hb (hv i c hb) ho hst
  | poll hi hu hn hr hl => exact view_poll hr hl hG
  | handle hi he hstage hu => exact view_handle hs hb he hstage hu
  | handleAccept hi he hstage hu hfs => exact .of_eq (view_handleAccept he hu hfs).symm
  | @loop j b l hi ha hl =>
    by_cases hbegin : ∃ k, b = .beginFunctor k
    · obtain ⟨k, rfl⟩ := hbegin
      exact view_begin hs hb hi ha hl
    · exact view_looped hs hb ha hl fun k hk ↦ hbegin ⟨k, hk⟩
  | destruct hst ho hf hu => exact (hs.not_destroys hst hf).elim
  | destroy => exact absurd hG not_false
  | @exit k hk hx hstage hu => exact absurd hstage (hs.running k).2

section

variable {p : Pool T} {name ipPort : String} {fd : ℕ → ℕ} {wc hw : Bool} {mark : ℕ}
  {mem : T → ℕ → Byte} {as : List (Act T)}

omit [DecidableEq T] in
theorem ofPool_sound : (ofPool p name ipPort fd wc hw mark mem).Sound := by
  refine ⟨p.inj, fun i ↦ EventLoop.ofThread_control _, fun _ ↦ ⟨rfl, by simp [ofPool, EventLoop.ofThread]⟩,
    fun hn ↦ Nat.pos_of_ne_zero hn, ?_, ?_, ?_, fun _ ↦ trivial, ?_, ?_, ?_, ?_, ?_⟩
  · simp [ofPool, ConnectionMap.ofServer]
  · simp [ofPool, EventLoop.waiting, EventLoop.ofThread]
  · simp [ofPool]
  · simp [ofPool]
  · simp [ofPool]
  · simp [ofPool, unhandled]
  · simp [ofPool, unhandled]
  · simp [ofPool, unhandled]

theorem ofPool_view : (ofPool p name ipPort fd wc hw mark mem).view i c =
    System.ofConnection (p.threadId i) (p.threadId none) (.ofFd (fd c) wc hw mark) mem := by
  have hcreated : decide (c < (ofPool p name ipPort fd wc hw mark mem).map.accepted) = false := by
    simp [ofPool, ConnectionMap.ofServer]
  simp only [view, hcreated]
  rfl

/-- A state of a server that lives, in which each connection is where it could come
alone with its loop. -/
structure Refines (p : Pool T) (fd : ℕ → ℕ) (wc hw : Bool) (mark : ℕ) (mem : T → ℕ → Byte)
    (strict : Prop) (s : Reactors T) : Prop where
  sound : s.Sound
  threads : s.threadId = p.threadId
  views : ∀ i c, s.Belongs i c → Reaches System.step (System.Civil strict)
    (System.ofConnection (p.threadId i) (p.threadId none) (.ofFd (fd c) wc hw mark) mem) (s.view i c)

theorem Refines.reached {strict : Prop} (hs : Refines p fd wc hw mark mem strict s)
    (hb : s.Belongs i c) : (s.view i c).Reached :=
  (hs.views i c hb).invariant (fun _ _ _ hr _ h ↦ hr.step h) (System.ofConnection_reached ..)

theorem Refines.step {strict : Prop} (hs : Refines p fd wc hw mark mem strict s)
    (hG : s.Civil strict a) (h : s.step a = some u) : Refines p fd wc hw mark mem strict u := by
  obtain ⟨-, v, hdoes, rfl⟩ := step_cases h
  have hconfined : ∀ i c, s.Belongs i c → (s.view i c).Confined := fun i c hb ↦ (hs.reached hb).confined
  refine ⟨?_, hdoes.kept.threadId.trans hs.threads, ?_⟩
  · obtain ⟨h₁, h₂, h₃, h₄, h₅, h₆, h₇, h₈, h₉, h₁₀, h₁₁, h₁₂, h₁₃⟩ := hs.sound.does hdoes hG
    exact ⟨h₁, h₂, h₃, h₄, h₅, h₆, h₇, h₈, h₉, h₁₀, h₁₁, h₁₂, h₁₃⟩
  · intro i c hb
    have hb' : v.Belongs i c := hb
    exact (hs.views i c (hb'.of_kept hdoes.kept)).trans
      (hdoes.simulates hs.sound hconfined hG hb')

theorem ofPool_refines {strict : Prop} :
    Refines p fd wc hw mark mem strict (ofPool p name ipPort fd wc hw mark mem) :=
  ⟨ofPool_sound, rfl, fun _ _ _ ↦ .of_eq ofPool_view.symm⟩

/-- Whatever a living server does, each of its connections goes through a run of the
system of one connection. -/
theorem run_refines {strict : Prop}
    (hG : Along step (Civil strict) (ofPool p name ipPort fd wc hw mark mem) as)
    (h : run step (ofPool p name ipPort fd wc hw mark mem) as = some s) :
    Refines p fd wc hw mark mem strict s :=
  run_invariant_along (I := Refines p fd wc hw mark mem strict) (fun _ _ _ hs hG h ↦ hs.step hG h)
    ⟨ofPool_sound, rfl, fun _ _ _ ↦ .of_eq ofPool_view.symm⟩ hG h

end

end Reactors

end Mymuduo
