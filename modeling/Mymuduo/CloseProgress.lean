import Mymuduo.ConnectionOwnership
import Mymuduo.ServerProgress

namespace Mymuduo

open Foundation.Machine Foundation.Variant

variable {T : Type}

theorem System.Placed.of_removing {v : System T} (hp : v.Placed) {t : T} {f : Frame T}
    (hf : f = .removeConnectionInLoop ∨ f = .queueInLoop .connectDestroyed) (h : f ∈ v.stack t) :
    t = v.base := by
  by_cases ht : t = v.loop.threadId_
  · subst ht
    rcases hf with rfl | rfl
    · exact (hp.homeRemoval h).symm
    · exact (hp.homeQueue _ h).2.symm
  · by_contra hb
    obtain ⟨hdue, hne⟩ := hp.elsewhere t ht hb f h
    rcases hf with rfl | rfl
    · exact hne rfl
    · simp [Frame.due, Functor.isLife] at hdue

namespace Reactors

variable [DecidableEq T] {s u : Reactors T} {a : Act T} {i : Option ℕ} {c n : ℕ} {t : T}

theorem Does.unoccupied_of_turn (h : Does s a u) (ha : a.turnOf i = true) : s.unoccupied i = true := by
  cases h with
  | poll hi hu hn hr hl =>
    obtain rfl := of_decide_eq_true ha
    exact hu
  | @loop j b l hi hb hl =>
    simp only [Act.turnOf, Bool.and_eq_true, decide_eq_true_eq] at ha
    obtain ⟨rfl, hturn⟩ := ha
    cases b with
    | append | storeQuit | wakeup => simp [EventLoop.Act.isTurn] at hturn
    | pollReturn => simp [allows] at hb
    | beginCalling =>
      simp only [allows, Bool.and_eq_true] at hb
      exact hb.1
    | _ => exact hb
  | _ => simp [Act.turnOf] at ha

theorem Does.entered (h : Does s a u) {f : Activity T} (hf : f ∈ s.stack t) :
    f ∈ u.stack t ∨ ∃ io fs, a = .exec t io ∧ s.stack t = f :: fs := by
  have hpop : ∀ {io g fs} (gs : List (Activity T)), s.stack t = g :: fs →
      f ∈ gs ++ fs ∨ ∃ io' fs', Act.exec t io = .exec t io' ∧ s.stack t = f :: fs' := by
    intro io g fs gs hst
    rw [hst] at hf
    rcases List.mem_cons.mp hf with rfl | hf
    · exact Or.inr ⟨io, fs, rfl, hst⟩
    · exact Or.inl (List.mem_append_right gs hf)
  rcases h.restacks with heq | ⟨v, gs, hre, heq⟩
  · exact Or.inl (heq ▸ hf)
  · by_cases htv : t = v
    · subst htv
      rw [heq, Function.update_self]
      cases hre with
      | frame hst | destroy hst => exact hpop _ hst
      | leave hst => exact hpop [] hst
      | accept hst => exact hpop [_] hst
      | item hst => exact hpop [_, _] hst
      | call | destructor => exact Or.inl (List.mem_cons_of_mem _ hf)
      | event hst | acceptor hst | begin hst =>
        rw [hst] at hf
        simp at hf
    · rw [heq, Function.update_of_ne htv]
      exact Or.inl hf

theorem Does.begun {j : Job T} (h : Does s (.loop i (.beginFunctor j)) u) :
    u.stack (s.threadId i) = [j.activity] := by
  cases h with
  | loop hi ha hl => exact setStack_self

theorem Does.waited (h : Does s a u) (hs : s.Sound) {j : Job T} (hj : j ∈ (s.loops i).waiting) :
    j ∈ (u.loops i).waiting ∨ a = .loop i (.beginFunctor j) ∧ u.stack (s.threadId i) = [j.activity] := by
  obtain ⟨bs, hbs, hdrive⟩ := h.drives hs (i := i)
  have hmem : j ∈ EventLoop.executed bs ++ (u.loops i).waiting := by
    rw [EventLoop.run_conserves (hs.control i) hbs]
    exact List.mem_append_left _ hj
  rcases List.mem_append.mp hmem with hmem | hmem
  · right
    rw [hdrive.began] at hmem
    cases a with
    | loop k b =>
      simp only [Act.began] at hmem
      split at hmem
      · next hki =>
        subst hki
        cases b with
        | beginFunctor j' =>
          obtain rfl := List.mem_singleton.mp hmem
          exact ⟨rfl, h.begun⟩
        | _ => simp [EventLoop.executed] at hmem
      · simp at hmem
    | _ => simp [Act.began] at hmem
  · exact Or.inl hmem

theorem Does.executed {io : Reply} {f : Frame T} {fs : List (Activity T)} (h : Does s (.exec t io) u)
    (hst : s.stack t = .conn c f :: fs) (hf : f.asserts = false) :
    ∃ v, Enqueues s t c (f.exec (s.site c t) (s.conn c) io) v ∧
      u = v.commit t c fs (f.exec (s.site c t) (s.conn c) io) := by
  cases h with
  | frame hst' ho ha hio hu =>
    obtain ⟨hf', rfl⟩ := List.cons.inj (hst'.symm.trans hst)
    obtain ⟨rfl, rfl⟩ := Activity.conn.inj hf'
    exact ⟨_, hu, rfl⟩
  | abort hst' hfatal =>
    obtain ⟨rfl, rfl⟩ := List.cons.inj (hst'.symm.trans hst)
    simp [fatal, hf] at hfatal
  | leave hst' | accept hst' => simp [hst] at hst'
  | destruct hst' ho hd =>
    obtain ⟨rfl, rfl⟩ := List.cons.inj (hst'.symm.trans hst)
    simp [Activity.destroys] at hd

/-- The way from the close of a connection to its end: the close callback, the removal
queued in the server's loop, its execution, `connectDestroyed` queued in the loop of the
connection, its execution, its return. -/
inductive Nears (s : Reactors T) (c : ℕ) : ℕ → Prop
  | callback (h : .conn c .closeCallback ∈ s.stack (s.threadId (s.getLoop c))) : Nears s c 0
  | posted (h : .removeConnectionInLoop c ∈ (s.loops none).waiting) : Nears s c 1
  | removing {f : Frame T} (hf : f = .removeConnectionInLoop ∨ f = .queueInLoop .connectDestroyed)
      (h : .conn c f ∈ s.stack s.base) : Nears s c 2
  | queued (h : .conn c .connectDestroyed ∈ (s.loops (s.getLoop c)).waiting) : Nears s c 3
  | destroying {f : Frame T} (hf : f = .functor .connectDestroyed ∨ f = .removeChannel)
      (h : .conn c f ∈ s.stack (s.threadId (s.getLoop c))) : Nears s c 4
  | destroyed (h : .destroyed ∈ s.trace c) : Nears s c 5

def Within (s : Reactors T) (c n : ℕ) : Prop := ∃ m, n ≤ m ∧ s.Nears c m

omit [DecidableEq T] in
theorem Nears.within (h : s.Nears c n) : s.Within c n := ⟨n, le_refl n, h⟩

omit [DecidableEq T] in
theorem Within.mono {m : ℕ} (h : s.Within c n) (hmn : m ≤ n) : s.Within c m := by
  obtain ⟨k, hk, hn⟩ := h
  exact ⟨k, hmn.trans hk, hn⟩

theorem mem_commit_stack {fs : List (Activity T)} {o : Outcome T} {g : Frame T} (hg : g ∈ o.frames) :
    .conn c g ∈ (u.commit t c fs o).stack t := by
  simp only [commit, Function.update_self]
  exact List.mem_append_left fs (List.mem_map_of_mem hg)

theorem Enqueues.waits {o : Outcome T} {f : Functor T} (h : Enqueues s t c o u)
    (hq : o.queued = some f) : .conn c f ∈ (u.loops (s.getLoop c)).waiting := by
  cases h with
  | nothing hq' => simp [hq] at hq'
  | posted hq' => simp [hq] at hq'
  | queued hq' hl =>
    obtain rfl := Option.some.inj (hq.symm.trans hq')
    obtain ⟨-, rfl⟩ := EventLoop.step_append.mp hl
    rw [setLoop_self]
    simp [EventLoop.waiting, EventLoop.queueInLoop]

theorem Enqueues.posts {o : Outcome T} (h : Enqueues s t c o u) (hq : o.queued = none)
    (hp : o.posted = true) : .removeConnectionInLoop c ∈ (u.loops none).waiting := by
  cases h with
  | nothing hq' hp' => simp [hp] at hp'
  | queued hq' => simp [hq] at hq'
  | posted hq' hp' hl =>
    obtain ⟨-, rfl⟩ := EventLoop.step_append.mp hl
    rw [setLoop_self]
    simp [EventLoop.waiting, EventLoop.queueInLoop]

theorem Nears.does (h : s.Nears c n) (hs : s.Sound) (hc : c < s.map.accepted) (hd : Does s a u) :
    u.Within c n := by
  have hthread := hd.kept.threadId
  have hget := hd.kept.getLoop c hc
  have hhome : u.threadId (u.getLoop c) = s.threadId (s.getLoop c) := by rw [hget, hthread]
  have hbase : u.base = s.base := congrFun hthread none
  cases h with
  | callback h =>
    rcases hd.entered h with hmem | ⟨io, fs, rfl, hst⟩
    · exact (Nears.callback (hhome ▸ hmem)).within
    · obtain ⟨v, hv, rfl⟩ := hd.executed hst rfl
      by_cases hin : s.threadId (s.getLoop c) = s.base
      · have hg : .removeConnectionInLoop ∈ ((.closeCallback : Frame T).exec
            (s.site c (s.threadId (s.getLoop c))) (s.conn c) io).frames := by
          simp [Frame.exec, site, hin]
        have hmem : .conn c .removeConnectionInLoop ∈ (v.commit (s.threadId (s.getLoop c)) c fs
            ((.closeCallback : Frame T).exec (s.site c (s.threadId (s.getLoop c))) (s.conn c) io)).stack
              (s.threadId (s.getLoop c)) :=
          mem_commit_stack hg
        refine ⟨2, by omega, .removing (Or.inl rfl) ?_⟩
        rw [hbase, ← hin]
        exact hmem
      · have hp : ((.closeCallback : Frame T).exec
            (s.site c (s.threadId (s.getLoop c))) (s.conn c) io).posted = true := by
          simp [Frame.exec, site, hin]
        exact ⟨1, by omega, .posted (hv.posts rfl hp)⟩
  | posted h =>
    rcases hd.waited hs h with hmem | ⟨-, hst⟩
    · exact (Nears.posted hmem).within
    · refine (Nears.removing (Or.inl rfl) ?_).within.mono (by omega)
      rw [hbase, base, hst]
      exact List.mem_singleton_self _
  | @removing f hf h =>
    rcases hd.entered h with hmem | ⟨io, fs, rfl, hst⟩
    · exact (Nears.removing hf (hbase ▸ hmem)).within
    · rcases hf with rfl | rfl
      · obtain ⟨v, hv, rfl⟩ := hd.executed hst rfl
        refine (Nears.removing (Or.inr rfl) ?_).within
        rw [hbase]
        exact mem_commit_stack List.mem_cons_self
      · obtain ⟨v, hv, rfl⟩ := hd.executed hst rfl
        refine ⟨3, by omega, .queued ?_⟩
        rw [hget]
        exact hv.waits rfl
  | queued h =>
    rcases hd.waited hs h with hmem | ⟨-, hst⟩
    · exact (Nears.queued (hget ▸ hmem)).within
    · refine (Nears.destroying (Or.inl rfl) ?_).within.mono (by omega)
      rw [hhome, hst]
      exact List.mem_singleton_self _
  | @destroying f hf h =>
    rcases hd.entered h with hmem | ⟨io, fs, rfl, hst⟩
    · exact (Nears.destroying hf (hhome ▸ hmem)).within
    · rcases hf with rfl | rfl
      · obtain ⟨v, hv, rfl⟩ := hd.executed hst rfl
        refine (Nears.destroying (Or.inr rfl) ?_).within
        rw [hhome]
        refine mem_commit_stack ?_
        simp only [Frame.exec, Frame.execFunctor]
        split <;> simp
      · obtain ⟨v, hv, rfl⟩ := hd.executed hst rfl
        refine ⟨5, by omega, .destroyed ?_⟩
        simp [commit, Frame.exec]
  | destroyed h => exact (Nears.destroyed (hd.trace_mono h)).within

omit [DecidableEq T] in
theorem Within.settle (h : s.Within c n) : s.settle.Within c n := by
  obtain ⟨m, hm, hn⟩ := h
  refine ⟨m, hm, ?_⟩
  cases hn with
  | callback h => exact .callback h
  | posted h => exact .posted h
  | removing hf h => exact .removing hf h
  | queued h => exact .queued h
  | destroying hf h => exact .destroying hf h
  | destroyed h => exact .destroyed h

theorem Within.turn (h : s.Within c n) (hs : s.Sound) (hc : c < s.map.accepted) (hd : Does s a u)
    (hn : (n = 0 ∨ n = 4) ∧ a.turnOf (s.getLoop c) = true ∨ n = 2 ∧ a.turnOf none = true) :
    u.Within c (n + 1) := by
  obtain ⟨m, hm, hnears⟩ := h
  rcases Nat.eq_or_lt_of_le hm with rfl | hlt
  · rcases hn with ⟨hn, hturn⟩ | ⟨rfl, hturn⟩
    · have hnil := (unoccupied_iff.mp (hd.unoccupied_of_turn hturn)).2
      cases hnears with
      | callback h | destroying hf h => simp [hnil] at h
      | posted | removing | queued | destroyed => simp at hn
    · have hnil : s.stack s.base = [] := (unoccupied_iff.mp (hd.unoccupied_of_turn hturn)).2
      cases hnears with
      | removing hf h => simp [hnil] at h
  · obtain ⟨k, hk, hnears⟩ := hnears.does hs hc hd
    exact ⟨k, by omega, hnears⟩

section

variable {p : Pool T} {name ipPort : String} {fd : ℕ → ℕ} {wc hw : Bool} {mark : ℕ}
  {mem : T → ℕ → Byte} {as bs cs pre : List (Act T)} {strict : Prop} {s' : Reactors T}

theorem Refines.accepted (hs : Refines p fd wc hw mark mem True s) (hcl : .closed ∈ s.trace c) :
    c < s.map.accepted := by
  by_contra hc
  have hb : s.Belongs none c := ⟨none_mem_indices, fun hlt ↦ absurd hlt hc⟩
  have hv := hs.closing hb
  have hstate : (s.conn c).state_ = .kConnecting := (hv.established.lined.unborn (decide_eq_false hc)).2.1
  have hclosed : (s.conn c).state_ = .kDisconnected := hv.settles.state.mp hcl
  simp [hstate] at hclosed

theorem Refines.nears (hs : Refines p fd wc hw mark mem True s) (hcl : .closed ∈ s.trace c) :
    s.Within c 0 := by
  have hv := hs.closing (hs.sound.belongs (hs.accepted hcl))
  have hpos : 0 < (s.view (s.getLoop c) c).trace.count .closed := List.count_pos_iff.mpr hcl
  have hplaced := hv.established.placed
  have hconfined := hv.reached.confined
  rw [hv.settles.due, System.removing, System.destroying] at hpos
  by_cases hposted : 0 < (s.view (s.getLoop c) c).removals
  · exact ⟨1, by omega, .posted (List.count_pos_iff.mp hposted)⟩
  by_cases hcalls : 0 < (s.view (s.getLoop c) c).calls Frame.removes
  · obtain ⟨t, f, hmem, hf⟩ := System.exists_of_calls_pos hcalls
    cases f with
    | closeCallback =>
      obtain rfl := hconfined.of_not_roams hmem rfl
      exact ⟨0, le_refl 0, .callback (mem_stack_of_view hmem)⟩
    | removeConnectionInLoop =>
      obtain rfl := hplaced.of_removing (Or.inl rfl) hmem
      exact ⟨2, by omega, .removing (Or.inl rfl) (mem_stack_of_view hmem)⟩
    | _ => simp [Frame.removes] at hf
  by_cases hwait : 0 < (s.view (s.getLoop c) c).loop.waiting.count .connectDestroyed
  · exact ⟨3, by omega, .queued (mem_waiting_of_view (List.count_pos_iff.mp hwait))⟩
  by_cases htear : 0 < (s.view (s.getLoop c) c).calls Frame.tearsDown
  · obtain ⟨t, f, hmem, hf⟩ := System.exists_of_calls_pos htear
    cases f with
    | functor cb =>
      obtain rfl : cb = .connectDestroyed := by cases cb <;> simp_all [Frame.tearsDown]
      obtain rfl := hconfined.of_not_roams hmem rfl
      exact ⟨4, by omega, .destroying (Or.inl rfl) (mem_stack_of_view hmem)⟩
    | queueInLoop cb =>
      obtain rfl : cb = .connectDestroyed := by cases cb <;> simp_all [Frame.tearsDown]
      obtain rfl := hplaced.of_removing (Or.inr rfl) hmem
      exact ⟨2, by omega, .removing (Or.inr rfl) (mem_stack_of_view hmem)⟩
    | removeChannel =>
      obtain rfl := hconfined.of_not_roams hmem rfl
      exact ⟨4, by omega, .destroying (Or.inr rfl) (mem_stack_of_view hmem)⟩
    | _ => simp [Frame.tearsDown] at hf
  · have hdone : 0 < (s.trace c).count .destroyed := by
      change 0 < (s.view (s.getLoop c) c).trace.count .destroyed
      omega
    exact ⟨5, by omega, .destroyed (List.count_pos_iff.mp hdone)⟩

/-- What the runs of a living server keep of a connection that it has accepted. -/
structure Going (p : Pool T) (fd : ℕ → ℕ) (wc hw : Bool) (mark : ℕ) (mem : T → ℕ → Byte)
    (strict : Prop) (c : ℕ) (i : Option ℕ) (n : ℕ) (s : Reactors T) : Prop where
  refines : Refines p fd wc hw mark mem strict s
  accepted : c < s.map.accepted
  getLoop : s.getLoop c = i
  within : s.Within c n

theorem Going.step (hs : Going p fd wc hw mark mem strict c i n s) (hG : s.Civil strict a)
    (h : s.step a = some u) : Going p fd wc hw mark mem strict c i n u := by
  have hrefines := hs.refines.step hG h
  obtain ⟨-, v, hdoes, rfl⟩ := step_cases h
  obtain ⟨m, hm, hnears⟩ := hs.within
  exact ⟨hrefines, Nat.lt_of_lt_of_le hs.accepted hdoes.kept.accepted,
    (hdoes.kept.getLoop c hs.accepted).trans hs.getLoop,
    ((hnears.does hs.refines.sound hs.accepted hdoes).mono hm).settle⟩

theorem Going.run (hs : Going p fd wc hw mark mem strict c i n s)
    (hG : Along Reactors.step (Civil strict) s as) (h : Foundation.Machine.run Reactors.step s as = some u) :
    Going p fd wc hw mark mem strict c i n u :=
  run_invariant_along (fun _ _ _ hs hG h ↦ hs.step hG h) hs hG h

theorem Going.turned (hs : Going p fd wc hw mark mem strict c i n s)
    (hG : Along Reactors.step (Civil strict) s as) (h : Foundation.Machine.run Reactors.step s as = some u)
    {j : Option ℕ} (hj : (n = 0 ∨ n = 4) ∧ j = i ∨ n = 2 ∧ j = none)
    (hturn : 0 < as.countP (Act.turnOf j)) : Going p fd wc hw mark mem strict c i (n + 1) u := by
  refine run_passes (fun _ _ _ hs hG h ↦ hs.step hG h) (fun _ _ _ hs hG h ↦ hs.step hG h) ?_ hs hG h hturn
  intro v b w hv hb hturn hw
  obtain ⟨hrefines, hacc, hget, -⟩ := hv.step hb hw
  refine ⟨hrefines, hacc, hget, ?_⟩
  obtain ⟨-, u, hdoes, rfl⟩ := step_cases hw
  refine (hv.within.turn hv.refines.sound hv.accepted hdoes ?_).settle
  rcases hj with ⟨hn, rfl⟩ | ⟨hn, rfl⟩
  · exact Or.inl ⟨hn, by rwa [hv.getLoop]⟩
  · exact Or.inr ⟨hn, hturn⟩

theorem Refines.begins (hs : Refines p fd wc hw mark mem strict s)
    (hG : Along Reactors.step (Civil strict) s as) (h : run Reactors.step s as = some u)
    (hawake : i = none → s.Awake as)
    (hn : 2 * (s.loops i).waiting.length + 7 < as.countP (Act.turnOf i)) {j : Job T}
    (hj : j ∈ (s.loops i).waiting) :
    ∃ x y, as = x ++ .loop i (.beginFunctor j) :: y ∧ 0 < y.countP (Act.turnOf i) := by
  obtain ⟨x, y, rfl, hx, hy⟩ := exists_split hn
  obtain ⟨v, hv, -⟩ := run_append.mp h
  have hserved := hs.served (hG.append hv).1 hv (i := i)
    (fun hi ↦ ⟨(hawake hi).quit, (hawake hi).running, fun t ht ↦ (hawake hi).calls t
      (List.mem_append_left y ht)⟩) (le_of_eq hx.symm)
  obtain ⟨b, hb, hbegan⟩ := List.mem_flatMap.mp (hserved.subset hj)
  have hbegin : b = .loop i (.beginFunctor j) := by
    cases b with
    | loop k a =>
      simp only [Act.began] at hbegan
      split at hbegan
      · next hki =>
        cases a with
        | beginFunctor j' =>
          obtain rfl := List.mem_singleton.mp hbegan
          rw [hki]
        | _ => simp [EventLoop.executed] at hbegan
      · simp at hbegan
    | _ => simp [Act.began] at hbegan
  obtain ⟨z, w, rfl⟩ := List.append_of_mem (hbegin ▸ hb)
  refine ⟨z, w ++ y, by simp, ?_⟩
  rw [List.countP_append]
  omega

/-- What waits for a connection in a loop is done within the rounds that the queue takes. -/
theorem Going.served (hs : Going p fd wc hw mark mem strict c i n s)
    (hG : Along Reactors.step (Civil strict) s as) (h : Foundation.Machine.run Reactors.step s as = some u)
    {j : Option ℕ} (hj : n = 3 ∧ j = i ∨ n = 1 ∧ j = none) (hawake : j = none → s.Awake as)
    (hturn : 2 * (s.loops j).waiting.length + 7 < as.countP (Act.turnOf j)) :
    Going p fd wc hw mark mem strict c i (n + 2) u := by
  have hnext : ∀ {v x}, Going p fd wc hw mark mem strict c i (n + 1) v →
      Along Reactors.step (Civil strict) v x → Foundation.Machine.run Reactors.step v x = some u →
      0 < x.countP (Act.turnOf j) → Going p fd wc hw mark mem strict c i (n + 2) u := by
    intro v x hv hx hu hturn
    refine hv.turned hx hu ?_ hturn
    rcases hj with ⟨rfl, hji⟩ | ⟨rfl, hji⟩
    · exact Or.inl ⟨Or.inr rfl, hji⟩
    · exact Or.inr ⟨rfl, hji⟩
  obtain ⟨m, hm, hnears⟩ := hs.within
  rcases Nat.eq_or_lt_of_le hm with rfl | hlt
  · obtain ⟨k, hk, hbegin⟩ : ∃ k, k ∈ (s.loops j).waiting ∧ ∀ v : Reactors T, v.getLoop c = i →
        v.threadId = s.threadId → v.stack (s.threadId j) = [k.activity] → v.Within c (n + 1) := by
      cases hnears with
      | posted hmem =>
        obtain rfl : j = none := by simpa using hj
        refine ⟨_, hmem, fun v hget hthread hst ↦ (Nears.removing (Or.inl rfl) ?_).within⟩
        rw [base, hthread, hst]
        exact List.mem_singleton_self _
      | queued hmem =>
        obtain rfl : j = i := by simpa using hj
        rw [hs.getLoop] at hmem
        refine ⟨_, hmem, fun v hget hthread hst ↦ (Nears.destroying (Or.inl rfl) ?_).within⟩
        rw [hget, hthread, hst]
        exact List.mem_singleton_self _
      | callback | removing | destroying | destroyed => simp at hj
    obtain ⟨x, y, rfl, hy⟩ := hs.refines.begins hG h hawake hturn hk
    obtain ⟨v, hv, hu⟩ := run_append.mp h
    obtain ⟨w, hw, hu⟩ := run_cons.mp hu
    obtain ⟨hGx, hGv⟩ := hG.append hv
    have hgoing := (hs.run hGx hv).step hGv.1 hw
    refine hnext ⟨hgoing.refines, hgoing.accepted, hgoing.getLoop, ?_⟩ (hGv.tail hw) hu hy
    refine hbegin w hgoing.getLoop (hgoing.refines.threads.trans hs.refines.threads.symm) ?_
    obtain ⟨-, w, hdoes, rfl⟩ := step_cases hw
    rw [hs.refines.threads, ← (hs.run hGx hv).refines.threads]
    exact hdoes.begun
  · exact hnext ⟨hs.refines, hs.accepted, hs.getLoop, m, hlt, hnears⟩ hG h (by omega)

/-- A connection that has been closed is taken out of the map and destroyed within one turn
of its loop, the rounds that the removal waits for in the loop of the server, and those that
`connectDestroyed` waits for in its own, where events are plain, no `shutdown()` stores late
and nobody quits the loop of the server. -/
theorem close_completes
    (hG : Along step (Civil True) (ofPool p name ipPort fd wc hw mark mem) (pre ++ as ++ bs ++ cs))
    (hpre : run step (ofPool p name ipPort fd wc hw mark mem) pre = some s) (hcl : .closed ∈ s.trace c)
    {u v w : Reactors T} (ha : run step s as = some u) (hb : run step u bs = some v)
    (hc : run step v cs = some w) (hlt : w.map.accepted < 2 ^ 31)
    (hturn : 0 < as.countP (Act.turnOf (s.getLoop c))) (hbase : u.Awake bs)
    (hremoval : 2 * (u.loops none).waiting.length + 7 < bs.countP (Act.turnOf none))
    (hhome : s.getLoop c = none → v.Awake cs)
    (hdestroy : 2 * (v.loops (s.getLoop c)).waiting.length + 7 < cs.countP (Act.turnOf (s.getLoop c))) :
    (w.trace c).count .destroyed = 1 ∧ w.erased c = 1 ∧
      (∀ name, w.map.connections_ name ≠ some c) ∧ ¬ w.Registered c := by
  have hpreas := run_append.mpr ⟨s, hpre, ha⟩
  have hprebs := run_append.mpr ⟨u, hpreas, hb⟩
  obtain ⟨hG', hGc⟩ := hG.append hprebs
  obtain ⟨hG'', hGb⟩ := hG'.append hpreas
  obtain ⟨hGp, hGa⟩ := hG''.append hpre
  have hs := run_refines hGp hpre
  have hgoing : Going p fd wc hw mark mem True c (s.getLoop c) 0 s :=
    ⟨hs, hs.accepted hcl, rfl, hs.nears hcl⟩
  have hposted := hgoing.turned hGa ha (Or.inl ⟨Or.inl rfl, rfl⟩) hturn
  have hqueued := hposted.served hGb hb (Or.inr ⟨rfl, rfl⟩) (fun _ ↦ hbase) hremoval
  obtain ⟨-, hacc, -, m, hm, hnears⟩ := hqueued.served hGc hc (Or.inl ⟨rfl, rfl⟩) hhome hdestroy
  have hdone : .destroyed ∈ w.trace c := by
    cases hnears with
    | destroyed h => exact h
    | callback | posted | removing | queued | destroying => omega
  have hkeeps := connections_kept hG (run_append.mpr ⟨v, hprebs, hc⟩) hlt c
  cases hkeeps.phase hacc with
  | opened _ _ _ _ _ hnot | closed _ _ _ _ _ hnot | erased _ _ _ _ _ hnot => exact absurd hdone hnot
  | destroyed hclosed hentry herased hr hd hdone hout => exact ⟨hdone, herased, hentry, hout⟩

end

section

def closeRest : List (Act Bool) :=
  [nothing false, nothing false, nothing false, nothing false, nothing false, .loop none .beginCalling]

def round : List (Act Bool) :=
  [.poll none false [], .loop none .beginCalling, .loop none .swap, .loop none .endCalling,
    .loop none .testQuit]

def destroyRounds : List (Act Bool) :=
  [.loop none .swap, .loop none (.beginFunctor (.conn 0 .connectDestroyed)), nothing false, nothing false,
    .loop none .endFunctor, .loop none .endCalling, .loop none .testQuit] ++ round

def calling (s : Reactors Bool) (n : ℕ) : Prop :=
  (s.loops none).quit_ = false ∧ (s.loops none).stage ≠ .stopped ∧ (s.loops none).waiting.length = n

instance (s : Reactors Bool) (n : ℕ) : Decidable (s.calling n) := by
  unfold calling
  infer_instance

theorem close_completes_alone : ∃ w, run step (plainServer lonePool)
    (closesAlone.take 18 ++ closeRest ++ destroyRounds ++ (round ++ round)) = some w ∧
      (w.trace 0).count .destroyed = 1 ∧ w.erased 0 = 1 ∧
        (∀ name, w.map.connections_ name ≠ some 0) ∧ ¬ w.Registered 0 := by
  have hG : Along step (Civil True) (plainServer lonePool)
      (closesAlone.take 18 ++ closeRest ++ destroyRounds ++ (round ++ round)) :=
    Along.imp (G := fun s a ↦ s.calm a = true) (fun _ _ ↦ civil_of_calm) (by decide +kernel)
  obtain ⟨s, hs, hrest⟩ := Option.bind_eq_some_iff.mp
    (show (run step (plainServer lonePool) (closesAlone.take 18)).bind (fun s ↦
      if .closed ∈ s.trace 0 ∧ s.getLoop 0 = none then (run step s closeRest).bind (fun u ↦
        if u.calling 1 then (run step u destroyRounds).bind (fun v ↦
          if v.calling 0 then (run step v (round ++ round)).map fun w ↦ w.map.accepted
          else none) else none) else none) = some 1 by decide +kernel)
  obtain ⟨⟨hcl, hhome⟩, hrest⟩ := Option.ite_none_right_eq_some.mp hrest
  obtain ⟨u, hu, hrest⟩ := Option.bind_eq_some_iff.mp hrest
  obtain ⟨⟨huq, hus, hun⟩, hrest⟩ := Option.ite_none_right_eq_some.mp hrest
  obtain ⟨v, hv, hrest⟩ := Option.bind_eq_some_iff.mp hrest
  obtain ⟨⟨hvq, hvs, hvn⟩, hrest⟩ := Option.ite_none_right_eq_some.mp hrest
  obtain ⟨w, hw, hacc⟩ := Option.map_eq_some_iff.mp hrest
  refine ⟨w, run_append.mpr ⟨v, run_append.mpr ⟨u, run_append.mpr ⟨s, hs, hu⟩, hv⟩, hw⟩, ?_⟩
  have hlt : w.map.accepted < 2 ^ 31 := by
    rw [hacc]
    norm_num
  refine close_completes hG hs hcl hu hv hw hlt (by rw [hhome]; decide)
    ⟨huq, hus, by simp [destroyRounds, round, nothing]⟩ (by rw [hun]; decide)
    (fun _ ↦ ⟨hvq, hvs, by simp [round]⟩) (by rw [hhome, hvn]; decide)

end

end Reactors

end Mymuduo
