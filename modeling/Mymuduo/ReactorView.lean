import Mymuduo.Reactors
import Mymuduo.CallOrder

namespace Mymuduo

open Foundation.Machine

namespace EventLoop

variable {T F G : Type}

def Act.map (g : F → G) : Act T F → Act T G
  | .append t cb => .append t (g cb)
  | .storeQuit t => .storeQuit t
  | .wakeup t => .wakeup t
  | .enter => .enter
  | .clearQuit => .clearQuit
  | .testQuit => .testQuit
  | .pollReturn woken => .pollReturn woken
  | .handleRead => .handleRead
  | .beginCalling => .beginCalling
  | .swap => .swap
  | .beginFunctor cb => .beginFunctor (g cb)
  | .endFunctor => .endFunctor
  | .endCalling => .endCalling

def map (g : F → G) (l : EventLoop T F) : EventLoop T G :=
  { threadId_ := l.threadId_, looping_ := l.looping_, quit_ := l.quit_
    callingPendingFunctors_ := l.callingPendingFunctors_
    pendingFunctors_ := l.pendingFunctors_.map g, wakeupFd_ := l.wakeupFd_
    functors := l.functors.map g, stage := l.stage, owes := l.owes }

@[simp] theorem map_threadId (g : F → G) (l : EventLoop T F) : (l.map g).threadId_ = l.threadId_ := rfl
@[simp] theorem map_stage (g : F → G) (l : EventLoop T F) : (l.map g).stage = l.stage := rfl
@[simp] theorem map_owes (g : F → G) (l : EventLoop T F) : (l.map g).owes = l.owes := rfl

variable [DecidableEq T] [DecidableEq F] [DecidableEq G] {l m : EventLoop T F} {a : Act T F}

theorem step_map (g : F → G) (h : l.step a = some m) : (l.map g).step (a.map g) = some (m.map g) := by
  cases a with
  | append t cb =>
    obtain ⟨hc, rfl⟩ := step_append.mp h
    refine step_append.mpr ⟨hc, ?_⟩
    simp only [map, queueInLoop, List.map_append, List.map_cons, List.map_nil]
    rfl
  | storeQuit t =>
    obtain ⟨hc, rfl⟩ := step_storeQuit.mp h
    exact step_storeQuit.mpr ⟨hc, rfl⟩
  | wakeup t =>
    obtain ⟨hc, rfl⟩ := step_wakeup.mp h
    exact step_wakeup.mpr ⟨hc, rfl⟩
  | enter =>
    obtain ⟨hc, rfl⟩ := step_enter.mp h
    exact step_enter.mpr ⟨hc, rfl⟩
  | clearQuit =>
    obtain ⟨hc, rfl⟩ := step_clearQuit.mp h
    exact step_clearQuit.mpr ⟨hc, rfl⟩
  | testQuit =>
    obtain ⟨hc, ⟨hq, rfl⟩ | ⟨hq, rfl⟩⟩ := step_testQuit.mp h
    · exact step_testQuit.mpr ⟨hc, Or.inl ⟨hq, rfl⟩⟩
    · exact step_testQuit.mpr ⟨hc, Or.inr ⟨hq, rfl⟩⟩
  | pollReturn woken =>
    obtain ⟨hc, rfl⟩ := step_pollReturn.mp h
    exact step_pollReturn.mpr ⟨hc, rfl⟩
  | handleRead =>
    obtain ⟨hc, rfl⟩ := step_handleRead.mp h
    exact step_handleRead.mpr ⟨hc, rfl⟩
  | beginCalling =>
    obtain ⟨hc, rfl⟩ := step_beginCalling.mp h
    exact step_beginCalling.mpr ⟨hc, rfl⟩
  | swap =>
    obtain ⟨hc, rfl⟩ := step_swap.mp h
    exact step_swap.mpr ⟨hc, rfl⟩
  | beginFunctor cb =>
    obtain ⟨⟨hc, hf⟩, rfl⟩ := step_beginFunctor.mp h
    refine step_beginFunctor.mpr ⟨⟨hc, ?_⟩, by simp only [map, List.map_tail]⟩
    simp only [map]
    rw [hf]
    rfl
  | endFunctor =>
    obtain ⟨hc, rfl⟩ := step_endFunctor.mp h
    exact step_endFunctor.mpr ⟨hc, rfl⟩
  | endCalling =>
    obtain ⟨⟨hc, hf⟩, rfl⟩ := step_endCalling.mp h
    exact step_endCalling.mpr ⟨⟨hc, by simp [map, hf]⟩, rfl⟩

end EventLoop

variable {T : Type}

def Job.seen (c : ℕ) : Job T → Functor T
  | .conn d f => if d = c then f else .foreign 0
  | .removeConnectionInLoop _ | .foreign _ => .foreign 0

def Activity.frame (c : ℕ) : Activity T → Option (Frame T)
  | .conn d f => if d = c then some f else none
  | _ => none

/-- The kernel does not report `EPOLLPRI` together with `EPOLLHUP` but without `EPOLLIN`. -/
def Plain (revents : BitVec 32) : Prop :=
  ¬ (revents &&& EPOLLPRI ≠ 0 ∧ revents &&& EPOLLHUP ≠ 0 ∧ revents &&& EPOLLIN = 0)

/-- The server lives; and, where `strict` holds, the kernel reports plain events only
and nothing comes between the test and the store of `shutdown()`. -/
def System.Civil (strict : Prop) (s : System T) : System.Act T → Prop
  | .destroyServer => False
  | .poll _ revents => strict → ∀ r ∈ revents, Plain r
  | .exec t _ => strict → (s.stack t).head? = some .setDisconnecting → s.conn.state_ = .kConnected
  | _ => True

/-- A stack in which a frame of one connection lies on code of the user, unless it
lies on a frame of the same connection. -/
def Nested : List (Activity T) → Prop
  | [] => True
  | f :: fs => (∀ g ∈ fs.head?, g.isUserCode = true ∨ ∃ c p q, f = .conn c p ∧ g = .conn c q) ∧ Nested fs

theorem Nested.frames {c : ℕ} {fs : List (Activity T)} (h : Nested fs)
    (htop : ∀ f ∈ fs.head?, f.isUserCode = true ∨ f.frame c = none) :
    fs.filterMap (Activity.frame c) = [] ∨ ∃ gs, fs.filterMap (Activity.frame c) = .userCode :: gs := by
  induction fs with
  | nil => exact Or.inl rfl
  | cons f fs ih =>
    obtain ⟨hsits, hrest⟩ := h
    cases hf : f.frame c with
    | some p =>
      have huser : f.isUserCode = true := by
        refine (htop f (by simp)).resolve_right ?_
        simp [hf]
      right
      refine ⟨fs.filterMap (Activity.frame c), ?_⟩
      rw [List.filterMap_cons_some hf]
      cases f with
      | conn d q =>
        simp only [Activity.frame, Option.ite_none_right_eq_some, Option.some.injEq] at hf
        obtain ⟨-, rfl⟩ := hf
        cases q with
        | userCode => rfl
        | _ => simp [Activity.isUserCode] at huser
      | _ => simp [Activity.frame] at hf
    | none =>
      rw [List.filterMap_cons_none hf]
      refine ih hrest ?_
      intro g hg
      rcases hsits g hg with huser | ⟨d, p, q, rfl, rfl⟩
      · exact Or.inl huser
      · exact Or.inr (by simpa [Activity.frame] using hf)

theorem Nested.tail {f : Activity T} {fs : List (Activity T)} (h : Nested (f :: fs)) : Nested fs := h.2

theorem Nested.push {f : Activity T} {fs : List (Activity T)} (h : Nested fs)
    (hf : ∀ g ∈ fs.head?, g.isUserCode = true) : Nested (f :: fs) :=
  ⟨fun g hg ↦ Or.inl (hf g hg), h⟩

theorem Nested.replace {c : ℕ} {f : Frame T} {fs : List (Activity T)} (h : Nested (.conn c f :: fs))
    (gs : List (Frame T)) : Nested (gs.map (.conn c) ++ fs) := by
  induction gs with
  | nil => exact h.2
  | cons g gs ih =>
    refine ⟨?_, ih⟩
    intro k hk
    cases gs with
    | nil =>
      rcases h.1 k hk with huser | ⟨d, p, q, hp, rfl⟩
      · exact Or.inl huser
      · obtain ⟨rfl, -⟩ := Activity.conn.inj hp
        exact Or.inr ⟨c, g, q, rfl, rfl⟩
    | cons g' gs =>
      obtain rfl : Activity.conn c g' = k := by simpa using hk
      exact Or.inr ⟨c, g, g', rfl, rfl⟩

theorem filterMap_frame_map (c : ℕ) (gs : List (Frame T)) :
    (gs.map (Activity.conn c)).filterMap (Activity.frame c) = gs := by
  induction gs with
  | nil => rfl
  | cons g gs ih => simp [Activity.frame, ih]

theorem filterMap_frame_map_of_ne {c d : ℕ} (h : d ≠ c) (gs : List (Frame T)) :
    (gs.map (Activity.conn d)).filterMap (Activity.frame c) = [] := by
  induction gs with
  | nil => rfl
  | cons g gs ih => simp [Activity.frame, h, ih]

section

variable [DecidableEq T] {v : System T} {l : EventLoop T (Functor T)} {strict : Prop}

theorem System.step_removal {n : ℕ} (hr : v.removals = n + 1) (hu : v.inUserCode v.base = true) :
    v.step .removeConnectionInLoop =
      some { v.push v.base .removeConnectionInLoop with removals := n } := by
  simp [System.step, hr, hu]

theorem System.begin_foreign (hst : v.stack v.loop.threadId_ = [])
    (hl : v.loop.step (.beginFunctor (.foreign 0)) = some l) :
    Reaches System.step (System.Civil strict) v { v with loop := l } := by
  have hL : l.threadId_ = v.loop.threadId_ := EventLoop.threadId_step hl
  have howes : l.owes l.threadId_ = false := by
    obtain ⟨⟨⟨-, ho⟩, -⟩, rfl⟩ := EventLoop.step_beginFunctor.mp hl
    exact ho
  have hbegin : v.step (.loop (.beginFunctor (.foreign 0))) = some { v with
      loop := l
      stack := Function.update v.stack v.loop.threadId_ [.functor (.foreign 0)] } := by
    simp [System.step, System.allows, System.entered, hst, hl]
  have hexec : ∀ f gs, (f = .functor (.foreign 0) ∧ gs = [.userCode]) ∨ f = .userCode ∧ gs = [] →
      Reaches System.step (System.Civil strict)
        { v with loop := l, stack := Function.update v.stack v.loop.threadId_ [f] }
        { v with loop := l, stack := Function.update v.stack v.loop.threadId_ gs } := by
    intro f gs hf
    refine .single (a := .exec v.loop.threadId_ { write := .accepted 0, read := .delivered [] }) ?_ ?_
    · intro _ hhead
      rcases hf with ⟨rfl, -⟩ | ⟨rfl, -⟩ <;> simp at hhead
    · rcases hf with ⟨rfl, rfl⟩ | ⟨rfl, rfl⟩ <;>
        simp [System.step, Frame.Accepts, Frame.exec, Frame.execFunctor, System.enqueue,
          System.commit, ← hL, howes]
  have hself : Function.update v.stack v.loop.threadId_ [] = v.stack := by
    rw [← hst, Function.update_eq_self]
  have hlast := hexec .userCode [] (Or.inr ⟨rfl, rfl⟩)
  rw [hself] at hlast
  exact (Reaches.single trivial hbegin).trans
    ((hexec _ [.userCode] (Or.inl ⟨rfl, rfl⟩)).trans hlast)

end

namespace Reactors

def Civil (strict : Prop) (s : Reactors T) : Act T → Prop
  | .destroy _ => False
  | .poll _ _ active => strict → ∀ e ∈ active, Plain e.2
  | .exec t _ => strict → ∀ c, (s.stack t).head? = some (.conn c .setDisconnecting) →
      (s.conn c).state_ = .kConnected
  | _ => True

variable [DecidableEq T]

/-- What the server looks like to connection `c`, if that belongs to loop `i`. -/
def view (s : Reactors T) (i : Option ℕ) (c : ℕ) : System T :=
  { loop := (s.loops i).map (Job.seen c), base := s.base, conn := s.conn c
    created := c < s.map.accepted, connections_ := (s.map.opened c).isSome
    removals := (s.loops none).waiting.count (.removeConnectionInLoop c)
    ready := (s.unhandled i).lookup (.conn c), mem := s.mem
    stack := fun t ↦ (s.stack t).filterMap (Activity.frame c), trace := s.trace c }

/-- Connection `c` belongs to loop `i`, or has not been accepted. -/
def Belongs (s : Reactors T) (i : Option ℕ) (c : ℕ) : Prop :=
  i ∈ s.indices ∧ (c < s.map.accepted → s.getLoop c = i)

def Routes (s : Reactors T) (i : Option ℕ) : Job T → Prop
  | .conn c _ => c < s.map.accepted ∧ s.getLoop c = i
  | .removeConnectionInLoop c => c < s.map.accepted ∧ i = none
  | .foreign _ => True

def Stands (s : Reactors T) (t : T) : Activity T → Prop
  | .conn c _ => c < s.map.accepted
  | .userCode => True
  | .newConnection => t = s.base
  | .destructor _ | .quit _ | .join _ => False

def Lists (s : Reactors T) (i : Option ℕ) : Source → Prop
  | .acceptor => i = none
  | .conn c => c < s.map.accepted ∧ s.getLoop c = i

/-- The invariant of a server that is not destroyed. -/
structure Sound (s : Reactors T) : Prop where
  threads : ∀ i ∈ s.indices, ∀ j ∈ s.indices, s.threadId i = s.threadId j → i = j
  control : ∀ i, (s.loops i).Control
  running : ∀ k, (s.loops (some k)).quit_ = false ∧ (s.loops (some k)).stage ≠ .stopped
  next : s.numThreads_ ≠ 0 → s.next_ < s.numThreads_
  routed : ∀ c < s.map.accepted, s.getLoop c ∈ s.indices
  queued : ∀ i, ∀ j ∈ (s.loops i).waiting, s.Routes i j
  stacked : ∀ t, ∀ f ∈ s.stack t, s.Stands t f
  nested : ∀ t, Nested (s.stack t)
  home : ∀ i ∈ s.indices, s.stack (s.threadId i) ≠ [] → (s.loops i).stage.userCode = true
  copied : ∀ t c, 0 < s.copies t c → c < s.map.accepted
  listed : ∀ i, ∀ e ∈ s.unhandled i, s.Lists i e.1
  distinct : ∀ i, ((s.unhandled i).map Prod.fst).Nodup
  handling : ∀ i, s.unhandled i ≠ [] → ∃ woken, (s.loops i).stage = .handling woken

variable {s u : Reactors T} {a : Act T} {i j : Option ℕ} {c d : ℕ} {t : T} {strict : Prop}

@[simp] theorem settle_view (i : Option ℕ) (c : ℕ) : s.settle.view i c = s.view i c := rfl

omit [DecidableEq T] in
theorem none_mem_indices : none ∈ s.indices := List.mem_cons_self

theorem site_view (hi : s.getLoop c = i) : (s.view i c).site t = s.site c t := by
  subst hi
  rfl

omit [DecidableEq T] in
theorem Sound.not_destroys (hs : s.Sound) {f : Activity T} {fs : List (Activity T)}
    (hst : s.stack t = f :: fs) (hf : f.destroys = true) : False := by
  have hstands := hs.stacked t f (by simp [hst])
  cases f <;> simp [Activity.destroys, Stands] at hf hstands

theorem Sound.view_inUserCode (hs : s.Sound) (hi : i ∈ s.indices) (ho : s.owes t = false)
    (htop : ∀ f ∈ (s.stack t).head?, f.isUserCode = true ∨ f.frame c = none)
    (hempty : s.stack t = [] → t = s.threadId i → (s.loops i).stage.userCode = true) :
    (s.view i c).inUserCode t = true := by
  have howes : (s.loops i).owes t = false := owes_eq_false.mp ho i hi
  have hframes : ((s.view i c).stack t = [] ∧ (t = s.threadId i → (s.loops i).stage.userCode = true)) ∨
      ∃ gs, (s.view i c).stack t = .userCode :: gs := by
    rcases (hs.nested t).frames htop with hnil | huser
    · refine Or.inl ⟨hnil, ?_⟩
      intro ht
      by_cases hst : s.stack t = []
      · exact hempty hst ht
      · exact hs.home i hi (ht ▸ hst)
    · exact Or.inr huser
  have howes' : (s.view i c).loop.owes t = false := howes
  rcases hframes with ⟨hst, hstage⟩ | ⟨gs, hst⟩
  · simp only [System.inUserCode, howes', hst, Bool.not_false, Bool.true_and, Bool.or_eq_true,
      decide_eq_true_eq, ← imp_iff_not_or]
    exact hstage
  · simp [System.inUserCode, howes', hst]

theorem Sound.view_of_inUserCode (hs : s.Sound) (hi : i ∈ s.indices) (hu : s.inUserCode t = true) :
    (s.view i c).inUserCode t = true := by
  obtain ⟨ho, htop, hempty⟩ := standsIn_iff.mp hu
  exact hs.view_inUserCode hi ho (fun f hf ↦ Or.inl (htop f hf)) fun hst ht ↦ hempty hst i hi ht

theorem Sound.view_of_frame (hs : s.Sound) (hi : i ∈ s.indices) {f : Activity T} {fs : List (Activity T)}
    (hst : s.stack t = f :: fs) (ho : s.owes t = false) (hf : f.frame c = none) :
    (s.view i c).inUserCode t = true := by
  refine hs.view_inUserCode hi ho ?_ ?_
  · intro g hg
    obtain rfl : f = g := by simpa [hst] using hg
    exact Or.inr hf
  · intro hnil
    simp [hst] at hnil

theorem view_congr (hloop : (u.loops i).map (Job.seen c) = (s.loops i).map (Job.seen c))
    (hbase : u.base = s.base) (hconn : u.conn c = s.conn c)
    (hacc : c < u.map.accepted ↔ c < s.map.accepted)
    (hopen : (u.map.opened c).isSome = (s.map.opened c).isSome)
    (hrem : (u.loops none).waiting.count (.removeConnectionInLoop c) =
      (s.loops none).waiting.count (.removeConnectionInLoop c))
    (hready : (u.unhandled i).lookup (.conn c) = (s.unhandled i).lookup (.conn c))
    (hmem : u.mem = s.mem)
    (hst : ∀ t, (u.stack t).filterMap (Activity.frame c) = (s.stack t).filterMap (Activity.frame c))
    (htr : u.trace c = s.trace c) : u.view i c = s.view i c := by
  simp only [view, hloop, hbase, hconn, hacc, hopen, hrem, hready, hmem, hst, htr]

theorem setStack_frames {fs : List (Activity T)}
    (h : fs.filterMap (Activity.frame c) = (s.stack t).filterMap (Activity.frame c)) (v : T) :
    ((s.setStack t fs).stack v).filterMap (Activity.frame c) =
      (s.stack v).filterMap (Activity.frame c) := by
  by_cases hv : v = t
  · rw [hv, setStack_self, h]
  · rw [setStack_of_ne hv]

theorem setStack_view {fs : List (Activity T)}
    (h : fs.filterMap (Activity.frame c) = (s.stack t).filterMap (Activity.frame c)) :
    (s.setStack t fs).view i c = s.view i c :=
  view_congr rfl rfl rfl Iff.rfl rfl rfl rfl rfl (setStack_frames h) rfl

theorem setStack_view_self {fs : List (Activity T)} : (s.setStack t fs).view i c =
    { s.view i c with
      stack := Function.update (s.view i c).stack t (fs.filterMap (Activity.frame c)) } := by
  have hst : (fun v ↦ ((s.setStack t fs).stack v).filterMap (Activity.frame c)) =
      Function.update (s.view i c).stack t (fs.filterMap (Activity.frame c)) := by
    funext v
    by_cases hv : v = t
    · rw [hv, setStack_self, Function.update_self]
    · rw [setStack_of_ne hv, Function.update_of_ne hv]
      rfl
  rw [← hst]
  rfl

theorem push_view {f : Frame T} : (s.push t (.conn c f)).view i c = (s.view i c).push t f := by
  have hf : (Activity.conn c f).frame c = some f := by simp [Activity.frame]
  rw [push, setStack_view_self, List.filterMap_cons_some hf]
  rfl

theorem push_view_of_ne {f : Activity T} (h : f.frame c = none) :
    (s.push t f).view i c = s.view i c :=
  setStack_view (List.filterMap_cons_none h)

section

variable {l : EventLoop T (Job T)}

omit [DecidableEq T] in
theorem setLoop_base (h : l.threadId_ = s.threadId j) : (s.setLoop j l).base = s.base :=
  congrFun (setLoop_threadId h) none

theorem setLoop_removals (h : j = none → l.waiting.count (.removeConnectionInLoop c) =
      (s.loops none).waiting.count (.removeConnectionInLoop c)) :
    ((s.setLoop j l).loops none).waiting.count (.removeConnectionInLoop c) =
      (s.loops none).waiting.count (.removeConnectionInLoop c) := by
  by_cases hj : none = j
  · subst hj
    rw [setLoop_self, h rfl]
  · rw [setLoop_of_ne hj]

theorem setLoop_view_self (hL : l.threadId_ = s.threadId i) : (s.setLoop i l).view i c =
    { s.view i c with
      loop := l.map (Job.seen c)
      removals := ((s.setLoop i l).loops none).waiting.count (.removeConnectionInLoop c) } := by
  simp only [view, setLoop_base hL, setLoop_self]
  rfl

theorem setLoop_view_of_ne (hij : i ≠ j) (hL : l.threadId_ = s.threadId j) : (s.setLoop j l).view i c =
    { s.view i c with
      removals := ((s.setLoop j l).loops none).waiting.count (.removeConnectionInLoop c) } := by
  simp only [view, setLoop_base hL, setLoop_of_ne hij]
  rfl

theorem view_loop {b : EventLoop.Act T (Job T)}
    (ha : (s.view i c).allows (b.map (Job.seen c)) = true) (hl : (s.loops i).step b = some l) :
    (s.view i c).step (.loop (b.map (Job.seen c))) = some { s.view i c with
      loop := l.map (Job.seen c), stack := (s.view i c).entered (b.map (Job.seen c)) } := by
  have hl' : (s.view i c).loop.step (b.map (Job.seen c)) = some (l.map (Job.seen c)) :=
    EventLoop.step_map _ hl
  simp only [System.step, ha, if_true, hl', Option.map_some]

theorem view_loop_aside {b : EventLoop.Act T (Job T)}
    (ha : i = j → (s.view i c).allows (b.map (Job.seen c)) = true ∧
      (s.view i c).entered (b.map (Job.seen c)) = (s.view i c).stack)
    (hr : j = none → l.waiting.count (.removeConnectionInLoop c) =
      (s.loops none).waiting.count (.removeConnectionInLoop c))
    (hl : (s.loops j).step b = some l) :
    Reaches System.step (System.Civil strict) (s.view i c) ((s.setLoop j l).view i c) := by
  have hL : l.threadId_ = s.threadId j := EventLoop.threadId_step hl
  by_cases hij : i = j
  · subst hij
    refine .single (a := .loop _) trivial ((view_loop (ha rfl).1 hl).trans ?_)
    rw [setLoop_view_self hL, setLoop_removals hr, (ha rfl).2]
    rfl
  · refine .of_eq ?_
    rw [setLoop_view_of_ne hij hL, setLoop_removals hr]
    rfl

end

theorem view_append {k : Job T} {l : EventLoop T (Job T)} (hk : k.seen c = .foreign 0)
    (hr : k ≠ .removeConnectionInLoop c) (hu : (s.view i c).inUserCode t = true)
    (hl : (s.loops j).step (.append t k) = some l) :
    Reaches System.step (System.Civil strict) (s.view i c) ((s.setLoop j l).view i c) := by
  refine view_loop_aside (fun _ ↦ ⟨?_, rfl⟩) ?_ hl
  · simp [EventLoop.Act.map, System.allows, hu, hk, Functor.isForeign]
  · intro hj
    subst hj
    obtain ⟨-, rfl⟩ := EventLoop.step_append.mp hl
    simp [EventLoop.waiting, EventLoop.queueInLoop, hr]

omit [DecidableEq T] in
theorem Belongs.of_kept (hk : Kept s u) (h : u.Belongs i c) : s.Belongs i c := by
  obtain ⟨hi, hg⟩ := h
  refine ⟨?_, ?_⟩
  · rwa [indices, ← hk.numThreads]
  · intro hc
    rw [← hk.getLoop c hc]
    exact hg (Nat.lt_of_lt_of_le hc hk.accepted)

section

variable {f : Frame T} {fs : List (Activity T)} {o : Outcome T} {io : Reply}

theorem Enqueues.removals (h : Enqueues s t c o u) :
    (u.loops none).waiting.count (.removeConnectionInLoop c) =
      (s.loops none).waiting.count (.removeConnectionInLoop c) +
        if o.queued = none ∧ o.posted = true then 1 else 0 := by
  cases h with
  | nothing hq hp => simp [hp]
  | @queued f l hq hl =>
    rw [if_neg (by simp [hq]), Nat.add_zero]
    apply setLoop_removals
    intro hj
    rw [hj] at hl
    obtain ⟨-, rfl⟩ := EventLoop.step_append.mp hl
    simp [EventLoop.waiting, EventLoop.queueInLoop]
  | @posted l hq hp hl =>
    rw [if_pos ⟨hq, hp⟩]
    obtain ⟨-, rfl⟩ := EventLoop.step_append.mp hl
    simp [EventLoop.waiting, EventLoop.queueInLoop, List.count_append, ← Nat.add_assoc]

theorem commit_view (hu : Enqueues s t c o u) (hq : o.posted = true → o.queued = none) :
    (u.commit t c fs o).view i c =
      (s.view i c).commit t (fs.filterMap (Activity.frame c)) o ((u.loops i).map (Job.seen c)) := by
  obtain ⟨hconn, hmap, hunh, hmem, hst, htr⟩ := hu.untouched
  have hbase : u.base = s.base := congrFun hu.kept.threadId none
  have haccepted : (u.commit t c fs o).map.accepted = s.map.accepted := by
    rw [← hmap]
    simp only [commit]
    split <;> rfl
  have hopen : ((u.commit t c fs o).map.opened c).isSome =
      ((s.map.opened c).isSome && !o.erased) := by
    rw [← hmap]
    simp only [commit]
    split
    · next he => simp [he, ConnectionMap.removeConnectionInLoop]
    · next he => simp [he]
  have hstack : (fun v ↦ ((u.commit t c fs o).stack v).filterMap (Activity.frame c)) =
      Function.update (s.view i c).stack t (o.frames ++ fs.filterMap (Activity.frame c)) := by
    funext v
    simp only [commit, hst]
    by_cases hv : v = t
    · rw [hv, Function.update_self, Function.update_self, List.filterMap_append, filterMap_frame_map]
    · rw [Function.update_of_ne hv, Function.update_of_ne hv]
      rfl
  have hrem : (if o.queued = none ∧ o.posted = true then 1 else 0) = o.posted.toNat := by
    cases hp : o.posted with
    | true => simp [hq hp]
    | false => simp
  have hconn' : (u.commit t c fs o).conn c = o.conn := Function.update_self ..
  have htr' : (u.commit t c fs o).trace c = s.trace c ++ o.obs := by
    rw [← htr]
    exact Function.update_self ..
  simp only [System.commit, ← hstack, ← hrem]
  simp only [view, haccepted, hopen, ← hu.removals, hconn', htr', ← hbase, ← hmem, ← hunh]
  rfl

theorem commit_view_of_ne (hdc : d ≠ c) (hst : u.stack t = .conn d f :: fs) :
    (u.commit t d fs o).view i c = u.view i c := by
  refine view_congr rfl rfl (Function.update_of_ne hdc.symm ..) ?_ ?_ rfl rfl rfl ?_
    (Function.update_of_ne hdc.symm ..)
  · simp only [commit]
    split <;> rfl
  · simp only [commit]
    split
    · simp [ConnectionMap.removeConnectionInLoop, hdc.symm]
    · rfl
  · intro v
    simp only [commit]
    by_cases hv : v = t
    · rw [hv, Function.update_self, List.filterMap_append, filterMap_frame_map_of_ne hdc, hst,
        List.filterMap_cons_none (by simp [Activity.frame, hdc]), List.nil_append]
    · rw [Function.update_of_ne hv]

omit [DecidableEq T] in
theorem exec_posted {e : Site T} {k : TcpConnection} (h : (f.exec e k io).posted = true) :
    f = .closeCallback ∧ e.inBase = false := by
  cases f with
  | closeCallback => exact ⟨rfl, by simpa [Frame.exec] using h⟩
  | functor cb =>
    cases cb <;> simp only [Frame.exec, Frame.execFunctor] at h
    case sendInLoop => split at h <;> simp at h
    all_goals simp at h
  | send data len =>
    simp only [Frame.exec] at h
    split at h <;> simp at h
  | _ => simp [Frame.exec] at h

theorem view_frame (hb : s.Belongs i c) (hcf : (s.view i c).Confined)
    (hc : c < s.map.accepted) (hst : s.stack t = .conn c f :: fs) (ho : s.owes t = false)
    (hio : f.Accepts (s.site c t) (s.conn c) io)
    (hu : Enqueues s t c (f.exec (s.site c t) (s.conn c) io) u) (hG : s.Civil strict (.exec t io)) :
    Reaches System.step (System.Civil strict) (s.view i c)
      ((u.commit t c fs (f.exec (s.site c t) (s.conn c) io)).view i c) := by
  have hi := hb.2 hc
  have hst' : (s.view i c).stack t = f :: fs.filterMap (Activity.frame c) := by
    have hf : (Activity.conn c f).frame c = some f := by simp [Activity.frame]
    simp only [view, hst, List.filterMap_cons_some hf]
  have howes : (s.view i c).loop.owes t = false := owes_eq_false.mp ho i hb.1
  have hqueue : (s.view i c).enqueue t (f.exec (s.site c t) (s.conn c) io).queued =
      some ((u.loops i).map (Job.seen c)) := by
    cases hu with
    | nothing hq hp => simp [System.enqueue, hq, view]
    | @queued cb l hq hl =>
      rw [hq, hi, setLoop_self]
      rw [hi] at hl
      have hmap := EventLoop.step_map (Job.seen c) hl
      simp only [EventLoop.Act.map, Job.seen, if_true] at hmap
      exact hmap
    | @posted l hq hp hl =>
      obtain ⟨rfl, hbase⟩ := exec_posted hp
      have hL : t = s.threadId i := hcf.of_not_roams (f := .closeCallback) (by simp [hst']) rfl
      have hne : i ≠ none := by
        rintro rfl
        simp [site, base, hL] at hbase
      rw [hq, setLoop_of_ne hne]
      rfl
  refine .single (a := .exec t io) ?_ ?_
  · intro hstrict hhead
    refine hG hstrict c ?_
    rw [hst'] at hhead
    rw [hst]
    simpa using hhead
  · rw [commit_view hu fun hp ↦ by rw [(exec_posted hp).1]; rfl]
    simp only [System.step, hst', site_view hi]
    have hguard : (s.view i c).loop.owes t = false ∧
        f.Accepts (s.site c t) (s.view i c).conn io := ⟨howes, hio⟩
    rw [if_pos hguard]
    exact (congrArg (Option.map _) hqueue).trans rfl

theorem view_frame_of_ne (hs : s.Sound) (hi : i ∈ s.indices) (hdc : d ≠ c)
    (hst : s.stack t = .conn d f :: fs) (ho : s.owes t = false) (hu : Enqueues s t d o u) :
    Reaches System.step (System.Civil strict) (s.view i c) ((u.commit t d fs o).view i c) := by
  have hst' : u.stack t = .conn d f :: fs := by rw [hu.untouched.2.2.2.2.1, hst]
  rw [commit_view_of_ne hdc hst']
  have huser := hs.view_of_frame (c := c) hi hst ho (by simp [Activity.frame, hdc])
  cases hu with
  | nothing => exact .refl _
  | queued hq hl => exact view_append (by simp [Job.seen, hdc]) (by simp) huser hl
  | posted hq hp hl => exact view_append rfl (by simpa using hdc) huser hl

end

theorem view_accept (hs : s.Sound) {fs : List (Activity T)} (hst : s.stack t = .newConnection :: fs)
    (ho : s.owes t = false) (ht : t = s.base)
    (hb : (s.accept.setStack t
      (s.accept.runInLoop t s.map.accepted .connectEstablished :: fs)).Belongs i c) :
    Reaches System.step (System.Civil strict) (s.view i c) ((s.accept.setStack t
      (s.accept.runInLoop t s.map.accepted .connectEstablished :: fs)).view i c) := by
  have hold : (s.view i c).stack t = fs.filterMap (Activity.frame c) := by
    simp only [view, hst, List.filterMap_cons_none (show Activity.newConnection.frame c = none from rfl)]
  by_cases hc : c = s.map.accepted
  · subst hc
    have hi : s.accept.getLoop s.map.accepted = i := hb.2 (Nat.lt_succ_self _)
    have huser : (s.view i s.map.accepted).inUserCode (s.view i s.map.accepted).base = true := by
      have hview := hs.view_of_frame (c := s.map.accepted) hb.1 hst ho rfl
      rwa [ht] at hview
    have hsite : s.accept.site s.map.accepted t = (s.view i s.map.accepted).site t :=
      (site_view hi).symm
    have hframe : (s.accept.runInLoop t s.map.accepted .connectEstablished).frame s.map.accepted =
        some (.runInLoop ((s.view i s.map.accepted).site t) .connectEstablished) := by
      rw [← hsite]
      simp [runInLoop, Activity.frame]
    have hview : s.accept.view i s.map.accepted =
        { s.view i s.map.accepted with created := true, connections_ := true } := by
      have hcreated : decide (s.map.accepted < s.accept.map.accepted) = true := by
        simp [accept, ConnectionMap.newConnection]
      have hopened : (s.accept.map.opened s.map.accepted).isSome = true := by
        simp [accept, ConnectionMap.newConnection]
      simp only [view, hcreated, hopened]
      rfl
    have hcreated : (s.view i s.map.accepted).created = false := by simp [view]
    refine .single (a := .newConnection) trivial ?_
    rw [setStack_view_self, List.filterMap_cons_some hframe, ← hold, hview, ht]
    simp only [System.step, huser, hcreated, Bool.not_false, Bool.and_true, if_true, System.push]
    rfl
  · refine .of_eq ?_
    have hframe : (s.accept.runInLoop t s.map.accepted .connectEstablished).frame c = none := by
      simp [runInLoop, Activity.frame, Ne.symm hc]
    rw [setStack_view]
    · refine Eq.symm (view_congr rfl rfl rfl ?_ ?_ rfl rfl rfl (fun _ ↦ rfl) rfl)
      · simp only [accept, ConnectionMap.newConnection]
        omega
      · simp [accept, ConnectionMap.newConnection, hc]
    · rw [List.filterMap_cons_none hframe]
      exact hold.symm

theorem view_send (hs : s.Sound) (hi : i ∈ s.indices) (hu : s.inUserCode t = true) {data len : ℕ} :
    Reaches System.step (System.Civil strict) (s.view i c)
      ((s.push t (.conn d (.send data len))).view i c) := by
  by_cases hdc : d = c
  · subst hdc
    refine .single (a := .send t data len) trivial ?_
    rw [push_view]
    simp [System.step, hs.view_of_inUserCode hi hu]
  · rw [push_view_of_ne (by simp [Activity.frame, hdc])]
    exact .refl _

theorem view_shutdown (hs : s.Sound) (hi : i ∈ s.indices) (hu : s.inUserCode t = true) :
    Reaches System.step (System.Civil strict) (s.view i c)
      (({ s.push t (.conn d .shutdown) with
        trace := Function.update s.trace d (s.trace d ++ [.shutdownCalled t]) } :
          Reactors T).view i c) := by
  by_cases hdc : d = c
  · subst hdc
    refine .single (a := .shutdown t) trivial ?_
    simp only [System.step, hs.view_of_inUserCode hi hu, if_true]
    rw [← push_view]
    simp only [System.observe, view, push, Function.update_self]
    rfl
  · refine .of_eq ?_
    rw [← push_view_of_ne (t := t) (f := .conn d .shutdown) (by simp [Activity.frame, hdc])]
    exact Eq.symm (view_congr rfl rfl rfl Iff.rfl rfl rfl rfl rfl (fun _ ↦ rfl)
      (Function.update_of_ne (Ne.symm hdc) ..))

theorem view_assign (hs : s.Sound) (hi : i ∈ s.indices) (hu : s.inUserCode t = true) {data : ℕ}
    {bytes : List Byte} : Reaches System.step (System.Civil strict) (s.view i c)
      (({ s with mem := Function.update s.mem t (System.assignCells (s.mem t) data bytes) } :
        Reactors T).view i c) := by
  refine .single (a := .assign t data bytes) trivial ?_
  simp only [System.step, hs.view_of_inUserCode hi hu, if_true]
  rfl

theorem view_retrieve (hb : s.Belongs i c) (hcf : (s.view i c).Confined)
    {fs : List (Activity T)} (ho : s.owes t = false) (hst : s.stack t = .conn d .userCode :: fs)
    {len : ℕ} : Reaches System.step (System.Civil strict) (s.view i c)
      (({ s with
        conn := Function.update s.conn d
          { s.conn d with inputBuffer_ := (s.conn d).inputBuffer_.retrieve len } } :
            Reactors T).view i c) := by
  by_cases hdc : d = c
  · subst hdc
    have hf : (Activity.conn d (.userCode : Frame T)).frame d = some .userCode := by
      simp [Activity.frame]
    have hst' : (s.view i d).stack t = .userCode :: fs.filterMap (Activity.frame d) := by
      simp only [view, hst, List.filterMap_cons_some hf]
    have hL : t = (s.view i d).loop.threadId_ := hcf.of_not_roams (f := .userCode) (by simp [hst']) rfl
    have howes : (s.view i d).loop.owes t = false := owes_eq_false.mp ho i hb.1
    refine .single (a := .retrieve len) trivial ?_
    have huser : (s.view i d).inUserCode (s.view i d).loop.threadId_ = true := by
      rw [← hL]
      simp [System.inUserCode, howes, hst']
    simp only [System.step, huser, if_true]
    simp only [view, Function.update_self]
    rfl
  · exact .of_eq (Eq.symm (view_congr rfl rfl (Function.update_of_ne (Ne.symm hdc) ..) Iff.rfl rfl rfl
      rfl rfl (fun _ ↦ rfl) rfl))

omit [DecidableEq T] in
theorem mem_of_lookup {es : List (Source × BitVec 32)} {k : Source} {r : BitVec 32}
    (h : es.lookup k = some r) : (k, r) ∈ es := by
  obtain ⟨x, y, rfl, -⟩ := List.lookup_eq_some_iff.mp h
  simp

theorem fill_view_self {active : List (Source × BitVec 32)} :
    (s.fill i active).view i c = { s.view i c with ready := active.lookup (.conn c) } := by
  have hunhandled : (s.fill i active).unhandled i = active := by simp [unhandled, fill]
  simp only [view, hunhandled]
  rfl

theorem fill_view_of_ne (hij : i ≠ j) {active : List (Source × BitVec 32)} :
    (s.fill j active).view i c = s.view i c := by
  have hunhandled : (s.fill j active).unhandled i = s.unhandled i := by simp [unhandled, fill, hij]
  simp only [view, hunhandled]
  rfl

theorem view_poll {woken : Bool} {active : List (Source × BitVec 32)} {l : EventLoop T (Job T)}
    (hr : ∀ e ∈ active, s.reports j e.1 = true) (hl : (s.loops j).step (.pollReturn woken) = some l)
    (hG : s.Civil strict (.poll j woken active)) :
    Reaches System.step (System.Civil strict) (s.view i c)
      (((s.fill j active).setLoop j l).view i c) := by
  have hL : l.threadId_ = (s.fill j active).threadId j := EventLoop.threadId_step hl
  have hrem : j = none → l.waiting.count (.removeConnectionInLoop c) =
      ((s.fill j active).loops none).waiting.count (.removeConnectionInLoop c) := by
    intro hj
    subst hj
    obtain ⟨-, rfl⟩ := EventLoop.step_pollReturn.mp hl
    rfl
  by_cases hij : i = j
  · subst hij
    refine .single (a := .poll woken (active.lookup (.conn c))) ?_ ?_
    · intro hstrict r hr
      exact hG hstrict _ (mem_of_lookup hr)
    · have hguard : ((active.lookup (.conn c)).isNone || (s.view i c).conn.reg.isRegistered) = true := by
        cases hlook : active.lookup (.conn c) with
        | none => rfl
        | some r =>
          have hreports := hr _ (mem_of_lookup hlook)
          simp only [reports, Bool.and_eq_true] at hreports
          exact hreports.2
      have hl' : (s.view i c).loop.step (.pollReturn woken) = some (l.map (Job.seen c)) :=
        EventLoop.step_map (Job.seen c) hl
      simp only [System.step, hguard, if_true, hl', Option.map_some]
      rw [setLoop_view_self hL, setLoop_removals hrem, fill_view_self]
      rfl
  · refine .of_eq ?_
    rw [setLoop_view_of_ne hij hL, setLoop_removals hrem, fill_view_of_ne hij]
    rfl

omit [DecidableEq T] in
theorem unhandled_advance_self {e : Source × BitVec 32} {es : List (Source × BitVec 32)}
    (he : s.unhandled j = e :: es) : (s.advance j).unhandled j = es := by
  simp only [unhandled, advance, Function.update_self, ← List.drop_drop]
  change (s.unhandled j).drop 1 = es
  rw [he]
  rfl

theorem advance_view (ready : Option (BitVec 32))
    (hr : ((s.advance j).unhandled i).lookup (.conn c) = ready) :
    (s.advance j).view i c = { s.view i c with ready := ready } := by
  rw [← hr]
  rfl

theorem advance_view_of_ne {k : Source} (hk : k ≠ .conn c) {r : BitVec 32}
    {es : List (Source × BitVec 32)} (he : s.unhandled j = (k, r) :: es) :
    (s.advance j).view i c = s.view i c := by
  refine advance_view _ ?_
  by_cases hij : i = j
  · subst hij
    have hskip : (s.unhandled i).lookup (.conn c) = es.lookup (.conn c) := by
      have hbeq : (Source.conn c == k) = false := by simpa using Ne.symm hk
      rw [he, List.lookup_cons, hbeq]
    rw [unhandled_advance_self he, ← hskip]
  · simp only [unhandled, advance, Function.update_of_ne hij]

theorem view_handle (hs : s.Sound) (hb : s.Belongs i c) {revents : BitVec 32}
    {es : List (Source × BitVec 32)} {woken : Bool} (he : s.unhandled j = (.conn d, revents) :: es)
    (hstage : (s.loops j).stage = .handling woken) (hu : s.unoccupied j = true) :
    Reaches System.step (System.Civil strict) (s.view i c)
      (((s.advance j).push (s.threadId j) (.conn d (.handleEvent revents))).view i c) := by
  obtain ⟨ho, hst⟩ := unoccupied_iff.mp hu
  by_cases hdc : d = c
  · subst hdc
    obtain ⟨hlt, hg⟩ := hs.listed j (.conn d, revents) (by simp [he])
    obtain rfl : i = j := (hb.2 hlt).symm.trans hg
    have hnone : ((s.advance i).unhandled i).lookup (.conn d) = none := by
      rw [unhandled_advance_self he, List.lookup_eq_none_iff]
      intro e hmem
      have hdist := hs.distinct i
      rw [he, List.map_cons, List.nodup_cons] at hdist
      rw [bne_iff_ne]
      intro heq
      apply hdist.1
      change Source.conn d ∈ es.map Prod.fst
      rw [heq]
      exact List.mem_map_of_mem hmem
    have hready : (s.view i d).ready = some revents := by simp [view, he]
    have hstack : (s.view i d).stack (s.view i d).loop.threadId_ = [] := by
      change (s.stack (s.threadId i)).filterMap (Activity.frame d) = []
      rw [hst]
      rfl
    have hhandling : (s.view i d).loop.stage = .handling woken := hstage
    have huser : (s.view i d).inUserCode (s.view i d).loop.threadId_ = true := by
      have howes : (s.view i d).loop.owes (s.view i d).loop.threadId_ = false :=
        owes_eq_false.mp ho i hb.1
      simp [System.inUserCode, howes, hstack, hhandling, Stage.userCode]
    refine .single (a := .handleEvent) trivial ?_
    simp only [System.step, hready, hhandling, huser, hstack]
    rw [push_view, advance_view none hnone]
    rfl
  · refine .of_eq ?_
    rw [push_view_of_ne (by simp [Activity.frame, hdc]), advance_view_of_ne (by simpa using hdc) he]

theorem view_handleAccept {revents : BitVec 32} {es : List (Source × BitVec 32)}
    (he : s.unhandled j = (.acceptor, revents) :: es) (hu : s.unoccupied j = true)
    {fs : List (Activity T)} (hfs : fs = [] ∨ fs = [.newConnection]) :
    ((s.advance j).setStack (s.threadId j) fs).view i c = s.view i c := by
  have hframes : fs.filterMap (Activity.frame c) =
      ((s.advance j).stack (s.threadId j)).filterMap (Activity.frame c) := by
    change _ = (s.stack (s.threadId j)).filterMap (Activity.frame c)
    rw [(unoccupied_iff.mp hu).2]
    rcases hfs with rfl | rfl <;> rfl
  rw [setStack_view hframes, advance_view_of_ne (by simp) he]

theorem fill_nil_view (h : s.unhandled j = []) : (s.fill j []).view i c = s.view i c := by
  by_cases hij : i = j
  · subst hij
    rw [fill_view_self]
    simp only [view, h]
  · exact fill_view_of_ne hij

theorem beside_view (hs : s.Sound) {b : EventLoop.Act T (Job T)} {l : EventLoop T (Job T)}
    (hl : (s.loops j).step b = some l) (hb : ∀ k, b ≠ .beginFunctor k) :
    (s.beside j b).view i c = s.view i c := by
  cases b with
  | testQuit =>
    obtain ⟨⟨hstage, -⟩, -⟩ := EventLoop.step_testQuit.mp hl
    have hnil : s.unhandled j = [] := by
      by_contra hne
      obtain ⟨woken, hw⟩ := hs.handling j hne
      simp [hstage] at hw
    simp only [beside]
    split
    · rfl
    · exact fill_nil_view hnil
  | beginFunctor k => exact absurd rfl (hb k)
  | _ => rfl

theorem view_looped (hs : s.Sound) (hb : s.Belongs i c) {b : EventLoop.Act T (Job T)}
    {l : EventLoop T (Job T)} (ha : s.allows j b = true) (hl : (s.loops j).step b = some l)
    (hbegin : ∀ k, b ≠ .beginFunctor k) : Reaches System.step (System.Civil strict) (s.view i c)
      (((s.beside j b).setLoop j l).view i c) := by
  have hv := beside_view (i := i) (c := c) hs hl hbegin
  have hloops : (s.beside j b).loops = s.loops := (s.beside_kept j b).2
  have hl' : ((s.beside j b).loops j).step b = some l := by rwa [hloops]
  have hown : s.unoccupied j = true → i = j →
      (s.view i c).stack (s.view i c).loop.threadId_ = [] := by
    intro hu hij
    subst hij
    change (s.stack (s.threadId i)).filterMap (Activity.frame c) = []
    rw [(unoccupied_iff.mp hu).2]
    rfl
  rw [← hv]
  refine view_loop_aside ?_ ?_ hl'
  · intro hij
    rw [hv]
    cases b with
    | append t k =>
      simp only [allows, Bool.and_eq_true] at ha
      refine ⟨?_, rfl⟩
      have hu := hs.view_of_inUserCode (c := c) hb.1 ha.1.1
      cases k with
      | foreign k => simp [EventLoop.Act.map, System.allows, hu, Job.seen, Functor.isForeign]
      | _ => simp [Job.isForeign] at ha
    | storeQuit t =>
      simp only [allows, Bool.and_eq_true] at ha
      exact ⟨hs.view_of_inUserCode hb.1 ha.2, rfl⟩
    | wakeup t => exact ⟨rfl, rfl⟩
    | pollReturn woken => simp [allows] at ha
    | beginFunctor k => exact absurd rfl (hbegin k)
    | beginCalling =>
      simp only [allows, Bool.and_eq_true, List.isEmpty_iff] at ha
      refine ⟨?_, rfl⟩
      subst hij
      have hready : (s.view i c).ready = none := by simp [view, ha.2]
      simp [EventLoop.Act.map, System.allows, hready, hown ha.1 rfl]
    | _ =>
      refine ⟨?_, rfl⟩
      simp [EventLoop.Act.map, System.allows, hown ha hij]
  · intro hj
    subst hj
    rw [hloops]
    rcases EventLoop.step_waiting (hs.control none) hl with ⟨t, k, rfl, hw⟩ | ⟨k, rfl, -⟩ | ⟨-, hw⟩
    · simp only [allows, Bool.and_eq_true] at ha
      cases k with
      | foreign k => simp [hw]
      | _ => simp [Job.isForeign] at ha
    · exact absurd rfl (hbegin k)
    · rw [hw]

theorem view_begin (hs : s.Sound) (hb : s.Belongs i c) (hj : j ∈ s.indices) {k : Job T}
    {l : EventLoop T (Job T)} (ha : s.unoccupied j = true)
    (hl : (s.loops j).step (.beginFunctor k) = some l) :
    Reaches System.step (System.Civil strict) (s.view i c)
      (((s.setStack (s.threadId j) [k.activity]).setLoop j l).view i c) := by
  obtain ⟨ho, hst⟩ := unoccupied_iff.mp ha
  have hL : l.threadId_ = (s.setStack (s.threadId j) [k.activity]).threadId j :=
    EventLoop.threadId_step hl
  have hwait : (s.loops j).waiting = k :: l.waiting := by
    rcases EventLoop.step_waiting (hs.control j) hl with ⟨t, cb, h, -⟩ | ⟨cb, h, hw⟩ | ⟨h, -⟩
    · simp at h
    · obtain rfl := EventLoop.Act.beginFunctor.inj h
      exact hw
    · simp [EventLoop.Act.onQueue] at h
  have hroutes := hs.queued j k (by simp [hwait])
  have hmap := EventLoop.step_map (Job.seen c) hl
  have hrem : k ≠ .removeConnectionInLoop c → j = none →
      l.waiting.count (.removeConnectionInLoop c) =
        ((s.setStack (s.threadId j) [k.activity]).loops none).waiting.count (.removeConnectionInLoop c) := by
    intro hk hjn
    subst hjn
    change _ = (s.loops none).waiting.count _
    simp [hwait, hk]
  have hempty : i = j → (s.view i c).stack (s.view i c).loop.threadId_ = [] := by
    intro hij
    subst hij
    change (s.stack (s.threadId i)).filterMap (Activity.frame c) = []
    rw [hst]
    rfl
  have hforeign : i = j → k.seen c = .foreign 0 →
      Reaches System.step (System.Civil strict) (s.view i c)
        { s.view i c with loop := l.map (Job.seen c) } := by
    intro hij hk
    subst hij
    rw [EventLoop.Act.map, hk] at hmap
    exact System.begin_foreign (hempty rfl) hmap
  have haside : k.seen c = .foreign 0 → k.activity.frame c = none → k ≠ .removeConnectionInLoop c →
      Reaches System.step (System.Civil strict) (s.view i c)
        (((s.setStack (s.threadId j) [k.activity]).setLoop j l).view i c) := by
    intro hseen hf hk
    have hview : (s.setStack (s.threadId j) [k.activity]).view i c = s.view i c := by
      apply setStack_view
      rw [hst, List.filterMap_cons_none hf]
    by_cases hij : i = j
    · have hreach := hforeign hij hseen
      subst hij
      rw [setLoop_view_self hL, setLoop_removals (hrem hk), hview]
      exact hreach
    · refine .of_eq ?_
      rw [setLoop_view_of_ne hij hL, setLoop_removals (hrem hk), hview]
      rfl
  cases k with
  | foreign n => exact haside rfl rfl (by simp)
  | conn d f =>
    by_cases hdc : d = c
    · subst hdc
      obtain rfl : i = j := (hb.2 hroutes.1).symm.trans hroutes.2
      have hf : (Job.activity (.conn d f)).frame d = some (.functor f) := by
        simp [Job.activity, Activity.frame]
      have hallow : (s.view i d).allows ((EventLoop.Act.beginFunctor (.conn d f)).map (Job.seen d)) =
          true := by simp [EventLoop.Act.map, System.allows, hempty rfl]
      refine .single (a := .loop _) trivial ((view_loop hallow hl).trans ?_)
      rw [setLoop_view_self hL, setLoop_removals (hrem (by simp)), setStack_view_self,
        List.filterMap_cons_some hf]
      simp only [EventLoop.Act.map, Job.seen, if_true]
      rfl
    · exact haside (by simp [Job.seen, hdc]) (by simp [Job.activity, Activity.frame, hdc]) (by simp)
  | removeConnectionInLoop d =>
    by_cases hdc : d = c
    · -- the server's thread turns to the connection
      subst hdc
      obtain ⟨-, rfl⟩ := hroutes
      have hpush : s.setStack (s.threadId none) [Job.activity (.removeConnectionInLoop d)] =
          s.push (s.threadId none) (.conn d .removeConnectionInLoop) := by
        rw [push, hst]
        rfl
      have hcount : (s.view i d).removals = l.waiting.count (.removeConnectionInLoop d) + 1 := by
        simp [view, hwait]
      have hstack : (s.view i d).stack (s.view i d).base = [] := by
        change (s.stack (s.threadId none)).filterMap (Activity.frame d) = []
        rw [hst]
        rfl
      have huser : ∀ m : EventLoop T (Functor T), m.owes (s.view i d).base = false →
          ((s.view i d).base = m.threadId_ → m.stage.userCode = true) →
          System.inUserCode { s.view i d with loop := m } (s.view i d).base = true := by
        intro m howes hstage
        simp only [System.inUserCode, howes, hstack, Bool.not_false, Bool.true_and, Bool.or_eq_true,
          decide_eq_true_eq]
        by_cases hm : (s.view i d).base = m.threadId_
        · exact Or.inr (hstage hm)
        · exact Or.inl hm
      obtain ⟨⟨⟨-, hown⟩, -⟩, rfl⟩ := EventLoop.step_beginFunctor.mp hl
      rw [hpush] at hL ⊢
      by_cases hi : i = none
      · subst hi
        refine (hforeign rfl rfl).trans (.single (a := .removeConnectionInLoop) trivial ?_)
        rw [setLoop_view_self hL, push_view, setLoop_self]
        exact System.step_removal hcount (huser _ hown fun _ ↦ rfl)
      · have hne := huser ((s.loops i).map (Job.seen d)) (owes_eq_false.mp ho i hb.1) (by
          intro heq
          exact absurd (hs.threads none hj i hb.1 heq).symm hi)
        refine .single (a := .removeConnectionInLoop) trivial ?_
        rw [setLoop_view_of_ne hi hL, push_view, setLoop_self]
        exact System.step_removal hcount hne
    · exact haside rfl (by simp [Job.activity, Activity.frame, hdc]) (by simpa using hdc)

end Reactors

end Mymuduo
