import Mymuduo.Balance
import Mymuduo.EventLoopThread

namespace Mymuduo

open Foundation.Machine

variable {T : Type}

/-- The loop thread tests `quit_` before it swaps its queue out again: it is in its batch, at the
test that ends the round, or at the first test of `loop()`. -/
def Stage.testsFirst : Stage → Bool
  | .running _ | .testing => true
  | _ => false

namespace EventLoop

variable {F : Type} {l m : EventLoop T F} {a : Act T F} {P : F → Prop}

def Drained (P : F → Prop) (l : EventLoop T F) : Prop :=
  l.stage = .stopped ∨ l.quit_ = true ∧ l.stage.testsFirst = true → ∀ f ∈ l.pendingFunctors_, ¬ P f

variable [DecidableEq T] [DecidableEq F]

theorem step_unquit (hq : l.quit_ = false) (hs : l.stage ≠ .stopped) (ha : ∀ t, a ≠ .storeQuit t)
    (h : l.step a = some m) : m.quit_ = false ∧ m.stage ≠ .stopped := by
  refine ⟨?_, ?_⟩
  · rcases EventLoopThread.quit_step h with ⟨t, rfl, -⟩ | ⟨rfl, -⟩ | hm
    · exact absurd rfl (ha t)
    · obtain ⟨-, rfl⟩ := step_clearQuit.mp h
      rfl
    · rw [hm, hq]
  · cases a with
    | append t cb => obtain ⟨-, rfl⟩ := step_append.mp h; exact hs
    | storeQuit t => exact absurd rfl (ha t)
    | wakeup t => obtain ⟨-, rfl⟩ := step_wakeup.mp h; exact hs
    | testQuit =>
      obtain ⟨-, ⟨hquit, -⟩ | ⟨-, rfl⟩⟩ := step_testQuit.mp h
      · simp [hq] at hquit
      · simp
    | enter => obtain ⟨-, rfl⟩ := step_enter.mp h; simp
    | clearQuit => obtain ⟨-, rfl⟩ := step_clearQuit.mp h; simp
    | pollReturn woken => obtain ⟨-, rfl⟩ := step_pollReturn.mp h; simp
    | handleRead => obtain ⟨-, rfl⟩ := step_handleRead.mp h; simp
    | beginCalling => obtain ⟨-, rfl⟩ := step_beginCalling.mp h; simp
    | swap => obtain ⟨-, rfl⟩ := step_swap.mp h; simp
    | beginFunctor cb => obtain ⟨-, rfl⟩ := step_beginFunctor.mp h; simp
    | endFunctor => obtain ⟨-, rfl⟩ := step_endFunctor.mp h; simp
    | endCalling => obtain ⟨-, rfl⟩ := step_endCalling.mp h; simp

theorem Drained.step (hd : l.Drained P) (hc : l.Control) (h : l.step a = some m)
    (happ : ∀ t f, a = .append t f → P f → l.quit_ = false ∧ l.stage ≠ .stopped)
    (hquit : ∀ t, a = .storeQuit t → l.stage.testsFirst = true → ∀ f ∈ l.pendingFunctors_, ¬ P f) :
    m.Drained P := by
  cases a with
  | append t cb =>
    obtain ⟨-, rfl⟩ := step_append.mp h
    intro hst f hf hp
    rcases List.mem_append.mp hf with hf | hf
    · exact hd hst f hf hp
    · obtain rfl := List.mem_singleton.mp hf
      obtain ⟨hq, hs⟩ := happ t f rfl hp
      rcases hst with hst | ⟨hst, -⟩
      · exact hs hst
      · simp [queueInLoop, hq] at hst
  | storeQuit t =>
    obtain ⟨-, rfl⟩ := step_storeQuit.mp h
    rintro (hst | ⟨-, hst⟩)
    · exact hd (Or.inl hst)
    · exact hquit t rfl hst
  | wakeup t => obtain ⟨-, rfl⟩ := step_wakeup.mp h; exact hd
  | testQuit =>
    obtain ⟨⟨hs, -⟩, ⟨hq, rfl⟩ | ⟨-, rfl⟩⟩ := step_testQuit.mp h
    · exact fun _ ↦ hd (Or.inr ⟨hq, by rw [hs]; rfl⟩)
    · simp [Drained, Stage.testsFirst]
  | swap =>
    obtain ⟨⟨hs, -⟩, rfl⟩ := step_swap.mp h
    simp [Drained, hc.vector_eq_nil hs]
  | beginFunctor cb =>
    obtain ⟨⟨⟨hs, -⟩, -⟩, rfl⟩ := step_beginFunctor.mp h
    simp_all [Drained, Stage.testsFirst]
  | endFunctor =>
    obtain ⟨⟨hs, -⟩, rfl⟩ := step_endFunctor.mp h
    simp_all [Drained, Stage.testsFirst]
  | endCalling =>
    obtain ⟨⟨⟨hs, -⟩, -⟩, rfl⟩ := step_endCalling.mp h
    simp_all [Drained, Stage.testsFirst]
  | enter => obtain ⟨-, rfl⟩ := step_enter.mp h; simp [Drained, Stage.testsFirst]
  | clearQuit => obtain ⟨-, rfl⟩ := step_clearQuit.mp h; simp [Drained]
  | pollReturn woken => obtain ⟨-, rfl⟩ := step_pollReturn.mp h; simp [Drained, Stage.testsFirst]
  | handleRead => obtain ⟨-, rfl⟩ := step_handleRead.mp h; simp [Drained, Stage.testsFirst]
  | beginCalling => obtain ⟨-, rfl⟩ := step_beginCalling.mp h; simp [Drained, Stage.testsFirst]

end EventLoop

namespace Destructor

def items : Destructor → Option (List ℕ)
  | .iterate items | .calling _ items | .leaving _ items => some items
  | _ => none

def conn : Destructor → Option ℕ
  | .calling c _ | .leaving c _ => some c
  | _ => none

def early : Destructor → Bool
  | .thread _ | .joining _ | .done => false
  | _ => true

def joined (n : ℕ) : Destructor → ℕ
  | .thread k | .joining k => k
  | .done => n
  | _ => 0

end Destructor

namespace TcpServer

variable {s s' : TcpServer T} {i : Option ℕ} {a : EventLoop.Act T Task} {l : EventLoop T Task}

structure Phased (s : TcpServer T) : Prop where
  idle : s.destructor = .alive → s.doomed = []
  within : ∀ c ∈ s.left, c ∈ s.watched
  mapped : ∀ items, s.destructor.items = some items → s.connections_.Perm items
  pooled : ∀ c k, s.getLoop c = some k → k < s.numThreads_
  next_lt : s.numThreads_ = 0 ∨ s.next_ < s.numThreads_

theorem Phased.congr (hs : s.Phased) (hd : s'.destructor = s.destructor) (hm : s'.doomed = s.doomed)
    (hc : s'.connections_ = s.connections_) (hg : s'.getLoop = s.getLoop)
    (hn : s'.numThreads_ = s.numThreads_) (hx : s'.next_ = s.next_) : s'.Phased := by
  have hl : s'.left = s.left := by rw [left, left, hd, hc]
  have hw : s'.watched = s.watched := by rw [watched, watched, hd, hc, hm]
  refine ⟨?_, ?_, ?_, ?_, ?_⟩
  · rw [hd, hm]
    exact hs.idle
  · rw [hl, hw]
    exact hs.within
  · rw [hd, hc]
    exact hs.mapped
  · rw [hg, hn]
    exact hs.pooled
  · rw [hn, hx]
    exact hs.next_lt

theorem Phased.of_alive (hd : s.destructor = .alive) (hm : s.doomed = [])
    (hp : ∀ c k, s.getLoop c = some k → k < s.numThreads_)
    (hn : s.numThreads_ = 0 ∨ s.next_ < s.numThreads_) : s.Phased :=
  ⟨fun _ ↦ hm, by simp [left, watched, hd], by simp [hd, Destructor.items], hp, hn⟩

theorem Phased.accepted (hs : s.Phased) (hd : s.destructor = .alive) : s.accepted.Phased := by
  refine .of_alive hd (hs.idle hd) (fun c k hk ↦ ?_) ?_
  · by_cases hc : c = s.nextConnId_
    · have hnext : s.getNextLoop.1 = some k := by
        rw [← hk, hc, accepted_getLoop_self]
      simp only [getNextLoop] at hnext
      split at hnext
      · simp at hnext
      · next hne =>
        obtain rfl := Option.some.inj hnext
        exact hs.next_lt.resolve_left hne
    · exact hs.pooled c k (accepted_getLoop_of_ne hc ▸ hk)
  · simp only [TcpServer.accepted, getNextLoop]
    split
    · next hz => exact Or.inl hz
    · next hne =>
      have hlt := hs.next_lt.resolve_left hne
      right
      dsimp only
      split <;> omega

theorem Phased.erased (hs : s.Phased) (hd : s.destructor = .alive) (hd' : s'.destructor = .alive)
    (hm : s'.doomed = s.doomed) (hg : s'.getLoop = s.getLoop) (hn : s'.numThreads_ = s.numThreads_)
    (hx : s'.next_ = s.next_) : s'.Phased := by
  refine .of_alive hd' (hm.trans (hs.idle hd)) ?_ ?_
  · rw [hg, hn]
    exact hs.pooled
  · rw [hn, hx]
    exact hs.next_lt

/-- The functor destroys a connection that the destructor met. -/
def Condemns (s : TcpServer T) (f : Task) : Prop := ∃ c ∈ s.doomed, f = .connectDestroyed c

/-- No loop of the pool stops before `~TcpServer` tells it to, and none stops on a
`connectDestroyed` that it has to run. -/
structure Quitting (s : TcpServer T) : Prop where
  early : s.destructor.early = true → ∀ k, (s.loops (some k)).quit_ = false ∧
    (s.loops (some k)).stage ≠ .stopped ∧ s.exited k = false
  drained : ∀ k, (s.loops (some k)).Drained s.Condemns
  gone : ∀ k, s.exited k = true → (s.loops (some k)).waiting = []
  joined : ∀ k < s.destructor.joined s.numThreads_, s.exited k = true
  away : ∀ i, ∀ f ∈ (s.loops i).waiting, s.Condemns f → s.threadId i ≠ s.base

theorem Quitting.stay (hs : s.Quitting) (h : s'.loops = s.loops) (hx : s'.exited = s.exited)
    (hm : s'.doomed = s.doomed) (hearly : s'.destructor.early = true → s.destructor.early = true)
    (hjoined : ∀ k < s'.destructor.joined s'.numThreads_, s.exited k = true) : s'.Quitting := by
  have hcond : s'.Condemns = s.Condemns := by
    funext f
    rw [Condemns, Condemns, hm]
  refine ⟨fun he ↦ ?_, ?_, ?_, ?_, ?_⟩
  · rw [h, hx]
    exact hs.early (hearly he)
  · rw [h, hcond]
    exact hs.drained
  · rw [h, hx]
    exact hs.gone
  · rw [hx]
    exact hjoined
  · rw [h, hcond, base, threadId_congr h]
    exact hs.away

theorem Quitting.gone_early (hs : s.Quitting) (he : s.destructor.early = true) : s.gone i = false := by
  cases i with
  | none => rfl
  | some k => exact (hs.early he k).2.2

theorem Quitting.exit (hs : s.Quitting) (hc : ∀ i, (s.loops i).Control) {k : ℕ}
    (hst : (s.loops (some k)).stage = .stopped)
    (h : s'.loops = Function.update s.loops (some k) { s.loops (some k) with pendingFunctors_ := [] })
    (hx : s'.exited = Function.update s.exited k true) (hm : s'.doomed = s.doomed)
    (hd : s'.destructor = s.destructor) (hn : s'.numThreads_ = s.numThreads_) : s'.Quitting := by
  have hcond : s'.Condemns = s.Condemns := by
    funext f
    rw [Condemns, Condemns, hm]
  have hthread : s'.threadId = s.threadId := by
    funext j
    rw [threadId, threadId, h]
    by_cases hj : j = some k
    · rw [hj, Function.update_self]
    · rw [Function.update_of_ne hj]
  have hfunctors : (s.loops (some k)).functors = [] := by
    by_contra hne
    obtain ⟨b, hb⟩ := (hc (some k)).vector hne
    simp [hst] at hb
  refine ⟨fun he ↦ ?_, fun j ↦ ?_, fun j hj ↦ ?_, fun j hj ↦ ?_, fun j f hf hcf ↦ ?_⟩
  · exact absurd hst (hs.early (hd ▸ he) k).2.1
  · rw [h, hcond]
    by_cases hj : j = k
    · rw [hj, Function.update_self]
      simp [EventLoop.Drained]
    · rw [Function.update_of_ne (by simpa using hj)]
      exact hs.drained j
  · rw [h]
    by_cases hjk : j = k
    · rw [hjk, Function.update_self]
      simp [EventLoop.waiting, hfunctors]
    · rw [hx, Function.update_of_ne hjk] at hj
      rw [Function.update_of_ne (by simpa using hjk)]
      exact hs.gone j hj
  · rw [hd, hn] at hj
    rw [hx]
    by_cases hjk : j = k
    · rw [hjk, Function.update_self]
    · rw [Function.update_of_ne hjk]
      exact hs.joined j hj
  · rw [hcond] at hcf
    rw [base, hthread]
    rw [h] at hf
    by_cases hj : j = some k
    · rw [hj, Function.update_self] at hf
      simp [EventLoop.waiting, hfunctors] at hf
    · rw [Function.update_of_ne hj] at hf
      exact hs.away j f hf hcf

theorem Quitting.destroy (hs : s.Quitting) (hb : s.Balanced) (hd : s.destructor = .alive) {items : List ℕ}
    (hp : items.Perm s.connections_) :
    Quitting { s with destructor := .iterate items, doomed := items } := by
  have he : s.destructor.early = true := by rw [hd]; rfl
  have hfree : ∀ i, ∀ f ∈ (s.loops i).waiting, ∀ c ∈ items, f ≠ .connectDestroyed c := by
    rintro i f hf c hc rfl
    have hmem := hp.subset hc
    exact hb.unqueued (by simpa [watched, hd] using hmem) (by simpa [left, hd] using hmem) i hf
  refine ⟨fun _ ↦ hs.early he, fun k ↦ ?_, hs.gone, by simp [Destructor.joined], ?_⟩
  · obtain ⟨hq, hst, -⟩ := hs.early he k
    rintro (hst' | ⟨hq', -⟩)
    · exact absurd hst' hst
    · simp [hq] at hq'
  · rintro i f hf ⟨c, hc, hfc⟩
    exact absurd hfc (hfree i f hf c hc)

/-- The flag of a loop is not set while a `connectDestroyed` waits for a swap before which its
thread tests the flag, at the end of its round or for the first time. -/
def QuitsInTime (s : TcpServer T) : Act T → Prop
  | .destruct =>
    match s.destructor with
    | .thread k => (s.loops (some k)).stage.testsFirst = true →
        ∀ f ∈ (s.loops (some k)).pendingFunctors_, ¬ s.Condemns f
    | _ => True
  | _ => True

theorem Balanced.exit (hs : s.Balanced) (hq : s.Quitting) {k : ℕ}
    (hst : (s.loops (some k)).stage = .stopped) : Balanced { s.setLoop (some k)
      { s.loops (some k) with pendingFunctors_ := [] } with
        exited := Function.update s.exited k true } := by
  have hlate : s.destructor ≠ .alive := by
    intro hd
    exact (hq.early (by rw [hd]; rfl) k).2.1 hst
  have hfunctors : (s.loops (some k)).functors = [] := by
    by_contra hne
    obtain ⟨b, hb⟩ := (hs.control (some k)).vector hne
    simp [hst] at hb
  have hwait : ∀ j, ∀ f ∈ (Function.update s.loops (some k)
      { s.loops (some k) with pendingFunctors_ := [] } j).waiting, f ∈ (s.loops j).waiting := by
    intro j f hf
    by_cases hj : j = some k
    · rw [hj, Function.update_self] at hf
      simp [EventLoop.waiting, hfunctors] at hf
    · rwa [Function.update_of_ne hj] at hf
  have hthread : ∀ j, (Function.update s.loops (some k)
      { s.loops (some k) with pendingFunctors_ := [] } j).threadId_ = s.threadId j := by
    intro j
    by_cases hj : j = some k
    · rw [hj, Function.update_self]
      rfl
    · rw [Function.update_of_ne hj]
      rfl
  refine ⟨fun j ↦ ?_, fun j f hf ↦ hs.named j f (hwait j f hf), fun j c hin ↦
    hs.placed j c (hwait j _ hin), fun c t ht ↦ ?_, hs.known, fun c hc ↦ ?_⟩
  · by_cases hj : j = some k
    · rw [hj]
      simp only [setLoop_loops, Function.update_self]
      exact ⟨(hs.control _).calling, (hs.control _).owing, (hs.control _).vector⟩
    · simp only [setLoop_loops, Function.update_of_ne hj]
      exact hs.control j
  · obtain ⟨hlt, ht'⟩ := hs.home c t ht
    exact ⟨hlt, ht'.trans (hthread _).symm⟩
  · refine Eq.trans ?_ (hs.balance c hc)
    have hdoomed : c ∈ s.doomed := by
      have hw : s.watched = s.doomed := by simp [watched, hlate]
      exact hw ▸ hc
    by_cases hj : s.getLoop c = some k
    · have hold : s.awaiting c = 0 := by
        refine List.count_eq_zero.mpr fun hin ↦ ?_
        rw [hj, EventLoop.waiting, hfunctors, List.nil_append] at hin
        exact hq.drained k (Or.inl hst) _ hin ⟨c, hdoomed, rfl⟩
      have hnew : ((Function.update s.loops (some k) { s.loops (some k) with pendingFunctors_ := [] })
          (s.getLoop c)).waiting.count (.connectDestroyed c) = 0 := by
        rw [hj, Function.update_self]
        simp [EventLoop.waiting, hfunctors]
      rw [hold]
      exact congrArg (fun n ↦ s.left.count c + n + s.calls c) hnew
    · have hsame : ((Function.update s.loops (some k) { s.loops (some k) with pendingFunctors_ := [] })
          (s.getLoop c)).waiting.count (.connectDestroyed c) = s.awaiting c := by
        rw [Function.update_of_ne hj]
        rfl
      exact congrArg (fun n ↦ s.left.count c + n + s.calls c) hsame

structure Kept (s : TcpServer T) : Prop where
  balanced : s.Balanced
  phased : s.Phased
  quitting : s.Quitting

theorem Kept.accepted (hs : s.Kept) (hd : s.destructor = .alive) : s.accepted.Kept :=
  ⟨hs.balanced.accepted hd, hs.phased.accepted hd,
    hs.quitting.stay rfl rfl rfl id hs.quitting.joined⟩

theorem ofThreads_kept (threadId : Option ℕ → T) (numThreads : ℕ) :
    (ofThreads threadId numThreads).Kept := by
  have hwait : ∀ i, ((ofThreads threadId numThreads).loops i).waiting = [] := fun _ ↦ rfl
  refine ⟨⟨fun i ↦ EventLoop.ofThread_control _, fun i f hf ↦ ?_, fun i c hin ↦ ?_, ?_, ?_, ?_⟩,
    .of_alive rfl rfl (by simp [ofThreads]) ?_, ⟨fun _ k ↦ ⟨rfl, ?_, rfl⟩, fun k ↦ ?_, fun k _ ↦ hwait _,
      by simp [ofThreads, Destructor.joined], fun i f hf ↦ ?_⟩⟩
  · simp [hwait] at hf
  · simp [hwait] at hin
  · simp [ofThreads]
  · simp [ofThreads, watched]
  · simp [ofThreads, watched]
  · exact numThreads.eq_zero_or_pos
  · simp [ofThreads, EventLoop.ofThread]
  · simp [EventLoop.Drained, ofThreads, EventLoop.ofThread]
  · simp [hwait] at hf

/-- What the server does keeps connection `c` alive: its map entry, the local of the
destructor, or a `connectDestroyed` in a queue. -/
def Held (s : TcpServer T) (c : ℕ) : Prop :=
  c ∈ s.connections_ ∨ s.destructor.conn = some c ∨ ∃ i, .connectDestroyed c ∈ (s.loops i).waiting

/-- Every connection that `~TcpServer` found in `connections_` runs `connectDestroyed`
once, in the thread of its loop, while it is still held. -/
structure TornDown (s : TcpServer T) : Prop where
  once : ∀ c ∈ s.doomed, s.calls c ≤ 1
  home : ∀ c ∈ s.doomed, ∀ t, (c, t) ∈ s.executed → t = s.threadId (s.getLoop c)
  before : ∀ c ∈ s.doomed, ¬ s.Held c → 0 < s.calls c
  finished : s.destructor = .done → ∀ c ∈ s.doomed, 0 < s.calls c

theorem Kept.held_of_left (hs : s.Kept) {c : ℕ} (hd : s.destructor ≠ .alive) (hc : c ∈ s.left) :
    s.Held c := by
  have hmap : ∀ items, s.destructor.items = some items → c ∈ items → s.Held c := fun items hi hin ↦
    Or.inl ((hs.phased.mapped items hi).mem_iff.mpr hin)
  cases hp : s.destructor with
  | alive => exact absurd hp hd
  | iterate items =>
    rw [left, hp] at hc
    exact hmap items (by rw [hp]; rfl) hc
  | leaving d items =>
    rw [left, hp] at hc
    exact hmap items (by rw [hp]; rfl) hc
  | calling d items =>
    rw [left, hp] at hc
    rcases List.mem_cons.mp hc with rfl | hc
    · exact Or.inr (Or.inl (by rw [hp]; rfl))
    · exact hmap items (by rw [hp]; rfl) hc
  | thread | joining | done => simp [left, hp] at hc

theorem Kept.tornDown (hs : s.Kept) : s.TornDown := by
  have hlate : ∀ c ∈ s.doomed, s.destructor ≠ .alive := by
    intro c hc hd
    simp [hs.phased.idle hd] at hc
  have hbalance : ∀ c ∈ s.doomed, s.left.count c + s.awaiting c + s.calls c = 1 := by
    intro c hc
    exact hs.balanced.balance c (by simpa [watched, hlate c hc] using hc)
  refine ⟨fun c hc ↦ ?_, fun c _ t ht ↦ (hs.balanced.home c t ht).2, fun c hc hheld ↦ ?_,
    fun hd c hc ↦ ?_⟩
  · have hbal := hbalance c hc
    omega
  · have hbal := hbalance c hc
    have hleft : s.left.count c = 0 :=
      List.count_eq_zero.mpr fun hin ↦ hheld (hs.held_of_left (hlate c hc) hin)
    have hwait : s.awaiting c = 0 :=
      List.count_eq_zero.mpr fun hin ↦ hheld (Or.inr (Or.inr ⟨_, hin⟩))
    omega
  · have hbal := hbalance c hc
    have hleft : s.left.count c = 0 := by simp [left, hd]
    have hwait : s.awaiting c = 0 := by
      refine List.count_eq_zero.mpr fun hin ↦ ?_
      have haway := hs.quitting.away _ _ hin ⟨c, hc, rfl⟩
      cases hloop : s.getLoop c with
      | none => exact haway (by rw [hloop]; rfl)
      | some k =>
        have hx : s.exited k = true := by
          apply hs.quitting.joined
          rw [hd]
          exact hs.phased.pooled c k hloop
        rw [hloop, hs.quitting.gone k hx] at hin
        simp at hin
    omega

variable [DecidableEq T]

theorem Phased.removed (hs : s.Phased) {c : ℕ} (hd : s.destructor = .alive) (h : Removed c s s') :
    s'.Phased := by
  obtain ⟨l, hl⟩ := h
  exact hs.erased hd hd rfl rfl rfl rfl

theorem Phased.destructs (hs : s.Phased) (h : Destructs s s') : s'.Phased := by
  obtain ⟨hidle, hwithin, hmapped, hpooled, hnext⟩ := hs
  cases h with
  | next c items hd =>
    have hperm := hmapped (c :: items) (by rw [hd]; rfl)
    refine ⟨by simp, ?_, ?_, hpooled, hnext⟩
    · simpa [left, watched, hd] using hwithin
    · intro xs hxs
      obtain rfl : items = xs := Option.some.inj hxs
      simpa using hperm.erase c
  | call c items hd | queue c items l hd =>
    refine ⟨by simp, ?_, ?_, hpooled, hnext⟩
    · simp_all [left, watched]
    · simpa [hd, Destructor.items] using hmapped
  | leave c items hd =>
    refine ⟨by simp, ?_, ?_, hpooled, hnext⟩
    · simpa [left, watched, hd] using hwithin
    · simpa [hd, Destructor.items] using hmapped
  | threads hd | quit k l hd | finish k hd =>
    exact ⟨by simp, by simp [left], by simp [Destructor.items], hpooled, hnext⟩
  | join k hd => exact ⟨by simp, by simp [left], by simp [Destructor.items], hpooled, hnext⟩

theorem Quitting.move (hs : s.Quitting) (hc : ∀ i, (s.loops i).Control)
    (hl : (s.loops i).step a = some l) (h : s'.loops = Function.update s.loops i l)
    (hx : s'.exited = s.exited) (hm : s'.doomed = s.doomed)
    (hearly : s'.destructor.early = true →
      s.destructor.early = true ∧ ∀ t, a = .storeQuit t → i = none)
    (happ : ∀ t f, a = .append t f → s.Condemns f →
      s.destructor.early = true ∧ s.threadId i ≠ s.base)
    (hquit : ∀ t k, a = .storeQuit t → i = some k → (s.loops (some k)).stage.testsFirst = true →
      ∀ f ∈ (s.loops (some k)).pendingFunctors_, ¬ s.Condemns f)
    (hgone : s.gone i = true → ∃ t, a = .wakeup t)
    (hjoined : ∀ k < s'.destructor.joined s'.numThreads_, s.exited k = true) : s'.Quitting := by
  have hthread := threadId_update hl h
  have hcond : s'.Condemns = s.Condemns := by
    funext f
    rw [Condemns, Condemns, hm]
  refine ⟨fun he k ↦ ?_, fun k ↦ ?_, fun k hk ↦ ?_, fun k hk ↦ ?_, fun j f hf hcf ↦ ?_⟩
  · obtain ⟨he, hne⟩ := hearly he
    obtain ⟨hq, hst, hex⟩ := hs.early he k
    rw [h, hx]
    by_cases hk : some k = i
    · subst hk
      rw [Function.update_self]
      have hkeep := EventLoop.step_unquit hq hst (fun t ht ↦ by simpa using hne t ht) hl
      exact ⟨hkeep.1, hkeep.2, hex⟩
    · rw [Function.update_of_ne hk]
      exact ⟨hq, hst, hex⟩
  · rw [h, hcond]
    by_cases hk : some k = i
    · subst hk
      rw [Function.update_self]
      refine (hs.drained k).step (hc _) hl (fun t f ht hf ↦ ?_) fun t ht ↦ hquit t k ht rfl
      have hkeep := hs.early (happ t f ht hf).1 k
      exact ⟨hkeep.1, hkeep.2.1⟩
    · rw [Function.update_of_ne hk]
      exact hs.drained k
  · rw [hx] at hk
    rw [h]
    by_cases hik : some k = i
    · subst hik
      obtain ⟨t, rfl⟩ := hgone hk
      obtain ⟨-, rfl⟩ := EventLoop.step_wakeup.mp hl
      rw [Function.update_self]
      exact hs.gone k hk
    · rw [Function.update_of_ne hik]
      exact hs.gone k hk
  · rw [hx]
    exact hjoined k hk
  · rw [hcond] at hcf
    rw [base, hthread]
    rw [h] at hf
    by_cases hj : j = i
    · subst hj
      rw [Function.update_self] at hf
      rcases EventLoop.mem_waiting_step (hc j) hl hf with hf | hf
      · exact hs.away j f hf hcf
      · obtain ⟨t, ht⟩ := mem_appended.mp hf
        exact (happ t f ht hcf).2
    · rw [Function.update_of_ne hj] at hf
      exact hs.away j f hf hcf

theorem allows_gone (h : s.allows i a = true) (hg : s.gone i = true) : ∃ t, a = .wakeup t := by
  have hi : i ≠ none := by
    rintro rfl
    simp [gone] at hg
  cases a with
  | wakeup t => exact ⟨t, rfl⟩
  | append t f => cases f <;> simp_all [allows]
  | _ => simp_all [allows]

theorem allows_storeQuit {t : T} (h : s.allows i (.storeQuit t) = true) : i = none := by
  simp only [allows, Bool.and_eq_true, decide_eq_true_eq] at h
  exact h.1.1

theorem Quitting.plain (hs : s.Quitting) (hc : ∀ i, (s.loops i).Control)
    (hl : (s.loops i).step a = some l) (ha : s.allows i a = true) (h : s'.loops = Function.update s.loops i l)
    (hx : s'.exited = s.exited) (hm : s'.doomed = s.doomed) (hd : s'.destructor = s.destructor)
    (hn : s'.numThreads_ = s.numThreads_) : s'.Quitting := by
  refine hs.move hc hl h hx hm (fun he ↦ ⟨hd ▸ he, ?_⟩) ?_ ?_ (allows_gone ha) ?_
  · rintro t rfl
    exact allows_storeQuit ha
  · rintro t f rfl ⟨c, -, rfl⟩
    exact absurd rfl ((allows_append ha).1 c)
  · rintro t k rfl hk
    simp [allows_storeQuit ha] at hk
  · rw [hd, hn]
    exact hs.joined

theorem Quitting.removed (hs : s.Quitting) (hc : ∀ i, (s.loops i).Control) {c : ℕ}
    (hd : s.destructor = .alive) (hm : s.doomed = []) (h : Removed c s s') : s'.Quitting := by
  obtain ⟨l, hl⟩ := h
  have he : s.destructor.early = true := by rw [hd]; rfl
  refine hs.move hc hl rfl rfl rfl (fun _ ↦ ⟨he, by simp⟩) ?_ (by simp) ?_ hs.joined
  · rintro t f - ⟨d, hd, -⟩
    simp [hm] at hd
  · intro hg
    simp [hs.gone_early he] at hg

theorem Quitting.destructs (hs : s.Quitting) (hc : ∀ i, (s.loops i).Control)
    (hG : s.QuitsInTime .destruct) (h : Destructs s s') : s'.Quitting := by
  cases h with
  | next c items hd | call c items hd | leave c items hd =>
    refine hs.stay rfl rfl rfl (fun _ ↦ ?_) (by simp [Destructor.joined])
    rw [hd]
    rfl
  | queue c items l hd hin hl =>
    have he : s.destructor.early = true := by rw [hd]; rfl
    refine hs.move hc hl rfl rfl rfl (fun _ ↦ ⟨he, by simp⟩) (fun _ _ _ _ ↦ ⟨he, hin⟩) (by simp) ?_
      (by simp [Destructor.joined])
    intro hg
    simp [hs.gone_early he] at hg
  | threads hd => exact hs.stay rfl rfl rfl (by simp [Destructor.early]) (by simp [Destructor.joined])
  | quit k l hd hk hx hl =>
    refine hs.move hc hl rfl rfl rfl (by simp [Destructor.early]) (by simp) ?_ ?_ ?_
    · rintro t j - hj
      obtain rfl := Option.some.inj hj
      simpa only [QuitsInTime, hd] using hG
    · intro hg
      simp [TcpServer.gone, hx] at hg
    · have hjoined := hs.joined
      rw [hd] at hjoined
      exact hjoined
  | join k hd hx =>
    refine hs.stay rfl rfl rfl (by simp [Destructor.early]) fun j hj ↦ ?_
    rcases Nat.lt_succ_iff_lt_or_eq.mp hj with hj | rfl
    · apply hs.joined
      rcases hd with hd | hd <;> rwa [hd]
    · exact hx
  | finish k hd hk =>
    refine hs.stay rfl rfl rfl (by simp [Destructor.early]) fun j hj ↦ ?_
    apply hs.joined
    rw [hd]
    exact Nat.lt_of_lt_of_le hj hk

theorem Kept.plain (hs : s.Kept) (hl : (s.loops i).step a = some l) (ha : s.allows i a = true)
    (hrun : ∀ c, a ≠ .beginFunctor (.connectDestroyed c)) : (s.setLoop i l).Kept := by
  obtain ⟨hb, hp, hq⟩ := hs
  refine ⟨hb.plain hl ?_ ?_ hrun, hp.congr rfl rfl rfl rfl rfl rfl,
    hq.plain hb.control hl ha rfl rfl rfl rfl rfl⟩
  · rintro t f rfl
    exact (allows_append ha).2
  · rintro t c rfl
    exact (allows_append ha).1 c rfl

theorem Kept.removed (hs : s.Kept) {c : ℕ} (hd : s.destructor = .alive) (hc : c < s.nextConnId_)
    (h : Removed c s s') : s'.Kept :=
  ⟨hs.balanced.removed hd hc h, hs.phased.removed hd h,
    hs.quitting.removed hs.balanced.control hd (hs.phased.idle hd) h⟩

theorem Kept.run (hs : s.Kept) {c : ℕ} (ha : s.allows i (.beginFunctor (.connectDestroyed c)) = true)
    (hl : (s.loops i).step (.beginFunctor (.connectDestroyed c)) = some l) :
    Kept { s.setLoop i l with executed := s.executed ++ [(c, s.threadId i)] } := by
  obtain ⟨hb, hp, hq⟩ := hs
  refine ⟨hb.move hl rfl rfl rfl (by simp [EventLoop.appended]) (by simp [EventLoop.appended]) rfl ?_,
    hp.congr rfl rfl rfl rfl rfl rfl, hq.plain hb.control hl ha rfl rfl rfl rfl rfl⟩
  exact fun d hd ↦ ⟨hd, rfl⟩

theorem Kept.queued (hs : s.Kept) (hd : s.destructor = .alive) {c : ℕ} (hc : c < s.nextConnId_)
    (hl : (s.loops i).step (.append s.base (.connectEstablished c)) = some l) : (s.setLoop i l).Kept := by
  obtain ⟨hb, hp, hq⟩ := hs
  have he : s.destructor.early = true := by rw [hd]; rfl
  refine ⟨hb.plain hl ?_ (by simp) (by simp), hp.congr rfl rfl rfl rfl rfl rfl,
    hq.move hb.control hl rfl rfl rfl (fun _ ↦ ⟨he, by simp⟩) ?_ (by simp) ?_ hq.joined⟩
  · rintro t f hf d hd'
    obtain ⟨rfl, rfl⟩ : t = s.base ∧ .connectEstablished c = f := by simpa [eq_comm] using hf
    obtain rfl : c = d := by simpa [Task.conn] using hd'
    exact hc
  · rintro t f - ⟨d, hd', -⟩
    simp [hp.idle hd] at hd'
  · intro hg
    simp [hq.gone_early he] at hg

theorem Kept.step (hs : s.Kept) {a : Act T} (hG : s.QuitsInTime a) (h : s.step a = some s') : s'.Kept := by
  cases step_cases h with
  | loop ha hl hf => exact hs.plain hl ha fun c ↦ hf _
  | begin ha hl hc => exact hs.plain hl ha fun c hcb ↦ hc c (EventLoop.Act.beginFunctor.inj hcb)
  | run ha hl => exact hs.run ha hl
  | @erase i c l _ ha hl hd hm =>
    have hwait : .removeConnectionInLoop c ∈ (s.loops i).waiting := by
      have hcons := EventLoop.step_conserves (hs.balanced.control i) hl
      simp only [EventLoop.executed, EventLoop.appended, List.filterMap_nil,
        List.filterMap_cons_none, List.append_nil] at hcons
      rw [← hcons]
      exact List.mem_cons_self
    exact (hs.plain hl ha (by simp)).removed hd (hs.balanced.named i _ hwait c rfl) hm
  | exit hx hst =>
    exact ⟨hs.balanced.exit hs.quitting hst, hs.phased.congr rfl rfl rfl rfl rfl rfl,
      hs.quitting.exit hs.balanced.control hst rfl rfl rfl rfl rfl⟩
  | accept hd => exact hs.accepted hd
  | acceptAway hd hl => exact (hs.accepted hd).queued hd (Nat.lt_succ_self _) hl
  | remove hd hc hm => exact hs.removed hd hc hm
  | destroy hd hp =>
    refine ⟨hs.balanced.destroy hd hp, ?_, hs.quitting.destroy hs.balanced hd hp⟩
    refine ⟨by simp, by simp [left, watched], ?_, hs.phased.pooled, hs.phased.next_lt⟩
    intro xs hxs
    obtain rfl := Option.some.inj hxs
    exact hp.symm
  | destruct hd =>
    exact ⟨hs.balanced.destructs hs.phased.within hd, hs.phased.destructs hd,
      hs.quitting.destructs hs.balanced.control hG hd⟩

/-- While no loop that tests `quit_` next is told to quit with a `connectDestroyed` in its queue,
the server tears its connections down. -/
theorem torn_down {threadId : Option ℕ → T} {numThreads : ℕ} {as : List (Act T)}
    (hG : Along step QuitsInTime (ofThreads threadId numThreads) as)
    (h : run step (ofThreads threadId numThreads) as = some s) : s.TornDown := by
  have hs : s.Kept := run_invariant_along (fun _ _ _ hs hG ht ↦ hs.step hG ht)
    (ofThreads_kept threadId numThreads) hG h
  exact hs.tornDown

section

instance (s : TcpServer T) (f : Task) : Decidable (s.Condemns f) :=
  inferInstanceAs (Decidable (∃ c ∈ s.doomed, f = .connectDestroyed c))

instance (s : TcpServer T) (a : Act T) : Decidable (s.QuitsInTime a) := by
  cases a with
  | destruct =>
    unfold QuitsInTime
    cases s.destructor <;> infer_instance
  | _ => exact inferInstanceAs (Decidable True)

def onePool : TcpServer ℕ := ofThreads (fun i ↦ i.elim 0 (· + 1)) 1

def acceptOne : List (Act ℕ) :=
  [.loop none .enter, .loop none .clearQuit, .loop none .testQuit, .loop none (.pollReturn false),
    .loop (some 0) .enter, .loop (some 0) .clearQuit, .loop (some 0) .testQuit, .newConnection,
    .loop (some 0) (.wakeup 0), .loop (some 0) (.pollReturn true), .loop (some 0) .handleRead,
    .loop (some 0) .beginCalling, .loop (some 0) .swap,
    .loop (some 0) (.beginFunctor (.connectEstablished 1))]

def endRound : List (Act ℕ) :=
  [.loop (some 0) .endFunctor, .loop (some 0) .endCalling, .loop (some 0) .testQuit]

def destroyOne : List (Act ℕ) :=
  [.destroy [1], .destruct, .destruct, .loop (some 0) (.wakeup 0), .destruct, .destruct, .destruct,
    .loop (some 0) (.wakeup 0)]

def joinOne : List (Act ℕ) := [.exit 0, .destruct, .destruct]

/-- The loop is back in `poll` when the destructor begins. -/
def destroyedInPoll : List (Act ℕ) :=
  acceptOne ++ endRound ++ destroyOne ++ [.loop (some 0) (.pollReturn true), .loop (some 0) .handleRead,
    .loop (some 0) .beginCalling, .loop (some 0) .swap,
    .loop (some 0) (.beginFunctor (.connectDestroyed 1))] ++ endRound ++ joinOne

/-- The loop is still in its round when the destructor begins. -/
def destroyedInRound : List (Act ℕ) := acceptOne ++ destroyOne ++ endRound ++ joinOne

theorem torn_down_destroyedInPoll : Along step QuitsInTime onePool destroyedInPoll ∧
    ∃ s, run step onePool destroyedInPoll = some s ∧ s.destructor = .done ∧ s.doomed = [1] ∧
      s.TornDown := by
  have hG : Along step QuitsInTime onePool destroyedInPoll := by decide +kernel
  obtain ⟨s, hs, hp⟩ := Option.map_eq_some_iff.mp
    (show (run step onePool destroyedInPoll).map (fun s ↦ (s.destructor, s.doomed)) =
      some (.done, [1]) by decide +kernel)
  obtain ⟨hd, hm⟩ := Prod.mk.inj hp
  exact ⟨hG, s, hs, hd, hm, torn_down hG hs⟩

/-- The functor misses the swap, the loop sees `quit_`, and the functor is dropped
with its queue: `connectDestroyed` is never called. -/
theorem not_torn_down :
    ¬ ∀ (as : List (Act ℕ)) s, run step onePool as = some s → s.TornDown := by
  intro h
  obtain ⟨s, hs, hp⟩ := Option.map_eq_some_iff.mp
    (show (run step onePool destroyedInRound).map (fun s ↦ (s.destructor, s.doomed, s.executed)) =
      some (.done, [1], []) by decide +kernel)
  simp only [Prod.mk.injEq] at hp
  have hrun := (h _ s hs).finished hp.1 1 (by simp [hp.2.1])
  simp [calls, hp.2.2] at hrun

end

end TcpServer

end Mymuduo
