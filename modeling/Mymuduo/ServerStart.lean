import Mathlib.Algebra.BigOperators.Group.Finset.Basic
import Mymuduo.LoopLaunch
import Mymuduo.ThreadConfinement

namespace Mymuduo

open Foundation.Machine

/-- Where a thread stands in `TcpServer::start()`: `pool i` is at the head of the loop in
`EventLoopThreadPool::start`, `startLoop i k` in its body with the `k`-th thread, and
`runInLoop` behind it. -/
inductive Starter
  | outside
  | pool (i : ℕ)
  | startLoop (i k : ℕ)
  | runInLoop
  deriving DecidableEq

/-- A server that any number of threads start: `launch k` is the `k`-th `EventLoopThread`,
of which `threads_` have been made, `loops_` holds the pointers by the number of their
thread, and `pending` counts the calls of `Acceptor::listen` that wait in the server's loop. -/
structure Startup (T F : Type) where
  started_ : BitVec 32
  numThreads_ : ℕ
  base : T
  threads_ : ℕ
  launch : ℕ → Launch T F
  loops_ : List ℕ
  starter : T → Starter
  pending : ℕ
  listens : ℕ

namespace Startup

/-- `start t` enters `start()`, `turn t` goes on in it, and `listen` is the server's loop
that executes the functor. -/
inductive Act (T F : Type)
  | start (t : T)
  | turn (t : T)
  | launch (k : ℕ) (a : Launch.Act T F)
  | listen

variable {T F : Type}

namespace Act

def isStart : Act T F → Bool
  | .start _ => true
  | _ => false

def isTurn : Act T F → Bool
  | .turn _ | .listen => true
  | .launch _ a => a.isTurn
  | .start _ => false

def isServer : Act T F → Bool
  | .turn _ | .listen => true
  | _ => false

def isWake : Act T F → Bool
  | .launch _ a => a.isWake
  | _ => false

end Act

def ofPool (p : Pool T) : Startup T F :=
  { started_ := 0, numThreads_ := p.numThreads_, base := p.threadId none, threads_ := 0
    launch := fun k ↦ .ofThread (p.threadId (some k)), loops_ := [], starter := fun _ ↦ .outside
    pending := 0, listens := 0 }

variable [DecidableEq T] [DecidableEq F] (s : Startup T F)

def goto (t : T) (c : Starter) : Startup T F := { s with starter := Function.update s.starter t c }

def goOn (t : T) : Starter → Option (Startup T F)
  | .outside => none
  | .pool i =>
    if i < s.numThreads_ then some { s.goto t (.startLoop i s.threads_) with threads_ := s.threads_ + 1 }
    else some (s.goto t .runInLoop)
  | .startLoop i k =>
    if (s.launch k).caller = .returned then
      some { s.goto t (.pool (i + 1)) with loops_ := s.loops_ ++ [k] }
    else none
  | .runInLoop =>
    if t = s.base then some { s.goto t .outside with listens := s.listens + 1 }
    else some { s.goto t .outside with pending := s.pending + 1 }

def admits (k : ℕ) : Launch.Act T F → Bool
  | .caller t =>
    match s.starter t with
    | .startLoop _ j => j = k
    | _ => false
  | _ => true

def step (s : Startup T F) : Act T F → Option (Startup T F)
  | .start t =>
    if s.starter t = .outside then
      some { s.goto t (if s.started_ = 0 then .pool 0 else .outside) with started_ := s.started_ + 1 }
    else none
  | .turn t => s.goOn t (s.starter t)
  | .launch k a =>
    if k < s.threads_ && s.admits k a then
      ((s.launch k).step a).map fun l ↦ { s with launch := Function.update s.launch k l }
    else none
  | .listen =>
    if 0 < s.pending && s.starter s.base = .outside then
      some { s with pending := s.pending - 1, listens := s.listens + 1 }
    else none

variable {s} {s' : Startup T F}

inductive Step (s : Startup T F) : Act T F → Startup T F → Prop
  | first {t : T} (hc : s.starter t = .outside) (hs : s.started_ = 0) :
      Step s (.start t) { s.goto t (.pool 0) with started_ := s.started_ + 1 }
  | again {t : T} (hc : s.starter t = .outside) (hs : s.started_ ≠ 0) :
      Step s (.start t) { s with started_ := s.started_ + 1 }
  | make {t : T} {i : ℕ} (hc : s.starter t = .pool i) (hi : i < s.numThreads_) :
      Step s (.turn t) { s.goto t (.startLoop i s.threads_) with threads_ := s.threads_ + 1 }
  | full {t : T} {i : ℕ} (hc : s.starter t = .pool i) (hi : ¬ i < s.numThreads_) :
      Step s (.turn t) (s.goto t .runInLoop)
  | push {t : T} {i k : ℕ} (hc : s.starter t = .startLoop i k) (hk : (s.launch k).caller = .returned) :
      Step s (.turn t) { s.goto t (.pool (i + 1)) with loops_ := s.loops_ ++ [k] }
  | run {t : T} (hc : s.starter t = .runInLoop) (ht : t = s.base) :
      Step s (.turn t) { s.goto t .outside with listens := s.listens + 1 }
  | queue {t : T} (hc : s.starter t = .runInLoop) (ht : t ≠ s.base) :
      Step s (.turn t) { s.goto t .outside with pending := s.pending + 1 }
  | launch {k : ℕ} {a : Launch.Act T F} {l : Launch T F} (hk : k < s.threads_)
      (ha : s.admits k a = true) (hl : (s.launch k).step a = some l) :
      Step s (.launch k a) { s with launch := Function.update s.launch k l }
  | listen (hp : 0 < s.pending) (hc : s.starter s.base = .outside) :
      Step s .listen { s with pending := s.pending - 1, listens := s.listens + 1 }

omit [DecidableEq F] in
theorem goto_self {t : T} {c : Starter} (hc : s.starter t = c) : s.goto t c = s := by
  subst hc
  simp [goto]

theorem step_iff {a : Act T F} : s.step a = some s' ↔ Step s a s' := by
  constructor
  · intro h
    cases a with
    | start t =>
      simp only [step, Option.ite_none_right_eq_some, Option.some.injEq] at h
      obtain ⟨hc, rfl⟩ := h
      by_cases hs : s.started_ = 0
      · rw [if_pos hs]
        exact .first hc hs
      · rw [if_neg hs, goto_self hc]
        exact .again hc hs
    | turn t =>
      cases hc : s.starter t with
      | outside => simp [step, hc, goOn] at h
      | pool i =>
        simp only [step, hc, goOn] at h
        split at h
        · next hi =>
          obtain rfl := Option.some.inj h
          exact .make hc hi
        · next hi =>
          obtain rfl := Option.some.inj h
          exact .full hc hi
      | startLoop i k =>
        simp only [step, hc, goOn, Option.ite_none_right_eq_some, Option.some.injEq] at h
        obtain ⟨hk, rfl⟩ := h
        exact .push hc hk
      | runInLoop =>
        simp only [step, hc, goOn] at h
        split at h
        · next ht =>
          obtain rfl := Option.some.inj h
          exact .run hc ht
        · next ht =>
          obtain rfl := Option.some.inj h
          exact .queue hc ht
    | launch k a =>
      simp only [step, Option.ite_none_right_eq_some, Bool.and_eq_true, decide_eq_true_eq,
        Option.map_eq_some_iff] at h
      obtain ⟨⟨hk, ha⟩, l, hl, rfl⟩ := h
      exact .launch hk ha hl
    | listen =>
      simp only [step, Option.ite_none_right_eq_some, Bool.and_eq_true, decide_eq_true_eq,
        Option.some.injEq] at h
      obtain ⟨⟨hp, hc⟩, rfl⟩ := h
      exact .listen hp hc
  · intro h
    cases h with
    | first hc hs => simp [step, hc, hs]
    | again hc hs => simp only [step, if_pos hc, if_neg hs, goto_self hc]
    | make hc hi => simp [step, hc, goOn, hi]
    | full hc hi => simp [step, hc, goOn, hi]
    | push hc hk => simp [step, hc, goOn, hk]
    | run hc ht => simp only [step, hc, goOn, if_pos ht]
    | queue hc ht => simp [step, hc, goOn, ht]
    | launch hk ha hl => simp [step, hk, ha, hl]
    | listen hp hc => simp [step, hp, hc]

structure Filled (s : Startup T F) (threads loops pending listens : ℕ) : Prop where
  threads : s.threads_ = threads
  loops : s.loops_ = List.range loops
  pending : s.pending = pending
  listens : s.listens = listens

structure Stands (starter : T → Starter) (t : T) (c : Starter) : Prop where
  self : starter t = c
  others : ∀ u ≠ t, starter u = .outside

/-- How far the start has come, and the turns of `start()` that are left of it. -/
inductive Phase (s : Startup T F) : ℕ → Prop
  | before (hs : s.started_ = 0) (hf : s.Filled 0 0 0 0) (ho : ∀ t, s.starter t = .outside) :
      Phase s (2 * s.numThreads_ + 3)
  | pool {t : T} {i : ℕ} (hs : s.started_ ≠ 0) (hf : s.Filled i i 0 0) (ht : Stands s.starter t (.pool i))
      (hi : i ≤ s.numThreads_) : Phase s (2 * (s.numThreads_ - i) + 3)
  | startLoop {t : T} {i : ℕ} (hs : s.started_ ≠ 0) (hf : s.Filled (i + 1) i 0 0)
      (ht : Stands s.starter t (.startLoop i i)) (hi : i < s.numThreads_) :
      Phase s (2 * (s.numThreads_ - i) + 2)
  | runInLoop {t : T} (hs : s.started_ ≠ 0) (hf : s.Filled s.numThreads_ s.numThreads_ 0 0)
      (ht : Stands s.starter t .runInLoop) : Phase s 2
  | pending (hs : s.started_ ≠ 0) (hf : s.Filled s.numThreads_ s.numThreads_ 1 0)
      (ho : ∀ t, s.starter t = .outside) : Phase s 1
  | listening (hs : s.started_ ≠ 0) (hf : s.Filled s.numThreads_ s.numThreads_ 0 1)
      (ho : ∀ t, s.starter t = .outside) : Phase s 0

variable {t u : T} {c d : Starter} {m n : ℕ}

omit [DecidableEq T] [DecidableEq F] in
theorem Stands.unique (ht : Stands s.starter t c) (hu : s.starter u = d) (hd : d ≠ .outside) : u = t ∧ d = c := by
  by_cases hut : u = t
  · subst hut
    exact ⟨rfl, hu.symm.trans ht.self⟩
  · exact absurd (hu.symm.trans (ht.others u hut)) hd

omit [DecidableEq F] in
theorem stands_goto (ho : ∀ u ≠ t, s.starter u = .outside) : Stands (s.goto t c).starter t c :=
  ⟨Function.update_self .., fun u hu ↦ (Function.update_of_ne hu ..).trans (ho u hu)⟩

omit [DecidableEq F] in
theorem outside_goto (ho : ∀ u ≠ t, s.starter u = .outside) (u : T) :
    (s.goto t .outside).starter u = .outside := by
  by_cases hu : u = t
  · subst hu
    exact Function.update_self ..
  · exact (Function.update_of_ne hu ..).trans (ho u hu)

omit [DecidableEq T] [DecidableEq F] in
theorem Phase.of_eq (h : Phase s m) (hs : s'.started_ = 0 ↔ s.started_ = 0)
    (hn : s'.numThreads_ = s.numThreads_) (ht : s'.threads_ = s.threads_) (hl : s'.loops_ = s.loops_)
    (hp : s'.pending = s.pending) (hc : s'.listens = s.listens) (hstarter : s'.starter = s.starter) :
    Phase s' m := by
  have hfilled : ∀ {a b c d}, s.Filled a b c d → s'.Filled a b c d := fun hf ↦
    ⟨ht.trans hf.threads, hl.trans hf.loops, hp.trans hf.pending, hc.trans hf.listens⟩
  cases h with
  | before h0 hf ho => exact hn ▸ .before (hs.mpr h0) (hfilled hf) (hstarter ▸ ho)
  | pool h0 hf ht hi => exact hn ▸ .pool (mt hs.mp h0) (hfilled hf) (hstarter ▸ ht) (hn ▸ hi)
  | startLoop h0 hf ht hi => exact hn ▸ .startLoop (mt hs.mp h0) (hfilled hf) (hstarter ▸ ht) (hn ▸ hi)
  | runInLoop h0 hf ht => exact .runInLoop (mt hs.mp h0) (hn ▸ hfilled hf) (hstarter ▸ ht)
  | pending h0 hf ho => exact .pending (mt hs.mp h0) (hn ▸ hfilled hf) (hstarter ▸ ho)
  | listening h0 hf ho => exact .listening (mt hs.mp h0) (hn ▸ hfilled hf) (hstarter ▸ ho)

theorem Phase.turn (h : Phase s m) (hs : Step s (.turn t) s') : ∃ n, Phase s' n ∧ n + 1 ≤ m := by
  cases h with
  | before _ _ ho | pending _ _ ho | listening _ _ ho =>
    cases hs with
    | make hc | full hc | push hc | run hc | queue hc => rw [ho] at hc; simp at hc
  | @pool t' i h0 hf ht hi =>
    cases hs with
    | @make _ j hc hj =>
      obtain ⟨rfl, heq⟩ := ht.unique hc (by simp)
      obtain rfl := Starter.pool.inj heq
      rw [hf.threads]
      exact ⟨_, .startLoop h0 ⟨rfl, hf.loops, hf.pending, hf.listens⟩ (stands_goto ht.others) hj, by
        simp only [goto]; omega⟩
    | @full _ j hc hj =>
      obtain ⟨rfl, heq⟩ := ht.unique hc (by simp)
      obtain rfl := Starter.pool.inj heq
      obtain rfl : j = s.numThreads_ := by omega
      exact ⟨_, .runInLoop h0 ⟨hf.threads, hf.loops, hf.pending, hf.listens⟩ (stands_goto ht.others), by omega⟩
    | push hc | run hc | queue hc => exact absurd (ht.unique hc (by simp)).2 (by simp)
  | @startLoop t' i h0 hf ht hi =>
    cases hs with
    | @push _ j k hc hk =>
      obtain ⟨rfl, heq⟩ := ht.unique hc (by simp)
      obtain ⟨rfl, rfl⟩ := Starter.startLoop.inj heq
      refine ⟨_, .pool h0 ⟨hf.threads, ?_, hf.pending, hf.listens⟩ (stands_goto ht.others) hi, ?_⟩
      · rw [List.range_succ, ← hf.loops]
      · simp only [goto]; omega
    | make hc | full hc | run hc | queue hc => exact absurd (ht.unique hc (by simp)).2 (by simp)
  | @runInLoop t' h0 hf ht =>
    cases hs with
    | run hc hbase =>
      obtain ⟨rfl, -⟩ := ht.unique hc (by simp)
      exact ⟨0, .listening h0 ⟨hf.threads, hf.loops, hf.pending, by simp [hf.listens]⟩
        (outside_goto ht.others), by omega⟩
    | queue hc hbase =>
      obtain ⟨rfl, -⟩ := ht.unique hc (by simp)
      exact ⟨1, .pending h0 ⟨hf.threads, hf.loops, by simp [hf.pending], hf.listens⟩
        (outside_goto ht.others), by omega⟩
    | make hc | full hc | push hc => exact absurd (ht.unique hc (by simp)).2 (by simp)

theorem Phase.step {a : Act T F} (h : Phase s m) (hn : a.isStart = true → s'.started_ ≠ 0)
    (hs : Step s a s') : ∃ n, Phase s' n ∧ n + a.isServer.toNat ≤ m := by
  cases hs with
  | @first t hc hzero =>
    cases h with
    | before _ hf ho =>
      exact ⟨_, .pool (hn rfl) ⟨hf.threads, hf.loops, hf.pending, hf.listens⟩
        (stands_goto fun u _ ↦ ho u) (Nat.zero_le _), Nat.le_refl _⟩
    | pool h0 | startLoop h0 | runInLoop h0 | pending h0 | listening h0 => exact absurd hzero h0
  | again hc hne =>
    exact ⟨m, h.of_eq (iff_of_false (hn rfl) hne) rfl rfl rfl rfl rfl rfl, Nat.le_refl _⟩
  | make hc hi => exact h.turn (.make hc hi)
  | full hc hi => exact h.turn (.full hc hi)
  | push hc hk => exact h.turn (.push hc hk)
  | run hc ht => exact h.turn (.run hc ht)
  | queue hc ht => exact h.turn (.queue hc ht)
  | launch hk ha hl => exact ⟨m, h.of_eq Iff.rfl rfl rfl rfl rfl rfl rfl, Nat.le_refl _⟩
  | listen hp hc =>
    cases h with
    | before _ hf | pool _ hf | startLoop _ hf | runInLoop _ hf | listening _ hf =>
      rw [hf.pending] at hp
      exact absurd hp (Nat.lt_irrefl 0)
    | pending h0 hf ho =>
      exact ⟨0, .listening h0 ⟨hf.threads, hf.loops, by simp [hf.pending], by simp [hf.listens]⟩ ho,
        Nat.le_refl _⟩

theorem Step.counts {a : Act T F} (h : Step s a s') : s'.numThreads_ = s.numThreads_ ∧
    s'.started_ = s.started_ + BitVec.ofNat 32 a.isStart.toNat := by
  cases h with
  | first | again => exact ⟨rfl, rfl⟩
  | make | full | push | run | queue | launch | listen => exact ⟨rfl, (BitVec.add_zero _).symm⟩

theorem Step.launches {a : Act T F} (h : Step s a s') : s'.launch = s.launch ∧ a.isTurn = a.isServer ∧ a.isWake = false ∨
    ∃ k b l, a = .launch k b ∧ k < s.threads_ ∧ (s.launch k).step b = some l ∧
      s'.launch = Function.update s.launch k l := by
  cases h with
  | first | again | make | full | push | run | queue | listen => exact Or.inl ⟨rfl, rfl, rfl⟩
  | launch hk ha hl => exact Or.inr ⟨_, _, _, rfl, hk, hl, rfl⟩

theorem Step.loops {a : Act T F} (h : Step s a s') {k : ℕ} (hk : k ∈ s'.loops_) :
    k ∈ s.loops_ ∨ (s.launch k).caller = .returned := by
  cases h with
  | push hc hret =>
    rcases List.mem_append.mp hk with hk | hk
    · exact Or.inl hk
    · exact Or.inr (List.mem_singleton.mp hk ▸ hret)
  | first | again | make | full | run | queue | launch | listen => exact Or.inl hk

omit [DecidableEq T] [DecidableEq F] in
theorem countP_snoc (f : Act T F → Bool) (as : List (Act T F)) (a : Act T F) :
    (as ++ [a]).countP f = as.countP f + (f a).toNat := by
  rw [List.countP_append, List.countP_singleton]
  cases f a <;> rfl

def launchesLeft (s : Startup T F) : ℕ := ∑ k ∈ Finset.range s.numThreads_, (s.launch k).turnsLeft

structure Progress (p : Pool T) (as : List (Act T F)) (s : Startup T F) : Prop where
  numThreads : s.numThreads_ = p.numThreads_
  counted : s.started_ = BitVec.ofNat 32 (as.countP Act.isStart)
  launched : ∀ k, (s.launch k).Launched (p.threadId (some k))
  returned : ∀ k ∈ s.loops_, (s.launch k).caller = .returned
  spent : ∃ m, Phase s m ∧ m + s.launchesLeft + as.countP Act.isTurn ≤
    21 * s.numThreads_ + 3 + 2 * as.countP Act.isWake

theorem ofPool_progress (p : Pool T) : Progress p [] (ofPool p : Startup T F) := by
  refine ⟨rfl, rfl, fun k ↦ ⟨Launch.ofThread_sane _, rfl, [], rfl⟩, by simp [ofPool],
    _, .before rfl ⟨rfl, rfl, rfl, rfl⟩ fun _ ↦ rfl, ?_⟩
  have hsum : (ofPool p : Startup T F).launchesLeft = p.numThreads_ * 19 := by
    have hconst : ∀ k ∈ Finset.range p.numThreads_,
        ((ofPool p : Startup T F).launch k).turnsLeft = 19 := fun _ _ ↦ rfl
    exact (Finset.sum_const_nat hconst).trans (by rw [Finset.card_range])
  rw [hsum]
  simp only [ofPool, List.countP_nil]
  omega

omit [DecidableEq T] [DecidableEq F] in
theorem Phase.threads_le (h : Phase s m) : s.threads_ ≤ s.numThreads_ := by
  cases h with
  | before _ hf => exact hf.threads ▸ Nat.zero_le _
  | runInLoop _ hf | pending _ hf | listening _ hf => exact hf.threads.le
  | pool _ hf _ hi | startLoop _ hf _ hi => exact hf.threads ▸ hi

omit [DecidableEq T] [DecidableEq F] in
theorem launchesLeft_update {k : ℕ} {l : Launch T F} (hk : k < s.numThreads_) :
    launchesLeft { s with launch := Function.update s.launch k l } + (s.launch k).turnsLeft =
      s.launchesLeft + l.turnsLeft := by
  have hmem : k ∈ Finset.range s.numThreads_ := Finset.mem_range.mpr hk
  simp only [launchesLeft]
  rw [← Finset.add_sum_erase _ _ hmem, ← Finset.add_sum_erase (Finset.range s.numThreads_)
    (fun k ↦ (s.launch k).turnsLeft) hmem]
  have hrest : ∑ j ∈ (Finset.range s.numThreads_).erase k,
      (Function.update s.launch k l j).turnsLeft =
      ∑ j ∈ (Finset.range s.numThreads_).erase k, (s.launch j).turnsLeft := by
    refine Finset.sum_congr rfl fun j hj ↦ ?_
    rw [Function.update_of_ne (Finset.ne_of_mem_erase hj)]
  rw [hrest, Function.update_self]
  omega

theorem Progress.step {p : Pool T} {as : List (Act T F)} {a : Act T F} (hs : Progress p as s)
    (hn : (as ++ [a]).countP Act.isStart < 2 ^ 32) (h : s.step a = some s') :
    Progress p (as ++ [a]) s' := by
  obtain ⟨hnum, hcount, hlaunched, hreturned, m, hphase, hspent⟩ := hs
  have hstep := step_iff.mp h
  obtain ⟨hnum', hstarted⟩ := hstep.counts
  have hcount' : s'.started_ = BitVec.ofNat 32 ((as ++ [a]).countP Act.isStart) := by
    rw [hstarted, hcount, countP_snoc, BitVec.ofNat_add]
  have hne : a.isStart = true → s'.started_ ≠ 0 := by
    intro ha hzero
    have hnat := congrArg BitVec.toNat (hcount'.symm.trans hzero)
    rw [BitVec.toNat_ofNat, Nat.mod_eq_of_lt hn, countP_snoc, ha] at hnat
    exact absurd hnat (Nat.succ_ne_zero _)
  obtain ⟨n, hphase', hturn⟩ := hphase.step hne hstep
  have hold : ∀ k ∈ s'.loops_, (s.launch k).caller = .returned := fun k hk ↦
    (hstep.loops hk).elim (hreturned k) id
  rcases hstep.launches with ⟨hsame, hserver, hwake⟩ | ⟨k, b, l, rfl, hk, hl, hupdate⟩
  · refine ⟨hnum'.trans hnum, hcount', hsame ▸ hlaunched, hsame ▸ hold, n, hphase', ?_⟩
    have hleft : s'.launchesLeft = s.launchesLeft := by rw [launchesLeft, launchesLeft, hnum', hsame]
    rw [hleft, hnum', countP_snoc, countP_snoc, hserver, hwake, Bool.toNat_false]
    omega
  · have hl' := (hlaunched k).step hl
    refine ⟨hnum'.trans hnum, hcount', fun j ↦ ?_, fun j hj ↦ ?_, n, hphase', ?_⟩
    · rw [hupdate]
      by_cases hjk : j = k
      · subst hjk
        rwa [Function.update_self]
      · rw [Function.update_of_ne hjk]
        exact hlaunched j
    · rw [hupdate]
      by_cases hjk : j = k
      · subst hjk
        rw [Function.update_self]
        exact Launch.returned_step (hold j hj) hl
      · rw [Function.update_of_ne hjk]
        exact hold j hj
    · have hleft : s'.launchesLeft + (s.launch k).turnsLeft = s.launchesLeft + l.turnsLeft := by
        rw [launchesLeft, hupdate, hnum']
        exact launchesLeft_update (Nat.lt_of_lt_of_le hk hphase.threads_le)
      have hspends := (hlaunched k).sane.step_spends hl
      rw [hnum', countP_snoc, countP_snoc]
      simp only [Act.isTurn, Act.isWake, Act.isServer, Bool.toNat_false] at hturn ⊢
      omega

theorem run_progress {p : Pool T} {as : List (Act T F)} (hn : as.countP Act.isStart < 2 ^ 32)
    (h : run step (ofPool p) as = some s) : Progress p as s := by
  have hI : [] ++ as <+: as → Progress p ([] ++ as) s := by
    refine run_history (I := fun bs s ↦ bs <+: as → Progress p bs s) (p := []) ?_ ?_ h
    · intro bs m a q hm hq hbs
      refine (hm ((List.prefix_append bs [a]).trans hbs)).step ?_ hq
      exact Nat.lt_of_le_of_lt (hbs.sublist.countP_le) hn
    · exact fun _ ↦ ofPool_progress p
  exact hI (List.prefix_refl as)

theorem Progress.goes_on {p : Pool T} {as : List (Act T F)} (hs : Progress p as s)
    (hstart : s.started_ ≠ 0) (hab : ∀ k, ¬ (s.launch k).Abandoned) :
    s.listens = 1 ∨ ∃ a s', a.isTurn = true ∧ s.step a = some s' := by
  obtain ⟨m, hphase, -⟩ := hs.spent
  cases hphase with
  | before h0 => exact absurd h0 hstart
  | listening _ hf => exact Or.inl hf.listens
  | @pool t i _ hf ht hi =>
    right
    by_cases hlt : i < s.numThreads_
    · exact ⟨.turn t, _, rfl, step_iff.mpr (.make ht.self hlt)⟩
    · exact ⟨.turn t, _, rfl, step_iff.mpr (.full ht.self hlt)⟩
  | @startLoop t i _ hf ht hi =>
    right
    by_cases hret : (s.launch i).caller = .returned
    · exact ⟨.turn t, _, rfl, step_iff.mpr (.push ht.self hret)⟩
    · have hmade : i < s.threads_ := hf.threads ▸ Nat.lt_succ_self i
      rcases (hs.launched i).sane.goes_on (hab i) hret t with ⟨l, hl⟩ | ⟨-, l, hl⟩
      · refine ⟨.launch i (.caller t), _, rfl, step_iff.mpr (.launch hmade ?_ (Launch.callerTurn_iff.mpr hl))⟩
        simp [admits, ht.self]
      · exact ⟨.launch i .thread, _, rfl, step_iff.mpr (.launch hmade rfl (Launch.threadTurn_iff.mpr hl))⟩
  | @runInLoop t _ hf ht =>
    right
    by_cases hbase : t = s.base
    · exact ⟨.turn t, _, rfl, step_iff.mpr (.run ht.self hbase)⟩
    · exact ⟨.turn t, _, rfl, step_iff.mpr (.queue ht.self hbase)⟩
  | pending _ hf ho =>
    exact Or.inr ⟨.listen, _, rfl, step_iff.mpr (.listen (by rw [hf.pending]; exact Nat.one_pos) (ho _))⟩

/-- However many threads call `start()`, and in whatever order, the pool is made once and
`listen` is called once, when `loops_` holds the loops that a server is modelled with; the start
takes 21 turns for each of them and three more, and two for each spurious wakeup, and nothing stops
it but a thread that retakes its mutex behind `loop()` before the pointer has been read. -/
theorem server_starts_once {p : Pool T} {as : List (Act T F)} (hn : as.countP Act.isStart < 2 ^ 32)
    (h : run step (ofPool p) as = some s) :
    s.listens + s.pending ≤ 1 ∧ s.threads_ ≤ p.numThreads_ ∧
      (0 < s.listens + s.pending → s.loops_ = List.range p.numThreads_ ∧
        none :: s.loops_.map some = loopIndices p.numThreads_) ∧
      (∀ k ∈ s.loops_, (s.launch k).caller = .returned ∧ (s.launch k).object.initialised = true ∧
        (s.launch k).tid_ = some (p.threadId (some k))) ∧
      as.countP Act.isTurn ≤ 21 * p.numThreads_ + 3 + 2 * as.countP Act.isWake ∧
      (0 < as.countP Act.isStart → (∀ k, ¬ (s.launch k).Abandoned) →
        s.listens = 1 ∨ ∃ a s', a.isTurn = true ∧ s.step a = some s') := by
  have hs := run_progress hn h
  obtain ⟨m, hphase, hspent⟩ := hs.spent
  refine ⟨?_, hs.numThreads ▸ hphase.threads_le, fun hl ↦ ?_, fun k hk ↦ ?_, ?_, fun hstart ↦ ?_⟩
  · cases hphase with
    | before _ hf | pool _ hf | startLoop _ hf | runInLoop _ hf | pending _ hf | listening _ hf =>
      simp [hf.listens, hf.pending]
  · have hloops : s.loops_ = List.range p.numThreads_ := by
      rw [← hs.numThreads]
      cases hphase with
      | before _ hf | pool _ hf | startLoop _ hf | runInLoop _ hf =>
        rw [hf.listens, hf.pending] at hl
        exact absurd hl (Nat.lt_irrefl 0)
      | pending _ hf | listening _ hf => exact hf.loops
    exact ⟨hloops, by rw [hloops, loopIndices]⟩
  · have hsane := (hs.launched k).sane
    have henters := hsane.holds (by rw [hs.returned k hk]; rfl)
    obtain ⟨hidentifies, hinitialises⟩ := Body.passed_of_enters henters
    exact ⟨hs.returned k hk, hsane.initialised.trans hinitialises,
      (hs.launched k).thread ▸ hsane.tid hidentifies⟩
  · rw [← hs.numThreads]
    omega
  · refine hs.goes_on fun hzero ↦ ?_
    have hnat := congrArg BitVec.toNat (hs.counted.symm.trans hzero)
    rw [BitVec.toNat_ofNat, Nat.mod_eq_of_lt hn] at hnat
    exact absurd hnat hstart.ne'

section

def startedTwice : List (Act ℕ ℕ) :=
  [.start 5, .start 6, .turn 5, .launch 0 (.caller 5), .launch 0 .thread, .launch 0 .thread,
    .launch 0 (.caller 5), .launch 0 (.caller 5), .launch 0 (.caller 5), .launch 0 .thread,
    .launch 0 .thread, .launch 0 .thread, .launch 0 .thread, .launch 0 .thread, .launch 0 .thread,
    .launch 0 (.caller 5), .launch 0 (.caller 5), .launch 0 (.caller 5), .turn 5, .turn 5, .turn 5,
    .listen]

theorem server_starts_once_startedTwice :
    ∃ s : Startup ℕ ℕ, run step (ofPool (Reactors.poolOf 1)) startedTwice = some s ∧ s.listens = 1 ∧
      s.loops_ = [0] ∧ (s.launch 0).tid_ = some 1 := by
  obtain ⟨s, hs, hlistens⟩ := Option.map_eq_some_iff.mp
    (show (run step (ofPool (Reactors.poolOf 1)) startedTwice).map (fun s : Startup ℕ ℕ ↦ s.listens) = some 1
      by decide +kernel)
  obtain ⟨-, -, hloops, hlaunched, -⟩ := server_starts_once (by decide) hs
  have hfull : s.loops_ = List.range 1 := (hloops (by omega)).1
  exact ⟨s, hs, hlistens, hfull, (hlaunched 0 (by rw [hfull]; decide)).2.2⟩

end

end Startup

end Mymuduo
