import Mymuduo.OutputStream
import Mymuduo.Ownership
import Mymuduo.ThreadConfinement

namespace Mymuduo

open Foundation.Machine

variable {T : Type}

/-- The objects whose member functions the functors of a loop call. -/
inductive Object
  | connection (c : ℕ)
  | server

def Job.target : Job T → Option Object
  | .conn c .connectEstablished | .conn c .connectDestroyed | .conn c (.sendInLoop _)
  | .conn c .shutdownInLoop => some (.connection c)
  | .removeConnectionInLoop _ => some .server
  | .conn _ (.notify _) | .conn _ (.foreign _) | .foreign _ => none

namespace Frame

/-- The frame leads neither to the map of the server nor to a removal from it. -/
def mild : Frame T → Bool
  | .userCode | .send _ _ | .shutdown | .setDisconnecting | .queueInLoop _ | .functor _
  | .writeOrBuffer _ | .destroyConnected | .removeChannel | .connectionCallback => true
  | _ => false

variable {e : Site T} {c : TcpConnection} {io : Reply} {f : Frame T}

theorem exec_mild (hf : f.mild = true) {g : Frame T} (hg : g ∈ (f.exec e c io).frames) :
    g.mild = true := by
  cases exec_next hg <;> first | rfl | simp [mild] at hf

theorem mild_runInLoop (e : Site T) (f : Functor T) : (runInLoop e f).mild = true := by
  unfold runInLoop
  split <;> rfl

theorem exec_raw (hf : f.isRaw = false) {g : Frame T} (hg : g ∈ (f.exec e c io).frames) :
    g.isRaw = false ∨ g.ends = true := by
  cases exec_next hg <;> first | exact Or.inl rfl | exact Or.inr rfl | simp [isRaw, Functor.isRaw] at hf

theorem exec_queued_raw (hf : f.isRaw = false) {g : Functor T}
    (hg : (f.exec e c io).queued = some g) : g.isRaw = false := by
  rcases exec_queued hg with rfl | ⟨n, rfl⟩
  · exact hf
  · rfl

end Frame

def Activity.mild : Activity T → Bool
  | .conn _ f => f.mild
  | .userCode => true
  | _ => false

def Shielded : List (Activity T) → Prop
  | [] => True
  | f :: fs => (f.mild = false → ∀ items, .destructor items ∉ fs) ∧ Shielded fs

theorem Shielded.push {f : Activity T} {fs : List (Activity T)} (h : Shielded fs) (hf : f.mild = true) :
    Shielded (f :: fs) := ⟨by simp [hf], h⟩

theorem Shielded.replace {c : ℕ} {fs : List (Activity T)} {gs : List (Frame T)} (h : Shielded fs)
    (hgs : (∃ g ∈ gs, g.mild = false) → ∀ items, .destructor items ∉ fs) :
    Shielded (gs.map (.conn c) ++ fs) := by
  induction gs with
  | nil => exact h
  | cons g gs ih =>
    refine ⟨fun hg items hmem ↦ ?_, ih fun ⟨k, hk, hmild⟩ ↦ hgs ⟨k, List.mem_cons_of_mem g hk, hmild⟩⟩
    rcases List.mem_append.mp hmem with hmem | hmem
    · simp at hmem
    · exact hgs ⟨g, List.mem_cons_self, hg⟩ items hmem

namespace Reactors

variable [DecidableEq T] {s s' u : Reactors T} {a : Act T} {i : Option ℕ} {c d : ℕ} {t : T}

def objects (s : Reactors T) : Set Object :=
  fun
  | .connection c => c ∈ s.live
  | .server => s.serving = true

/-- Every functor that waits in a loop has a target. -/
def Targeted (s : Reactors T) : Prop :=
  ∀ i, ∀ j ∈ (s.loops i).waiting, ∀ o, j.target = some o → o ∈ s.objects

/-- No functor that waits, but for those in the loops `is`, and no call under way has a raw
pointer to `c` to go on with. -/
def Unpursued (s : Reactors T) (c : ℕ) (is : List (Option ℕ)) : Prop :=
  (∀ i ∉ is, ∀ j ∈ (s.loops i).waiting, j.isRawOf c = false) ∧
    ∀ t, ∀ f ∈ s.stack t, f.leadsTo c → f.holds c = true

def Act.ended : Act T → List (Option ℕ)
  | .exit k => [some k]
  | _ => []

/-- A connection is removed in a server that is not being destroyed, an event is handled
of a connection that is not destroyed, and a server is destroyed that no removal waits for. -/
def Timely (s : Reactors T) : Act T → Prop
  | .exec t _ => t ≠ s.base → (∃ c, (s.stack t).head? = some (.conn c .closeCallback)) →
      s.serving = true
  | .handleEvent i _ => ∀ c revents, (s.unhandled i).head? = some (.conn c, revents) → c ∈ s.live
  | .destroy _ => ∀ i c, .removeConnectionInLoop c ∉ (s.loops i).waiting
  | _ => True

/-- The last owner of a connection gives it up only where nothing has a raw pointer to
it to go on with. -/
def Considerate (s : Reactors T) (a : Act T) : Prop :=
  (∀ c ∈ s.live, s.owners c ⊆ s.givesUp c a → s.Unpursued c a.ended) ∧ s.Timely a

/-- The invariant of runs that are considerate. -/
structure Sheltered (s : Reactors T) : Prop where
  control : ∀ i, (s.loops i).Control
  idle : ∀ i, s.batch i ≠ [] → ∃ b, (s.loops i).stage = .running b
  taken : ∀ i, ∀ j ∈ (s.loops i).functors, j ∈ s.batch i
  alive : ∀ c, s.Named c → c ∈ s.live
  owned : ∀ c ∈ s.live, (s.owners c).Nonempty
  removals : ∀ i c, .removeConnectionInLoop c ∈ (s.loops i).waiting → i = none ∧ s.serving = true
  removing : ∀ t c, .conn c .removeConnectionInLoop ∈ s.stack t → t = s.base
  emptying : ∀ t items, .destructor items ∈ s.stack t → t = s.base ∧ s.serving = false ∧
    items.Nodup ∧ ∀ c ∈ items, s.map.connections_ (s.map.names c) = some c
  shielded : ∀ t, Shielded (s.stack t)

omit [DecidableEq T] in
theorem Sheltered.targeted (hs : s.Sheltered) : s.Targeted := by
  intro i j hj o ho
  cases j with
  | conn c f =>
    have hlive : c ∈ s.live := hs.alive c (.waiting hj rfl)
    cases f with
    | notify | foreign => simp [Job.target] at ho
    | connectEstablished | connectDestroyed | sendInLoop | shutdownInLoop =>
      obtain rfl := Option.some.inj ho
      exact hlive
  | removeConnectionInLoop c =>
    obtain rfl := Option.some.inj ho
    exact (hs.removals i c hj).2
  | foreign n => simp [Job.target] at ho

def vector (s : Reactors T) (i : Option ℕ) : EventLoop.Act T (Job T) → List (Job T)
  | .swap => (s.loops i).pendingFunctors_
  | .endCalling => []
  | _ => s.batch i

inductive Turn (s : Reactors T) (a : Act T) (u : Reactors T) (i : Option ℕ) : Prop
  | rest (hl : u.loops i = s.loops i) (hb : u.batch i = s.batch i)
  | step (b : EventLoop.Act T (Job T)) (hl : (s.loops i).step b = some (u.loops i))
      (hb : u.batch i = s.vector i b)
  | exit (k : ℕ) (hi : i = some k) (ha : a = .exit k) (hs : (s.loops i).stage = .stopped)
      (hl : u.loops i = { s.loops i with pendingFunctors_ := [] }) (hb : u.batch i = s.batch i)

theorem Turn.of_setLoop {j : Option ℕ} {b : EventLoop.Act T (Job T)} {l : EventLoop T (Job T)}
    (hl : (s.loops j).step b = some l) (hu : u.loops = (s.setLoop j l).loops)
    (hb : u.batch = s.batch) (hv : ∀ i, s.vector i b = s.batch i) (i : Option ℕ) : Turn s a u i := by
  by_cases hij : i = j
  · subst hij
    exact .step b (by rw [hu, setLoop_self, hl]) (by rw [hb, hv])
  · exact .rest (by rw [hu, setLoop_of_ne hij]) (by rw [hb])

theorem Does.turn (h : Does s a u) (i : Option ℕ) : Turn s a u i := by
  cases h with
  | frame hst ho hf hio hu =>
    cases hu with
    | nothing => exact .rest rfl rfl
    | queued hq hl => refine Turn.of_setLoop hl ?_ ?_ (fun _ ↦ rfl) i <;> rfl
    | posted hq hp hl => refine Turn.of_setLoop hl ?_ ?_ (fun _ ↦ rfl) i <;> rfl
  | destruct hst ho hf hu =>
    cases exec_destroys hf hu with
    | stored hk hl => refine Turn.of_setLoop hl ?_ ?_ (fun _ ↦ rfl) i <;> rfl
    | emptied | entry | joined | finished => exact .rest rfl rfl
  | poll hi hu hn hr hl => refine Turn.of_setLoop hl ?_ ?_ (fun _ ↦ rfl) i <;> rfl
  | @loop j b l hi ha hl =>
    by_cases hij : i = j
    · subst hij
      refine .step b (by rw [setLoop_self, hl]) ?_
      cases b with
      | testQuit =>
        simp only [beside, setLoop]
        split <;> rfl
      | swap | endCalling => simp [beside, setLoop, vector]
      | _ => rfl
    · refine .rest (by rw [setLoop_of_ne hij, (s.beside_kept j b).2]) ?_
      cases b with
      | testQuit =>
        simp only [beside, setLoop]
        split <;> rfl
      | swap | endCalling => simp [beside, setLoop, hij]
      | _ => rfl
  | @exit k hk hx hs hu =>
    by_cases hij : i = some k
    · subst hij
      exact .exit k rfl rfl hs (setLoop_self ..) rfl
    · exact .rest (setLoop_of_ne hij) rfl
  | abort | leave | accept | send | shutdown | hold | drop | assign | retrieve | handle
    | handleAccept | destroy => exact .rest rfl rfl

theorem Turn.control (h : Turn s a u i) (hc : (s.loops i).Control) : (u.loops i).Control := by
  cases h with
  | rest hl => exact hl ▸ hc
  | step b hl => exact hc.step hl
  | exit k hi ha hs hl => exact hl ▸ ⟨hc.calling, hc.owing, hc.vector⟩

theorem Turn.idle (h : Turn s a u i) (hidle : s.batch i ≠ [] → ∃ b, (s.loops i).stage = .running b)
    (hne : u.batch i ≠ []) : ∃ b, (u.loops i).stage = .running b := by
  cases h with
  | rest hl hb =>
    rw [hl]
    exact hidle (hb ▸ hne)
  | exit k hi ha hs hl hb =>
    rw [hl]
    exact hidle (hb ▸ hne)
  | step b hl hb =>
    rw [hb] at hne
    cases b with
    | swap =>
      obtain ⟨-, hl⟩ := EventLoop.step_swap.mp hl
      exact ⟨false, by rw [← hl]⟩
    | endCalling => exact absurd rfl hne
    | beginFunctor j =>
      obtain ⟨-, hl⟩ := EventLoop.step_beginFunctor.mp hl
      exact ⟨true, by rw [← hl]⟩
    | endFunctor =>
      obtain ⟨-, hl⟩ := EventLoop.step_endFunctor.mp hl
      exact ⟨false, by rw [← hl]⟩
    | append t j =>
      obtain ⟨-, hl⟩ := EventLoop.step_append.mp hl
      rw [← hl]
      exact hidle hne
    | storeQuit t =>
      obtain ⟨-, hl⟩ := EventLoop.step_storeQuit.mp hl
      rw [← hl]
      exact hidle hne
    | wakeup t =>
      obtain ⟨-, hl⟩ := EventLoop.step_wakeup.mp hl
      rw [← hl]
      exact hidle hne
    | enter | clearQuit | testQuit | pollReturn | handleRead | beginCalling =>
      obtain ⟨b, hrun⟩ := hidle hne
      simp [EventLoop.step, EventLoop.standsAt, hrun] at hl

theorem Turn.taken (h : Turn s a u i) (htaken : ∀ j ∈ (s.loops i).functors, j ∈ s.batch i) :
    ∀ j ∈ (u.loops i).functors, j ∈ u.batch i := by
  cases h with
  | rest hl hb =>
    rw [hl, hb]
    exact htaken
  | exit k hi ha hs hl hb =>
    rw [hl, hb]
    exact htaken
  | step b hl hb =>
    rw [hb]
    cases EventLoop.step_queue hl with
    | append t j hf hp =>
      rw [hf]
      exact htaken
    | beginFunctor j hf hp =>
      intro k hk
      exact htaken k (by rw [hf]; exact List.mem_cons_of_mem j hk)
    | swap hs hf hp =>
      rw [hf]
      exact fun _ hk ↦ hk
    | other b hb' hf hp =>
      rw [hf]
      cases b with
      | endCalling =>
        obtain ⟨⟨-, hnil⟩, -⟩ := EventLoop.step_endCalling.mp hl
        simp [hnil]
      | swap => simp [EventLoop.Act.onQueue] at hb'
      | _ => exact htaken

inductive Restacks (s : Reactors T) (t : T) : Act T → List (Activity T) → Prop
  | frame {io : Reply} {c : ℕ} {f : Frame T} {fs : List (Activity T)}
      (hst : s.stack t = .conn c f :: fs) : Restacks s t (.exec t io)
        ((f.exec (s.site c t) (s.conn c) io).frames.map (.conn c) ++ fs)
  | leave {io : Reply} {fs : List (Activity T)} (hst : s.stack t = .userCode :: fs) :
      Restacks s t (.exec t io) fs
  | accept {io : Reply} {fs : List (Activity T)} (hst : s.stack t = .newConnection :: fs)
      (ht : t = s.base) : Restacks s t (.exec t io)
        (s.accept.runInLoop t s.map.accepted .connectEstablished :: fs)
  | item {io : Reply} {c : ℕ} {items : List ℕ} {fs : List (Activity T)}
      (hst : s.stack t = .destructor (c :: items) :: fs) : Restacks s t (.exec t io)
        (s.runInLoop t c .connectDestroyed :: .destructor items :: fs)
  | destroy {io : Reply} {f : Activity T} {fs gs : List (Activity T)} (hst : s.stack t = f :: fs)
      (hf : f.destroys = true) (hgs : gs = [] ∨ ∃ k, gs = [.quit k] ∨ gs = [.join k]) :
      Restacks s t (.exec t io) (gs ++ fs)
  | call {a : Act T} {c : ℕ} {f : Frame T} (hf : f.mild = true) (hr : s.reaches t c = true)
      (ha : ∀ d, s.givesUp d a = ∅) : Restacks s t a (.conn c f :: s.stack t)
  | event {i : Option ℕ} {accepts : Bool} {c : ℕ} {revents : BitVec 32}
      (hst : s.stack t = []) : Restacks s t (.handleEvent i accepts) [.conn c (.handleEvent revents)]
  | acceptor {i : Option ℕ} {accepts : Bool} {fs : List (Activity T)} (hst : s.stack t = [])
      (hfs : fs = [] ∨ fs = [.newConnection]) : Restacks s t (.handleEvent i accepts) fs
  | begin {i : Option ℕ} {j : Job T} (hst : s.stack t = []) (ht : t = s.threadId i)
      (hj : j ∈ (s.loops i).functors) : Restacks s t (.loop i (.beginFunctor j)) [j.activity]
  | destructor {items : List ℕ} (ht : t = s.base) (hs : s.serving = true)
      (hp : items.Perm s.held) : Restacks s t (.destroy items) (.destructor items :: s.stack t)

theorem Does.restacks (h : Does s a u) : u.stack = s.stack ∨
    ∃ t fs, Restacks s t a fs ∧ u.stack = Function.update s.stack t fs := by
  cases h with
  | frame hst ho hf hio hu =>
    refine Or.inr ⟨_, _, .frame hst, ?_⟩
    rw [← hu.untouched.2.2.2.2.1]
    rfl
  | leave hst ho => exact Or.inr ⟨_, _, .leave hst, rfl⟩
  | accept hst ho ht => exact Or.inr ⟨_, _, .accept hst ht, rfl⟩
  | destruct hst ho hf hu =>
    right
    cases exec_destroys hf hu with
    | emptied => exact ⟨_, _, .destroy hst rfl (Or.inr ⟨0, Or.inl rfl⟩), rfl⟩
    | entry c items => exact ⟨_, _, .item hst, rfl⟩
    | stored hk hl => exact ⟨_, _, .destroy hst rfl (Or.inr ⟨_, Or.inr rfl⟩), rfl⟩
    | joined hf' hx => exact ⟨_, _, .destroy hst hf (Or.inr ⟨_, Or.inl rfl⟩), rfl⟩
    | finished hk => exact ⟨_, _, .destroy hst rfl (Or.inl rfl), rfl⟩
  | send hu hr => exact Or.inr ⟨_, _, .call rfl hr fun _ ↦ rfl, rfl⟩
  | shutdown hu hr => exact Or.inr ⟨_, _, .call rfl hr fun _ ↦ rfl, rfl⟩
  | @handle i accepts woken c revents es hi he hs hu =>
    have hst := (unoccupied_iff.mp hu).2
    refine Or.inr ⟨s.threadId i, [.conn c (.handleEvent revents)], .event hst, ?_⟩
    rw [← hst]
    rfl
  | handleAccept hi he hs hu hfs => exact Or.inr ⟨_, _, .acceptor (unoccupied_iff.mp hu).2 hfs, rfl⟩
  | @loop i b l hi ha hl =>
    cases b with
    | beginFunctor j =>
      obtain ⟨⟨-, hj⟩, -⟩ := EventLoop.step_beginFunctor.mp hl
      refine Or.inr ⟨_, _, .begin (unoccupied_iff.mp ha).2 rfl ?_, rfl⟩
      rw [hj]
      exact List.mem_cons_self
    | testQuit =>
      left
      simp only [beside, setLoop]
      split <;> rfl
    | _ => exact Or.inl rfl
  | destroy hs hu hp => exact Or.inr ⟨_, _, .destructor rfl hs hp, rfl⟩
  | abort | hold | drop | assign | retrieve | poll | exit => exact Or.inl rfl

theorem mild_runInLoop {f : Functor T} : (s.runInLoop t c f).mild = true :=
  Frame.mild_runInLoop _ f

theorem Restacks.shielded {fs : List (Activity T)} (h : Restacks s t a fs) (hs : Shielded (s.stack t))
    (he : ∀ items, .destructor items ∈ s.stack t → s.serving = false) : Shielded fs := by
  cases h with
  | @frame io c f fs hst =>
    rw [hst] at hs
    refine hs.2.replace fun ⟨g, hg, hmild⟩ ↦ hs.1 ?_
    cases hf : f.mild with
    | true => simp [Frame.exec_mild hf hg] at hmild
    | false => exact hf
  | leave hst =>
    rw [hst] at hs
    exact hs.2
  | accept hst ht =>
    rw [hst] at hs
    exact hs.2.push mild_runInLoop
  | item hst =>
    rw [hst] at hs
    exact Shielded.push (show Shielded (_ :: _) from ⟨fun _ ↦ hs.1 rfl, hs.2⟩) mild_runInLoop
  | @destroy io f fs gs hst hf hgs =>
    rw [hst] at hs
    have hnone : ∀ items, .destructor items ∉ fs := hs.1 (by cases f <;> simp_all [Activity.mild, Activity.destroys])
    rcases hgs with rfl | ⟨k, rfl | rfl⟩
    · exact hs.2
    · exact ⟨fun _ ↦ hnone, hs.2⟩
    · exact ⟨fun _ ↦ hnone, hs.2⟩
  | call hf hr ha => exact hs.push hf
  | event hst => exact ⟨by simp, trivial⟩
  | acceptor hst hfs =>
    rcases hfs with rfl | rfl
    · trivial
    · exact ⟨by simp, trivial⟩
  | begin hst ht hj => exact ⟨by simp, trivial⟩
  | destructor ht hserv hp =>
    refine ⟨fun _ items hmem ↦ ?_, hs⟩
    simp [he items hmem] at hserv

theorem Restacks.removing {fs : List (Activity T)} (h : Restacks s t a fs)
    (hr : ∀ t c, .conn c .removeConnectionInLoop ∈ s.stack t → t = s.base)
    (hq : ∀ i c, .removeConnectionInLoop c ∈ (s.loops i).waiting → i = none)
    (hmem : .conn c .removeConnectionInLoop ∈ fs) : t = s.base := by
  have hold : ∀ {f : Activity T} {fs : List (Activity T)}, s.stack t = f :: fs →
      .conn c .removeConnectionInLoop ∈ fs → t = s.base := by
    intro f fs hst hmem
    exact hr t c (by rw [hst]; exact List.mem_cons_of_mem f hmem)
  have hrun : ∀ {d g} {v : Reactors T}, .conn c .removeConnectionInLoop ≠ v.runInLoop t d g := by
    intro d g v
    simp only [runInLoop, Frame.runInLoop]
    split <;> simp
  cases h with
  | @frame io d f fs hst =>
    rcases List.mem_append.mp hmem with hmem | hmem
    · obtain ⟨g, hg, heq⟩ := List.mem_map.mp hmem
      obtain ⟨-, rfl⟩ := Activity.conn.inj heq
      simpa [site] using Frame.exec_removes hg
    · exact hold hst hmem
  | leave hst => exact hold hst hmem
  | accept hst ht => exact ht
  | item hst =>
    rcases List.mem_cons.mp hmem with heq | hmem
    · exact absurd heq hrun
    · rcases List.mem_cons.mp hmem with heq | hmem
      · simp at heq
      · exact hold hst hmem
  | destroy hst hf hgs =>
    rcases hgs with rfl | ⟨k, rfl | rfl⟩ <;> exact hold hst (by simpa using hmem)
  | call hf _ _ =>
    rcases List.mem_cons.mp hmem with heq | hmem
    · obtain ⟨-, rfl⟩ := Activity.conn.inj heq
      simp [Frame.mild] at hf
    · exact hr t c hmem
  | event hst => simp at hmem
  | acceptor hst hfs => rcases hfs with rfl | rfl <;> simp at hmem
  | @begin i j hst ht hj =>
    cases j with
    | removeConnectionInLoop d => exact ht.trans (by rw [hq i d (List.mem_append_left _ hj)]; rfl)
    | conn d f => simp [Job.activity] at hmem
    | foreign n => simp [Job.activity] at hmem
  | destructor ht _ _ => exact ht

theorem Sheltered.alone (hs : s.Sheltered) {v : T} {f : Activity T} {fs : List (Activity T)}
    (hst : s.stack t = f :: fs) (ht : t = s.base) (hf : f.mild = false) {items : List ℕ}
    (hmem : .destructor items ∈ Function.update s.stack t fs v) : False := by
  by_cases hv : v = t
  · subst hv
    rw [Function.update_self] at hmem
    have hshield := hs.shielded v
    rw [hst] at hshield
    exact hshield.1 hf items hmem
  · rw [Function.update_of_ne hv] at hmem
    exact hv ((hs.emptying v items hmem).1.trans ht.symm)

theorem mem_update_append {v : T} {f : Activity T} (gs : List (Activity T))
    {fs : List (Activity T)} (hf : f ∉ gs) (h : f ∈ Function.update s.stack t (gs ++ fs) v) :
    f ∈ Function.update s.stack t fs v := by
  by_cases hv : v = t
  · subst hv
    rw [Function.update_self] at h ⊢
    exact (List.mem_append.mp h).resolve_left hf
  · rwa [Function.update_of_ne hv] at h ⊢

theorem mem_of_update_tail {v : T} {f g : Activity T} {fs : List (Activity T)}
    (hst : s.stack t = g :: fs) (h : f ∈ Function.update s.stack t fs v) : f ∈ s.stack v := by
  by_cases hv : v = t
  · subst hv
    rw [Function.update_self] at h
    rw [hst]
    exact List.mem_cons_of_mem g h
  · rwa [Function.update_of_ne hv] at h

omit [DecidableEq T] in
theorem held_iff : c ∈ s.held ↔ c < s.map.accepted ∧ s.map.connections_ (s.map.names c) = some c := by
  simp [held]

theorem Does.emptying (h : Does s a u) (hs : s.Sheltered) {items : List ℕ}
    (hmem : .destructor items ∈ u.stack t) : t = u.base ∧ u.serving = false ∧ items.Nodup ∧
      ∀ c ∈ items, u.map.connections_ (u.map.names c) = some c := by
  have hbase : u.base = s.base := congrFun h.kept.threadId none
  rw [hbase]
  cases h with
  | @frame v io d f fs u hst ho hf hio hu =>
    obtain ⟨-, hmap, -, -, hstack, -⟩ := hu.untouched
    obtain ⟨-, -, -, hserv⟩ := hu.holding
    have hold : .destructor items ∈ Function.update s.stack v fs t := by
      refine mem_update_append ((f.exec (s.site d v) (s.conn d) io).frames.map (.conn d)) ?_ ?_
      · simp
      · rw [← hstack]
        exact hmem
    simp only [commit, hserv]
    split
    · next herased =>
      obtain rfl := Frame.exec_erased herased
      have hv : v = s.base := hs.removing v d (by rw [hst]; exact List.mem_cons_self)
      exact (hs.alone hst hv rfl hold).elim
    · rw [hmap]
      exact hs.emptying t items (mem_of_update_tail hst hold)
  | leave hst ho => exact hs.emptying t items (mem_of_update_tail hst hmem)
  | @accept v io fs hst ho ht =>
    have hold : .destructor items ∈ Function.update s.stack v fs t := by
      refine mem_update_append [s.accept.runInLoop v s.map.accepted .connectEstablished] ?_ hmem
      simp [runInLoop]
    exact (hs.alone hst ht rfl hold).elim
  | @destruct v io f fs u hst ho hf hu =>
    have hfs : ∀ gs, .destructor items ∉ gs → u.stack = Function.update s.stack v (gs ++ fs) →
        u.serving = s.serving → u.map = s.map → t = s.base ∧ u.serving = false ∧ items.Nodup ∧
          ∀ c ∈ items, u.map.connections_ (u.map.names c) = some c := by
      intro gs hgs hstack hserv hmap
      rw [hserv, hmap]
      rw [hstack] at hmem
      exact hs.emptying t items (mem_of_update_tail hst (mem_update_append _ hgs hmem))
    cases exec_destroys hf hu with
    | emptied => exact hfs [.quit 0] (by simp) rfl rfl rfl
    | @stored k l hk hl => exact hfs [.join _] (by simp) rfl rfl rfl
    | @joined f k hf' hx => exact hfs [.quit _] (by simp) rfl rfl rfl
    | finished hk => exact hfs [] (by simp) rfl rfl rfl
    | entry c items' =>
      obtain ⟨hv, hserv, hnodup, hentries⟩ :=
        hs.emptying v (c :: items') (by rw [hst]; exact List.mem_cons_self)
      have hcases : t = v ∧ items = items' := by
        have hmem' : .destructor items ∈ Function.update s.stack v (.destructor items' :: fs) t := by
          refine mem_update_append [s.runInLoop v c .connectDestroyed] ?_ hmem
          simp [runInLoop]
        by_cases heq : items = items'
        · refine ⟨?_, heq⟩
          by_contra ht
          rw [Function.update_of_ne ht] at hmem'
          exact ht ((hs.emptying t items hmem').1.trans hv.symm)
        · have hold := mem_update_append [.destructor items'] (by simpa using heq) hmem'
          exact (hs.alone hst hv rfl hold).elim
      obtain ⟨rfl, rfl⟩ := hcases
      rw [List.nodup_cons] at hnodup
      refine ⟨hv, hserv, hnodup.2, fun d hd ↦ ?_⟩
      have hd' := hentries d (List.mem_cons_of_mem c hd)
      have hne : s.map.names d ≠ s.map.names c := by
        intro heq
        rw [heq, hentries c List.mem_cons_self] at hd'
        obtain rfl := Option.some.inj hd'
        exact hnodup.1 hd
      exact (Function.update_of_ne hne ..).trans hd'
  | @send v d data len hu hr =>
    refine hs.emptying t items ?_
    simpa using mem_update_append [.conn d (.send data len)] (by simp) hmem
  | @shutdown v d hu hr =>
    refine hs.emptying t items ?_
    simpa using mem_update_append [.conn d .shutdown] (by simp) hmem
  | @handle i accepts woken d revents es hi he hst hu =>
    refine hs.emptying t items ?_
    simpa [advance] using mem_update_append (s := s) [.conn d (.handleEvent revents)] (by simp) hmem
  | @handleAccept i accepts woken revents fs es hi he hst hu hfs =>
    refine hs.emptying t items ?_
    by_cases hv : t = s.threadId i
    · subst hv
      rw [setStack_self] at hmem
      rcases hfs with rfl | rfl <;> simp at hmem
    · rw [setStack_of_ne hv] at hmem
      exact hmem
  | @loop i b l hi ha hl =>
    obtain ⟨hmap, -, -, -, hserv, -⟩ := s.beside_untouched i b
    have hold : .destructor items ∈ s.stack t := by
      cases b with
      | testQuit =>
        simp only [beside, setLoop] at hmem
        split at hmem <;> exact hmem
      | beginFunctor j =>
        by_cases hv : t = s.threadId i
        · subst hv
          cases j <;> simp [beside, setLoop, Job.activity] at hmem
        · simpa only [beside, setLoop, setStack_of_ne hv] using hmem
      | _ => exact hmem
    change _ ∧ (s.beside i b).serving = false ∧ _ ∧
      ∀ c ∈ items, (s.beside i b).map.connections_ ((s.beside i b).map.names c) = some c
    rw [hmap, hserv]
    exact hs.emptying t items hold
  | @destroy items' hserv hu hp =>
    have hnone : ∀ v items, .destructor items ∉ s.stack v := by
      intro v items hmem
      simp [(hs.emptying v items hmem).2.1] at hserv
    have hv : t = s.base := by
      by_contra hv
      simp only [push, setStack_of_ne hv] at hmem
      exact hnone t items hmem
    subst hv
    simp only [push, setStack_self, List.mem_cons, Activity.destructor.injEq] at hmem
    obtain rfl := hmem.resolve_right (hnone _ items)
    refine ⟨rfl, rfl, hp.nodup_iff.mpr ?_, fun c hc ↦ (held_iff.mp (hp.mem_iff.mp hc)).2⟩
    exact List.Nodup.filter _ List.nodup_range
  | abort | hold | drop | assign | retrieve | poll | exit => exact hs.emptying t items hmem

/-- How a functor comes to wait in loop `i` after a step: it waited before, it is the user's,
or a frame queued it. -/
inductive Queues (s : Reactors T) (i : Option ℕ) (j : Job T) : Act T → Prop
  | waited {a : Act T} (h : j ∈ (s.loops i).waiting) : Queues s i j a
  | foreign {a : Act T} (h : j.isForeign = true) : Queues s i j a
  | queued {t : T} {io : Reply} {c : ℕ} {f : Frame T} {fs : List (Activity T)} {g : Functor T}
      (hst : s.stack t = .conn c f :: fs) (hq : (f.exec (s.site c t) (s.conn c) io).queued = some g)
      (hj : j = .conn c g) : Queues s i j (.exec t io)
  | posted {t : T} {io : Reply} {c : ℕ} {f : Frame T} {fs : List (Activity T)}
      (hst : s.stack t = .conn c f :: fs) (hp : (f.exec (s.site c t) (s.conn c) io).posted = true)
      (hj : j = .removeConnectionInLoop c) (hi : i = none) : Queues s i j (.exec t io)

theorem Queues.of_setLoop {k : Option ℕ} {l : EventLoop T (Job T)} {j : Job T}
    (hj : j ∈ (u.loops i).waiting) (hu : u.loops = (s.setLoop k l).loops)
    (hl : ∀ j ∈ l.waiting, j ∈ (s.loops k).waiting ∨ j.isForeign = true) : Queues s i j a := by
  rw [hu] at hj
  by_cases hik : i = k
  · subst hik
    rw [setLoop_self] at hj
    rcases hl j hj with hj | hj
    · exact .waited hj
    · exact .foreign hj
  · rw [setLoop_of_ne hik] at hj
    exact .waited hj

theorem Does.queues (h : Does s a u) (hc : ∀ i, (s.loops i).Control) {j : Job T}
    (hj : j ∈ (u.loops i).waiting) : Queues s i j a := by
  cases h with
  | frame hst ho hf hio hu =>
    rcases hu.mem_waiting hj with hj | ⟨g, hq, hj⟩ | ⟨hp, hj, hi⟩
    · exact .waited hj
    · exact .queued hst hq hj
    · exact .posted hst hp hj hi
  | destruct hst ho hf hu =>
    cases exec_destroys hf hu with
    | stored hk hl =>
      obtain ⟨-, hl⟩ := EventLoop.step_storeQuit.mp hl
      refine .of_setLoop hj rfl fun k hk ↦ Or.inl ?_
      rw [← hl] at hk
      exact hk
    | emptied | entry | joined | finished => exact .waited hj
  | poll hi hu hn hr hl =>
    obtain ⟨-, hl⟩ := EventLoop.step_pollReturn.mp hl
    refine .of_setLoop hj rfl fun k hk ↦ Or.inl ?_
    rw [← hl] at hk
    exact hk
  | @loop m b l hi ha hl =>
    refine .of_setLoop hj (by rw [setLoop, (s.beside_kept m b).2]; rfl) fun k hk ↦ ?_
    rcases EventLoop.step_waiting (hc m) hl with ⟨t, j', rfl, hw⟩ | ⟨j', -, hw⟩ | ⟨-, hw⟩
    · rw [hw] at hk
      rcases List.mem_append.mp hk with hk | hk
      · exact Or.inl hk
      · obtain rfl := List.mem_singleton.mp hk
        simp only [allows, Bool.and_eq_true] at ha
        exact Or.inr ha.1.2
    · exact Or.inl (by rw [hw]; exact List.mem_cons_of_mem _ hk)
    · exact Or.inl (hw ▸ hk)
  | @exit m hm hx hs hu =>
    refine .of_setLoop hj (k := some m) rfl fun k hk ↦ Or.inl ?_
    simp only [EventLoop.waiting, List.append_nil] at hk
    exact List.mem_append_left _ hk
  | abort | leave | accept | send | shutdown | hold | drop | assign | retrieve | handle
    | handleAccept | destroy => exact .waited hj

theorem Does.serving (h : Does s a u) : u.serving = s.serving ∨ ∃ items, a = .destroy items := by
  cases h with
  | frame hst ho hf hio hu => exact Or.inl hu.holding.2.2.2
  | destruct hst ho hf hu =>
    left
    cases exec_destroys hf hu <;> rfl
  | @loop i b l hi ha hl => exact Or.inl (s.beside_untouched i b).2.2.2.2.1
  | destroy => exact Or.inr ⟨_, rfl⟩
  | abort | leave | accept | send | shutdown | hold | drop | assign | retrieve | poll | handle
    | handleAccept | exit => exact Or.inl rfl

theorem Does.removals (h : Does s a u) (hs : s.Sheltered) (ht : s.Timely a)
    (hj : .removeConnectionInLoop c ∈ (u.loops i).waiting) : i = none ∧ u.serving = true := by
  have hkeep : s.serving = true → (∀ i c, .removeConnectionInLoop c ∉ (s.loops i).waiting) ∨
      u.serving = true := by
    intro hserv
    rcases h.serving with heq | ⟨items, rfl⟩
    · exact Or.inr (heq.trans hserv)
    · exact Or.inl ht
  cases h.queues hs.control hj with
  | waited hj =>
    obtain ⟨hi, hserv⟩ := hs.removals i c hj
    exact ⟨hi, (hkeep hserv).resolve_left fun hnone ↦ hnone i c hj⟩
  | foreign hj => simp [Job.isForeign] at hj
  | queued hst hq hj => simp at hj
  | @posted t io d f fs hst hp hj hi =>
    obtain ⟨rfl, hbase⟩ := Frame.exec_posted hp
    have hserv : s.serving = true := ht (by simpa [site] using hbase) ⟨d, by rw [hst]; rfl⟩
    refine ⟨hi, ?_⟩
    rcases h.serving with heq | ⟨items, hitems⟩
    · exact heq.trans hserv
    · simp at hitems

theorem holds_runInLoop {f : Functor T} (hf : f.isRaw = false)
    (h : (s.runInLoop t d f).leadsTo c) : (s.runInLoop t d f).holds c = true := by
  obtain ⟨rfl, -⟩ := h
  simp only [runInLoop, Frame.runInLoop]
  split <;> simp [Activity.holds, Frame.isRaw, hf]

theorem Does.unpursued (h : Does s a u) (hs : s.Sheltered) (hc : (s.owners c).Nonempty)
    (hgive : s.owners c ⊆ s.givesUp c a) (hun : s.Unpursued c a.ended) : u.Unpursued c [] := by
  refine ⟨fun i _ j hj ↦ ?_, fun v g hg hlead ↦ ?_⟩
  · cases h.queues hs.control hj with
    | waited hwait =>
      by_cases hi : i ∈ a.ended
      · -- the loop has been destroyed with what waited in it
        cases a with
        | exit k =>
          obtain rfl := List.mem_singleton.mp hi
          cases h with
          | exit hk hx hstop hu =>
            have hnil : (s.loops (some k)).functors = [] := by
              by_contra hne
              obtain ⟨b, hb⟩ := (hs.control (some k)).vector hne
              simp [hstop] at hb
            simp [EventLoop.waiting, hnil] at hj
        | _ => simp [Act.ended] at hi
      · exact hun.1 i hi j hwait
    | foreign hj => cases j <;> simp_all [Job.isForeign, Job.isRawOf]
    | @queued t io d f fs g hst hq hj =>
      subst hj
      by_contra hraw
      simp only [Job.isRawOf, Bool.and_eq_true, decide_eq_true_eq, Bool.not_eq_false] at hraw
      obtain ⟨rfl, hraw⟩ := hraw
      have hends : f.ends = false := by
        rw [← Bool.not_eq_true]
        intro hends
        simp [(Frame.exec_ends _ _ _ hends).2.1] at hq
      have hhold := hun.2 t (.conn d f) (by rw [hst]; exact List.mem_cons_self) ⟨rfl, hends⟩
      simp only [Activity.holds, Bool.and_eq_true, Bool.not_eq_true'] at hhold
      simp [Frame.exec_queued_raw hhold.2 hq] at hraw
    | posted hst hp hj => simp [hj, Job.isRawOf]
  · rcases h.restacks with heq | ⟨t, gs, hr, heq⟩
    · exact hun.2 v g (heq ▸ hg) hlead
    rw [heq] at hg
    by_cases hv : v = t
    · subst hv
      rw [Function.update_self] at hg
      have hold : ∀ {f : Activity T} {fs : List (Activity T)}, s.stack v = f :: fs → g ∈ fs →
          g.holds c = true := by
        intro f fs hst hmem
        exact hun.2 v g (by rw [hst]; exact List.mem_cons_of_mem f hmem) hlead
      cases hr with
      | @frame io d f fs hst =>
        rcases List.mem_append.mp hg with hg | hg
        · obtain ⟨k, hk, rfl⟩ := List.mem_map.mp hg
          obtain ⟨rfl, hkends⟩ := hlead
          have hends : f.ends = false := by
            rw [← Bool.not_eq_true]
            intro hends
            simp [(Frame.exec_ends _ _ _ hends).1] at hk
          have hhold := hun.2 v (.conn d f) (by rw [hst]; exact List.mem_cons_self) ⟨rfl, hends⟩
          simp only [Activity.holds, Bool.and_eq_true, Bool.not_eq_true'] at hhold ⊢
          refine ⟨by simp, (Frame.exec_raw hhold.2 hk).resolve_right ?_⟩
          simp [hkends]
        · exact hold hst hg
      | leave hst => exact hold hst hg
      | accept hst ht =>
        rcases List.mem_cons.mp hg with rfl | hg
        · exact holds_runInLoop rfl hlead
        · exact hold hst hg
      | item hst =>
        rcases List.mem_cons.mp hg with rfl | hg
        · exact holds_runInLoop rfl hlead
        · rcases List.mem_cons.mp hg with rfl | hg
          · exact absurd hlead not_false
          · exact hold hst hg
      | destroy hst hf hgs =>
        rcases List.mem_append.mp hg with hg | hg
        · rcases hgs with rfl | ⟨k, rfl | rfl⟩
          · simp at hg
          · obtain rfl := List.mem_singleton.mp hg
            exact absurd hlead not_false
          · obtain rfl := List.mem_singleton.mp hg
            exact absurd hlead not_false
        · exact hold hst hg
      | call hf hr ha =>
        obtain ⟨o, ho⟩ := hc
        have hnone := hgive ho
        rw [ha c] at hnone
        exact absurd hnone (Set.notMem_empty o)
      | event hst =>
        obtain rfl := List.mem_singleton.mp hg
        obtain ⟨rfl, -⟩ := hlead
        simp [Activity.holds, Frame.isRaw]
      | acceptor hst hfs =>
        rcases hfs with rfl | rfl
        · simp at hg
        · obtain rfl := List.mem_singleton.mp hg
          exact absurd hlead not_false
      | @begin i j hst ht hj =>
        obtain rfl := List.mem_singleton.mp hg
        have hraw := hun.1 i (by simp [Act.ended]) j (List.mem_append_left _ hj)
        cases j with
        | conn d f =>
          obtain ⟨rfl, -⟩ := hlead
          simpa [Job.activity, Activity.holds, Frame.isRaw, Job.isRawOf] using hraw
        | removeConnectionInLoop d =>
          obtain ⟨rfl, -⟩ := hlead
          simp [Job.activity, Activity.holds, Frame.isRaw]
        | foreign n => exact absurd hlead not_false
      | destructor ht hserv hp =>
        rcases List.mem_cons.mp hg with rfl | hg
        · exact absurd hlead not_false
        · exact hun.2 v g hg hlead
    · rw [Function.update_of_ne hv] at hg
      exact hun.2 v g hg hlead

omit [DecidableEq T] in
theorem owned_of_unpursued (htaken : ∀ i, ∀ j ∈ (u.loops i).functors, j ∈ u.batch i)
    (hun : u.Unpursued c []) (h : u.Named c) : (u.owners c).Nonempty := by
  cases h with
  | entry h => exact ⟨.entry, _, h⟩
  | copied h => exact ⟨.user _, h⟩
  | running hj h => exact ⟨.running _, _, hj, h⟩
  | called hf h => exact ⟨.call _, _, hf, hun.2 _ _ hf h⟩
  | @waiting i j hj h =>
    have hraw := hun.1 i (by simp) j hj
    have hbinds : j.binds c = true := by
      cases j with
      | conn d f =>
        obtain rfl : d = c := h
        simpa [Job.binds, Job.isRawOf] using hraw
      | removeConnectionInLoop d =>
        obtain rfl : d = c := h
        simp [Job.binds]
      | foreign n => exact absurd h not_false
    rcases List.mem_append.mp hj with hj | hj
    · exact ⟨.running i, j, htaken i j hj, hbinds⟩
    · exact ⟨.pending i, j, hj, hbinds⟩

theorem Does.live (h : Does s a u) : s.live ⊆ u.live := by
  intro c hc
  cases h with
  | frame hst ho hf hio hu => exact hu.holding.2.2.1 ▸ hc
  | accept => exact Set.mem_insert_of_mem _ hc
  | destruct hst ho hf hu => cases exec_destroys hf hu <;> exact hc
  | @loop i b l hi ha hl => exact (s.beside_untouched i b).2.2.2.1 ▸ hc
  | abort | leave | send | shutdown | hold | drop | assign | retrieve | poll | handle | handleAccept
    | destroy | exit => exact hc

theorem Does.live_cases (h : Does s a u) (hc : c ∈ u.live) : c ∈ s.live ∨ c < u.map.accepted := by
  cases h with
  | frame hst ho hf hio hu => exact Or.inl (hu.holding.2.2.1 ▸ hc)
  | accept hst ho ht =>
    rcases hc with rfl | hc
    · exact Or.inr (Nat.lt_succ_self _)
    · exact Or.inl hc
  | destruct hst ho hf hu => cases exec_destroys hf hu <;> exact Or.inl hc
  | @loop i b l hi ha hl => exact Or.inl ((s.beside_untouched i b).2.2.2.1 ▸ hc)
  | abort | leave | send | shutdown | hold | drop | assign | retrieve | poll | handle | handleAccept
    | destroy | exit => exact Or.inl hc

/-- A connection that is alive and that something leads to stays alive. -/
theorem Does.keeps (h : Does s a u) (hs : s.Sheltered) (hG : s.Considerate a) (hc : c ∈ s.live)
    (hn : u.Named c) : c ∈ u.settle.live := by
  refine ⟨h.live hc, ?_⟩
  by_cases hgive : s.owners c ⊆ s.givesUp c a
  · have htaken : ∀ i, ∀ j ∈ (u.loops i).functors, j ∈ u.batch i :=
      fun i ↦ (h.turn i).taken (hs.taken i)
    exact owned_of_unpursued htaken (h.unpursued hs (hs.owned c hc) hgive (hG.1 c hc hgive)) hn
  · obtain ⟨o, ho, hno⟩ := Set.not_subset.mp hgive
    exact h.owned hs.idle ho hno

omit [DecidableEq T] in
theorem Named.of_settle (h : s.settle.Named c) : s.Named c := by
  rcases h.of_frame (s := s) rfl rfl rfl rfl with h | ⟨t, f, hf, h⟩
  · exact h
  · exact .called hf h

theorem Does.alive (h : Does s a u) (hs : s.Sheltered) (hG : s.Considerate a) (hn : u.Named c) :
    c ∈ u.settle.live := by
  have hkeep : c ∈ s.live → c ∈ u.settle.live := fun hc ↦ h.keeps hs hG hc hn
  rcases h.named hs.control hn with hn' | hmeets
  · exact hkeep (hs.alive c hn')
  cases hmeets with
  | event he => exact hkeep (hG.2 c _ (by rw [he]; rfl))
  | @item t io items fs hst =>
    have hentry := (hs.emptying t (c :: items) (by rw [hst]; exact List.mem_cons_self)).2.2.2
    exact hkeep (hs.alive c (.entry (hentry c List.mem_cons_self)))
  | @accept t io fs hst hc =>
    cases h with
    | accept hst' ho ht =>
      subst hc
      exact ⟨Set.mem_insert _ _, .entry, _, Function.update_self ..⟩
    | abort hst' hf =>
      rcases hn.of_frame (s := s) rfl rfl rfl rfl with hn | ⟨v, f, hf, hlead⟩
      · exact hkeep (hs.alive c hn)
      · exact hkeep (hs.alive c (.called hf hlead))
    | frame hst' | leave hst' => simp [hst] at hst'
    | destruct hst' ho hf hu =>
      obtain ⟨rfl, -⟩ := List.cons.inj (hst.symm.trans hst')
      simp [Activity.destroys] at hf

theorem Sheltered.step (hs : s.Sheltered) (hG : s.Considerate a) (h : s.step a = some s') :
    s'.Sheltered := by
  obtain ⟨-, u, hdoes, rfl⟩ := step_cases h
  have hserving : ∀ t items, .destructor items ∈ s.stack t → s.serving = false :=
    fun t items hmem ↦ (hs.emptying t items hmem).2.1
  refine ⟨fun i ↦ (hdoes.turn i).control (hs.control i), fun i ↦ (hdoes.turn i).idle (hs.idle i),
    fun i ↦ (hdoes.turn i).taken (hs.taken i), fun c hn ↦ hdoes.alive hs hG hn.of_settle,
    fun c hc ↦ hc.2, fun i c ↦ hdoes.removals hs hG.2, fun t c hmem ↦ ?_,
    fun t items ↦ hdoes.emptying hs, fun t ↦ ?_⟩
  · have hbase : u.settle.base = s.base := congrFun hdoes.kept.threadId none
    rw [hbase]
    rcases hdoes.restacks with heq | ⟨v, fs, hr, heq⟩
    · exact hs.removing t c (heq ▸ hmem)
    · have hmem' : .conn c .removeConnectionInLoop ∈ Function.update s.stack v fs t := heq ▸ hmem
      by_cases hv : t = v
      · subst hv
        rw [Function.update_self] at hmem'
        exact hr.removing hs.removing (fun i c hj ↦ (hs.removals i c hj).1) hmem'
      · rw [Function.update_of_ne hv] at hmem'
        exact hs.removing t c hmem'
  · change Shielded (u.stack t)
    rcases hdoes.restacks with heq | ⟨v, fs, hr, heq⟩
    · exact heq ▸ hs.shielded t
    · rw [heq]
      by_cases hv : t = v
      · subst hv
        rw [Function.update_self]
        exact hr.shielded (hs.shielded t) (hserving t)
      · rw [Function.update_of_ne hv]
        exact hs.shielded t

section

variable {p : Pool T} {name ipPort : String} {fd : ℕ → ℕ} {wc hw : Bool} {mark : ℕ}
  {mem : T → ℕ → Byte} {as : List (Act T)}

omit [DecidableEq T] in
theorem ofPool_not_named : ¬ (ofPool p name ipPort fd wc hw mark mem).Named c := by
  intro h
  cases h with
  | entry h => simp [ofPool, ConnectionMap.ofServer] at h
  | waiting hj h => simp [ofPool, EventLoop.waiting, EventLoop.ofThread] at hj
  | running hj h => simp [ofPool] at hj
  | called hf h => simp [ofPool] at hf
  | copied h => simp [ofPool] at h

omit [DecidableEq T] in
theorem ofPool_sheltered : (ofPool p name ipPort fd wc hw mark mem).Sheltered := by
  refine ⟨fun i ↦ EventLoop.ofThread_control _, ?_, ?_, fun c h ↦ absurd h ofPool_not_named, ?_, ?_,
    ?_, ?_, fun _ ↦ trivial⟩
  · simp [ofPool]
  · simp [ofPool, EventLoop.ofThread]
  · simp [ofPool]
  · simp [ofPool, EventLoop.waiting, EventLoop.ofThread]
  · simp [ofPool]
  · simp [ofPool]

/-- As long as the last owner of a connection never gives it up while a raw pointer to it is
to be used, and the server is neither destroyed before a removal that waits for it nor asked
for one after that, every functor that waits in a loop finds its target. -/
theorem pending_targeted
    (hG : Along step Considerate (ofPool p name ipPort fd wc hw mark mem) as)
    (h : run step (ofPool p name ipPort fd wc hw mark mem) as = some s) : s.Targeted :=
  (run_invariant_along (I := Sheltered) (fun _ _ _ hs hG h ↦ hs.step hG h) ofPool_sheltered hG h).targeted

/-- Where the owners of a connection can be found. -/
structure Located (s : Reactors T) : Prop where
  keyed : s.map.Keyed
  batch : ∀ i ∉ s.indices, s.batch i = []
  owned : ∀ c ∈ s.live, c < s.map.accepted ∧ (s.owners c).Nonempty

theorem Located.step (hs : s.Located) (h : s.step a = some s') : s'.Located := by
  obtain ⟨-, u, hdoes, rfl⟩ := step_cases h
  refine ⟨hdoes.keyed hs.keyed, fun i hi ↦ ?_, fun c hc ↦ ⟨?_, hc.2⟩⟩
  · have hi' : i ∉ s.indices := by
      have hindices : u.settle.indices = s.indices := congrArg loopIndices hdoes.kept.numThreads
      rwa [hindices] at hi
    rw [← hs.batch i hi']
    change u.batch i = s.batch i
    cases hdoes with
    | frame hst ho hf hio hu => exact congrFun hu.holding.1 i
    | destruct hst ho hf hu => cases exec_destroys hf hu <;> rfl
    | @loop j b l hj ha hl =>
      have hij : i ≠ j := by
        rintro rfl
        exact hi' hj
      cases b with
      | testQuit =>
        simp only [beside, setLoop]
        split <;> rfl
      | swap | endCalling => simp [beside, setLoop, hij]
      | _ => rfl
    | abort | leave | accept | send | shutdown | hold | drop | assign | retrieve | poll | handle
      | handleAccept | destroy | exit => rfl
  · rcases hdoes.live_cases hc.1 with hc | hlt
    · exact lt_of_lt_of_le (hs.owned c hc).1 hdoes.kept.accepted
    · exact hlt

omit [DecidableEq T] in
theorem ofPool_located : (ofPool p name ipPort fd wc hw mark mem).Located :=
  ⟨by simp [ofPool, ConnectionMap.ofServer, ConnectionMap.Keyed], fun _ _ ↦ rfl, by simp [ofPool]⟩

def spares (s : Reactors T) (a : Act T) : Bool :=
  decide (∀ c < s.map.accepted, s.map.connections_ (s.map.names c) = some c) &&
    match a with
    | .exec t _ => (t = s.base || s.serving) &&
        decide (∀ f ∈ (s.stack t).head?, ∀ name ∈ s.overwrites f, s.map.connections_ name = none)
    | .handleEvent i _ => decide (∀ e ∈ (s.unhandled i).head?, e.1 = .acceptor)
    | .destroy _ => false
    | _ => true

theorem Located.considerate (hs : s.Located) (h : s.spares a = true) : s.Considerate a := by
  simp only [spares, Bool.and_eq_true, decide_eq_true_eq] at h
  obtain ⟨hmap, ha⟩ := h
  refine ⟨fun c hc hgive ↦ ?_, ?_⟩
  · have hentry : .entry ∈ s.givesUp c a := hgive ⟨_, hmap c (hs.owned c hc).1⟩
    cases a with
    | exec t io =>
      simp only [Bool.and_eq_true, decide_eq_true_eq] at ha
      obtain ⟨f, fs, hst, -, ⟨hcall, -⟩ | ⟨-, name, hname, hc⟩⟩ := hentry
      · simp at hcall
      · rw [ha.2 f (by rw [hst]; rfl) name hname] at hc
        simp at hc
    | drop t d => simp [givesUp] at hentry
    | loop i b => cases b <;> simp [givesUp] at hentry
    | exit k => simp [givesUp] at hentry
    | send | shutdown | hold | assign | retrieve | poll | handleEvent | destroy =>
      exact absurd hentry (Set.notMem_empty _)
  · cases a with
    | exec t io =>
      simp only [Bool.and_eq_true, Bool.or_eq_true, decide_eq_true_eq] at ha
      exact fun hbase _ ↦ ha.1.resolve_left hbase
    | handleEvent i accepts =>
      intro c revents hhead
      simpa using of_decide_eq_true ha (.conn c, revents) hhead
    | destroy items => simp at ha
    | send | shutdown | hold | drop | assign | retrieve | poll | loop | exit => trivial

def deserted (s : Reactors Bool) (c : ℕ) : Bool :=
  s.map.connections_ (s.map.names c) ≠ some c &&
    (s.indices.all fun i ↦ (s.batch i ++ (s.loops i).pendingFunctors_).all fun j ↦ !j.binds c) &&
    [false, true].all fun t ↦ s.copies t c = 0 && (s.stack t).all fun f ↦ !f.holds c

theorem Located.not_live {s : Reactors Bool} (hs : s.Located) (hq : s.Sound)
    (hc : s.deserted c = true) : c ∉ s.live := by
  intro hlive
  obtain ⟨hlt, o, ho⟩ := hs.owned c hlive
  simp only [deserted, Bool.and_eq_true, List.all_eq_true, decide_eq_true_eq, Bool.not_eq_true',
    List.mem_append] at hc
  obtain ⟨⟨hmap, hloops⟩, hthreads⟩ := hc
  cases o with
  | entry =>
    obtain ⟨name, hname⟩ := ho
    obtain rfl := (hs.keyed name c hname).2
    exact hmap hname
  | pending i =>
    obtain ⟨j, hj, hbinds⟩ := ho
    have hi : i ∈ s.indices := by
      have hroutes := hq.queued i j (List.mem_append_right _ hj)
      cases j with
      | conn d f => exact hroutes.2 ▸ hq.routed d hroutes.1
      | removeConnectionInLoop d => exact hroutes.2 ▸ none_mem_indices
      | foreign n => simp [Job.binds] at hbinds
    simp [hloops i hi j (Or.inr hj)] at hbinds
  | running i =>
    obtain ⟨j, hj, hbinds⟩ := ho
    by_cases hi : i ∈ s.indices
    · simp [hloops i hi j (Or.inl hj)] at hbinds
    · simp [hs.batch i hi] at hj
  | call t =>
    obtain ⟨f, hf, hholds⟩ := ho
    have hnone := (hthreads t (by cases t <;> simp)).2 f hf
    simp [hnone] at hholds
  | user t =>
    have hzero := (hthreads t (by cases t <;> simp)).1
    exact absurd hzero (Nat.ne_of_gt ho)

end

section

def lonePool : Pool Bool := ⟨0, Option.isSome, by decide⟩

def pairPool : Pool Bool := ⟨1, Option.isSome, by decide⟩

def plainServer (p : Pool Bool) : Reactors Bool :=
  ofPool p "server" "" (fun c ↦ c) false false 0 fun _ _ ↦ 0

def nothing (t : Bool) : Act Bool := .exec t System.noCall

def acceptsHeld : List (Act Bool) :=
  [.loop none .enter, .loop none .clearQuit, .loop none .testQuit,
    .poll none false [(.acceptor, EPOLLIN)], .handleEvent none true,
    nothing false, nothing false, nothing false,
    .hold false 0 none, .hold true 0 (some false), .drop false 0, nothing false]

def sendsHeld : List (Act Bool) := acceptsHeld ++ [.send true 0 0 1, nothing true, nothing true]

theorem pending_targeted_sendsHeld : Along step Considerate (plainServer lonePool) sendsHeld ∧
    ∃ s, run step (plainServer lonePool) sendsHeld = some s ∧
      .conn 0 (.sendInLoop ⟨0, true, 0, 1⟩) ∈ (s.loops none).waiting ∧ s.Targeted := by
  have hG : Along step Considerate (plainServer lonePool) sendsHeld :=
    Along.imp_invariant (I := Located) (G := fun s a ↦ s.spares a = true)
      (fun _ _ _ hs _ h ↦ hs.step h) (fun _ _ hs ↦ hs.considerate) ofPool_located (by decide +kernel)
  obtain ⟨s, hs, hw⟩ := Option.map_eq_some_iff.mp
    (show (run step (plainServer lonePool) sendsHeld).map (fun s ↦ (s.loops none).waiting) =
      some [.conn 0 (.sendInLoop ⟨0, true, 0, 1⟩)] by decide +kernel)
  exact ⟨hG, s, hs, by simp [hw], pending_targeted hG hs⟩

/-- Before the functor is queued, the end of the stream takes the connection out of the
map; after it, the pointer is dropped. -/
def sendOverdue : List (Act Bool) :=
  acceptsHeld ++ [.send true 0 0 1, nothing true,
    .loop none .beginCalling, .loop none .swap, .loop none .endCalling, .loop none .testQuit,
    .poll none false [(.conn 0, EPOLLIN)], .handleEvent none false, nothing false,
    .exec false { write := .accepted 0, read := .delivered [] },
    nothing false, nothing false, nothing false, nothing false, nothing false, nothing false,
    .loop none .beginCalling, .loop none .swap,
    .loop none (.beginFunctor (.conn 0 .connectDestroyed)), nothing false, nothing false,
    .loop none .endFunctor, .loop none .endCalling, nothing true, .loop none (.wakeup true),
    .drop true 0]

/-- A loop of the pool meets the end of the stream, and the server is destroyed before it
has taken the connection out of the map. -/
def removalOverdue : List (Act Bool) :=
  [.loop none .enter, .loop none .clearQuit, .loop none .testQuit,
    .loop (some 0) .enter, .loop (some 0) .clearQuit, .loop (some 0) .testQuit,
    .poll none false [(.acceptor, EPOLLIN)], .handleEvent none true,
    nothing false, nothing false, .loop (some 0) (.wakeup false),
    .poll (some 0) true [], .loop (some 0) .handleRead, .loop (some 0) .beginCalling,
    .loop (some 0) .swap, .loop (some 0) (.beginFunctor (.conn 0 .connectEstablished)),
    nothing true, nothing true, nothing true, .loop (some 0) .endFunctor,
    .loop (some 0) .endCalling, .loop (some 0) .testQuit,
    .poll (some 0) false [(.conn 0, EPOLLIN)], .handleEvent (some 0) false, nothing true,
    .exec true { write := .accepted 0, read := .delivered [] }, nothing true, nothing true,
    nothing true, nothing true, .destroy [0]]

theorem not_targeted :
    (∃ s, run step (plainServer lonePool) sendOverdue = some s ∧ ¬ s.Targeted) ∧
      ∃ s, run step (plainServer pairPool) removalOverdue = some s ∧ ¬ s.Targeted := by
  constructor
  · obtain ⟨s, hs, hw⟩ := Option.map_eq_some_iff.mp
      (show (run step (plainServer lonePool) sendOverdue).map
        (fun s ↦ ((s.loops none).waiting, s.deserted 0)) =
          some ([.conn 0 (.sendInLoop ⟨0, true, 0, 1⟩)], true) by decide +kernel)
    obtain ⟨hw, hdes⟩ := Prod.mk.inj hw
    have hdestroy : ∀ items, .destroy items ∉ sendOverdue := by
      simp [sendOverdue, acceptsHeld, nothing]
    have hlocated : s.Located := run_invariant (fun _ _ _ hs h ↦ hs.step h) ofPool_located hs
    have hlive : 0 ∉ s.live :=
      hlocated.not_live (run_refines (civil_of_lives hdestroy _) hs).sound hdes
    have hmem : .conn 0 (.sendInLoop ⟨0, true, 0, 1⟩) ∈ (s.loops none).waiting := by simp [hw]
    exact ⟨s, hs, fun h ↦ hlive (h none _ hmem (.connection 0) rfl)⟩
  · obtain ⟨s, hs, hw⟩ := Option.map_eq_some_iff.mp
      (show (run step (plainServer pairPool) removalOverdue).map
        (fun s ↦ ((s.loops none).waiting, s.serving)) =
          some ([.removeConnectionInLoop 0], false) by decide +kernel)
    obtain ⟨hw, hserv⟩ := Prod.mk.inj hw
    have hmem : .removeConnectionInLoop 0 ∈ (s.loops none).waiting := by simp [hw]
    refine ⟨s, hs, fun h ↦ ?_⟩
    have hobject : s.serving = true := h none _ hmem .server rfl
    simp [hserv] at hobject

end

end Reactors

end Mymuduo
