import Mymuduo.Confinement
import Mymuduo.Reactors

namespace Mymuduo

open Foundation.Machine

variable {T : Type}

namespace Frame

variable {e : Site T} {c : TcpConnection} {io : Reply} {f : Frame T}

def handsOn (e : Site T) (c : TcpConnection) (io : Reply) (f : Frame T) : Bool :=
  let o := f.exec e c io
  o.frames.any (fun g ↦ !g.isRaw) || o.queued.any (fun g ↦ !g.isRaw) || o.posted

def ends : Frame T → Bool
  | .functor .shutdownInLoop => true
  | _ => false

variable (e c io) in
theorem exec_ends (h : f.ends = true) : (f.exec e c io).frames = [] ∧ (f.exec e c io).queued = none ∧
    (f.exec e c io).posted = false := by
  cases f with
  | functor cb =>
    cases cb with
    | shutdownInLoop => exact ⟨rfl, rfl, rfl⟩
    | _ => simp [ends] at h
  | _ => simp [ends] at h

end Frame

def Job.leadsTo (c : ℕ) : Job T → Prop
  | .conn d _ | .removeConnectionInLoop d => d = c
  | .foreign _ => False

def Activity.leadsTo (c : ℕ) : Activity T → Prop
  | .conn d f => d = c ∧ f.ends = false
  | _ => False

theorem Job.leadsTo_of_binds {c : ℕ} {j : Job T} (h : j.binds c = true) : j.leadsTo c := by
  cases j with
  | conn d f =>
    simp only [binds, Bool.and_eq_true, decide_eq_true_eq] at h
    exact h.1
  | removeConnectionInLoop d => simpa [binds, leadsTo] using h
  | foreign k => simp [binds] at h

namespace Reactors

variable [DecidableEq T] {s u : Reactors T} {a : Act T} {i : Option ℕ} {c d : ℕ} {t : T}

/-- Something in the server leads to connection `c`. -/
inductive Named (s : Reactors T) (c : ℕ) : Prop
  | entry {name : String} (h : s.map.connections_ name = some c)
  | waiting {i : Option ℕ} {j : Job T} (hj : j ∈ (s.loops i).waiting) (h : j.leadsTo c)
  | running {i : Option ℕ} {j : Job T} (hj : j ∈ s.batch i) (h : j.binds c = true)
  | called {t : T} {f : Activity T} (hf : f ∈ s.stack t) (h : f.leadsTo c)
  | copied {t : T} (h : 0 < s.copies t c)

theorem Enqueues.mem_waiting {o : Outcome T} (h : Enqueues s t d o u) {j : Job T}
    (hj : j ∈ (u.loops i).waiting) : j ∈ (s.loops i).waiting ∨
      (∃ f, o.queued = some f ∧ j = .conn d f) ∨ o.posted = true ∧ j = .removeConnectionInLoop d ∧ i = none := by
  have happend : ∀ {k : Option ℕ} {j' : Job T} {l : EventLoop T (Job T)},
      (s.loops k).step (.append t j') = some l → j ∈ ((s.setLoop k l).loops i).waiting →
      j ∈ (s.loops i).waiting ∨ j = j' ∧ i = k := by
    intro k j' l hl hj
    by_cases hik : i = k
    · subst hik
      obtain ⟨-, rfl⟩ := EventLoop.step_append.mp hl
      rw [setLoop_self, EventLoop.waiting, EventLoop.queueInLoop, ← List.append_assoc] at hj
      rcases List.mem_append.mp hj with hj | hj
      · exact Or.inl hj
      · exact Or.inr ⟨List.mem_singleton.mp hj, rfl⟩
    · rw [setLoop_of_ne hik] at hj
      exact Or.inl hj
  cases h with
  | nothing => exact Or.inl hj
  | @queued f l hq hl =>
    rcases happend hl hj with hj | ⟨rfl, -⟩
    · exact Or.inl hj
    · exact Or.inr (Or.inl ⟨f, hq, rfl⟩)
  | posted hq hp hl =>
    rcases happend hl hj with hj | ⟨rfl, hi⟩
    · exact Or.inl hj
    · exact Or.inr (Or.inr ⟨hp, rfl, hi⟩)

theorem Enqueues.pending {o : Outcome T} (h : Enqueues s t d o u) {j : Job T}
    (hj : j ∈ (s.loops i).pendingFunctors_) : j ∈ (u.loops i).pendingFunctors_ := by
  have happend : ∀ {k : Option ℕ} {j' : Job T} {l : EventLoop T (Job T)},
      (s.loops k).step (.append t j') = some l → j ∈ ((s.setLoop k l).loops i).pendingFunctors_ := by
    intro k j' l hl
    by_cases hik : i = k
    · subst hik
      obtain ⟨-, rfl⟩ := EventLoop.step_append.mp hl
      rw [setLoop_self]
      exact List.mem_append_left _ hj
    · rwa [setLoop_of_ne hik]
  cases h with
  | nothing => exact hj
  | queued hq hl => exact happend hl
  | posted hq hp hl => exact happend hl

/-- Where a step meets a connection that nothing need have led to before. -/
inductive Meets (s : Reactors T) (c : ℕ) : Act T → Prop
  | accept {t : T} {io : Reply} {fs : List (Activity T)} (hst : s.stack t = .newConnection :: fs)
      (hc : c = s.map.accepted) : Meets s c (.exec t io)
  | item {t : T} {io : Reply} {items : List ℕ} {fs : List (Activity T)}
      (hst : s.stack t = .destructor (c :: items) :: fs) : Meets s c (.exec t io)
  | event {i : Option ℕ} {accepts : Bool} {revents : BitVec 32} {es : List (Source × BitVec 32)}
      (he : s.unhandled i = (.conn c, revents) :: es) : Meets s c (.handleEvent i accepts)

omit [DecidableEq T] in
theorem Named.of_stack {fs : List (Activity T)} (hs : ∀ f ∈ fs, f.leadsTo c → s.Named c ∨ s.Meets c a)
    {v : T} {f : Activity T} [DecidableEq T] (hf : f ∈ Function.update s.stack t fs v)
    (h : f.leadsTo c) : s.Named c ∨ s.Meets c a := by
  by_cases hv : v = t
  · subst hv
    rw [Function.update_self] at hf
    exact hs f hf h
  · rw [Function.update_of_ne hv] at hf
    exact Or.inl (.called hf h)

omit [DecidableEq T] in
theorem Named.of_tail {f : Activity T} {fs : List (Activity T)} (hst : s.stack t = f :: fs) :
    ∀ g ∈ fs, g.leadsTo c → s.Named c ∨ s.Meets c a := by
  intro g hg h
  exact Or.inl (.called (by rw [hst]; exact List.mem_cons_of_mem f hg) h)

theorem Enqueues.named {io : Reply} {f : Frame T} {fs : List (Activity T)}
    (hst : s.stack t = .conn d f :: fs) (h : Enqueues s t d (f.exec (s.site d t) (s.conn d) io) u)
    (hc : (u.commit t d fs (f.exec (s.site d t) (s.conn d) io)).Named c) : s.Named c := by
  obtain ⟨-, hmap, -, -, hstack, -⟩ := h.untouched
  obtain ⟨hbatch, hcopies, -⟩ := h.holding
  have htop : f.ends = false → d = c → s.Named c := by
    intro hf hd
    exact .called (f := .conn d f) (by rw [hst]; exact List.mem_cons_self) ⟨hd, hf⟩
  have hgoes : (f.exec (s.site d t) (s.conn d) io).frames ≠ [] ∨
      (f.exec (s.site d t) (s.conn d) io).queued ≠ none ∨
        (f.exec (s.site d t) (s.conn d) io).posted = true → f.ends = false := by
    intro hgo
    rw [← Bool.not_eq_true]
    intro hends
    obtain ⟨hfs, hq, hp⟩ := Frame.exec_ends (s.site d t) (s.conn d) io hends
    simp [hfs, hq, hp] at hgo
  cases hc with
  | @entry name hname =>
    simp only [commit] at hname
    split at hname
    · rw [hmap] at hname
      simp only [ConnectionMap.removeConnectionInLoop] at hname
      by_cases hn : name = s.map.names d
      · simp [hn] at hname
      · rw [Function.update_of_ne hn] at hname
        exact .entry hname
    · exact .entry (hmap ▸ hname)
  | @waiting i j hj hlead =>
    rcases h.mem_waiting hj with hj | ⟨g, hq, rfl⟩ | ⟨hp, rfl, -⟩
    · exact .waiting hj hlead
    · exact htop (hgoes (Or.inr (Or.inl (by simp [hq])))) hlead
    · exact htop (hgoes (Or.inr (Or.inr hp))) hlead
  | @running i j hj hb =>
    exact .running (i := i) (hbatch ▸ hj) hb
  | @called v g hg hlead =>
    by_cases hv : v = t
    · subst hv
      simp only [commit, Function.update_self] at hg
      rcases List.mem_append.mp hg with hg | hg
      · obtain ⟨k, hk, rfl⟩ := List.mem_map.mp hg
        exact htop (hgoes (Or.inl (List.ne_nil_of_mem hk))) hlead.1
      · exact .called (by rw [hst]; exact List.mem_cons_of_mem _ hg) hlead
    · simp only [commit, Function.update_of_ne hv] at hg
      exact .called (hstack ▸ hg) hlead
  | @copied v hv => exact .copied (t := v) (hcopies ▸ hv)

omit [DecidableEq T] in
theorem Named.of_frame (h : u.Named c) (hmap : u.map.connections_ = s.map.connections_)
    (hloops : u.loops = s.loops) (hbatch : u.batch = s.batch) (hcopies : u.copies = s.copies) :
    s.Named c ∨ ∃ t, ∃ f ∈ u.stack t, f.leadsTo c := by
  cases h with
  | entry h => exact Or.inl (.entry (hmap ▸ h))
  | waiting hj h => exact Or.inl (.waiting (hloops ▸ hj) h)
  | running hj h => exact Or.inl (.running (hbatch ▸ hj) h)
  | called hf h => exact Or.inr ⟨_, _, hf, h⟩
  | copied h => exact Or.inl (.copied (hcopies ▸ h))

theorem Named.restacked {fs : List (Activity T)} (h : u.Named c)
    (hst : u.stack = Function.update s.stack t fs)
    (hmap : u.map.connections_ = s.map.connections_) (hloops : u.loops = s.loops)
    (hbatch : u.batch = s.batch) (hcopies : u.copies = s.copies)
    (hfs : ∀ f ∈ fs, f.leadsTo c → s.Named c ∨ s.Meets c a) : s.Named c ∨ s.Meets c a := by
  rcases h.of_frame hmap hloops hbatch hcopies with h | ⟨v, f, hf, hlead⟩
  · exact Or.inl h
  · exact Named.of_stack hfs (hst ▸ hf) hlead

omit [DecidableEq T] in
theorem forall_named_cons {f : Activity T} {fs : List (Activity T)} {P : Prop}
    (hf : f.leadsTo c → P) (hfs : ∀ g ∈ fs, g.leadsTo c → P) : ∀ g ∈ f :: fs, g.leadsTo c → P :=
  List.forall_mem_cons.mpr ⟨hf, hfs⟩

omit [DecidableEq T] in
theorem Named.of_frames {fs : List (Activity T)} (hst : s.stack t = fs) :
    ∀ g ∈ fs, g.leadsTo c → s.Named c ∨ s.Meets c a :=
  fun _ hg h ↦ Or.inl (.called (hst ▸ hg) h)

theorem named_of_reaches (h : s.reaches t c = true) : s.Named c := by
  simp only [reaches, Bool.or_eq_true, decide_eq_true_eq, List.contains_iff_mem] at h
  rcases h with h | h
  · exact .copied h
  · exact .called h ⟨rfl, rfl⟩

theorem Destroys.named {io : Reply} {f : Activity T} {fs : List (Activity T)}
    (hst : s.stack t = f :: fs) (h : Destroys s t fs f u) (hc : u.Named c) :
    s.Named c ∨ s.Meets c (.exec t io) := by
  have htail := Named.of_tail (a := .exec t io) (c := c) hst
  cases h with
  | emptied | joined | finished =>
    refine hc.restacked (t := t) rfl rfl rfl rfl rfl ?_
    first | exact htail | exact forall_named_cons (fun h ↦ absurd h not_false) htail
  | entry e items =>
    have hnew : ∀ g ∈ s.runInLoop t e .connectDestroyed :: .destructor items :: fs, g.leadsTo c →
        s.Named c ∨ s.Meets c (.exec t io) := by
      refine forall_named_cons ?_ (forall_named_cons (fun h ↦ absurd h not_false) htail)
      intro h
      obtain rfl : e = c := h.1
      exact Or.inr (.item hst)
    cases hc with
    | @entry name h =>
      left
      simp only [setStack, ConnectionMap.removeConnectionInLoop] at h
      by_cases hn : name = s.map.names e
      · simp [hn] at h
      · rw [Function.update_of_ne hn] at h
        exact .entry h
    | waiting hj h => exact Or.inl (.waiting hj h)
    | running hj h => exact Or.inl (.running hj h)
    | called hf h => exact Named.of_stack hnew hf h
    | copied h => exact Or.inl (.copied h)
  | @stored k l hk hl =>
    have hwait : ∀ i, ((s.setLoop (some k) l).loops i).waiting = (s.loops i).waiting := by
      intro i
      by_cases hi : i = some k
      · subst hi
        obtain ⟨-, rfl⟩ := EventLoop.step_storeQuit.mp hl
        rw [setLoop_self]
        rfl
      · rw [setLoop_of_ne hi]
    cases hc with
    | entry h => exact Or.inl (.entry h)
    | @waiting i j hj h => exact Or.inl (.waiting (i := i) (hwait i ▸ hj) h)
    | running hj h => exact Or.inl (.running hj h)
    | called hf h =>
      have hjoin : ∀ g ∈ .join k :: fs, g.leadsTo c → s.Named c ∨ s.Meets c (.exec t io) :=
        forall_named_cons (fun h ↦ absurd h not_false) htail
      exact Named.of_stack hjoin hf h
    | copied h => exact Or.inl (.copied h)

theorem Named.looped {b : EventLoop.Act T (Job T)} {l : EventLoop T (Job T)}
    (hc : ∀ i, (s.loops i).Control) (ha : s.allows i b = true) (hl : (s.loops i).step b = some l)
    (h : ((s.beside i b).setLoop i l).Named c) : s.Named c := by
  have hwait : ∀ k, ∀ j ∈ (((s.beside i b).setLoop i l).loops k).waiting, j.leadsTo c →
      s.Named c := by
    intro k j hj hlead
    by_cases hk : k = i
    · subst hk
      rw [setLoop_self] at hj
      rcases EventLoop.step_waiting (hc k) hl with ⟨t, j', rfl, hw⟩ | ⟨j', -, hw⟩ | ⟨-, hw⟩
      · rw [hw] at hj
        rcases List.mem_append.mp hj with hj | hj
        · exact .waiting hj hlead
        · obtain rfl := List.mem_singleton.mp hj
          simp only [allows, Bool.and_eq_true] at ha
          cases j with
          | foreign n => exact absurd hlead not_false
          | _ => simp [Job.isForeign] at ha
      · exact .waiting (i := k) (by rw [hw]; exact List.mem_cons_of_mem _ hj) hlead
      · exact .waiting (i := k) (hw ▸ hj) hlead
    · rw [setLoop_of_ne hk, (s.beside_kept i b).2] at hj
      exact .waiting hj hlead
  cases h with
  | waiting hj hlead => exact hwait _ _ hj hlead
  | @entry name h => exact .entry ((s.beside_untouched i b).1 ▸ h)
  | @copied v h => exact .copied (t := v) ((s.beside_untouched i b).2.2.1 ▸ h)
  | @running k j hj h =>
    cases b with
    | testQuit =>
      simp only [beside, setLoop] at hj
      split at hj <;> exact .running hj h
    | swap =>
      by_cases hk : k = i
      · subst hk
        simp only [beside, setLoop, Function.update_self] at hj
        exact .waiting (List.mem_append_right _ hj) (Job.leadsTo_of_binds h)
      · simp only [beside, setLoop, Function.update_of_ne hk] at hj
        exact .running hj h
    | endCalling =>
      by_cases hk : k = i
      · subst hk
        simp [beside, setLoop] at hj
      · simp only [beside, setLoop, Function.update_of_ne hk] at hj
        exact .running hj h
    | _ => exact .running hj h
  | @called v f hf h =>
    cases b with
    | testQuit =>
      simp only [beside, setLoop] at hf
      split at hf <;> exact .called hf h
    | beginFunctor j =>
      obtain ⟨⟨-, hj⟩, -⟩ := EventLoop.step_beginFunctor.mp hl
      have hmem : j ∈ (s.loops i).waiting := by
        rw [EventLoop.waiting, hj]
        exact List.mem_cons_self
      by_cases hv : v = s.threadId i
      · subst hv
        simp only [beside, setLoop, setStack_self, List.mem_singleton] at hf
        subst hf
        cases j with
        | conn d g => exact .waiting hmem h.1
        | removeConnectionInLoop d => exact .waiting hmem h.1
        | foreign n => exact absurd h not_false
      · simp only [beside, setLoop, setStack_of_ne hv] at hf
        exact .called hf h
    | _ => exact .called hf h

theorem Does.named (h : Does s a u) (hctrl : ∀ i, (s.loops i).Control) (hc : u.Named c) :
    s.Named c ∨ s.Meets c a := by
  cases h with
  | frame hst ho hf hio hu => exact Or.inl (hu.named hst hc)
  | @leave t io fs hst ho => exact hc.restacked (t := t) rfl rfl rfl rfl rfl (Named.of_tail hst)
  | @accept t io fs hst ho ht =>
    cases hc with
    | @entry name h =>
      simp only [setStack, Reactors.accept, ConnectionMap.newConnection] at h
      by_cases hn : name = s.map.connName s.map.nextConnId_
      · simp only [hn, Function.update_self, Option.some.injEq] at h
        exact Or.inr (.accept hst h.symm)
      · rw [Function.update_of_ne hn] at h
        exact Or.inl (.entry h)
    | waiting hj h => exact Or.inl (.waiting hj h)
    | running hj h => exact Or.inl (.running hj h)
    | called hf h =>
      have hnew : ∀ g ∈ s.accept.runInLoop t s.map.accepted .connectEstablished :: fs, g.leadsTo c →
          s.Named c ∨ s.Meets c (.exec t io) :=
        forall_named_cons (fun h ↦ Or.inr (.accept hst h.1.symm)) (Named.of_tail hst)
      exact Named.of_stack hnew hf h
    | copied h => exact Or.inl (.copied h)
  | destruct hst ho hf hu => exact (exec_destroys hf hu).named hst hc
  | @send t d data len hu hr =>
    refine hc.restacked (t := t) rfl rfl rfl rfl rfl (forall_named_cons ?_ (Named.of_frames rfl))
    intro h
    exact Or.inl (h.1 ▸ named_of_reaches hr)
  | @shutdown t d hu hr =>
    refine hc.restacked (t := t) rfl rfl rfl rfl rfl (forall_named_cons ?_ (Named.of_frames rfl))
    intro h
    exact Or.inl (h.1 ▸ named_of_reaches hr)
  | @hold t d source hr =>
    cases hc with
    | entry h => exact Or.inl (.entry h)
    | waiting hj h => exact Or.inl (.waiting hj h)
    | running hj h => exact Or.inl (.running hj h)
    | called hf h => exact Or.inl (.called hf h)
    | @copied v h =>
      left
      by_cases hcd : c = d
      · subst hcd
        cases source with
        | none =>
          have hmem : .conn c .userCode ∈ s.stack t := List.contains_iff_mem.mp hr
          exact .called hmem ⟨rfl, rfl⟩
        | some w => exact .copied (t := w) (by simpa [offers] using hr)
      · by_cases hv : v = t
        · simp only [setCopies, hv, Function.update_self, Function.update_of_ne hcd] at h
          exact .copied h
        · simp only [setCopies, Function.update_of_ne hv] at h
          exact .copied h
  | @drop t d hu hpos =>
    cases hc with
    | entry h => exact Or.inl (.entry h)
    | waiting hj h => exact Or.inl (.waiting hj h)
    | running hj h => exact Or.inl (.running hj h)
    | called hf h => exact Or.inl (.called hf h)
    | @copied v h =>
      left
      by_cases hcd : c = d
      · subst hcd
        exact .copied hpos
      · by_cases hv : v = t
        · simp only [setCopies, hv, Function.update_self, Function.update_of_ne hcd] at h
          exact .copied h
        · simp only [setCopies, Function.update_of_ne hv] at h
          exact .copied h
  | @poll i woken active l hi hu hn hr hl =>
    obtain ⟨-, rfl⟩ := EventLoop.step_pollReturn.mp hl
    cases hc with
    | entry h => exact Or.inl (.entry h)
    | @waiting k j hj h =>
      left
      by_cases hk : k = i
      · subst hk
        rw [setLoop_self] at hj
        exact .waiting (i := k) hj h
      · rw [setLoop_of_ne hk] at hj
        exact .waiting hj h
    | running hj h => exact Or.inl (.running hj h)
    | called hf h => exact Or.inl (.called hf h)
    | copied h => exact Or.inl (.copied h)
  | @handle i accepts woken d revents es hi he hs hu =>
    refine hc.restacked (t := s.threadId i) rfl rfl rfl rfl rfl
      (forall_named_cons ?_ (Named.of_frames rfl))
    intro h
    obtain rfl : d = c := h.1
    exact Or.inr (.event he)
  | @handleAccept i accepts woken revents fs es hi he hs hu hfs =>
    refine hc.restacked (t := s.threadId i) rfl rfl rfl rfl rfl ?_
    rcases hfs with rfl | rfl
    · simp
    · exact forall_named_cons (fun h ↦ absurd h not_false) (by simp)
  | loop hi ha hl => exact Or.inl (hc.looped hctrl ha hl)
  | @destroy items hs hu hp =>
    exact hc.restacked (t := s.base) rfl rfl rfl rfl rfl
      (forall_named_cons (fun h ↦ absurd h not_false) (Named.of_frames rfl))
  | @exit k hk hx hs hu =>
    cases hc with
    | entry h => exact Or.inl (.entry h)
    | @waiting i j hj h =>
      left
      by_cases hi : i = some k
      · subst hi
        simp only [setLoop_self, EventLoop.waiting, List.append_nil] at hj
        exact .waiting (List.mem_append_left _ hj) h
      · simp only [setLoop_of_ne hi] at hj
        exact .waiting hj h
    | running hj h => exact Or.inl (.running hj h)
    | called hf h => exact Or.inl (.called hf h)
    | copied h => exact Or.inl (.copied h)
  | abort | assign | retrieve =>
    rcases hc.of_frame (s := s) rfl rfl rfl rfl with h | ⟨t, f, hf, h⟩
    · exact Or.inl h
    · exact Or.inl (.called hf h)

/-- The entry of `connections_` that a frame overwrites or erases. -/
def overwrites (s : Reactors T) : Activity T → Option String
  | .conn d .removeConnectionInLoop | .destructor (d :: _) => some (s.map.names d)
  | .newConnection => some (s.map.connName s.map.nextConnId_)
  | _ => none

def handsOn (s : Reactors T) (t : T) (io : Reply) (c : ℕ) : Activity T → Bool
  | .conn d f => d = c && f.handsOn (s.site d t) (s.conn d) io
  | .destructor (d :: _) => d = c
  | _ => false

/-- The owners of `c` that a step puts an end to. -/
def givesUp (s : Reactors T) (c : ℕ) : Act T → Set (Owner T)
  | .exec t io => { o | ∃ f fs, s.stack t = f :: fs ∧ s.handsOn t io c f = false ∧
      (o = .call t ∧ f.holds c = true ∧ (∀ g ∈ fs, g.holds c = false) ∨
        o = .entry ∧ ∃ name, s.overwrites f = some name ∧ s.map.connections_ name = some c) }
  | .drop t d => { o | d = c ∧ s.copies t c = 1 ∧ o = .user t }
  | .loop i .endCalling => {.running i}
  | .exit k => {.pending (some k)}
  | _ => ∅

theorem owner_of_call {io : Reply} {f : Activity T} {fs gs : List (Activity T)} {v : T}
    (hst : s.stack t = f :: fs) (hgs : fs ⊆ gs) (hu : u.stack = Function.update s.stack t gs)
    (hhand : s.handsOn t io c f = false) (ho : .call v ∈ s.owners c)
    (hn : .call v ∉ s.givesUp c (.exec t io)) : .call v ∈ u.owners c := by
  obtain ⟨g, hg, hh⟩ : ∃ g ∈ s.stack v, g.holds c = true := ho
  change ∃ g ∈ u.stack v, g.holds c = true
  rw [hu]
  by_cases hv : v = t
  · subst hv
    rw [Function.update_self]
    rw [hst, List.mem_cons] at hg
    have hex : ∃ k ∈ fs, k.holds c = true := by
      rcases hg with rfl | hg
      · by_contra hnone
        refine hn ⟨g, fs, hst, hhand, Or.inl ⟨rfl, hh, fun k hk ↦ ?_⟩⟩
        rw [← Bool.not_eq_true]
        exact fun hk' ↦ hnone ⟨k, hk, hk'⟩
      · exact ⟨g, hg, hh⟩
    obtain ⟨k, hk, hh⟩ := hex
    exact ⟨k, hgs hk, hh⟩
  · rw [Function.update_of_ne hv]
    exact ⟨g, hg, hh⟩

theorem owner_of_entry {io : Reply} {f : Activity T} {fs : List (Activity T)}
    (hst : s.stack t = f :: fs) (hhand : s.handsOn t io c f = false)
    (hmap : ∀ name, s.overwrites f ≠ some name → u.map.connections_ name = s.map.connections_ name)
    (ho : .entry ∈ s.owners c) (hn : .entry ∉ s.givesUp c (.exec t io)) : .entry ∈ u.owners c := by
  obtain ⟨name, hname⟩ : ∃ name, s.map.connections_ name = some c := ho
  refine ⟨name, ?_⟩
  rw [hmap name, hname]
  intro hover
  exact hn ⟨f, fs, hst, hhand, Or.inr ⟨rfl, name, hover, hname⟩⟩

theorem Enqueues.owned {io : Reply} {f : Frame T} {fs : List (Activity T)}
    (hst : s.stack t = .conn d f :: fs) (h : Enqueues s t d (f.exec (s.site d t) (s.conn d) io) u)
    {o : Owner T} (ho : o ∈ s.owners c) (hn : o ∉ s.givesUp c (.exec t io)) :
    ((u.commit t d fs (f.exec (s.site d t) (s.conn d) io)).owners c).Nonempty := by
  obtain ⟨-, hmap, -, -, hstack, -⟩ := h.untouched
  obtain ⟨hbatch, hcopies, -⟩ := h.holding
  cases hhand : s.handsOn t io c (.conn d f) with
  | true =>
    simp only [handsOn, Frame.handsOn, Bool.and_eq_true, decide_eq_true_eq, Bool.or_eq_true,
      List.any_eq_true, Bool.not_eq_true', Option.any_eq_true] at hhand
    obtain ⟨rfl, (⟨g, hg, hraw⟩ | ⟨g, hg, hraw⟩) | hp⟩ := hhand
    · refine ⟨.call t, .conn d g, ?_, by simp [Activity.holds, hraw]⟩
      simp only [commit, Function.update_self]
      exact List.mem_append_left _ (List.mem_map_of_mem hg)
    · cases h with
      | nothing hq => simp [hq] at hg
      | @queued k l hq hl =>
        obtain rfl : k = g := Option.some.inj (hq.symm.trans hg)
        obtain ⟨-, rfl⟩ := EventLoop.step_append.mp hl
        refine ⟨.pending (s.getLoop d), .conn d k, ?_, by simp [Job.binds, hraw]⟩
        simp [commit, EventLoop.queueInLoop]
      | posted hq => simp [hq] at hg
    · cases h with
      | nothing hq hp' => simp [hp] at hp'
      | @queued k l hq hl =>
        obtain ⟨rfl, -⟩ := Frame.exec_posted hp
        simp [Frame.exec] at hq
      | @posted l hq _ hl =>
        obtain ⟨-, rfl⟩ := EventLoop.step_append.mp hl
        refine ⟨.pending none, .removeConnectionInLoop d, ?_, by simp [Job.binds]⟩
        simp [commit, EventLoop.queueInLoop]
  | false =>
    refine ⟨o, ?_⟩
    cases o with
    | entry =>
      refine owner_of_entry hst hhand (fun name hname ↦ ?_) ho hn
      simp only [commit]
      split
      · next herased =>
        obtain rfl := Frame.exec_erased herased
        rw [hmap]
        refine Function.update_of_ne ?_ ..
        rintro rfl
        exact hname rfl
      · rw [hmap]
    | call v =>
      refine owner_of_call hst ?_ (by rw [← hstack]; rfl) hhand ho hn
      exact List.subset_append_right _ _
    | pending i =>
      obtain ⟨j, hj, hb⟩ : ∃ j ∈ (s.loops i).pendingFunctors_, j.binds c = true := ho
      exact ⟨j, h.pending hj, hb⟩
    | running i =>
      change ∃ j ∈ u.batch i, _
      rw [hbatch]
      exact ho
    | user v =>
      change 0 < u.copies v c
      rw [hcopies]
      exact ho

theorem Destroys.owned {io : Reply} {f : Activity T} {fs : List (Activity T)}
    (hst : s.stack t = f :: fs) (h : Destroys s t fs f u) {o : Owner T} (ho : o ∈ s.owners c)
    (hn : o ∉ s.givesUp c (.exec t io)) : (u.owners c).Nonempty := by
  have hcall : ∀ gs : List (Activity T), fs ⊆ gs → s.handsOn t io c f = false →
      ∀ v, .call v ∈ s.owners c → .call v ∉ s.givesUp c (.exec t io) →
      .call v ∈ (s.setStack t gs).owners c :=
    fun gs hgs hhand v ho hn ↦ owner_of_call hst hgs rfl hhand ho hn
  cases h with
  | emptied =>
    refine ⟨o, ?_⟩
    cases o with
    | call v => exact hcall _ (List.subset_cons_self _ _) rfl v ho hn
    | entry | pending i | running i | user v => exact ho
  | joined hf hx =>
    refine ⟨o, ?_⟩
    cases o with
    | call v =>
      refine hcall _ (List.subset_cons_self _ _) ?_ v ho hn
      rcases hf with rfl | rfl <;> rfl
    | entry | pending i | running i | user v => exact ho
  | finished hk =>
    refine ⟨o, ?_⟩
    cases o with
    | call v => exact hcall _ (List.Subset.refl _) rfl v ho hn
    | entry | pending i | running i | user v => exact ho
  | entry d items =>
    by_cases hdc : d = c
    · subst hdc
      refine ⟨.call t, s.runInLoop t d .connectDestroyed, ?_, ?_⟩
      · simp
      · simp only [runInLoop, Frame.runInLoop]
        split <;> simp [Activity.holds, Frame.isRaw, Functor.isRaw]
    · have hhand : s.handsOn t io c (.destructor (d :: items)) = false := by simp [handsOn, hdc]
      refine ⟨o, ?_⟩
      cases o with
      | call v =>
        refine owner_of_call hst ?_ rfl hhand ho hn
        exact fun g hg ↦ List.mem_cons_of_mem _ (List.mem_cons_of_mem _ hg)
      | entry =>
        refine owner_of_entry hst hhand (fun name hname ↦ ?_) ho hn
        refine Function.update_of_ne ?_ ..
        rintro rfl
        exact hname rfl
      | pending i | running i | user v => exact ho
  | @stored k l hk hl =>
    obtain ⟨-, rfl⟩ := EventLoop.step_storeQuit.mp hl
    refine ⟨o, ?_⟩
    cases o with
    | call v => exact hcall _ (List.subset_cons_self _ _) rfl v ho hn
    | pending i =>
      obtain ⟨j, hj, hb⟩ : ∃ j ∈ (s.loops i).pendingFunctors_, j.binds c = true := ho
      refine ⟨j, ?_, hb⟩
      change j ∈ ((s.setLoop (some k) _).loops i).pendingFunctors_
      by_cases hi : i = some k
      · subst hi
        rw [setLoop_self]
        exact hj
      · rw [setLoop_of_ne hi]
        exact hj
    | entry | running i | user v => exact ho

theorem owned_looped {b : EventLoop.Act T (Job T)} {l : EventLoop T (Job T)}
    (hidle : s.batch i ≠ [] → ∃ b, (s.loops i).stage = .running b) (hu : s.allows i b = true)
    (hl : (s.loops i).step b = some l) {o : Owner T} (ho : o ∈ s.owners c)
    (hn : o ∉ s.givesUp c (.loop i b)) : (((s.beside i b).setLoop i l).owners c).Nonempty := by
  have hpending : b ≠ .swap → ∀ k, .pending k ∈ s.owners c →
      .pending k ∈ ((s.beside i b).setLoop i l).owners c := by
    intro hb k hk
    obtain ⟨j, hj, hbinds⟩ : ∃ j ∈ (s.loops k).pendingFunctors_, j.binds c = true := hk
    refine ⟨j, ?_, hbinds⟩
    by_cases hki : k = i
    · subst hki
      rw [setLoop_self]
      cases EventLoop.step_queue hl with
      | append t cb hf hp => exact hp ▸ List.mem_append_left _ hj
      | beginFunctor cb hf hp => exact hp ▸ hj
      | swap => exact absurd rfl hb
      | other a ha hf hp => exact hp ▸ hj
    · rw [setLoop_of_ne hki, (s.beside_kept i b).2]
      exact hj
  have hrunning : b ≠ .swap → ∀ k, .running k ∈ s.owners c → .running k ∉ s.givesUp c (.loop i b) →
      .running k ∈ ((s.beside i b).setLoop i l).owners c := by
    intro hb k hk hn
    cases b with
    | swap => exact absurd rfl hb
    | testQuit =>
      have hbatch : (s.beside i .testQuit).batch = s.batch := by
        simp only [beside]
        split <;> rfl
      change ∃ j ∈ (s.beside i .testQuit).batch k, _
      rw [hbatch]
      exact hk
    | endCalling =>
      obtain ⟨j, hj, hbinds⟩ : ∃ j ∈ s.batch k, j.binds c = true := hk
      have hki : k ≠ i := by
        rintro rfl
        exact hn rfl
      exact ⟨j, by simpa [beside, setLoop, Function.update_of_ne hki] using hj, hbinds⟩
    | _ => exact hk
  obtain ⟨hmap, -, hcopies, -⟩ := s.beside_untouched i b
  cases o with
  | entry =>
    refine ⟨.entry, ?_⟩
    change ∃ name, (s.beside i b).map.connections_ name = some c
    rw [hmap]
    exact ho
  | user v =>
    refine ⟨.user v, ?_⟩
    change 0 < (s.beside i b).copies v c
    rw [hcopies]
    exact ho
  | call v =>
    obtain ⟨g, hg, hh⟩ : ∃ g ∈ s.stack v, g.holds c = true := ho
    refine ⟨.call v, g, ?_, hh⟩
    change g ∈ (s.beside i b).stack v
    cases b with
    | testQuit =>
      simp only [beside]
      split <;> exact hg
    | beginFunctor j =>
      have hne : v ≠ s.threadId i := by
        rintro rfl
        rw [(unoccupied_iff.mp hu).2] at hg
        simp at hg
      rw [beside, setStack_of_ne hne]
      exact hg
    | _ => exact hg
  | pending k =>
    by_cases hb : b = .swap
    · subst hb
      by_cases hki : k = i
      · subst hki
        obtain ⟨j, hj, hbinds⟩ : ∃ j ∈ (s.loops k).pendingFunctors_, j.binds c = true := ho
        exact ⟨.running k, j, by simpa [beside, setLoop] using hj, hbinds⟩
      · refine ⟨.pending k, ?_⟩
        change ∃ j ∈ (((s.beside i .swap).setLoop i l).loops k).pendingFunctors_, _
        rw [setLoop_of_ne hki]
        exact ho
    · exact ⟨_, hpending hb k ho⟩
  | running k =>
    by_cases hb : b = .swap
    · subst hb
      obtain ⟨⟨hstage, -⟩, -⟩ := EventLoop.step_swap.mp hl
      obtain ⟨j, hj, hbinds⟩ : ∃ j ∈ s.batch k, j.binds c = true := ho
      have hki : k ≠ i := by
        rintro rfl
        obtain ⟨b, hrun⟩ := hidle (List.ne_nil_of_mem hj)
        simp [hstage] at hrun
      exact ⟨.running k, j, by simpa [beside, setLoop, Function.update_of_ne hki] using hj, hbinds⟩
    · exact ⟨_, hrunning hb k ho hn⟩

theorem owned_pushed {fs : List (Activity T)} {o : Owner T} (ho : o ∈ s.owners c)
    (hst : u.stack = Function.update s.stack t fs) (hfs : s.stack t ⊆ fs)
    (hmap : u.map = s.map) (hloops : u.loops = s.loops) (hbatch : u.batch = s.batch)
    (hcopies : u.copies = s.copies) : o ∈ u.owners c := by
  cases o with
  | call v =>
    obtain ⟨g, hg, hh⟩ : ∃ g ∈ s.stack v, g.holds c = true := ho
    refine ⟨g, ?_, hh⟩
    rw [hst]
    by_cases hv : v = t
    · subst hv
      rw [Function.update_self]
      exact hfs hg
    · rwa [Function.update_of_ne hv]
  | entry =>
    change ∃ name, u.map.connections_ name = some c
    rw [hmap]
    exact ho
  | pending i =>
    change ∃ j ∈ (u.loops i).pendingFunctors_, _
    rw [hloops]
    exact ho
  | running i =>
    change ∃ j ∈ u.batch i, _
    rw [hbatch]
    exact ho
  | user v =>
    change 0 < u.copies v c
    rw [hcopies]
    exact ho

/-- A connection that has an owner has one after a step, or the step gives it up. -/
theorem Does.owned (h : Does s a u)
    (hidle : ∀ i, s.batch i ≠ [] → ∃ b, (s.loops i).stage = .running b) {o : Owner T}
    (ho : o ∈ s.owners c) (hn : o ∉ s.givesUp c a) : (u.owners c).Nonempty := by
  cases h with
  | frame hst ho' hf hio hu => exact hu.owned hst ho hn
  | @leave t io fs hst ho' =>
    have hcall : ∀ v, .call v ∈ s.owners c → .call v ∉ s.givesUp c (.exec t io) →
        .call v ∈ (s.setStack t fs).owners c :=
      fun v ho hn ↦ owner_of_call hst (List.Subset.refl _) rfl rfl ho hn
    refine ⟨o, ?_⟩
    cases o with
    | call v => exact hcall v ho hn
    | entry | pending i | running i | user v => exact ho
  | @accept t io fs hst ho' ht =>
    refine ⟨o, ?_⟩
    cases o with
    | call v => exact owner_of_call hst (List.subset_cons_self _ _) rfl rfl ho hn
    | entry =>
      refine owner_of_entry hst rfl (fun name hname ↦ ?_) ho hn
      refine Function.update_of_ne ?_ ..
      rintro rfl
      exact hname rfl
    | pending i | running i | user v => exact ho
  | destruct hst ho' hf hu => exact (exec_destroys hf hu).owned hst ho hn
  | @send t d data len hu hr =>
    exact ⟨o, owned_pushed (t := t) ho rfl (List.subset_cons_self _ _) rfl rfl rfl rfl⟩
  | @shutdown t d hu hr =>
    exact ⟨o, owned_pushed (t := t) ho rfl (List.subset_cons_self _ _) rfl rfl rfl rfl⟩
  | @handle i accepts woken d revents es hi he hs hu =>
    exact ⟨o, owned_pushed (t := s.threadId i) ho rfl (List.subset_cons_self _ _) rfl rfl rfl rfl⟩
  | @destroy items hs hu hp =>
    exact ⟨o, owned_pushed (t := s.base) ho rfl (List.subset_cons_self _ _) rfl rfl rfl rfl⟩
  | @handleAccept i accepts woken revents fs es hi he hs hu hfs =>
    refine ⟨o, owned_pushed (t := s.threadId i) ho rfl ?_ rfl rfl rfl rfl⟩
    rw [(unoccupied_iff.mp hu).2]
    exact List.nil_subset _
  | @hold t d source hr =>
    refine ⟨o, ?_⟩
    cases o with
    | user v =>
      have hpos : 0 < s.copies v c := ho
      change 0 < (s.setCopies t d (s.copies t d + 1)).copies v c
      by_cases hv : v = t
      · subst hv
        by_cases hcd : c = d
        · simp [setCopies, hcd]
        · simpa [setCopies, hcd] using hpos
      · simpa [setCopies, hv] using hpos
    | entry | pending i | running i | call v => exact ho
  | @drop t d hu hpos =>
    refine ⟨o, ?_⟩
    cases o with
    | user v =>
      have hpos' : 0 < s.copies v c := ho
      change 0 < (s.setCopies t d (s.copies t d - 1)).copies v c
      by_cases hv : v = t
      · subst hv
        by_cases hcd : c = d
        · subst hcd
          have hone : s.copies v c ≠ 1 := fun hone ↦ hn ⟨rfl, hone, rfl⟩
          simp only [setCopies, Function.update_self]
          omega
        · simpa [setCopies, hcd] using hpos'
      · simpa [setCopies, hv] using hpos'
    | entry | pending i | running i | call v => exact ho
  | @poll i woken active l hi hu hn' hr hl =>
    obtain ⟨-, rfl⟩ := EventLoop.step_pollReturn.mp hl
    refine ⟨o, ?_⟩
    cases o with
    | pending k =>
      obtain ⟨j, hj, hb⟩ : ∃ j ∈ (s.loops k).pendingFunctors_, j.binds c = true := ho
      refine ⟨j, ?_, hb⟩
      by_cases hk : k = i
      · subst hk
        rw [setLoop_self]
        exact hj
      · rw [setLoop_of_ne hk]
        exact hj
    | entry | running k | user v | call v => exact ho
  | @loop i b l hi ha hl => exact owned_looped (hidle i) ha hl ho hn
  | @exit k hk hx hs hu =>
    refine ⟨o, ?_⟩
    cases o with
    | pending i =>
      have hi : i ≠ some k := by
        rintro rfl
        exact hn rfl
      obtain ⟨j, hj, hb⟩ : ∃ j ∈ (s.loops i).pendingFunctors_, j.binds c = true := ho
      exact ⟨j, by simpa [setLoop_of_ne hi] using hj, hb⟩
    | entry | running i | user v | call v => exact ho
  | abort | assign | retrieve => exact ⟨o, ho⟩

theorem Does.map_cases (h : Does s a u) : u.map = s.map ∨ u.map = s.map.newConnection ∨
    ∃ c, u.map = s.map.removeConnectionInLoop c := by
  cases h with
  | @frame t io c f fs u hst ho hf hio hu =>
    simp only [commit, hu.untouched.2.1]
    split
    · exact Or.inr (Or.inr ⟨c, rfl⟩)
    · exact Or.inl rfl
  | accept => exact Or.inr (Or.inl rfl)
  | destruct hst ho hf hu =>
    cases exec_destroys hf hu with
    | entry c items => exact Or.inr (Or.inr ⟨c, rfl⟩)
    | emptied | stored | joined | finished => exact Or.inl rfl
  | @loop i b l hi ha hl => exact Or.inl (s.beside_untouched i b).1
  | abort | leave | send | shutdown | hold | drop | assign | retrieve | poll | handle | handleAccept
    | destroy | exit => exact Or.inl rfl

end Reactors

def ConnectionMap.Keyed (m : ConnectionMap) : Prop :=
  ∀ name c, m.connections_ name = some c → c < m.accepted ∧ m.names c = name

theorem ConnectionMap.Keyed.newConnection {m : ConnectionMap} (h : m.Keyed) : m.newConnection.Keyed := by
  intro name c hc
  simp only [ConnectionMap.newConnection] at hc ⊢
  by_cases hn : name = m.connName m.nextConnId_
  · subst hn
    obtain rfl : m.accepted = c := by simpa using hc
    exact ⟨Nat.lt_succ_self _, Function.update_self ..⟩
  · rw [Function.update_of_ne hn] at hc
    obtain ⟨hlt, hname⟩ := h name c hc
    exact ⟨Nat.lt_succ_of_lt hlt, (Function.update_of_ne (Nat.ne_of_lt hlt) ..).trans hname⟩

theorem ConnectionMap.Keyed.removeConnectionInLoop {m : ConnectionMap} (h : m.Keyed) (d : ℕ) :
    (m.removeConnectionInLoop d).Keyed := by
  intro name c hc
  simp only [ConnectionMap.removeConnectionInLoop] at hc
  by_cases hn : name = m.names d
  · simp [hn] at hc
  · rw [Function.update_of_ne hn] at hc
    exact h name c hc

theorem Reactors.Does.keyed [DecidableEq T] {s u : Reactors T} {a : Reactors.Act T}
    (h : Reactors.Does s a u) (hs : s.map.Keyed) : u.map.Keyed := by
  rcases h.map_cases with heq | heq | ⟨c, heq⟩
  · rwa [heq]
  · rw [heq]
    exact hs.newConnection
  · rw [heq]
    exact hs.removeConnectionInLoop c

end Mymuduo
