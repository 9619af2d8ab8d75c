import Mymuduo.CloseProtocol
import Mymuduo.MapAccounting
import Mymuduo.PendingFunctors

namespace Mymuduo

open Foundation.Machine

variable {T : Type}

theorem Frame.not_isRaw_of_tearsDown {f : Frame T} (h : f.tearsDown = true) : f.isRaw = false := by
  cases f with
  | functor cb | queueInLoop cb => cases cb <;> simp_all [tearsDown, isRaw, Functor.isRaw]
  | removeChannel => rfl
  | _ => simp [tearsDown] at h

namespace Reactors

variable [DecidableEq T] {s s' u : Reactors T} {a : Act T} {i : Option ℕ} {c : ℕ} {t : T}

/-- The channel of `c` is known to the poller of its loop, or in the epoll set. -/
def Registered (s : Reactors T) (c : ℕ) : Prop :=
  ((s.conn c).reg.poller.channels_ (s.conn c).reg.channel.fd_).isSome ∨
    (s.conn c).reg.isRegistered = true

def removing (s : Reactors T) (c : ℕ) : ℕ := (s.view (s.getLoop c) c).removing

def destroying (s : Reactors T) (c : ℕ) : ℕ := (s.view (s.getLoop c) c).destroying

theorem mem_stack_of_view {f : Frame T} (hf : f ∈ (s.view i c).stack t) : .conn c f ∈ s.stack t := by
  obtain ⟨g, hg, hgf⟩ := List.mem_filterMap.mp hf
  cases g with
  | conn d k =>
    simp only [Activity.frame, Option.ite_none_right_eq_some, Option.some.injEq] at hgf
    obtain ⟨rfl, rfl⟩ := hgf
    exact hg
  | _ => simp [Activity.frame] at hgf

theorem mem_waiting_of_view (h : .connectDestroyed ∈ (s.view i c).loop.waiting) :
    .conn c .connectDestroyed ∈ (s.loops i).waiting := by
  have hseen : .connectDestroyed ∈ (s.loops i).waiting.map (Job.seen c) := by
    simpa [view, EventLoop.waiting, EventLoop.map] using h
  obtain ⟨j, hj, hjc⟩ := List.mem_map.mp hseen
  cases j with
  | conn d f =>
    by_cases hd : d = c
    · subst hd
      simp only [Job.seen, if_true] at hjc
      exact hjc ▸ hj
    · simp [Job.seen, hd] at hjc
  | _ => simp [Job.seen] at hjc

theorem owner_of_closing (hv : (s.view i c).Closing) (hc : c < s.map.accepted)
    (hd : .destroyed ∉ s.trace c) (hexact : s.map.Exact)
    (htaken : ∀ i, ∀ j ∈ (s.loops i).functors, j ∈ s.batch i) :
    ∃ o ∈ s.owners c, ∀ t, o ≠ .user t := by
  have hentry := hv.settles.entry
  have hcreated : (s.view i c).created = true := decide_eq_true hc
  have hzero : (s.view i c).trace.count .destroyed = 0 := List.count_eq_zero.mpr hd
  rw [hcreated, hzero, Bool.toNat_true, System.destroying] at hentry
  cases hconn : (s.view i c).connections_ with
  | true =>
    obtain ⟨name, hname⟩ := Option.isSome_iff_exists.mp hconn
    exact ⟨.entry, ⟨name, hexact.get hname⟩, by simp⟩
  | false =>
    rw [hconn, Bool.toNat_false] at hentry
    by_cases hwait : .connectDestroyed ∈ (s.view i c).loop.waiting
    · rcases List.mem_append.mp (mem_waiting_of_view hwait) with hj | hj
      · exact ⟨.running i, ⟨_, htaken i _ hj, by simp [Job.binds, Functor.isRaw]⟩, by simp⟩
      · exact ⟨.pending i, ⟨_, hj, by simp [Job.binds, Functor.isRaw]⟩, by simp⟩
    · have hcalls : 0 < (s.view i c).calls Frame.tearsDown := by
        have hnone : (s.view i c).loop.waiting.count .connectDestroyed = 0 :=
          List.count_eq_zero.mpr hwait
        omega
      obtain ⟨t, f, hf, htear⟩ := System.exists_of_calls_pos hcalls
      refine ⟨.call t, ⟨.conn c f, mem_stack_of_view hf, ?_⟩, by simp⟩
      simp [Activity.holds, Frame.not_isRaw_of_tearsDown htear]

section

variable {p : Pool T} {name ipPort : String} {fd : ℕ → ℕ} {wc hw : Bool} {mark : ℕ}
  {mem : T → ℕ → Byte} {as : List (Act T)}

theorem Refines.closing (hs : Refines p fd wc hw mark mem True s) (hb : s.Belongs i c) :
    (s.view i c).Closing :=
  (hs.views i c hb).invariant (fun _ _ _ hc hG h ↦ hc.step hG h) (System.ofConnection_closing ..)

inductive Books (s u : Reactors T) : Prop
  | keep (hmap : u.map = s.map) (herased : u.erased = s.erased) (hlive : u.live = s.live)
  | add (hmap : u.map = s.map.newConnection) (herased : u.erased = s.erased)
      (hlive : u.live = insert s.map.accepted s.live)
  | remove (t : T) (c : ℕ) (hst : .conn c .removeConnectionInLoop ∈ s.stack t)
      (hmap : u.map = s.map.removeConnectionInLoop c)
      (herased : u.erased = Function.update s.erased c (s.erased c + 1)) (hlive : u.live = s.live)

theorem Does.books (h : Does s a u) (hs : s.Sound) : Books s u := by
  cases h with
  | @frame t io c f fs u hst ho hf hio hu =>
    have herased : u.erased = s.erased := by
      rcases hu.setLoop_eq with rfl | ⟨j, k, l, -, rfl⟩ <;> rfl
    cases hf : (f.exec (s.site c t) (s.conn c) io).erased with
    | true =>
      obtain rfl := Frame.exec_erased hf
      refine .remove t c (by rw [hst]; exact List.mem_cons_self) ?_ ?_ hu.holding.2.2.1
      · simp only [commit, hf, if_true, hu.untouched.2.1]
      · simp only [commit, hf, if_true, herased]
    | false =>
      refine .keep ?_ ?_ hu.holding.2.2.1
      · simp only [commit, hf, Bool.false_eq_true, if_false, hu.untouched.2.1]
      · simp only [commit, hf, Bool.false_eq_true, if_false, herased]
  | accept => exact .add rfl rfl rfl
  | destruct hst ho hf hu => exact (hs.not_destroys hst hf).elim
  | @loop i b l hi ha hl =>
    refine .keep (s.beside_untouched i b).1 ?_ (s.beside_untouched i b).2.2.2.1
    cases b with
    | testQuit =>
      simp only [beside, setLoop]
      split <;> rfl
    | _ => rfl
  | abort | leave | send | shutdown | hold | drop | assign | retrieve | poll | handle | handleAccept
    | destroy | exit => exact .keep rfl rfl rfl

theorem Does.trace_mono (h : Does s a u) {o : Obs T} (ho : o ∈ s.trace c) : o ∈ u.trace c := by
  have hupdate : ∀ d os, o ∈ Function.update s.trace d (s.trace d ++ os) c := by
    intro d os
    by_cases hd : c = d
    · subst hd
      rw [Function.update_self]
      exact List.mem_append_left os ho
    · rwa [Function.update_of_ne hd]
  cases h with
  | frame hst hw hf hio hu =>
    simp only [commit, hu.untouched.2.2.2.2.2]
    exact hupdate _ _
  | destruct hst hw hf hu => cases exec_destroys hf hu <;> exact ho
  | shutdown => exact hupdate _ _
  | @loop i b l hi ha hl =>
    cases b with
    | testQuit =>
      simp only [beside, setLoop]
      split <;> exact ho
    | _ => exact ho
  | abort | leave | accept | send | hold | drop | assign | retrieve | poll | handle | handleAccept
    | destroy | exit => exact ho

/-- A connection that has been accepted is in the map, or has been taken out of it once. -/
structure Erasures (s : Reactors T) : Prop where
  once : ∀ c < s.map.accepted, s.erased c + (s.map.opened c).isSome.toNat = 1
  never : ∀ c, s.map.accepted ≤ c → s.erased c = 0

omit [DecidableEq T] in
theorem Books.erasures (h : Books s u) (hE : s.Erasures)
    (hheld : ∀ t c, .conn c .removeConnectionInLoop ∈ s.stack t →
      c < s.map.accepted ∧ (s.map.opened c).isSome) : u.Erasures := by
  obtain ⟨honce, hnever⟩ := hE
  cases h with
  | keep hmap herased hlive =>
    constructor <;> rw [hmap, herased]
    · exact honce
    · exact hnever
  | add hmap herased hlive =>
    refine ⟨fun c hc ↦ ?_, fun c hc ↦ ?_⟩
    · rw [hmap] at hc ⊢
      rw [herased]
      by_cases hacc : c = s.map.accepted
      · simp [ConnectionMap.newConnection, hacc, hnever]
      · have hopened : s.map.newConnection.opened c = s.map.opened c := Function.update_of_ne hacc ..
        rw [hopened]
        exact honce c (lt_of_le_of_ne (Nat.le_of_lt_succ hc) hacc)
    · rw [herased]
      exact hnever c (le_trans (by rw [hmap]; exact Nat.le_succ _) hc)
  | remove t d hst hmap herased hlive =>
    obtain ⟨hlt, hsome⟩ := hheld t d hst
    refine ⟨fun c hc ↦ ?_, fun c hc ↦ ?_⟩
    · rw [hmap] at hc ⊢
      rw [herased]
      by_cases hd : c = d
      · subst hd
        have hold := honce c hc
        simp only [hsome, Bool.toNat_true] at hold
        simp [ConnectionMap.removeConnectionInLoop]
        omega
      · have hopened : (s.map.removeConnectionInLoop d).opened c = s.map.opened c :=
          Function.update_of_ne hd ..
        rw [Function.update_of_ne hd, hopened]
        exact honce c hc
    · rw [hmap] at hc
      rw [herased, Function.update_of_ne (ne_of_gt (lt_of_lt_of_le hlt hc))]
      exact hnever c hc

omit [DecidableEq T] in
theorem Books.accepted (h : Books s u) : s.map.accepted ≤ u.map.accepted := by
  cases h with
  | keep hmap => exact le_of_eq (congrArg _ hmap.symm)
  | add hmap =>
    rw [hmap]
    exact Nat.le_succ _
  | remove t c hst hmap =>
    rw [hmap]
    exact le_refl _

omit [DecidableEq T] in
theorem Books.exact (h : Books s u) (hlt : u.map.accepted < 2 ^ 31)
    (hI : s.map.Exact ∧ s.map.Numbered)
    (hheld : ∀ t c, .conn c .removeConnectionInLoop ∈ s.stack t → c < s.map.accepted) :
    u.map.Exact ∧ u.map.Numbered := by
  have hstep : ∀ b, s.map.step b = some u.map → s.map.Spaced b → u.map.Exact ∧ u.map.Numbered :=
    fun b hb hG ↦ ⟨((ConnectionMap.accounts_iff hI.1 hI.2).mpr hG _ hb).1, hI.2.step hb⟩
  have hle := h.accepted
  cases h with
  | keep hmap => rwa [hmap]
  | add hmap =>
    refine hstep .newConnection (by rw [hmap]; rfl) ?_
    intro c hsome
    have hc := hI.2.lt hsome
    omega
  | remove t c hst hmap =>
    have hc := hheld t c hst
    refine hstep (.removeConnectionInLoop c) (by rw [hmap, ConnectionMap.step, if_pos hc]) ?_
    intro _ d hsome hmod
    have hd := hI.2.lt hsome
    omega

/-- The invariant of a server that lives and accepts fewer than 2 ^ 31 connections. -/
structure Keeping (p : Pool T) (fd : ℕ → ℕ) (wc hw : Bool) (mark : ℕ) (mem : T → ℕ → Byte)
    (s : Reactors T) : Prop where
  refines : Refines p fd wc hw mark mem True s
  idle : ∀ i, s.batch i ≠ [] → ∃ b, (s.loops i).stage = .running b
  taken : ∀ i, ∀ j ∈ (s.loops i).functors, j ∈ s.batch i
  erasures : s.Erasures
  exact : s.map.Exact ∧ s.map.Numbered
  alive : ∀ c < s.map.accepted, .destroyed ∉ s.trace c → c ∈ s.live

omit [DecidableEq T] in
theorem Sound.belongs (hs : s.Sound) (hc : c < s.map.accepted) : s.Belongs (s.getLoop c) c :=
  ⟨hs.routed c hc, fun _ ↦ rfl⟩

theorem Keeping.step (hs : Keeping p fd wc hw mark mem s) (hG : s.Civil True a)
    (h : s.step a = some s') (hlt : s'.map.accepted < 2 ^ 31) : Keeping p fd wc hw mark mem s' := by
  have hrefines := hs.refines.step hG h
  obtain ⟨-, u, hdoes, rfl⟩ := step_cases h
  have hsound := hs.refines.sound
  have hbooks := hdoes.books hsound
  have hheld : ∀ t c, .conn c .removeConnectionInLoop ∈ s.stack t →
      c < s.map.accepted ∧ (s.map.opened c).isSome := by
    intro t c hmem
    have hc : c < s.map.accepted := hsound.stacked t _ hmem
    have hv := hs.refines.closing (hsound.belongs hc)
    have hframe : .removeConnectionInLoop ∈ (s.view (s.getLoop c) c).stack t :=
      List.mem_filterMap.mpr ⟨_, hmem, by simp [Activity.frame]⟩
    exact ⟨hc, hv.settles.held hv.established hv.reached.confined hframe⟩
  have hexact := hbooks.exact hlt hs.exact fun t c hmem ↦ (hheld t c hmem).1
  have htaken : ∀ i, ∀ j ∈ (u.loops i).functors, j ∈ u.batch i :=
    fun i ↦ (hdoes.turn i).taken (hs.taken i)
  refine ⟨hrefines, fun i ↦ (hdoes.turn i).idle (hs.idle i), htaken, ?_, hexact, ?_⟩
  · obtain ⟨honce, hnever⟩ := hbooks.erasures hs.erasures hheld
    exact ⟨honce, hnever⟩
  · intro c hc hd
    have hold : c < s.map.accepted → c ∈ s.live := fun hlt ↦
      hs.alive c hlt fun hmem ↦ hd (hdoes.trace_mono hmem)
    have hlive : c ∈ u.live := by
      cases hbooks with
      | keep hmap herased hlive | remove t d hst hmap herased hlive =>
        rw [hlive]
        exact hold (by rwa [show u.settle.map = u.map from rfl, hmap] at hc)
      | add hmap herased hlive =>
        rw [hlive]
        rcases Nat.lt_succ_iff_lt_or_eq.mp (show c < s.map.accepted + 1 by
          rwa [show u.settle.map = u.map from rfl, hmap] at hc) with hc | rfl
        · exact Set.mem_insert_of_mem _ (hold hc)
        · exact Set.mem_insert _ _
    have hv := hrefines.closing (hrefines.sound.belongs hc)
    obtain ⟨o, ho, -⟩ := owner_of_closing (s := u) hv hc hd hexact.1 htaken
    exact ⟨hlive, o, ho⟩

/-- How far a connection has come: it is open; it is closed and will be taken out of
`connections_`; it has been taken out and `connectDestroyed` is still to come or to
return; or that has returned. -/
inductive Phase (s : Reactors T) (c : ℕ) : Prop
  | opened (hclosed : .closed ∉ s.trace c) (hentry : s.map.connections_ (s.map.names c) = some c)
      (herased : s.erased c = 0) (hr : s.removing c = 0) (hd : s.destroying c = 0)
      (hdone : .destroyed ∉ s.trace c)
  | closed (hclosed : (s.trace c).count .closed = 1)
      (hentry : s.map.connections_ (s.map.names c) = some c) (herased : s.erased c = 0)
      (hr : s.removing c = 1) (hd : s.destroying c = 0) (hdone : .destroyed ∉ s.trace c)
  | erased (hclosed : (s.trace c).count .closed = 1)
      (hentry : ∀ name, s.map.connections_ name ≠ some c) (herased : s.erased c = 1)
      (hr : s.removing c = 0) (hd : s.destroying c = 1) (hdone : .destroyed ∉ s.trace c)
  | destroyed (hclosed : (s.trace c).count .closed = 1)
      (hentry : ∀ name, s.map.connections_ name ≠ some c) (herased : s.erased c = 1)
      (hr : s.removing c = 0) (hd : s.destroying c = 0) (hdone : (s.trace c).count .destroyed = 1)
      (hout : ¬ s.Registered c)

structure Keeps (s : Reactors T) (c : ℕ) : Prop where
  owned : c < s.map.accepted → .destroyed ∉ s.trace c → ∃ o ∈ s.owners c, ∀ t, o ≠ .user t
  registered : s.Registered c → c ∈ s.live
  listed : ∀ i revents, (.conn c, revents) ∈ s.unhandled i → c ∈ s.live
  phase : c < s.map.accepted → s.Phase c

omit [DecidableEq T] in
theorem not_registered (hr : (s.conn c).reg.Coherent) (hi : (s.conn c).reg.channel.index_ = .kNew) :
    ¬ s.Registered c := by
  simp [Registered, Registration.isRegistered, hr.epoll, hr.channels, Channel.watched, Channel.listed, hi]

theorem Keeping.phase (hs : Keeping p fd wc hw mark mem s) (hc : c < s.map.accepted) : s.Phase c := by
  have hv := hs.refines.closing (hs.refines.sound.belongs hc)
  obtain ⟨hexact, hn⟩ := hs.exact
  have honce := hs.erasures.once c hc
  have hfirst : (s.trace c).count .closed ≤ 1 := hv.settles.first
  have hdue : (s.trace c).count .closed = s.removing c + s.destroying c + (s.trace c).count .destroyed :=
    hv.settles.due
  have hentry : (s.map.opened c).isSome.toNat + s.destroying c + (s.trace c).count .destroyed = 1 := by
    have hcreated : (s.view (s.getLoop c) c).created = true := decide_eq_true hc
    have hentry := hv.settles.entry
    rwa [hcreated] at hentry
  cases hopened : (s.map.opened c).isSome with
  | true =>
    rw [hopened, Bool.toNat_true] at honce hentry
    have hget := hexact.get (hn.isSome_iff.mp hopened)
    have hdone : .destroyed ∉ s.trace c := List.count_eq_zero.mp (by omega)
    by_cases hcl : .closed ∈ s.trace c
    · have hpos := List.count_pos_iff.mpr hcl
      exact .closed (by omega) hget (by omega) (by omega) (by omega) hdone
    · have hzero := List.count_eq_zero.mpr hcl
      exact .opened hcl hget (by omega) (by omega) (by omega) hdone
  | false =>
    rw [hopened, Bool.toNat_false] at honce hentry
    have hget : ∀ name, s.map.connections_ name ≠ some c := by
      intro name hname
      simp [hexact.opened hname] at hopened
    by_cases hdone : .destroyed ∈ s.trace c
    · have hpos := List.count_pos_iff.mpr hdone
      have hdet := hv.detaches
      exact .destroyed (by omega) hget (by omega) (by omega) (by omega) (by omega)
        (not_registered hdet.coherent (hdet.gone hdone))
    · have hzero := List.count_eq_zero.mpr hdone
      exact .erased (by omega) hget (by omega) (by omega) (by omega) hdone

theorem Keeping.keeps (hs : Keeping p fd wc hw mark mem s) (c : ℕ) : s.Keeps c := by
  have hsound := hs.refines.sound
  refine ⟨fun hc hd ↦ ?_, fun hreg ↦ ?_, fun i revents hmem ↦ ?_, hs.phase⟩
  · exact owner_of_closing (hs.refines.closing (hsound.belongs hc)) hc hd hs.exact.1 hs.taken
  · by_cases hc : c < s.map.accepted
    · have hdet := (hs.refines.closing (hsound.belongs hc)).detaches
      exact hs.alive c hc fun hd ↦ not_registered hdet.coherent (hdet.gone hd) hreg
    · have hb : s.Belongs none c := ⟨none_mem_indices, fun hlt ↦ absurd hlt hc⟩
      have hv := hs.refines.closing hb
      have hstate := (hv.established.lined.unborn (decide_eq_false hc)).2.1
      exact absurd hreg (not_registered hv.detaches.coherent (hv.detaches.fresh hstate))
  · obtain ⟨hc, hi⟩ : c < s.map.accepted ∧ s.getLoop c = i := hsound.listed i _ hmem
    have hv := hs.refines.closing (hsound.belongs hc)
    refine hs.alive c hc fun hd ↦ ?_
    have hready : (s.view (s.getLoop c) c).ready.isSome = true := by
      rw [Option.isSome_iff_ne_none]
      intro hnone
      rw [hi] at hnone
      have hall := List.lookup_eq_none_iff.mp hnone (.conn c, revents) hmem
      simp at hall
    have hclosed : .closed ∈ (s.view (s.getLoop c) c).trace := by
      have hpos : 0 < (s.view (s.getLoop c) c).trace.count .destroyed := List.count_pos_iff.mpr hd
      rw [← List.count_pos_iff, hv.settles.due]
      omega
    have hnone := hv.handles.shut (hv.settles.state.mp hclosed)
    rw [hready, Bool.toNat_true] at hnone
    omega

theorem ofPool_keeping : Keeping p fd wc hw mark mem (ofPool p name ipPort fd wc hw mark mem) := by
  refine ⟨⟨ofPool_sound, rfl, fun _ _ _ ↦ .of_eq ofPool_view.symm⟩, by simp [ofPool],
    by simp [ofPool, EventLoop.ofThread], ⟨?_, fun _ _ ↦ rfl⟩,
    ⟨ConnectionMap.ofServer_exact name ipPort, ConnectionMap.ofServer_numbered name ipPort⟩, ?_⟩
  · simp [ofPool, ConnectionMap.ofServer]
  · simp [ofPool, ConnectionMap.ofServer]

theorem step_accepted (h : s.step a = some s') : s.map.accepted ≤ s'.map.accepted := by
  obtain ⟨-, u, hdoes, rfl⟩ := step_cases h
  exact hdoes.kept.accepted

/-- As long as the server lives and fewer than 2 ^ 31 connections are accepted, the library
owns each connection until its `connectDestroyed` returns. -/
theorem connections_kept (hG : Along step (Civil True) (ofPool p name ipPort fd wc hw mark mem) as)
    (h : run step (ofPool p name ipPort fd wc hw mark mem) as = some s)
    (hlt : s.map.accepted < 2 ^ 31) (c : ℕ) : s.Keeps c := by
  have hs : s.map.accepted < 2 ^ 31 → Keeping p fd wc hw mark mem s := by
    refine run_invariant_along (I := fun s ↦ s.map.accepted < 2 ^ 31 → Keeping p fd wc hw mark mem s)
      ?_ (fun _ ↦ ofPool_keeping) hG h
    intro s a t hs hG ht hlt
    exact (hs (lt_of_le_of_lt (step_accepted ht) hlt)).step hG ht hlt
  exact (hs hlt).keeps c

end

section

instance (revents : BitVec 32) : Decidable (Plain revents) :=
  inferInstanceAs (Decidable (¬ (revents &&& EPOLLPRI ≠ 0 ∧ revents &&& EPOLLHUP ≠ 0 ∧
    revents &&& EPOLLIN = 0)))

/-- No `shutdown()` stands between its test and its store, the events are plain and the
server lives. -/
def calm (s : Reactors Bool) : Act Bool → Bool
  | .exec t _ => (s.stack t).all fun f ↦ match f with
    | .conn _ .setDisconnecting => false
    | _ => true
  | .poll _ _ active => active.all fun e ↦ decide (Plain e.2)
  | .destroy _ => false
  | _ => true

theorem civil_of_calm {s : Reactors Bool} {a : Act Bool} (h : s.calm a = true) : s.Civil True a := by
  cases a with
  | exec t io =>
    intro _ c hhead
    have hall := List.all_eq_true.mp h _ (List.mem_of_head? hhead)
    simp at hall
  | poll i woken active =>
    intro _ e he
    exact of_decide_eq_true (List.all_eq_true.mp h e he)
  | destroy items => simp [calm] at h
  | send | shutdown | hold | drop | assign | retrieve | handleEvent | loop | exit => trivial

def closesAlone : List (Act Bool) :=
  [.loop none .enter, .loop none .clearQuit, .loop none .testQuit,
    .poll none false [(.acceptor, EPOLLIN)], .handleEvent none true,
    nothing false, nothing false, nothing false, nothing false,
    .loop none .beginCalling, .loop none .swap, .loop none .endCalling, .loop none .testQuit,
    .poll none false [(.conn 0, EPOLLIN)], .handleEvent none false, nothing false,
    .exec false { write := .accepted 0, read := .delivered [] },
    nothing false, nothing false, nothing false, nothing false, nothing false, nothing false,
    .loop none .beginCalling, .loop none .swap,
    .loop none (.beginFunctor (.conn 0 .connectDestroyed)), nothing false, nothing false,
    .loop none .endFunctor, .loop none .endCalling]

theorem civil_closesAlone : Along step (Civil True) (plainServer lonePool) closesAlone :=
  Along.imp (G := fun s a ↦ s.calm a = true) (fun _ _ ↦ civil_of_calm) (by decide +kernel)

theorem connections_kept_closesAlone : Along step (Civil True) (plainServer lonePool) closesAlone ∧
    ∃ s, run step (plainServer lonePool) closesAlone = some s ∧ s.map.accepted < 2 ^ 31 ∧
      .destroyed ∈ s.trace 0 ∧ s.Keeps 0 := by
  obtain ⟨s, hs, hw⟩ := Option.map_eq_some_iff.mp
    (show (run step (plainServer lonePool) closesAlone).map
      (fun s ↦ (s.map.accepted, decide (.destroyed ∈ s.trace 0))) = some (1, true) by decide +kernel)
  obtain ⟨hacc, hd⟩ := Prod.mk.inj hw
  have hlt : s.map.accepted < 2 ^ 31 := by
    rw [hacc]
    norm_num
  exact ⟨civil_closesAlone, s, hs, hlt, of_decide_eq_true hd, connections_kept civil_closesAlone hs hlt 0⟩

/-- An entry of `activeChannels_` that has been handled may point to the channel of a
connection that is destroyed. -/
theorem not_listed : ¬ ∀ s, Along step (Civil True) (plainServer lonePool) closesAlone →
    run step (plainServer lonePool) closesAlone = some s → s.map.accepted < 2 ^ 31 →
      ∀ i c revents, (.conn c, revents) ∈ s.activeChannels_ i → c ∈ s.live := by
  intro h
  obtain ⟨s, hs, hw⟩ := Option.map_eq_some_iff.mp
    (show (run step (plainServer lonePool) closesAlone).map
      (fun s ↦ (s.map.accepted, s.activeChannels_ none, s.deserted 0)) =
        some (1, [(.conn 0, EPOLLIN)], true) by decide +kernel)
  obtain ⟨hacc, hw⟩ := Prod.mk.inj hw
  obtain ⟨hactive, hdes⟩ := Prod.mk.inj hw
  have hlt : s.map.accepted < 2 ^ 31 := by
    rw [hacc]
    norm_num
  have hlive := h s civil_closesAlone hs hlt none 0 EPOLLIN (by simp [hactive])
  have hlocated : s.Located := run_invariant (fun _ _ _ hs h ↦ hs.step h) ofPool_located hs
  exact hlocated.not_live (run_refines civil_closesAlone hs).sound hdes hlive

end

end Reactors

end Mymuduo
