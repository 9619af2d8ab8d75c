import Mymuduo.ChannelInterest
import Mymuduo.ConnectionOwnership

namespace Mymuduo

open Foundation.Machine

variable {T : Type}

namespace Registration

variable {P Q : Type} {r : Registration P} {q : Registration Q}

theorem change_channel (h : r.channel = q.channel) (i : Interest) :
    (r.change i).channel = (q.change i).channel := by
  rw [change_eq, change_eq, h]
  simp only [setEvents, EPollPoller.updateChannel, h]
  split
  · rfl
  · rfl
  · split <;> rfl

theorem remove_channel (h : r.channel = q.channel) : r.remove.channel = q.remove.channel := by
  simp [remove, EPollPoller.removeChannel, h]

@[simp] theorem remove_fd : r.remove.channel.fd_ = r.channel.fd_ := rfl

end Registration

theorem Frame.Turns.changes {e : Site T} {c d : TcpConnection} {io : Reply} {f : Frame T}
    (h : Turns e c io f d) : d.reg = c.reg ∨ (∃ i, d.reg = c.reg.change i) ∨
      f = .removeChannel ∧ d.reg = c.reg.remove := by
  cases h with
  | same | disconnecting | read => exact Or.inl rfl
  | established => exact Or.inr (Or.inl ⟨.enableReading, rfl⟩)
  | destroyed | closed => exact Or.inr (Or.inl ⟨.disableAll, rfl⟩)
  | removed => exact Or.inr (Or.inr ⟨rfl, rfl⟩)
  | sent m => exact TcpConnection.reg_sendInLoop.imp_right fun hreg ↦ Or.inl ⟨.enableWriting, hreg⟩
  | written =>
    exact TcpConnection.reg_handleWrite.imp_right fun hreg ↦ Or.inl ⟨.disableWriting, hreg.2⟩

/-- The channels of a loop: that of its `wakeupFd_`, that of the acceptor, and those of
its connections. -/
inductive Polled
  | wakeup
  | acceptor
  | conn (c : ℕ)
  deriving DecidableEq

namespace Channels

variable {P : Type} [DecidableEq P] {s : Channels P} {this : P} {c : Channel}

theorem step_change (h : s.live this = some c) (i : Interest) : s.step (.change this i) =
    some (s.commit this ((s.registration this c).change i)) := by
  simp [step, h]

theorem step_remove (h : s.live this = some c) : s.step (.remove this) =
    some (s.commit this (s.registration this c).remove) := by
  simp [step, h]

theorem sweep {q : List P} (hn : q.Nodup)
    (hl : ∀ p ∈ q, ∃ c, s.live p = some c ∧ c.index_ = .kNew) :
    ∃ t, run step s (q.map .destroy) = some t ∧ (∀ p ∈ q, t.live p = none) ∧
      ∀ p ∉ q, t.live p = s.live p := by
  induction q generalizing s with
  | nil => exact ⟨s, rfl, by simp, fun _ _ ↦ rfl⟩
  | cons p ps ih =>
    rw [List.nodup_cons] at hn
    obtain ⟨c, hc, hi⟩ := hl p List.mem_cons_self
    have hstep : s.step (.destroy p) = some { s with
        live := Function.update s.live p none, owner := Function.update s.owner c.fd_ none } := by
      simp [step, hc, hi]
    obtain ⟨t, ht, hgone, hkept⟩ := ih (s := { s with
        live := Function.update s.live p none, owner := Function.update s.owner c.fd_ none })
      hn.2 fun q hq ↦ by
        have hqp : q ≠ p := fun h ↦ hn.1 (h ▸ hq)
        obtain ⟨d, hd, hdi⟩ := hl q (List.mem_cons_of_mem p hq)
        exact ⟨d, by simpa [Function.update_of_ne hqp] using hd, hdi⟩
    refine ⟨t, run_cons.mpr ⟨_, hstep, ht⟩, fun q hq ↦ ?_, fun q hq ↦ ?_⟩
    · rcases List.mem_cons.mp hq with rfl | hq
      · exact (hkept q hn.1).trans (Function.update_self ..)
      · exact hgone q hq
    · rw [List.mem_cons, not_or] at hq
      exact (hkept q hq.2).trans (Function.update_of_ne hq.1 ..)

end Channels

namespace Reactors

variable [DecidableEq T] {s u : Reactors T} {a : Act T} {i : Option ℕ} {c : ℕ} {t : T}

inductive Rewires (s : Reactors T) : Act T → Reactors T → Prop
  | still {a : Act T} {u : Reactors T} (hlive : u.live = s.live) (hget : u.getLoop = s.getLoop)
      (hreg : ∀ c, (u.conn c).reg = (s.conn c).reg) : Rewires s a u
  | frame {t : T} {io : Reply} {c : ℕ} {f : Frame T} {fs : List (Activity T)} {u : Reactors T}
      (hst : s.stack t = .conn c f :: fs) (hlive : u.live = s.live) (hget : u.getLoop = s.getLoop)
      (hconn : u.conn = Function.update s.conn c (f.exec (s.site c t) (s.conn c) io).conn) :
      Rewires s (.exec t io) u
  | accept {t : T} {io : Reply} {fs : List (Activity T)} {u : Reactors T}
      (hst : s.stack t = .newConnection :: fs) (hlive : u.live = insert s.map.accepted s.live)
      (hget : u.getLoop = Function.update s.getLoop s.map.accepted s.getNextLoop.1)
      (hconn : u.conn = s.conn) (hacc : u.map.accepted = s.map.accepted + 1) :
      Rewires s (.exec t io) u

theorem Does.rewires (h : Does s a u) (hs : s.Sound) : Rewires s a u := by
  cases h with
  | @frame t io c f fs u hst ho hf hio hu =>
    refine .frame hst hu.holding.2.2.1 ?_ ?_
    · rcases hu.setLoop_eq with rfl | ⟨j, k, l, -, rfl⟩ <;> rfl
    · rw [← hu.untouched.1]
      rfl
  | accept hst ho ht => exact .accept hst rfl rfl rfl rfl
  | destruct hst ho hf hu => exact (hs.not_destroys hst hf).elim
  | @retrieve t c len fs ho hst =>
    have hkeep : ∀ x : TcpConnection, x.reg = (s.conn c).reg →
        ∀ d, (Function.update s.conn c x d).reg = (s.conn d).reg := by
      intro x hx d
      by_cases hd : d = c
      · rw [hd, Function.update_self, hx]
      · rw [Function.update_of_ne hd]
    exact .still rfl rfl (hkeep _ rfl)
  | @loop i b l hi ha hl =>
    cases b with
    | testQuit =>
      refine .still (s.beside_untouched i _).2.2.2.1 ?_ fun c ↦ ?_ <;> simp only [beside, setLoop] <;>
        split <;> rfl
    | _ => exact .still rfl rfl fun _ ↦ rfl
  | abort | leave | send | shutdown | hold | drop | assign | poll | handle | handleAccept | destroy
    | exit => exact .still rfl rfl fun _ ↦ rfl

structure Wired (fd : ℕ → ℕ) (s : Reactors T) : Prop where
  own : ∀ c, (s.conn c).reg.channel.fd_ = fd c
  fresh : ∀ c, s.map.accepted ≤ c → (s.conn c).reg.channel = .ofFd (fd c)
  live : ∀ c ∈ s.live, c < s.map.accepted

theorem Wired.does {fd : ℕ → ℕ} (hw : s.Wired fd) (hs : s.Sound) (h : Does s a u) : u.Wired fd := by
  have hacc := h.kept.accepted
  cases h.rewires hs with
  | still hlive hget hreg =>
    refine ⟨fun c ↦ by rw [hreg, hw.own], fun c hc ↦ ?_, fun c hc ↦ ?_⟩
    · rw [hreg]
      exact hw.fresh c (hacc.trans hc)
    · rw [hlive] at hc
      exact Nat.lt_of_lt_of_le (hw.live c hc) hacc
  | @frame t io d f fs u hst hlive hget hconn =>
    have hd : d < s.map.accepted := hs.stacked t (.conn d f) (by simp [hst])
    refine ⟨fun c ↦ ?_, fun c hc ↦ ?_, fun c hc ↦ ?_⟩
    · rw [hconn]
      by_cases hcd : c = d
      · subst hcd
        rw [Function.update_self, ← hw.own c]
        rcases (Frame.exec_turns (s.site c t) (s.conn c) io f).changes with hreg | ⟨j, hreg⟩ | ⟨-, hreg⟩
        · rw [hreg]
        · rw [hreg, Registration.change_fd]
        · rw [hreg, Registration.remove_fd]
      · rw [Function.update_of_ne hcd]
        exact hw.own c
    · have hcd : c ≠ d := fun h ↦ by omega
      rw [hconn, Function.update_of_ne hcd]
      exact hw.fresh c (hacc.trans hc)
    · rw [hlive] at hc
      exact Nat.lt_of_lt_of_le (hw.live c hc) hacc
  | accept hst hlive hget hconn hnext =>
    refine ⟨fun c ↦ by rw [hconn, hw.own], fun c hc ↦ ?_, fun c hc ↦ ?_⟩
    · rw [hconn]
      exact hw.fresh c (hacc.trans hc)
    · rw [hnext]
      rw [hlive] at hc
      rcases hc with rfl | hc
      · exact Nat.lt_succ_self _
      · exact Nat.lt_succ_of_lt (hw.live c hc)

/-- The descriptor that `accept` returns is that of no live channel. -/
def Fresh (fd : ℕ → ℕ) (wakeupFd : Option ℕ → ℕ) (listenFd : ℕ) (s : Reactors T) : Act T → Prop
  | .exec t _ => (s.stack t).head? = some .newConnection →
      (∀ c ∈ s.live, fd c ≠ fd s.map.accepted) ∧ (∀ i, wakeupFd i ≠ fd s.map.accepted) ∧
        listenFd ≠ fd s.map.accepted
  | _ => True

/-- The live channels of loop `i` are those of its live connections, and the two others
that it has from the beginning. -/
structure Shares (i : Option ℕ) (wakeupFd : Option ℕ → ℕ) (listenFd : ℕ) (s : Reactors T)
    (m : Channels Polled) : Prop where
  coherent : m.Coherent
  wakeup : ∀ w, m.live .wakeup = some w → w.fd_ = wakeupFd i
  acceptor : ∀ w, m.live .acceptor = some w → i = none ∧ w.fd_ = listenFd
  mine : ∀ c ∈ s.live, s.getLoop c = i → m.live (.conn c) = some (s.conn c).reg.channel
  others : ∀ c, (c ∈ s.live → s.getLoop c ≠ i) → m.live (.conn c) = none

section

variable {fd : ℕ → ℕ} {wakeupFd : Option ℕ → ℕ} {listenFd : ℕ} {m m' : Channels Polled}

omit [DecidableEq T] in
theorem Shares.congr (h : Shares i wakeupFd listenFd s m) (hlive : u.live = s.live)
    (hget : u.getLoop = s.getLoop)
    (hreg : ∀ c ∈ s.live, s.getLoop c = i → (u.conn c).reg.channel = (s.conn c).reg.channel) :
    Shares i wakeupFd listenFd u m := by
  refine ⟨h.coherent, h.wakeup, h.acceptor, fun c hc hi ↦ ?_, fun c hc ↦ ?_⟩
  · rw [hlive] at hc
    rw [hget] at hi
    rw [hreg c hc hi]
    exact h.mine c hc hi
  · rw [hlive, hget] at hc
    exact h.others c hc

omit [DecidableEq T] in
theorem Shares.update (h : Shares i wakeupFd listenFd s m) (hc : c ∈ s.live) (hi : s.getLoop c = i)
    (hlive : u.live = s.live) (hget : u.getLoop = s.getLoop) (hother : ∀ d ≠ c, u.conn d = s.conn d)
    (hcoh : m'.Coherent)
    (hm : m'.live = Function.update m.live (.conn c) (some (u.conn c).reg.channel)) :
    Shares i wakeupFd listenFd u m' := by
  refine ⟨hcoh, ?_, ?_, fun d hd hdi ↦ ?_, fun d hd ↦ ?_⟩
  · rw [hm, Function.update_of_ne (by simp)]
    exact h.wakeup
  · rw [hm, Function.update_of_ne (by simp)]
    exact h.acceptor
  · rw [hm]
    by_cases hdc : d = c
    · rw [hdc, Function.update_self]
    · rw [Function.update_of_ne (by simpa using hdc), hother d hdc]
      exact h.mine d (hlive ▸ hd) (hget ▸ hdi)
  · have hdc : d ≠ c := by
      rintro rfl
      exact hd (hlive ▸ hc) (hget ▸ hi)
    rw [hm, Function.update_of_ne (by simpa using hdc)]
    exact h.others d fun hd' ↦ hget ▸ hd (hlive ▸ hd')

theorem Shares.frame (h : Shares i wakeupFd listenFd s m) {io : Reply} {f : Frame T} (hc : c ∈ s.live)
    (hi : s.getLoop c = i) (hlive : u.live = s.live) (hget : u.getLoop = s.getLoop)
    (hconn : u.conn = Function.update s.conn c (f.exec (s.site c t) (s.conn c) io).conn) :
    ∃ bs m', run Channels.step m bs = some m' ∧ Shares i wakeupFd listenFd u m' := by
  have hother : ∀ d ≠ c, u.conn d = s.conn d := by
    intro d hd
    rw [hconn, Function.update_of_ne hd]
  have hself : u.conn c = (f.exec (s.site c t) (s.conn c) io).conn := by
    rw [hconn, Function.update_self]
  have hm := h.mine c hc hi
  rcases (Frame.exec_turns (s.site c t) (s.conn c) io f).changes with hreg | ⟨j, hreg⟩ | ⟨-, hreg⟩
  · refine ⟨[], m, rfl, h.congr hlive hget fun d hd hdi ↦ ?_⟩
    by_cases hdc : d = c
    · rw [hdc, hself, hreg]
    · rw [hother d hdc]
  · have hstep := Channels.step_change hm j
    refine ⟨[.change (.conn c) j], _, run_cons.mpr ⟨_, hstep, rfl⟩,
      h.update hc hi hlive hget hother (h.coherent.step hstep) ?_⟩
    have hchannel : ((m.registration (.conn c) (s.conn c).reg.channel).change j).channel =
        ((s.conn c).reg.change j).channel :=
      Registration.change_channel (r := m.registration _ _) (q := (s.conn c).reg) rfl j
    rw [hself, hreg, ← hchannel]
    rfl
  · have hstep := Channels.step_remove hm
    refine ⟨[.remove (.conn c)], _, run_cons.mpr ⟨_, hstep, rfl⟩,
      h.update hc hi hlive hget hother (h.coherent.step hstep) ?_⟩
    have hchannel : (m.registration (.conn c) (s.conn c).reg.channel).remove.channel =
        (s.conn c).reg.remove.channel := Registration.remove_channel rfl
    rw [hself, hreg, ← hchannel]
    rfl

omit [DecidableEq T] in
theorem Shares.accept (h : Shares i wakeupFd listenFd s m) (hw : s.Wired fd)
    (hfresh : (∀ c ∈ s.live, fd c ≠ fd s.map.accepted) ∧ (∀ i, wakeupFd i ≠ fd s.map.accepted) ∧
      listenFd ≠ fd s.map.accepted)
    (hlive : u.live = insert s.map.accepted s.live)
    (hget : u.getLoop = Function.update s.getLoop s.map.accepted s.getNextLoop.1)
    (hconn : u.conn = s.conn) :
    ∃ bs m', run Channels.step m bs = some m' ∧ Shares i wakeupFd listenFd u m' := by
  have hnew : s.map.accepted ∉ s.live := fun hmem ↦ lt_irrefl _ (hw.live _ hmem)
  have hnone : m.live (.conn s.map.accepted) = none := h.others _ fun hmem ↦ absurd hmem hnew
  have hold : ∀ c ∈ s.live, u.getLoop c = s.getLoop c := by
    intro c hc
    rw [hget, Function.update_of_ne (ne_of_mem_of_not_mem hc hnew)]
  have hself : u.getLoop s.map.accepted = s.getNextLoop.1 := by rw [hget, Function.update_self]
  have hmem : ∀ {c}, c ∈ u.live ↔ c = s.map.accepted ∨ c ∈ s.live := by
    intro c
    rw [hlive]
    exact Iff.rfl
  by_cases hi : s.getNextLoop.1 = i
  · have howner : m.owner (fd s.map.accepted) = none := by
      refine h.coherent.owner.vacant fun q w hq hk ↦ ?_
      cases q with
      | wakeup => exact hfresh.2.1 i ((h.wakeup w hq).symm.trans hk)
      | acceptor => exact hfresh.2.2 ((h.acceptor w hq).2.symm.trans hk)
      | conn c =>
        by_cases hc : c ∈ s.live ∧ s.getLoop c = i
        · obtain rfl := Option.some.inj ((h.mine c hc.1 hc.2).symm.trans hq)
          exact hfresh.1 c hc.1 ((hw.own c).symm.trans hk)
        · simp [h.others c fun hl hi ↦ hc ⟨hl, hi⟩] at hq
    have hstep : m.step (.create (.conn s.map.accepted) (fd s.map.accepted)) = some { m with
        live := Function.update m.live (.conn s.map.accepted) (some (.ofFd (fd s.map.accepted)))
        owner := Function.update m.owner (fd s.map.accepted) (some (.conn s.map.accepted)) } := by
      simp [Channels.step, hnone, howner]
    refine ⟨[.create (.conn s.map.accepted) (fd s.map.accepted)], _, run_cons.mpr ⟨_, hstep, rfl⟩,
      h.coherent.step hstep, ?_, ?_, fun c hc hci ↦ ?_, fun c hc ↦ ?_⟩
    · simpa using h.wakeup
    · simpa using h.acceptor
    · rcases hmem.mp hc with rfl | hc
      · simp [hconn, hw.fresh _ (le_refl _)]
      · have hne : c ≠ s.map.accepted := ne_of_mem_of_not_mem hc hnew
        rw [hold c hc] at hci
        simpa [hconn, hne] using h.mine c hc hci
    · have hne : c ≠ s.map.accepted := by
        rintro rfl
        exact hc (hmem.mpr (Or.inl rfl)) (hself.trans hi)
      have hother := h.others c fun hcl ↦ hold c hcl ▸ hc (hmem.mpr (Or.inr hcl))
      simpa [hne] using hother
  · refine ⟨[], m, rfl, h.coherent, h.wakeup, h.acceptor, fun c hc hci ↦ ?_, fun c hc ↦ ?_⟩
    · rcases hmem.mp hc with rfl | hc
      · exact absurd (hself.symm.trans hci) hi
      · rw [hold c hc] at hci
        rw [hconn]
        exact h.mine c hc hci
    · refine h.others c fun hcl ↦ ?_
      rw [← hold c hcl]
      exact hc (hmem.mpr (Or.inr hcl))

omit [DecidableEq T] in
open Classical in
theorem Shares.settle (h : Shares i wakeupFd listenFd s m) (hl : ∀ c ∈ s.live, c < s.map.accepted)
    (hi : ∀ c ∈ s.live, c ∉ s.settle.live → (s.conn c).reg.channel.index_ = .kNew) :
    ∃ bs m', run Channels.step m bs = some m' ∧ Shares i wakeupFd listenFd s.settle m' := by
  let ps := (List.range s.map.accepted).filter fun c ↦
    c ∈ s.live ∧ c ∉ s.settle.live ∧ s.getLoop c = i
  have hps : ∀ c, c ∈ ps ↔ c ∈ s.live ∧ c ∉ s.settle.live ∧ s.getLoop c = i := by
    intro c
    simp only [ps, List.mem_filter, List.mem_range, decide_eq_true_eq]
    exact ⟨fun h ↦ h.2, fun h ↦ ⟨hl c h.1, h⟩⟩
  have hconn : ∀ c, .conn c ∈ ps.map Polled.conn ↔ c ∈ ps := by
    intro c
    simp
  obtain ⟨m', hm', hgone, hkept⟩ := Channels.sweep (s := m) (q := ps.map .conn)
    ((List.nodup_range.filter _).map fun _ _ h ↦ by simpa using h) fun p hp ↦ by
      obtain ⟨c, hc, rfl⟩ := List.mem_map.mp hp
      obtain ⟨hlive, hout, hloop⟩ := (hps c).mp hc
      exact ⟨_, h.mine c hlive hloop, hi c hlive hout⟩
  have hwake : m'.live .wakeup = m.live .wakeup := hkept _ (by simp)
  have haccept : m'.live .acceptor = m.live .acceptor := hkept _ (by simp)
  refine ⟨_, m', hm', run_invariant (fun _ _ _ hs h ↦ hs.step h) h.coherent hm', ?_, ?_,
    fun c hc hci ↦ ?_, fun c hc ↦ ?_⟩
  · rw [hwake]
    exact h.wakeup
  · rw [haccept]
    exact h.acceptor
  · rw [hkept _ fun hmem ↦ ((hps c).mp ((hconn c).mp hmem)).2.1 hc]
    exact h.mine c hc.1 hci
  · by_cases hmem : c ∈ ps
    · exact hgone _ ((hconn c).mpr hmem)
    · rw [hkept _ fun h ↦ hmem ((hconn c).mp h)]
      refine h.others c fun hlive hloop ↦ ?_
      exact hc (not_not.mp fun hout ↦ hmem ((hps c).mpr ⟨hlive, hout, hloop⟩)) hloop

/-- What the steps of a server keep of the poller of loop `i`. -/
theorem Shares.step {p : Pool T} {wc hw : Bool} {mark : ℕ} {mem : T → ℕ → Byte}
    (h : Shares i wakeupFd listenFd s m) (hs : Keeping p fd wc hw mark mem s) (hwired : s.Wired fd)
    (hG : s.Civil True a) (hF : s.Fresh fd wakeupFd listenFd a) (hstep : s.step a = some u)
    (hlt : u.map.accepted < 2 ^ 31) :
    ∃ bs m', run Channels.step m bs = some m' ∧ Shares i wakeupFd listenFd u m' := by
  have hs' := hs.step hG hstep hlt
  obtain ⟨-, v, hdoes, rfl⟩ := step_cases hstep
  have hwired' := hwired.does hs.refines.sound hdoes
  obtain ⟨bs, m₁, hbs, hshares⟩ : ∃ bs m₁, run Channels.step m bs = some m₁ ∧
      Shares i wakeupFd listenFd v m₁ := by
    cases hdoes.rewires hs.refines.sound with
    | still hlive hget hreg => exact ⟨[], m, rfl, h.congr hlive hget fun c _ _ ↦ by rw [hreg]⟩
    | @frame t io c f fs _ hst hlive hget hconn =>
      by_cases hmine : c ∈ s.live ∧ s.getLoop c = i
      · exact h.frame hmine.1 hmine.2 hlive hget hconn
      · refine ⟨[], m, rfl, h.congr hlive hget fun d hd hdi ↦ ?_⟩
        have hdc : d ≠ c := by
          rintro rfl
          exact hmine ⟨hd, hdi⟩
        rw [hconn, Function.update_of_ne hdc]
    | accept hst hlive hget hconn =>
      exact h.accept hwired (hF (by rw [hst]; rfl)) hlive hget hconn
  have hgone : ∀ c ∈ v.live, c ∉ v.settle.live → (v.conn c).reg.channel.index_ = .kNew := by
    intro c hc hout
    have hacc := hwired'.live c hc
    have hdone : .destroyed ∈ v.trace c := by
      by_contra hd
      exact hout (hs'.alive c hacc hd)
    exact (hs'.refines.closing (hs'.refines.sound.belongs hacc)).detaches.gone hdone
  obtain ⟨cs, m', hcs, hshares'⟩ := hshares.settle hwired'.live hgone
  exact ⟨bs ++ cs, m', run_append.mpr ⟨m₁, hbs, hcs⟩, hshares'⟩

variable {p : Pool T} {name ipPort : String} {wc hw : Bool} {mark : ℕ} {mem : T → ℕ → Byte}
  {as : List (Act T)}

end

section

end

end Reactors

end Mymuduo
