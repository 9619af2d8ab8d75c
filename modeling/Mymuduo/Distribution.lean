import Mathlib.Data.Int.CardIntervalMod
import Mymuduo.ThreadConfinement

namespace Mymuduo

open Foundation.Machine

namespace Reactors

/-- The loop that the `c`-th connection falls to when `numThreads` loops take turns. -/
def inTurn (numThreads c : ℕ) : Option ℕ := if numThreads = 0 then none else some (c % numThreads)

variable {T : Type} {s u : Reactors T} {a : Act T} {c k : ℕ}

def given (s : Reactors T) (i : Option ℕ) : ℕ := Nat.count (fun c ↦ s.getLoop c = i) s.map.accepted

structure Dealt (s : Reactors T) : Prop where
  next : s.numThreads_ ≠ 0 → s.next_ = s.map.accepted % s.numThreads_
  home : ∀ c < s.map.accepted, s.getLoop c = inTurn s.numThreads_ c

theorem Dealt.getNextLoop (hs : s.Dealt) : s.getNextLoop.1 = inTurn s.numThreads_ s.map.accepted := by
  unfold Reactors.getNextLoop inTurn
  split
  · rfl
  · next hn => rw [hs.next hn]

theorem Dealt.advances (hs : s.Dealt) (hn : s.numThreads_ ≠ 0) :
    s.getNextLoop.2 = (s.map.accepted + 1) % s.numThreads_ := by
  have hlt : s.map.accepted % s.numThreads_ < s.numThreads_ := Nat.mod_lt _ (Nat.pos_of_ne_zero hn)
  simp only [Reactors.getNextLoop, if_neg hn, hs.next hn]
  rw [Nat.add_mod_eq_ite]
  by_cases hone : s.numThreads_ = 1
  · simp [hone, Nat.mod_one]
  · have hmod : 1 % s.numThreads_ = 1 := Nat.mod_eq_of_lt (by omega)
    rw [hmod]
    split <;> omega

theorem Dealt.stay (hs : s.Dealt) (hk : Kept s u) (hnext : u.next_ = s.next_)
    (hacc : u.map.accepted = s.map.accepted) : u.Dealt := by
  constructor
  · rw [hk.numThreads, hnext, hacc]
    exact hs.next
  · rw [hk.numThreads, hacc]
    exact fun c hc ↦ (hk.getLoop c hc).trans (hs.home c hc)

variable [DecidableEq T]

theorem Dealt.does (hs : s.Dealt) (h : Does s a u) : u.Dealt := by
  have hkept := h.kept
  cases h with
  | @frame t io c f fs u hst ho hf hio hu =>
    refine hs.stay hkept ?_ ?_
    · rcases hu.setLoop_eq with rfl | ⟨j, k, l, -, rfl⟩ <;> rfl
    · rw [← hu.untouched.2.1]
      simp only [commit]
      split <;> rfl
  | accept hst ho ht =>
    refine ⟨fun hn ↦ hs.advances hn, fun c hc ↦ ?_⟩
    rcases Nat.lt_succ_iff_lt_or_eq.mp hc with hlt | rfl
    · exact (hkept.getLoop c hlt).trans (hs.home c hlt)
    · exact (Function.update_self ..).trans hs.getNextLoop
  | @loop i b l hi ha hl =>
    obtain ⟨hmap, hnext, -⟩ := s.beside_untouched i b
    exact hs.stay hkept hnext (congrArg ConnectionMap.accepted hmap)
  | destruct hst ho hf hu =>
    refine hs.stay hkept ?_ ?_ <;> cases exec_destroys hf hu <;> rfl
  | abort | leave | send | shutdown | hold | drop | assign | retrieve | poll | handle | handleAccept
    | destroy | exit => exact hs.stay hkept rfl rfl

omit [DecidableEq T] in
theorem Dealt.given_eq (hs : s.Dealt) (hk : k < s.numThreads_) :
    s.given (some k) = s.map.accepted / s.numThreads_ +
      if k < s.map.accepted % s.numThreads_ then 1 else 0 := by
  have hpos : 0 < s.numThreads_ := Nat.zero_lt_of_lt hk
  have hcount : s.given (some k) = s.map.accepted.count (· ≡ k [MOD s.numThreads_]) := by
    simp only [given, Nat.count_eq_card_filter_range]
    congr 1
    apply Finset.filter_congr
    intro c hc
    rw [hs.home c (Finset.mem_range.mp hc), inTurn, if_neg hpos.ne', Option.some.injEq, Nat.ModEq,
      Nat.mod_eq_of_lt hk]
  rw [hcount, Nat.count_modEq_card _ hpos, Nat.mod_eq_of_lt hk]

theorem Refines.confines {p : Pool T} {fd : ℕ → ℕ} {wc hw : Bool} {mark : ℕ} {mem : T → ℕ → Byte}
    {strict : Prop} (hs : Refines p fd wc hw mark mem strict s) (h : s.step a = some u) :
    s.Confines a u := by
  refine hs.sound.confines (fun i c hb ↦ ?_) h
  have hboth : (s.view i c).Reached ∧ (s.view i c).Established :=
    (hs.views i c hb).invariant (I := fun v ↦ v.Reached ∧ v.Established)
      (fun _ _ _ hI _ h ↦
        ⟨hI.1.step h, hI.2.step hI.1.confined hI.1.control (System.step_cases h)⟩)
      ⟨System.ofConnection_reached .., System.ofConnection_established ..⟩
  exact ⟨hboth.1.confined, hboth.2.placed⟩

theorem Sound.accepted_of_touches (hs : s.Sound) (h : s.step a = some u) (ht : s.Touches c a) :
    c < s.map.accepted := by
  obtain ⟨-, v, hdoes, -⟩ := step_cases h
  cases a with
  | exec t io =>
    obtain ⟨f, hhead, -⟩ := ht
    exact hs.stacked t _ (List.mem_of_head? hhead)
  | retrieve t d len =>
    obtain rfl : d = c := ht
    cases hdoes with
    | @retrieve _ _ _ fs ho hst => exact hs.stacked t (.conn d .userCode) (by simp [hst])
  | poll i woken active => exact ht.1
  | send | shutdown | hold | drop | assign | handleEvent | loop | destroy | exit =>
    exact absurd ht not_false

section

variable {p : Pool T} {name ipPort : String} {fd : ℕ → ℕ} {wc hw : Bool} {mark : ℕ}
  {mem : T → ℕ → Byte} {as : List (Act T)}

/-- The loops of the pool take turns: the `c`-th connection belongs to loop `c % numThreads_`
for good, and the loops are given equally many connections, up to one. While the server
lives, the thread of that loop is the one that works on the buffers of the connection, on the
interest of its channel and on the map of its poller. -/
theorem connections_dealt (h : run step (ofPool p name ipPort fd wc hw mark mem) as = some s) :
    (∀ c < s.map.accepted, s.getLoop c = inTurn p.numThreads_ c) ∧
      (∀ k < p.numThreads_, s.given (some k) = s.map.accepted / p.numThreads_ +
        if k < s.map.accepted % p.numThreads_ then 1 else 0) ∧
      ((∀ items, .destroy items ∉ as) → ∀ a u c, s.step a = some u → s.Touches c a →
        s.runner a = p.threadId (inTurn p.numThreads_ c)) := by
  obtain ⟨hdealt, hnum⟩ : s.Dealt ∧ s.numThreads_ = p.numThreads_ := by
    refine run_invariant (I := fun s ↦ s.Dealt ∧ s.numThreads_ = p.numThreads_) ?_
      ⟨⟨fun _ ↦ (Nat.zero_mod _).symm, fun c hc ↦ absurd hc (Nat.not_lt_zero c)⟩, rfl⟩ h
    rintro s a t ⟨hs, hn⟩ ht
    obtain ⟨-, v, hdoes, rfl⟩ := step_cases ht
    obtain ⟨hnext, hhome⟩ := hs.does hdoes
    exact ⟨⟨hnext, hhome⟩, hdoes.kept.numThreads.trans hn⟩
  rw [← hnum]
  refine ⟨hdealt.home, fun k hk ↦ hdealt.given_eq hk, fun hd a u c hu htouch ↦ ?_⟩
  have hs := run_refines (civil_of_lives hd _) h
  have hc := hs.sound.accepted_of_touches hu htouch
  rw [(hs.confines hu).home c htouch, hdealt.home c hc, hs.threads]

end

section

def acceptsFor (i : Option ℕ) : List (Act ℕ) :=
  [.poll none false [(.acceptor, EPOLLIN)], .handleEvent none true, .exec 0 System.noCall,
    .exec 0 System.noCall, .loop i (.wakeup 0), .loop none .beginCalling, .loop none .swap,
    .loop none .endCalling, .loop none .testQuit]

/-- Three connections on two loops, of which the first sets up its first one. -/
def acceptsThree : List (Act ℕ) :=
  opening none ++ opening (some 0) ++ acceptsFor (some 0) ++ acceptsFor (some 1) ++
    acceptsFor (some 0) ++ [.poll (some 0) true [], .loop (some 0) .handleRead,
      .loop (some 0) .beginCalling, .loop (some 0) .swap,
      .loop (some 0) (.beginFunctor (.conn 0 .connectEstablished))]

theorem connections_dealt_acceptsThree :
    ∃ s u, run step (serverOn 2) acceptsThree = some s ∧ s.given (some 0) = 2 ∧
      s.given (some 1) = 1 ∧ s.step (.exec 1 System.noCall) = some u ∧
      s.runner (.exec 1 System.noCall) = (poolOf 2).threadId (inTurn 2 0) := by
  have hd : ∀ items, .destroy items ∉ acceptsThree := by
    simp [acceptsThree, acceptsFor, opening]
  obtain ⟨u, hu⟩ := Option.isSome_iff_exists.mp
    (show ((run step (serverOn 2) acceptsThree).bind fun s ↦
      if s.map.accepted = 3 ∧ (s.stack 1).head? = some (.conn 0 (.functor .connectEstablished)) then
        s.step (.exec 1 System.noCall)
      else none).isSome = true by decide +kernel)
  obtain ⟨s, hs, hstep⟩ := Option.bind_eq_some_iff.mp hu
  obtain ⟨⟨haccepted, hhead⟩, hstep⟩ := Option.ite_none_right_eq_some.mp hstep
  obtain ⟨-, hgiven, hrunner⟩ := connections_dealt hs
  refine ⟨s, u, hs, ?_, ?_, hstep, hrunner hd _ u 0 hstep ⟨_, hhead, rfl⟩⟩
  · rw [hgiven 0 (by decide), haccepted]
    rfl
  · rw [hgiven 1 (by decide), haccepted]
    rfl

end

end Reactors

end Mymuduo
