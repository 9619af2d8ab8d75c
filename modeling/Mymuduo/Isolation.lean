import Mymuduo.Distribution
import Mymuduo.OutputDrain

namespace Mymuduo

open Foundation.Machine

namespace Reactors

variable {T : Type} [DecidableEq T] {s u : Reactors T} {a : Act T} {as : List (Act T)} {i : Option ℕ}
  {c : ℕ} {p : Pool T} {name ipPort : String} {fd : ℕ → ℕ} {wc hw : Bool} {mark : ℕ}
  {mem : T → ℕ → Byte} {strict : Prop}

/-- The step executes code of connection `c`, or calls `shutdown` or a function of its input
buffer. -/
def WorksOn (s : Reactors T) (c : ℕ) : Act T → Prop
  | .exec t _ => ∃ f, (s.stack t).head? = some (.conn c f)
  | .shutdown _ d | .retrieve _ d _ => d = c
  | _ => False

theorem Does.untouched (h : Does s a u) (hs : s.Sound) (hw : ¬ s.WorksOn c a) :
    u.conn c = s.conn c ∧ u.trace c = s.trace c := by
  cases h with
  | @frame t io d f fs u hst ho hf hio hu =>
    have hdc : c ≠ d := by
      rintro rfl
      exact hw ⟨f, by rw [hst]; rfl⟩
    rcases hu.setLoop_eq with rfl | ⟨j, k, l, -, rfl⟩
    · exact ⟨Function.update_of_ne hdc _ _, Function.update_of_ne hdc _ _⟩
    · exact ⟨Function.update_of_ne hdc _ _, Function.update_of_ne hdc _ _⟩
  | shutdown hu hr =>
    refine ⟨rfl, Function.update_of_ne ?_ _ _⟩
    rintro rfl
    exact hw rfl
  | retrieve ho hst =>
    refine ⟨Function.update_of_ne ?_ _ _, rfl⟩
    rintro rfl
    exact hw rfl
  | destruct hst ho hf hu => exact (hs.not_destroys hst hf).elim
  | @loop j b l hi ha hl =>
    cases b with
    | testQuit =>
      simp only [beside]
      split <;> exact ⟨rfl, rfl⟩
    | _ => exact ⟨rfl, rfl⟩
  | abort | leave | accept | send | hold | drop | assign | poll | handle | handleAccept | destroy
    | exit => exact ⟨rfl, rfl⟩

/-- Along a run of the server each connection goes through a run of its own system. -/
theorem Refines.run_view (hs : Refines p fd wc hw mark mem strict s)
    (hG : Along Reactors.step (Civil strict) s as) (h : run Reactors.step s as = some u) (hb : u.Belongs i c) :
    s.Belongs i c ∧ Reaches System.step (System.Civil strict) (s.view i c) (u.view i c) := by
  induction as generalizing s with
  | nil =>
    obtain rfl : s = u := by simpa using h
    exact ⟨hb, .refl _⟩
  | cons a as ih =>
    obtain ⟨v, hv, hr⟩ := run_cons.mp h
    obtain ⟨hbv, hreach⟩ := ih (hs.step hG.1 hv) (hG.tail hv) hr
    obtain ⟨-, w, hdoes, rfl⟩ := step_cases hv
    have hbw : w.Belongs i c := hbv
    have hconfined : ∀ i c, s.Belongs i c → (s.view i c).Confined :=
      fun i c hb ↦ (hs.reached hb).confined
    exact ⟨hbw.of_kept hdoes.kept, (hdoes.simulates hs.sound hconfined hG.1 hbw).trans hreach⟩

theorem Refines.run_untouched (hs : Refines p fd wc hw mark mem strict s)
    (hG : Along Reactors.step (Civil strict) s as) (hw : Along Reactors.step (fun s a ↦ ¬ s.WorksOn c a) s as)
    (h : run Reactors.step s as = some u) : u.conn c = s.conn c ∧ u.trace c = s.trace c := by
  induction as generalizing s with
  | nil =>
    obtain rfl : s = u := by simpa using h
    exact ⟨rfl, rfl⟩
  | cons a as ih =>
    obtain ⟨v, hv, hr⟩ := run_cons.mp h
    obtain ⟨hconn, htrace⟩ := ih (hs.step hG.1 hv) (hG.tail hv) (hw.tail hv) hr
    obtain ⟨-, w, hdoes, rfl⟩ := step_cases hv
    obtain ⟨hconn', htrace'⟩ := hdoes.untouched hs.sound hw.1
    exact ⟨hconn.trans hconn', htrace.trans htrace'⟩

/-- Whatever the others do, each connection of a living server goes through a run of the system of
one connection, on the loop that it was given: its output is one stream, and the steps that do not
work on it leave it as it is. -/
theorem connections_isolated {pre : List (Act T)}
    (hpre : run step (ofPool p name ipPort fd wc hw mark mem) pre = some s)
    (h : run step s as = some u) (hd : ∀ items, .destroy items ∉ pre ++ as)
    (hc : c < u.map.accepted) :
    (∃ xs ys, run System.step (System.ofConnection (p.threadId (u.getLoop c)) (p.threadId none)
        (.ofFd (fd c) wc hw mark) mem) xs = some (s.view (u.getLoop c) c) ∧
      run System.step (s.view (u.getLoop c) c) ys = some (u.view (u.getLoop c) c)) ∧
    (∃ o, u.trace c = s.trace c ++ o ∧ (s.conn c).outputBuffer_.readable ++ keptBytes o =
      accepted o ++ (u.conn c).outputBuffer_.readable) ∧
    (Along step (fun s a ↦ ¬ s.WorksOn c a) s as → u.conn c = s.conn c ∧ u.trace c = s.trace c) := by
  have hGp := civil_of_lives (fun items hmem ↦ hd items (List.mem_append_left as hmem))
    (ofPool p name ipPort fd wc hw mark mem)
  have hGs := civil_of_lives (fun items hmem ↦ hd items (List.mem_append_right pre hmem)) s
  have hs := run_refines hGp hpre
  have hu := run_refines (civil_of_lives hd _) (run_append.mpr ⟨s, hpre, h⟩)
  have hb : u.Belongs (u.getLoop c) c := ⟨hu.sound.routed c hc, fun _ ↦ rfl⟩
  obtain ⟨hbs, ys, hys, -⟩ := hs.run_view hGs h hb
  obtain ⟨xs, hxs, -⟩ := hs.views _ c hbs
  have hstreams : (s.view (u.getLoop c) c).Streams :=
    run_invariant (fun _ _ _ hv hw ↦ hv.step (System.step_cases hw)) (System.ofConnection_streams ..) hxs
  exact ⟨⟨xs, ys, hxs, hys⟩, hstreams.since hys, fun hw ↦ hs.run_untouched hGs hw h⟩

theorem connections_isolated_acceptsThree :
    ∃ s u, run step (serverOn 2) acceptsThree = some s ∧ run step s [.exec 1 System.noCall] = some u ∧
      (u.conn 0).state_ = .kConnected ∧ u.conn 1 = s.conn 1 := by
  have hd : ∀ items, .destroy items ∉ acceptsThree ++ [.exec 1 System.noCall] := by
    simp [acceptsThree, acceptsFor, opening]
  obtain ⟨s, hs, hshape⟩ := Option.map_eq_some_iff.mp
    (show (run step (serverOn 2) acceptsThree).map (fun s ↦ ((s.stack 1).head?,
      (run step s [.exec 1 System.noCall]).map fun u ↦ (u.map.accepted, (u.conn 0).state_))) =
        some (some (.conn 0 (.functor .connectEstablished)), some (3, .kConnected)) by decide +kernel)
  obtain ⟨hhead, hend⟩ := Prod.mk.inj hshape
  obtain ⟨u, hu, hpair⟩ := Option.map_eq_some_iff.mp hend
  obtain ⟨haccepted, hstate⟩ := Prod.mk.inj hpair
  refine ⟨s, u, hs, hu, hstate, ?_⟩
  obtain ⟨-, -, huntouched⟩ := connections_isolated hs hu hd (c := 1) (by omega)
  refine (huntouched ⟨?_, fun _ _ ↦ trivial⟩).1
  rintro ⟨f, hf⟩
  simp [hhead] at hf

end Reactors

end Mymuduo
