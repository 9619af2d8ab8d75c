import Mathlib.Data.List.Basic

namespace Mymuduo.Foundation.Machine

variable {S A B : Type} {R : Type}

/-- Follow a list of actions through a partial step function. -/
def run (step : S → A → Option S) : S → List A → Option S
  | s, [] => some s
  | s, a :: as => (step s a).bind fun t ↦ run step t as

/-- Every action of the list is taken from a state in which `G` allows it. -/
def Along (step : S → A → Option S) (G : S → A → Prop) : S → List A → Prop
  | _, [] => True
  | s, a :: as => G s a ∧ ∀ t, step s a = some t → Along step G t as

variable {step : S → A → Option S}

@[simp] theorem run_nil (s : S) : run step s [] = some s := rfl

theorem run_cons {s t : S} {a : A} {as : List A} :
    run step s (a :: as) = some t ↔ ∃ u, step s a = some u ∧ run step u as = some t := by
  simp only [run, Option.bind_eq_some_iff]

theorem run_append {s t : S} {as bs : List A} :
    run step s (as ++ bs) = some t ↔ ∃ u, run step s as = some u ∧ run step u bs = some t := by
  induction as generalizing s with
  | nil => simp
  | cons a as ih =>
    simp only [List.cons_append, run_cons, ih]
    constructor
    · rintro ⟨u, hu, v, hv, ht⟩
      exact ⟨v, ⟨u, hu, hv⟩, ht⟩
    · rintro ⟨v, ⟨u, hu, hv⟩, ht⟩
      exact ⟨u, hu, v, hv, ht⟩

theorem run_snoc {s t : S} {a : A} {as : List A} :
    run step s (as ++ [a]) = some t ↔ ∃ u, run step s as = some u ∧ step u a = some t := by
  simp [run_append, run_cons]

instance decidableAlong {G : S → A → Prop} [∀ s a, Decidable (G s a)] :
    ∀ s as, Decidable (Along step G s as)
  | _, [] => inferInstanceAs (Decidable True)
  | s, a :: as =>
    match h : step s a with
    | none => decidable_of_iff (G s a) (by simp [Along, h])
    | some t =>
      have : Decidable (Along step G t as) := decidableAlong t as
      decidable_of_iff (G s a ∧ Along step G t as) (by simp [Along, h])

theorem Along.tail {G : S → A → Prop} {s t : S} {a : A} {as : List A}
    (h : Along step G s (a :: as)) (ht : step s a = some t) : Along step G t as := h.2 t ht

theorem Along.append {G : S → A → Prop} {s t : S} {as bs : List A}
    (h : Along step G s (as ++ bs)) (ht : run step s as = some t) :
    Along step G s as ∧ Along step G t bs := by
  induction as generalizing s with
  | nil =>
    obtain rfl : s = t := by simpa using ht
    exact ⟨trivial, h⟩
  | cons a as ih =>
    obtain ⟨u, hu, hr⟩ := run_cons.mp ht
    refine ⟨⟨h.1, fun v hv ↦ ?_⟩, (ih (h.tail hu) hr).2⟩
    obtain rfl : u = v := Option.some.inj (hu.symm.trans hv)
    exact (ih (h.tail hu) hr).1

theorem Along.imp {G H : S → A → Prop} (hGH : ∀ s a, G s a → H s a) {s : S} {as : List A}
    (h : Along step G s as) : Along step H s as := by
  induction as generalizing s with
  | nil => trivial
  | cons a as ih => exact ⟨hGH s a h.1, fun t ht ↦ ih (h.2 t ht)⟩

theorem Along.and {G H : S → A → Prop} {s : S} {as : List A} (hG : Along step G s as)
    (hH : Along step H s as) : Along step (fun s a ↦ G s a ∧ H s a) s as := by
  induction as generalizing s with
  | nil => trivial
  | cons a as ih => exact ⟨⟨hG.1, hH.1⟩, fun t ht ↦ ih (hG.2 t ht) (hH.2 t ht)⟩

/-- A condition that implies another wherever an invariant holds which the first one keeps. -/
theorem Along.imp_invariant {G H : S → A → Prop} {I : S → Prop}
    (hI : ∀ s a t, I s → G s a → step s a = some t → I t) (hGH : ∀ s a, I s → G s a → H s a)
    {s : S} {as : List A} (hs : I s) (h : Along step G s as) : Along step H s as := by
  induction as generalizing s with
  | nil => trivial
  | cons a as ih => exact ⟨hGH s a hs h.1, fun t ht ↦ ih (hI s a t hs h.1 ht) (h.2 t ht)⟩

theorem along_congr {G H : S → A → Prop} {I : S → Prop}
    (hI : ∀ s a t, I s → G s a → step s a = some t → I t) (hGH : ∀ s a, I s → (G s a ↔ H s a))
    {s : S} {as : List A} (hs : I s) : Along step G s as ↔ Along step H s as := by
  constructor
  · exact Along.imp_invariant hI (fun s a hs ↦ (hGH s a hs).mp) hs
  · exact Along.imp_invariant (fun s a t hs hH ↦ hI s a t hs ((hGH s a hs).mpr hH))
      (fun s a hs ↦ (hGH s a hs).mpr) hs

theorem along_congr_of_run {G H : S → A → Prop} {I : S → Prop}
    (hI : ∀ s a t, I s → step s a = some t → I t)
    (hGH : ∀ s a t, I s → step s a = some t → (G s a ↔ H s a))
    {s t : S} {as : List A} (hs : I s) (h : run step s as = some t) :
    Along step G s as ↔ Along step H s as := by
  induction as generalizing s with
  | nil => exact Iff.rfl
  | cons a as ih =>
    obtain ⟨u, hu, hr⟩ := run_cons.mp h
    refine and_congr (hGH s a u hs hu) ?_
    simp only [hu, Option.some.injEq, forall_eq']
    exact ih (hI s a u hs hu) hr

theorem along_of_forall {G : S → A → Prop} {s : S} {as : List A} (h : ∀ a ∈ as, ∀ s, G s a) :
    Along step G s as := by
  induction as generalizing s with
  | nil => trivial
  | cons a as ih =>
    rw [List.forall_mem_cons] at h
    exact ⟨h.1 s, fun _ _ ↦ ih h.2⟩

theorem along_true (s : S) (as : List A) : Along step (fun _ _ ↦ True) s as :=
  along_of_forall fun _ _ _ ↦ trivial

/-- The invariant rule for runs whose steps all meet a condition. The invariant
may speak of the actions taken so far. -/
theorem run_history_along {G : S → A → Prop} {I : List A → S → Prop}
    (hstep : ∀ as s a t, I as s → G s a → step s a = some t → I (as ++ [a]) t)
    {s t : S} {p as : List A} (hs : I p s) (hG : Along step G s as)
    (h : run step s as = some t) : I (p ++ as) t := by
  induction as generalizing s p with
  | nil =>
    obtain rfl : s = t := by simpa using h
    simpa using hs
  | cons a as ih =>
    obtain ⟨u, hu, ht⟩ := run_cons.mp h
    simpa using ih (hstep p s a u hs hG.1 hu) (hG.tail hu) ht

theorem run_history {I : List A → S → Prop}
    (hstep : ∀ as s a t, I as s → step s a = some t → I (as ++ [a]) t)
    {s t : S} {p as : List A} (hs : I p s) (h : run step s as = some t) : I (p ++ as) t :=
  run_history_along (fun as s a t hI _ ↦ hstep as s a t hI) hs (along_true s as) h

theorem run_invariant_along {G : S → A → Prop} {I : S → Prop}
    (hstep : ∀ s a t, I s → G s a → step s a = some t → I t)
    {s t : S} {as : List A} (hs : I s) (hG : Along step G s as)
    (h : run step s as = some t) : I t :=
  run_history_along (I := fun _ ↦ I) (p := []) (fun _ ↦ hstep) hs hG h

theorem run_invariant {I : S → Prop} (hstep : ∀ s a t, I s → step s a = some t → I t)
    {s t : S} {as : List A} (hs : I s) (h : run step s as = some t) : I t :=
  run_invariant_along (fun s a t hI _ ↦ hstep s a t hI) hs (along_true s as) h

theorem run_relation {I : S → Prop} {Q : S → S → Prop} (hrefl : ∀ s, Q s s)
    (htrans : ∀ s t u, Q s t → Q t u → Q s u)
    (hstep : ∀ s a t, I s → step s a = some t → I t ∧ Q s t)
    {s t : S} {as : List A} (hs : I s) (h : run step s as = some t) : Q s t := by
  induction as generalizing s with
  | nil =>
    obtain rfl : s = t := by simpa using h
    exact hrefl s
  | cons a as ih =>
    obtain ⟨u, hu, ht⟩ := run_cons.mp h
    obtain ⟨hI, hQ⟩ := hstep s a u hs hu
    exact htrans s u t hQ (ih hI ht)

/-- A forward simulation: each action is matched by the actions `img a` of the
abstract machine, under an invariant of the concrete one. -/
theorem run_simulation {abstract : R → B → Option R} (abs : S → R) (img : A → List B)
    {I : S → Prop} (hinv : ∀ s a t, I s → step s a = some t → I t)
    (hstep : ∀ s a t, I s → step s a = some t → run abstract (abs s) (img a) = some (abs t))
    {s t : S} {as : List A} (hs : I s) (h : run step s as = some t) :
    run abstract (abs s) (as.flatMap img) = some (abs t) := by
  induction as generalizing s with
  | nil =>
    obtain rfl : s = t := by simpa using h
    rfl
  | cons a as ih =>
    obtain ⟨u, hu, ht⟩ := run_cons.mp h
    rw [List.flatMap_cons, run_append]
    exact ⟨abs u, hstep s a u hs hu, ih (hinv s a u hs hu) ht⟩

theorem Along.concat {G : S → A → Prop} {s t : S} {as bs : List A} (h : Along step G s as)
    (ht : run step s as = some t) (h' : Along step G t bs) : Along step G s (as ++ bs) := by
  induction as generalizing s with
  | nil =>
    obtain rfl : s = t := by simpa using ht
    exact h'
  | cons a as ih =>
    obtain ⟨u, hu, hr⟩ := run_cons.mp ht
    refine ⟨h.1, fun v hv ↦ ?_⟩
    obtain rfl : u = v := Option.some.inj (hu.symm.trans hv)
    exact ih (h.tail hu) hr

def Reaches (step : S → A → Option S) (G : S → A → Prop) (s t : S) : Prop :=
  ∃ as, run step s as = some t ∧ Along step G s as

namespace Reaches

variable {G : S → A → Prop} {s t u : S}

theorem refl (s : S) : Reaches step G s s := ⟨[], rfl, trivial⟩

theorem of_eq (h : s = t) : Reaches step G s t := h ▸ refl s

theorem single {a : A} (hG : G s a) (h : step s a = some t) : Reaches step G s t :=
  ⟨[a], run_cons.mpr ⟨t, h, rfl⟩, hG, fun _ _ ↦ trivial⟩

theorem trans (h : Reaches step G s t) (h' : Reaches step G t u) : Reaches step G s u := by
  obtain ⟨as, hr, hG⟩ := h
  obtain ⟨bs, hr', hG'⟩ := h'
  exact ⟨as ++ bs, run_append.mpr ⟨t, hr, hr'⟩, hG.concat hr hG'⟩

theorem invariant {I : S → Prop} (h : Reaches step G s t)
    (hstep : ∀ s a t, I s → G s a → step s a = some t → I t) (hs : I s) : I t := by
  obtain ⟨as, hr, hG⟩ := h
  exact run_invariant_along hstep hs hG hr

end Reaches

theorem append_eq_split {p q x y : List A} {a : A} (h : p ++ q = x ++ a :: y) :
    (∃ z, p = x ++ a :: z ∧ y = z ++ q) ∨ ∃ z, x = p ++ z ∧ q = z ++ a :: y := by
  rcases List.append_eq_append_iff.mp h with ⟨z, hx, hq⟩ | ⟨z, hp, hy⟩
  · exact Or.inr ⟨z, hx, hq⟩
  · cases z with
    | nil => exact Or.inr ⟨[], by simpa using hp.symm, by simpa using hy.symm⟩
    | cons b z =>
      obtain ⟨rfl, hyz⟩ := List.cons.inj hy
      exact Or.inl ⟨z, hp, hyz⟩

end Mymuduo.Foundation.Machine
