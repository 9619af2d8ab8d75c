import Mymuduo.Foundation.Machine

namespace Mymuduo.Foundation.Variant

open Machine

variable {S A : Type} {step : S → A → Option S} {G : S → A → Prop} {I : List A → S → Prop}
  {μ : List A → S → ℕ} {turn : A → Bool} {s t : S} {p as : List A}

/-- A measure that every turn brings down by one, until it is zero, and that nothing
else brings up, falls by the number of turns. -/
theorem run_falls (hI : ∀ as s a t, I as s → G s a → step s a = some t → I (as ++ [a]) t)
    (hμ : ∀ as s a t, I as s → G s a → step s a = some t →
      μ (as ++ [a]) t ≤ μ as s - (turn a).toNat)
    (hs : I p s) (hG : Along step G s as) (h : run step s as = some t) :
    μ (p ++ as) t ≤ μ p s - as.countP turn := by
  induction as generalizing s p with
  | nil =>
    obtain rfl : s = t := by simpa using h
    simp
  | cons a as ih =>
    obtain ⟨u, hu, ht⟩ := run_cons.mp h
    have hfall := hμ p s a u hs hG.1 hu
    have hrest := ih (hI p s a u hs hG.1 hu) (hG.tail hu) ht
    rw [List.append_assoc, List.singleton_append] at hrest
    rw [List.countP_cons]
    cases ha : turn a <;> simp only [ha, Bool.toNat_true, Bool.toNat_false, if_true,
      Bool.false_eq_true, if_false] at hfall ⊢ <;> omega

/-- An allowance that every turn draws on and nothing fills up bounds the turns. -/
theorem run_spends (hI : ∀ as s a t, I as s → G s a → step s a = some t → I (as ++ [a]) t)
    (hμ : ∀ as s a t, I as s → G s a → step s a = some t →
      μ (as ++ [a]) t + (turn a).toNat ≤ μ as s)
    (hs : I p s) (hG : Along step G s as) (h : run step s as = some t) :
    μ (p ++ as) t + as.countP turn ≤ μ p s := by
  induction as generalizing s p with
  | nil =>
    obtain rfl : s = t := by simpa using h
    simp
  | cons a as ih =>
    obtain ⟨u, hu, ht⟩ := run_cons.mp h
    have hspent := hμ p s a u hs hG.1 hu
    have hrest := ih (hI p s a u hs hG.1 hu) (hG.tail hu) ht
    rw [List.append_assoc, List.singleton_append] at hrest
    rw [List.countP_cons]
    cases ha : turn a <;> simp only [ha, Bool.toNat_true, Bool.toNat_false, if_true,
      Bool.false_eq_true, if_false] at hspent ⊢ <;> omega

/-- A step that only a turn can take: from `P`, which every step keeps, a turn leads to
`Q`, which every step keeps. -/
theorem run_passes {P Q : S → Prop} (hP : ∀ s a t, P s → G s a → step s a = some t → P t)
    (hQ : ∀ s a t, Q s → G s a → step s a = some t → Q t)
    (hturn : ∀ s a t, P s → G s a → turn a = true → step s a = some t → Q t) (hs : P s)
    (hG : Along step G s as) (h : run step s as = some t) (hn : 0 < as.countP turn) : Q t := by
  induction as generalizing s with
  | nil => simp at hn
  | cons a as ih =>
    obtain ⟨u, hu, ht⟩ := run_cons.mp h
    by_cases ha : turn a = true
    · exact run_invariant_along hQ (hturn s a u hs hG.1 ha hu) (hG.tail hu) ht
    · rw [List.countP_cons_of_neg ha] at hn
      exact ih (hP s a u hs hG.1 hu) (hG.tail hu) ht hn

theorem exists_split {n : ℕ} (h : n < as.countP turn) :
    ∃ x y, as = x ++ y ∧ x.countP turn = n ∧ 0 < y.countP turn := by
  induction as generalizing n with
  | nil => simp at h
  | cons a as ih =>
    cases n with
    | zero => exact ⟨[], a :: as, rfl, rfl, h⟩
    | succ n =>
      by_cases ha : turn a = true
      · rw [List.countP_cons_of_pos ha] at h
        obtain ⟨x, y, rfl, hx, hy⟩ := ih (Nat.lt_of_succ_lt_succ h)
        exact ⟨a :: x, y, rfl, by rw [List.countP_cons_of_pos ha, hx], hy⟩
      · rw [List.countP_cons_of_neg ha] at h
        obtain ⟨x, y, rfl, hx, hy⟩ := ih h
        exact ⟨a :: x, y, rfl, by rw [List.countP_cons_of_neg ha, hx], hy⟩

end Mymuduo.Foundation.Variant
