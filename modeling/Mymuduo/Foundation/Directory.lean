import Mathlib.Logic.Function.Basic

namespace Mymuduo.Foundation.Directory

variable {P O K V : Type}

/-- Every live object has an entry of its own in the table, under its key, and the
table holds nothing else; `entry` says what an object is listed as, if it is. -/
def Lists (objects : P → Option O) (key : O → K) (entry : P → O → Option V) (table : K → Option V) :
    Prop :=
  ∀ k v, table k = some v ↔ ∃ p o, objects p = some o ∧ key o = k ∧ entry p o = some v

def Distinct (objects : P → Option O) (key : O → K) : Prop :=
  ∀ p q o o', objects p = some o → objects q = some o' → key o = key o' → p = q

variable {objects : P → Option O} {key : O → K} {entry : P → O → Option V} {table : K → Option V}
  {p : P} {o o' : O}

theorem lists_empty : Lists (fun _ ↦ none) key entry fun _ ↦ none := by
  intro k v
  simp

namespace Lists

theorem distinct {table : K → Option P} (h : Lists objects key (fun p _ ↦ some p) table) :
    Distinct objects key := by
  intro p q o o' ho ho' hk
  have hp : table (key o) = some p := (h _ _).mpr ⟨p, o, ho, rfl, rfl⟩
  have hq : table (key o) = some q := (h _ _).mpr ⟨q, o', ho', hk.symm, rfl⟩
  exact Option.some.inj (hp.symm.trans hq)

theorem get (h : Lists objects key entry table) (hd : Distinct objects key)
    (ho : objects p = some o) : table (key o) = entry p o := by
  apply Option.ext
  intro v
  rw [h]
  constructor
  · intro hv
    obtain ⟨q, u, hu, hk, he⟩ := hv
    obtain rfl := hd q p u o hu ho hk
    obtain rfl : u = o := Option.some.inj (hu.symm.trans ho)
    exact he
  · intro he
    exact ⟨p, o, ho, rfl, he⟩

theorem vacant (h : Lists objects key entry table) {k : K}
    (hk : ∀ q u, objects q = some u → key u ≠ k) : table k = none := by
  rw [Option.eq_none_iff_forall_not_mem]
  intro v hv
  obtain ⟨q, u, hu, hkey, -⟩ := (h k v).mp hv
  exact hk q u hu hkey

variable [DecidableEq K]

theorem of_update {k : K} {x : Option V} (h : Lists objects key entry (Function.update table k x))
    (hx : table k = x) : Lists objects key entry table := by
  rwa [Function.update_eq_self_iff.mpr hx.symm] at h

variable [DecidableEq P]

theorem update (h : Lists objects key entry table) {k : K} {x : Option O}
    (hold : ∀ o, objects p = some o → key o = k) (hnew : ∀ o, x = some o → key o = k)
    (hother : ∀ q u, q ≠ p → objects q = some u → key u ≠ k) :
    Lists (Function.update objects p x) key entry
      (Function.update table k (x.bind (entry p))) := by
  intro k' v
  by_cases hk : k' = k
  · subst hk
    rw [Function.update_self, Option.bind_eq_some_iff]
    constructor
    · intro hx
      obtain ⟨u, hu, he⟩ := hx
      exact ⟨p, u, by rw [Function.update_self, hu], hnew u hu, he⟩
    · intro hv
      obtain ⟨q, u, hu, hku, he⟩ := hv
      by_cases hq : q = p
      · subst hq
        rw [Function.update_self] at hu
        exact ⟨u, hu, he⟩
      · rw [Function.update_of_ne hq] at hu
        exact absurd hku (hother q u hq hu)
  · rw [Function.update_of_ne hk, h]
    constructor
    · intro hv
      obtain ⟨q, u, hu, hku, he⟩ := hv
      have hq : q ≠ p := by
        intro hq
        subst hq
        exact hk (hku.symm.trans (hold u hu))
      exact ⟨q, u, by rwa [Function.update_of_ne hq], hku, he⟩
    · intro hv
      obtain ⟨q, u, hu, hku, he⟩ := hv
      have hq : q ≠ p := by
        intro hq
        subst hq
        rw [Function.update_self] at hu
        exact hk (hku.symm.trans (hnew u hu))
      exact ⟨q, u, by rwa [Function.update_of_ne hq] at hu, hku, he⟩

theorem set (h : Lists objects key entry table) (hd : Distinct objects key)
    (ho : objects p = some o) (hk : key o' = key o) :
    Lists (Function.update objects p (some o')) key entry
      (Function.update table (key o) (entry p o')) := by
  refine h.update ?_ ?_ ?_
  · intro u hu
    obtain rfl : u = o := Option.some.inj (hu.symm.trans ho)
    rfl
  · intro u hu
    obtain rfl : o' = u := Option.some.inj hu
    exact hk
  · intro q u hq hu hku
    exact hq (hd q p u o hu ho hku)

theorem add (h : Lists objects key entry table) (hp : objects p = none)
    (hk : ∀ q u, objects q = some u → key u ≠ key o) :
    Lists (Function.update objects p (some o)) key entry
      (Function.update table (key o) (entry p o)) := by
  refine h.update ?_ ?_ ?_
  · intro u hu
    simp [hp] at hu
  · intro u hu
    exact congrArg key (Option.some.inj hu).symm
  · intro q u hq hu
    exact hk q u hu

theorem drop (h : Lists objects key entry table) (hd : Distinct objects key)
    (ho : objects p = some o) :
    Lists (Function.update objects p none) key entry (Function.update table (key o) none) := by
  refine h.update ?_ ?_ ?_
  · intro u hu
    obtain rfl : u = o := Option.some.inj (hu.symm.trans ho)
    rfl
  · intro u hu
    simp at hu
  · intro q u hq hu hku
    exact hq (hd q p u o hu ho hku)

end Lists

end Mymuduo.Foundation.Directory
