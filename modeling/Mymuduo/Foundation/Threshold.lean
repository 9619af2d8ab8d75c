import Mathlib.Data.List.Induction
import Mathlib.Order.Lattice

namespace Mymuduo.Foundation.Threshold

/-- A change of a level and the event that caused it. -/
structure Move (E α : Type) where
  event : E
  before : α
  after : α

variable {E α : Type}

def Path : α → List (Move E α) → α → Prop
  | a, [], b => a = b
  | a, m :: ms, b => m.before = a ∧ Path m.after ms b

theorem path_append {a b : α} {p q : List (Move E α)} :
    Path a (p ++ q) b ↔ ∃ c, Path a p c ∧ Path c q b := by
  induction p generalizing a with
  | nil => simp [Path]
  | cons m p ih =>
    simp only [List.cons_append, Path, ih]
    constructor
    · intro ⟨hm, c, hp, hq⟩
      exact ⟨c, ⟨hm, hp⟩, hq⟩
    · intro ⟨c, ⟨hm, hp⟩, hq⟩
      exact ⟨hm, c, hp, hq⟩

theorem path_snoc {a b : α} {p : List (Move E α)} {m : Move E α} :
    Path a (p ++ [m]) b ↔ Path a p m.before ∧ m.after = b := by
  rw [path_append]
  constructor
  · intro ⟨c, hp, hm, hb⟩
    subst hm
    exact ⟨hp, hb⟩
  · intro ⟨hp, hb⟩
    exact ⟨m.before, hp, rfl, hb⟩

theorem path_between {a b : α} {p q r : List (Move E α)} {m n : Move E α}
    (h : Path a (p ++ m :: q ++ n :: r) b) : Path m.after q n.before := by
  rw [List.append_assoc] at h
  obtain ⟨c, -, hm⟩ := path_append.mp h
  obtain ⟨-, hm⟩ := hm
  obtain ⟨d, hq, hn, -⟩ := path_append.mp hm
  rwa [hn]

variable [LinearOrder α] (mark : α)

def Move.Rises (m : Move E α) : Prop := m.before < mark ∧ mark ≤ m.after

def Move.Falls (m : Move E α) : Prop := mark ≤ m.before ∧ m.after < mark

instance (m : Move E α) : Decidable (m.Rises mark) := instDecidableAnd

variable {mark} {a b : α} {ms : List (Move E α)}

theorem exists_falls (h : Path a ms b) (ha : mark ≤ a) (hb : b < mark) :
    ∃ m ∈ ms, m.Falls mark := by
  induction ms generalizing a with
  | nil =>
    have hab : a = b := h
    exact absurd (hab ▸ ha) (not_le_of_gt hb)
  | cons m ms ih =>
    obtain ⟨hm, hms⟩ := h
    rcases lt_or_ge m.after mark with hlt | hge
    · exact ⟨m, List.mem_cons_self, hm ▸ ha, hlt⟩
    · obtain ⟨n, hn, hfall⟩ := ih hms hge
      exact ⟨n, List.mem_cons_of_mem m hn, hfall⟩

/-- A level that starts below the mark and ends at it or above has risen for a last
time, and has kept the mark since. -/
theorem exists_last_rise (h : Path a ms b) (ha : a < mark) (hb : mark ≤ b) :
    ∃ p m q, ms = p ++ m :: q ∧ m.Rises mark ∧ ∀ n ∈ q, mark ≤ n.before ∧ mark ≤ n.after := by
  induction ms using List.reverseRecOn generalizing b with
  | nil =>
    have hab : a = b := h
    exact absurd (hab ▸ hb) (not_le_of_gt ha)
  | append_singleton ms n ih =>
    obtain ⟨hms, rfl⟩ := path_snoc.mp h
    rcases lt_or_ge n.before mark with hlt | hge
    · exact ⟨ms, n, [], rfl, ⟨hlt, hb⟩, by simp⟩
    · obtain ⟨p, m, q, rfl, hrise, hq⟩ := ih hms hge
      refine ⟨p, m, q ++ [n], by simp, hrise, ?_⟩
      intro k hk
      rcases List.mem_append.mp hk with hk | hk
      · exact hq k hk
      · obtain rfl := List.mem_singleton.mp hk
        exact ⟨hge, hb⟩

theorem falls_between {p q r : List (Move E α)} {m n : Move E α}
    (h : Path a (p ++ m :: q ++ n :: r) b) (hm : m.Rises mark) (hn : n.Rises mark) :
    ∃ k ∈ q, k.Falls mark :=
  exists_falls (path_between h) hm.2 hn.1

theorem not_rises_of_le {m : Move E α} (h : mark ≤ m.before) : ¬ m.Rises mark :=
  fun hm ↦ absurd hm.1 (not_lt_of_ge h)

end Mymuduo.Foundation.Threshold
