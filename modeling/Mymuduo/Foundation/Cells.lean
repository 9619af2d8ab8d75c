import Mathlib.Data.List.Basic

namespace Mymuduo.Foundation.Cells

variable {α : Type}

def slice (v : List α) (a b : ℕ) : List α := (v.drop a).take (b - a)

/-- Copy `d` over the cells that start at `off`. -/
def overlay (v : List α) (off : ℕ) (d : List α) : List α :=
  v.take off ++ d ++ v.drop (off + d.length)

theorem length_slice {v : List α} {a b : ℕ} (hb : b ≤ v.length) :
    (slice v a b).length = b - a := by
  simp only [slice, List.length_take, List.length_drop]
  omega

theorem slice_take (v : List α) (a b n : ℕ) : (slice v a b).take n = slice v a (min b (a + n)) := by
  simp only [slice, List.take_take]
  congr 1
  omega

theorem slice_drop (v : List α) (a b n : ℕ) : (slice v a b).drop n = slice v (a + n) b := by
  simp only [slice, List.drop_take, List.drop_drop]
  congr 1
  omega

theorem slice_append_left {v w : List α} {a b : ℕ} (hb : b ≤ v.length) :
    slice (v ++ w) a b = slice v a b := by
  by_cases hab : a ≤ b
  · rw [slice, slice, List.drop_append_of_le_length (by omega), List.take_append_of_le_length]
    simp only [List.length_drop]
    omega
  · simp [slice, show b - a = 0 by omega]

theorem length_overlay {v d : List α} {off : ℕ} (h : off + d.length ≤ v.length) :
    (overlay v off d).length = v.length := by
  simp only [overlay, List.length_append, List.length_take, List.length_drop]
  omega

theorem slice_overlay {v d : List α} {a off : ℕ} (ha : a ≤ off) (h : off ≤ v.length) :
    slice (overlay v off d) a (off + d.length) = slice v a off ++ d := by
  have hlen : (v.take off).length = off := List.length_take_of_le h
  rw [overlay, slice_append_left (by simp [hlen]), slice,
    List.drop_append_of_le_length (by omega), List.take_of_length_le (by simp; omega), slice,
    List.drop_take]

/-- An element-by-element copy in progress. `written` lists the cells already
overwritten, and `clean` turns false at a read of one of them or outside. -/
structure Copying (α : Type) where
  cells : List α
  written : List ℕ
  clean : Bool

def copyOne (src dst : ℕ) (c : Copying α) : Copying α :=
  match c.cells[src]? with
  | some x => ⟨c.cells.set dst x, dst :: c.written,
      c.clean && decide (src ∉ c.written) && decide (dst < c.cells.length)⟩
  | none => { c with clean := false }

def copyLoop : ℕ → ℕ → ℕ → Copying α → Copying α
  | 0, _, _, c => c
  | n + 1, src, dst, c => copyLoop n (src + 1) (dst + 1) (copyOne src dst c)

/-- Copy `n` cells from `src` to `dst` in increasing order of index. -/
def copyForward (v : List α) (src dst n : ℕ) : Copying α := copyLoop n src dst ⟨v, [], true⟩

theorem copyOne_inside {src dst : ℕ} {c : Copying α} (h : src < c.cells.length) :
    copyOne src dst c = ⟨c.cells.set dst c.cells[src], dst :: c.written,
      c.clean && decide (src ∉ c.written) && decide (dst < c.cells.length)⟩ := by
  simp only [copyOne, List.getElem?_eq_getElem h]

theorem length_copyLoop (n src dst : ℕ) (c : Copying α) :
    (copyLoop n src dst c).cells.length = c.cells.length := by
  induction n generalizing src dst c with
  | zero => rfl
  | succ n ih =>
    rw [copyLoop, ih, copyOne]
    split <;> simp

theorem copyLoop_getElem? {n src dst : ℕ} {c : Copying α} (hd : dst ≤ src)
    (hs : src + n ≤ c.cells.length) (i : ℕ) :
    (copyLoop n src dst c).cells[i]? =
      if dst ≤ i ∧ i < dst + n then c.cells[src + (i - dst)]? else c.cells[i]? := by
  induction n generalizing src dst c with
  | zero =>
    rw [if_neg (by omega)]
    rfl
  | succ n ih =>
    have hsrc : src < c.cells.length := by omega
    rw [copyLoop, copyOne_inside hsrc, ih (by omega) (by simp only [List.length_set]; omega)]
    by_cases hi : dst + 1 ≤ i ∧ i < dst + 1 + n
    · rw [if_pos hi, if_pos (by omega), List.getElem?_set_ne (by omega)]
      congr 1
      omega
    · rw [if_neg hi]
      by_cases he : dst = i
      · subst he
        rw [if_pos (by omega), List.getElem?_set_self (by omega), Nat.sub_self, Nat.add_zero,
          List.getElem?_eq_getElem hsrc]
      · rw [if_neg (by omega), List.getElem?_set_ne he]

theorem copyLoop_clean {n src dst : ℕ} {c : Copying α} (hd : dst ≤ src)
    (hs : src + n ≤ c.cells.length) (hw : ∀ j ∈ c.written, j < dst) (hc : c.clean = true) :
    (copyLoop n src dst c).clean = true := by
  induction n generalizing src dst c with
  | zero => exact hc
  | succ n ih =>
    rw [copyLoop, copyOne_inside (by omega)]
    have hfresh : src ∉ c.written := fun h ↦ by have := hw src h; omega
    refine ih (by omega) (by simp only [List.length_set]; omega) ?_ ?_
    · intro j hj
      rcases List.mem_cons.mp hj with rfl | hj
      · omega
      · exact Nat.lt_succ_of_lt (hw j hj)
    · have hin : dst < c.cells.length := by omega
      simp [hc, hfresh, hin]

section

variable {v : List α} {src dst n : ℕ}

theorem length_copyForward : (copyForward v src dst n).cells.length = v.length :=
  length_copyLoop n src dst _

theorem slice_copyForward (hd : dst ≤ src) (hs : src + n ≤ v.length) :
    slice (copyForward v src dst n).cells dst (dst + n) = slice v src (src + n) := by
  apply List.ext_getElem?
  intro i
  simp only [slice, Nat.add_sub_cancel_left, List.getElem?_take, List.getElem?_drop]
  split
  · rw [copyForward, copyLoop_getElem? hd hs, if_pos (by omega)]
    congr 1
    omega
  · rfl

theorem copyForward_clean (hd : dst ≤ src) (hs : src + n ≤ v.length) :
    (copyForward v src dst n).clean = true :=
  copyLoop_clean hd hs (fun j hj ↦ by simp at hj) rfl

end

end Mymuduo.Foundation.Cells
