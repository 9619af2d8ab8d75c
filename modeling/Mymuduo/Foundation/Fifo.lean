import Mymuduo.Foundation.Machine

namespace Mymuduo.Foundation.Fifo

open Machine

variable {F : Type}

inductive Op (F : Type)
  | push (f : F)
  | pop (f : F)

/-- A first-in first-out queue; `pop f` is possible when `f` is in front. -/
def step [DecidableEq F] : List F → Op F → Option (List F)
  | q, .push f => some (q ++ [f])
  | [], .pop _ => none
  | g :: q, .pop f => if g = f then some q else none

def pushed (os : List (Op F)) : List F :=
  os.filterMap fun | .push f => some f | .pop _ => none

def popped (os : List (Op F)) : List F :=
  os.filterMap fun | .pop f => some f | .push _ => none

theorem pushed_append (os ps : List (Op F)) : pushed (os ++ ps) = pushed os ++ pushed ps :=
  List.filterMap_append

theorem popped_append (os ps : List (Op F)) : popped (os ++ ps) = popped os ++ popped ps :=
  List.filterMap_append

variable [DecidableEq F]

theorem step_conserves {q r : List F} {o : Op F} (h : step q o = some r) :
    popped [o] ++ r = q ++ pushed [o] := by
  cases o with
  | push f =>
    obtain rfl : q ++ [f] = r := by simpa [step] using h
    simp [pushed, popped]
  | pop f =>
    cases q with
    | nil => simp [step] at h
    | cons g q =>
      obtain ⟨rfl, rfl⟩ : g = f ∧ q = r := by simpa [step] using h
      simp [pushed, popped]

/-- Whatever came out, followed by what still waits, is what went in, in order. -/
theorem run_conserves {q r : List F} {os : List (Op F)} (h : run step q os = some r) :
    popped os ++ r = q ++ pushed os := by
  induction os generalizing q with
  | nil =>
    obtain rfl : q = r := by simpa using h
    simp [pushed, popped]
  | cons o os ih =>
    obtain ⟨u, hu, hr⟩ := run_cons.mp h
    have hone := step_conserves hu
    have hp := popped_append [o] os
    have hq := pushed_append [o] os
    rw [List.singleton_append] at hp hq
    rw [hp, hq, List.append_assoc, ih hr, ← List.append_assoc, hone, List.append_assoc]

end Mymuduo.Foundation.Fifo
