import Mathlib.Logic.Function.Basic
import S6Reobs.Lib.Period

/-! A stream that passes through `N` cells, item `r` through cell `r % N`. -/

namespace Circular

variable {α : Type*} {N : Nat} {stream cells : Nat → α} {i len : Nat}

/-- The cells hold items `i` to `i + len - 1`; the others hold anything. -/
def Holds (N : Nat) (stream cells : Nat → α) (i len : Nat) : Prop :=
  ∀ j < len, cells ((i + j) % N) = stream (i + j)

/-- The next item goes over a cell that holds none of the last `N - 1`. -/
theorem Holds.push (holds : Holds N stream cells i len) (room : len < N) :
    Holds N stream (Function.update cells ((i + len) % N) (stream (i + len))) i (len + 1) := by
  intro j hj
  by_cases last : j = len
  · rw [last, Function.update_self]
  · have apart : (i + j) % N ≠ (i + len) % N := by
      intro place
      have := Period.eq_of_place_eq place (by omega) (by omega)
      omega
    rw [Function.update_of_ne apart]
    exact holds j (by omega)

/-- The oldest item is given up. -/
theorem Holds.drop (holds : Holds N stream cells i (len + 1)) :
    Holds N stream cells (i + 1) len := by
  intro j hj
  have next := holds (j + 1) (by omega)
  rwa [show i + (j + 1) = i + 1 + j by omega] at next

end Circular
