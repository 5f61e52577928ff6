import Mathlib.Logic.Relation

/-! Forward simulation with stuttering: a step of the concrete system is matched by any
number of steps of the abstract one. And runs that end, because each step uses up a rank. -/

open Relation

variable {C A : Type} {R : C → A → Prop} {StepC : C → C → Prop} {StepA : A → A → Prop}

/-- Steps from related states lead to related states. -/
def Simulates (R : C → A → Prop) (StepC : C → C → Prop) (StepA : A → A → Prop) : Prop :=
  ∀ ⦃c a c'⦄, R c a → StepC c c' → ∃ a', ReflTransGen StepA a a' ∧ R c' a'

theorem Simulates.run (sim : Simulates R StepC StepA) {c c' : C} {a : A} (h : R c a)
    (run : ReflTransGen StepC c c') : ∃ a', ReflTransGen StepA a a' ∧ R c' a' := by
  induction run with
  | refl => exact ⟨a, .refl, h⟩
  | tail _ step ih =>
    obtain ⟨a', before, related⟩ := ih
    obtain ⟨a'', now, related'⟩ := sim related step
    exact ⟨a'', before.trans now, related'⟩

/-- What one step keeps, a run keeps. -/
theorem invariant_run {P : C → Prop} (keeps : ∀ ⦃c c'⦄, P c → StepC c c' → P c') {c c' : C}
    (h : P c) (run : ReflTransGen StepC c c') : P c' := by
  induction run with
  | refl => exact h
  | tail _ step ih => exact keeps ih step

/-- If no step brings `P` about, a run to a state with `P` has it after every step. -/
theorem run_within {P : C → Prop} (back : ∀ ⦃c c'⦄, StepC c c' → P c' → P c) {c c' : C}
    (run : ReflTransGen StepC c c') (last : P c') :
    ReflTransGen (fun c c' => StepC c c' ∧ P c') c c' := by
  induction run with
  | refl => exact .refl
  | tail _ step ih => exact (ih (back step last)).tail ⟨step, last⟩

section Rank

variable {Rank : C → Nat → Prop} (down : ∀ ⦃c c' n⦄, Rank c n → StepC c c' → ∃ k < n, Rank c' k)
include down

/-- A run from a state with a rank can be led to a state where it stops. -/
theorem stops_of_rank {n : Nat} {c : C} (h : Rank c n) :
    ∃ c', ReflTransGen StepC c c' ∧ ∀ c'', ¬ StepC c' c'' := by
  induction n using Nat.strongRecOn generalizing c with
  | ind n ih =>
    by_cases stuck : ∃ c', StepC c c'
    · obtain ⟨c', step⟩ := stuck
      obtain ⟨k, less, rank⟩ := down h step
      obtain ⟨c'', run, stop⟩ := ih k less rank
      exact ⟨c'', .head step run, stop⟩
    · exact ⟨c, .refl, not_exists.mp stuck⟩

end Rank
