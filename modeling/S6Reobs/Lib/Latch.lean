import Mathlib.Data.List.Basic

/-! A latch: a bit that follows a condition, and a report whenever it moves. -/

namespace S6Reobs.Latch

variable {α : Type*} (up down : α)

/-- The bit after the condition was looked at, and what is reported. -/
def step (bit cond : Bool) : Bool × List α :=
  if cond then if bit then (true, []) else (true, [up])
  else if bit then (false, [down]) else (false, [])

/-- The reports while the condition takes these values, one after the other. -/
def reports (bit : Bool) : List Bool → List α
  | [] => []
  | cond :: rest => (step up down bit cond).2 ++ reports (step up down bit cond).1 rest

/-- How often the condition moves. -/
def moves (bit : Bool) : List Bool → Nat
  | [] => 0
  | cond :: rest => (if cond = bit then 0 else 1) + moves cond rest

/-- `n` reports, each the other of the two than the one before it. -/
def inTurn (bit : Bool) : Nat → List α
  | 0 => []
  | n + 1 => (if bit then down else up) :: inTurn (!bit) n

@[simp] theorem step_fst (bit cond : Bool) : (step up down bit cond).1 = cond := by
  cases bit <;> cases cond <;> rfl

theorem step_snd (bit cond : Bool) :
    (step up down bit cond).2 = inTurn up down bit (if cond = bit then 0 else 1) := by
  cases bit <;> cases cond <;> rfl

/-- No report comes twice in a row. -/
theorem reports_inTurn (bit : Bool) (conds : List Bool) :
    reports up down bit conds = inTurn up down bit (moves bit conds) := by
  induction conds generalizing bit with
  | nil => rfl
  | cons cond rest ih =>
    rw [reports, step_snd, step_fst, ih, moves]
    by_cases same : cond = bit
    · rw [if_pos same, Nat.zero_add, same]
      rfl
    · have other : cond = !bit := by cases bit <;> cases cond <;> simp_all
      rw [if_neg same, Nat.add_comm, inTurn, other]
      rfl

theorem reports_concat (bit : Bool) (conds : List Bool) (cond : Bool) :
    reports up down bit (conds ++ [cond]) =
      reports up down bit conds ++ (step up down (conds.getLastD bit) cond).2 := by
  induction conds generalizing bit with
  | nil => simp [reports]
  | cons c rest ih =>
    rw [List.cons_append, reports, ih, step_fst, reports, step_fst, List.append_assoc,
      List.getLastD_cons]

end S6Reobs.Latch
