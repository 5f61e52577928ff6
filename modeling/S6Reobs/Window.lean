import S6Reobs.Lib.Period
import S6Reobs.Lib.Word

/-! What the assembler is for, over mcnts that never wrap. Two consecutive
blocks of `per` mcnts are held open. A packet of their last half block moves the
window on by one block; one that is behind by less than two laps of the ring is
late; any other is a stray, and more than `limit` strays with no packet inside
the window in between move it to where the packets are. -/

namespace S6Reobs.Window

open Word

/-- `block` is the number of the current block: the window starts at `per * block`. -/
structure State where
  block : Nat
  strays : Int
  deriving DecidableEq, Repr

inductive Verdict
  | current | advance | late | stray
  deriving DecidableEq, Repr

variable (per ring limit : Nat)

def verdict (block mcnt : Nat) : Verdict :=
  if mcnt < per * block then
    if per * block < mcnt + 2 * per * ring then .late else .stray
  else if mcnt < per * block + 3 * (per / 2) then .current
  else if mcnt < per * block + 2 * per then .advance
  else .stray

/-- The first block from the packet's own on that sits where the current block sits. -/
def target (block mcnt : Nat) : Nat :=
  mcnt / per + Period.lead ring (mcnt / per % ring) (block % ring)

def step (s : State) (mcnt : Nat) : State :=
  match verdict per ring s.block mcnt with
  | .current => ⟨s.block, 0⟩
  | .advance => ⟨s.block + 1, 0⟩
  | .late => s
  | .stray =>
    if inc s.strays > limit then ⟨target per ring s.block mcnt, inc s.strays⟩
    else ⟨s.block, inc s.strays⟩

variable {per ring limit}

theorem verdict_current {block mcnt : Nat} : verdict per ring block mcnt = .current ↔
    per * block ≤ mcnt ∧ mcnt < per * block + 3 * (per / 2) := by
  unfold verdict
  split
  · split <;> simp <;> omega
  · split
    · simp; omega
    · split <;> simp <;> omega

theorem verdict_advance {block mcnt : Nat} : verdict per ring block mcnt = .advance ↔
    per * block + 3 * (per / 2) ≤ mcnt ∧ mcnt < per * block + 2 * per := by
  unfold verdict
  split
  · split <;> simp <;> omega
  · split
    · simp; omega
    · split <;> simp <;> omega

theorem verdict_late {block mcnt : Nat} : verdict per ring block mcnt = .late ↔
    mcnt < per * block ∧ per * block < mcnt + 2 * per * ring := by
  unfold verdict
  split
  · split <;> simp <;> omega
  · split
    · simp; omega
    · split <;> simp <;> omega

theorem step_current {s : State} {mcnt : Nat} (v : verdict per ring s.block mcnt = .current) :
    step per ring limit s mcnt = ⟨s.block, 0⟩ := by simp only [step, v]

theorem step_advance {s : State} {mcnt : Nat} (v : verdict per ring s.block mcnt = .advance) :
    step per ring limit s mcnt = ⟨s.block + 1, 0⟩ := by simp only [step, v]

theorem step_late {s : State} {mcnt : Nat} (v : verdict per ring s.block mcnt = .late) :
    step per ring limit s mcnt = s := by simp only [step, v]

theorem step_stray {s : State} {mcnt : Nat} (v : verdict per ring s.block mcnt = .stray)
    (few : inc s.strays ≤ limit) :
    step per ring limit s mcnt = ⟨s.block, inc s.strays⟩ := by
  simp only [step, v]
  rw [if_neg (by omega)]

theorem step_resync {s : State} {mcnt : Nat} (v : verdict per ring s.block mcnt = .stray)
    (many : limit < inc s.strays) :
    step per ring limit s mcnt = ⟨target per ring s.block mcnt, inc s.strays⟩ := by
  simp only [step, v]
  rw [if_pos many]

/-- A packet of the window is for its first or its second block. -/
theorem current_block (even : 2 ∣ per) {block mcnt : Nat}
    (h : verdict per ring block mcnt = .current) :
    mcnt / per = block ∨ mcnt / per = block + 1 := by
  obtain ⟨lo, hi⟩ := verdict_current.mp h
  have half := Nat.mul_div_cancel' even
  cases Nat.lt_or_ge mcnt (per * (block + 1)) with
  | inl first => exact .inl (Nat.div_eq_of_lt_le (by rwa [Nat.mul_comm]) (by rwa [Nat.mul_comm]))
  | inr second =>
    refine .inr (Nat.div_eq_of_lt_le (by rwa [Nat.mul_comm]) ?_)
    rw [Nat.mul_comm]
    simp only [Nat.mul_add, Nat.mul_one] at *
    omega

theorem advance_block (even : 2 ∣ per) {block mcnt : Nat}
    (h : verdict per ring block mcnt = .advance) : mcnt / per = block + 1 := by
  obtain ⟨lo, hi⟩ := verdict_advance.mp h
  have half := Nat.mul_div_cancel' even
  apply Nat.div_eq_of_lt_le <;> rw [Nat.mul_comm] <;> simp only [Nat.mul_add, Nat.mul_one] <;> omega

/-- The target keeps the ring place and is less than a lap ahead of the packet. -/
theorem target_place (per : Nat) (pos : 0 < ring) (block mcnt : Nat) :
    target per ring block mcnt % ring = block % ring :=
  Period.add_lead_place (Nat.mod_lt _ pos) _

theorem target_bounds (per : Nat) (pos : 0 < ring) (block mcnt : Nat) :
    mcnt / per ≤ target per ring block mcnt ∧
    target per ring block mcnt < mcnt / per + ring := by
  have lead := Period.lead_lt (Nat.mod_lt (mcnt / per) pos) (Nat.mod_lt block pos)
  unfold target
  omega

end S6Reobs.Window
