import Mathlib.Tactic.Ring
import Mathlib.Data.Nat.Init

/-! A counter cut into numbered periods of length `n`, laid around a ring of
`N` places: period `j` is `[n * j, n * (j + 1))` and sits at place `j % N`. -/

namespace Period

theorem bounds_of_div {n : Nat} (pos : 0 < n) (m : Nat) :
    n * (m / n) ≤ m ∧ m < n * (m / n + 1) := by
  have := Nat.div_add_mod m n
  have := Nat.mod_lt m pos
  rw [Nat.mul_add]
  omega

/-- Period number and place in the period, counted from the start or computed. -/
theorem eq_add_iff {n r : Nat} (hr : r < n) (q j : Nat) :
    q = j * n + r ↔ q / n = j ∧ q % n = r := by
  rw [Nat.div_mod_unique (Nat.zero_lt_of_lt hr), Nat.mul_comm j]
  constructor
  · exact fun h => ⟨by omega, hr⟩
  · exact fun h => by omega

theorem div_eq_iff {n : Nat} (pos : 0 < n) (m j : Nat) :
    m / n = j ↔ j * n ≤ m ∧ m < j * n + n := by
  have bounds := bounds_of_div pos m
  constructor
  · rintro rfl
    rwa [Nat.mul_add, Nat.mul_one, Nat.mul_comm] at bounds
  · rintro ⟨lo, hi⟩
    exact Nat.div_eq_of_lt_le lo (by rwa [Nat.succ_mul])

/-- Rounding down gives the start of the period. -/
theorem sub_mod_eq (n m : Nat) : m - m % n = n * (m / n) := by
  have := Nat.div_add_mod m n
  omega

theorem place_succ (j N : Nat) : (j % N + 1) % N = (j + 1) % N := by
  rw [Nat.mod_add_mod]

theorem place_succ_succ (j N : Nat) : ((j % N + 1) % N + 1) % N = (j + 2) % N := by
  rw [place_succ j, place_succ (j + 1)]

/-- Neighbouring periods never share a place. -/
theorem place_ne_succ {N : Nat} (two : 2 ≤ N) (j : Nat) : j % N ≠ (j + 1) % N := by
  intro h
  have hj := Nat.mod_lt j (show 0 < N by omega)
  rw [← place_succ] at h
  cases Nat.lt_or_ge (j % N + 1) N with
  | inl hlt =>
    rw [Nat.mod_eq_of_lt hlt] at h
    omega
  | inr hge =>
    have : j % N + 1 = N := by omega
    rw [this, Nat.mod_self] at h
    omega

/-- Two counts less than a lap apart that share a place are equal. -/
theorem eq_of_place_eq {N a b : Nat} (h : a % N = b % N) (ab : a ≤ b) (near : b < a + N) :
    a = b := by
  have hd : N ∣ b - a := Nat.dvd_of_mod_eq_zero (Nat.sub_mod_eq_zero_of_mod_eq h.symm)
  have : b - a = 0 := Nat.eq_zero_of_dvd_of_lt hd (by omega)
  omega

/-- Places to go forward from place `i` to place `k`. -/
def lead (N i k : Nat) : Nat := if i ≤ k then k - i else k + N - i

theorem lead_lt {N i k : Nat} (hi : i < N) (hk : k < N) : lead N i k < N := by
  unfold lead; split <;> omega

theorem add_lead_place {N k : Nat} (hk : k < N) (a : Nat) :
    (a + lead N (a % N) k) % N = k := by
  have ha := Nat.mod_lt a (show 0 < N by omega)
  rw [← Nat.mod_add_mod]
  unfold lead
  split
  · rw [show a % N + (k - a % N) = k by omega, Nat.mod_eq_of_lt hk]
  · rw [show a % N + (k + N - a % N) = k + N by omega, Nat.add_mod_right, Nat.mod_eq_of_lt hk]

end Period
