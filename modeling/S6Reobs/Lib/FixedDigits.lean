import Mathlib.Data.Nat.Digits.Defs
import Mathlib.Tactic.Ring

/-! Numbers of a fixed number of digits, and their digits in the other order. -/

namespace S6Reobs.FixedDigits

/-- The lowest `n` digits of `x`, the lowest first. -/
def digits (b : Nat) : Nat → Nat → List Nat
  | 0, _ => []
  | n + 1, x => x % b :: digits b n (x / b)

/-- The number with these digits in the other order. -/
def swap (b n x : Nat) : Nat := Nat.ofDigits b (digits b n x).reverse

variable {b : Nat}

@[simp] theorem length_digits (n x : Nat) : (digits b n x).length = n := by
  induction n generalizing x with
  | zero => rfl
  | succ n ih => rw [digits, List.length_cons, ih]

theorem digits_lt (pos : 0 < b) (n x : Nat) : ∀ d ∈ digits b n x, d < b := by
  induction n generalizing x with
  | zero => simp [digits]
  | succ n ih =>
    intro d hd
    cases List.mem_cons.mp hd with
    | inl here => exact here ▸ Nat.mod_lt x pos
    | inr later => exact ih (x / b) d later

theorem digits_concat (n x : Nat) : digits b (n + 1) x = digits b n x ++ [x / b ^ n % b] := by
  induction n generalizing x with
  | zero => simp [digits]
  | succ n ih =>
    rw [digits, ih, digits, List.cons_append, Nat.div_div_eq_div_mul, ← Nat.pow_succ']

theorem ofDigits_digits (n x : Nat) : Nat.ofDigits b (digits b n x) = x % b ^ n := by
  induction n generalizing x with
  | zero => simp [digits, Nat.mod_one]
  | succ n ih => rw [digits, Nat.ofDigits_cons, ih, Nat.pow_succ', Nat.mod_mul]

theorem digits_ofDigits (pos : 0 < b) {l : List Nat} (small : ∀ d ∈ l, d < b) :
    digits b l.length (Nat.ofDigits b l) = l := by
  induction l with
  | nil => rfl
  | cons d l ih =>
    have here : d < b := small d List.mem_cons_self
    rw [List.length_cons, digits, Nat.ofDigits_cons, Nat.add_mul_mod_self_left,
      Nat.mod_eq_of_lt here, Nat.add_mul_div_left _ _ pos, Nat.div_eq_of_lt here, Nat.zero_add,
      ih fun d hd => small d (List.mem_cons_of_mem _ hd)]

/-- Back and forth gives the number again. -/
theorem swap_swap (pos : 0 < b) (n x : Nat) : swap b n (swap b n x) = x % b ^ n := by
  have back := digits_ofDigits pos (l := (digits b n x).reverse)
    fun d hd => digits_lt pos n x d (List.mem_reverse.mp hd)
  rw [List.length_reverse, length_digits] at back
  rw [swap, swap, back, List.reverse_reverse, ofDigits_digits]

/-- The number read from the highest digit of the result down. -/
theorem foldl_eq_swap (n x : Nat) :
    (List.range n).foldl (fun acc i => acc * b + x / b ^ i % b) 0 = swap b n x := by
  induction n with
  | zero => rfl
  | succ n ih =>
    rw [List.range_succ, List.foldl_append, ih, swap, swap, digits_concat, List.reverse_append,
      List.reverse_singleton, List.singleton_append, Nat.ofDigits_cons, List.foldl_cons,
      List.foldl_nil]
    ring

end S6Reobs.FixedDigits
