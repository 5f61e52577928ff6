import Mathlib.Tactic.Ring
import Mathlib.Data.Nat.Init

/-! Fixed-width C integers over `Int` and `Nat`. A `uint64_t` expression is
evaluated in `Int` and wrapped once, where the source stores or compares it. -/

namespace Word

/-- The value of a `uint64_t` expression. -/
def u64 (x : Int) : Nat := (x % 2 ^ 64).toNat

/-- The value of an expression converted to `int64_t`. -/
def i64 (x : Int) : Int := (x + 2 ^ 63) % 2 ^ 64 - 2 ^ 63

/-- The value of an expression converted to `uint32_t`. -/
def u32 (x : Int) : Nat := (x % 2 ^ 32).toNat

/-- The value of an expression converted to `int`. -/
def i32 (x : Int) : Int := (x + 2 ^ 31) % 2 ^ 32 - 2 ^ 31

/-- `n++` of an `int` counter. C leaves its overflow undefined; it wraps here, as the
machine's addition does. -/
def inc (n : Int) : Int := i32 (n + 1)

theorem u64_of_lt {x : Nat} (h : x < 2 ^ 64) : u64 x = x := by
  unfold u64; omega

theorem u32_of_lt {x : Nat} (h : x < 2 ^ 32) : u32 x = x := by
  unfold u32; omega

theorem u64_of_range {x : Int} (lo : 0 ≤ x) (hi : x < 2 ^ 64) : (u64 x : Int) = x := by
  unfold u64; omega

theorem i64_of_range {x : Int} (lo : -2 ^ 63 ≤ x) (hi : x < 2 ^ 63) : i64 x = x := by
  unfold i64; omega

theorem inc_of_range {n : Int} (lo : -2 ^ 31 ≤ n) (hi : n < 2 ^ 31 - 1) : inc n = n + 1 := by
  unfold inc i32; omega

theorem inc_range (n : Int) : -2 ^ 31 ≤ inc n ∧ inc n < 2 ^ 31 := by
  unfold inc i32; omega

/-- Wrapping early or late gives the same counter. -/
theorem u64_sub_wrap (x : Int) (y : Int) : u64 ((u64 x : Int) - y) = u64 (x - y) := by
  unfold u64; omega

end Word
