import Mathlib.Data.List.GetD

/-! Strings that end with a NUL, in a memory of characters. -/

namespace S6Reobs.CString

abbrev Memory := Nat → Char

/-- The string at `p`, looked for in `n` characters. -/
def read (mem : Memory) (p : Nat) : Nat → List Char
  | 0 => []
  | n + 1 => if mem p = '\x00' then [] else mem p :: read mem (p + 1) n

/-- The string and its NUL, stored at `p`. -/
def store (mem : Memory) (p : Nat) (s : List Char) : Memory := fun q =>
  if p ≤ q ∧ q ≤ p + s.length then s.getD (q - p) '\x00' else mem q

/-- The memory holds this text from `p` on. -/
def Holds (mem : Memory) (p : Nat) (s : List Char) : Prop :=
  ∀ i < s.length, mem (p + i) = s.getD i '\x00'

theorem store_before (mem : Memory) (s : List Char) {p q : Nat} (before : q < p) :
    store mem p s q = mem q :=
  if_neg fun inside => Nat.not_lt.mpr inside.1 before

theorem store_inside (mem : Memory) (p : Nat) {s : List Char} {i : Nat} (inside : i ≤ s.length) :
    store mem p s (p + i) = s.getD i '\x00' := by
  rw [store, if_pos ⟨Nat.le_add_right p i, Nat.add_le_add_left inside p⟩, Nat.add_sub_cancel_left]

theorem store_end (mem : Memory) (p : Nat) (s : List Char) :
    store mem p s (p + s.length) = '\x00' := by
  rw [store_inside mem p (Nat.le_refl _), List.getD_eq_default _ _ (Nat.le_refl _)]

/-- A text stays when a string is stored behind it, and is then longer by that string. -/
theorem Holds.append {mem : Memory} {p : Nat} {s t : List Char} (h : Holds mem p s) :
    Holds (store mem (p + s.length) t) p (s ++ t) := by
  intro i hi
  by_cases before : i < s.length
  · rw [store_before mem t (by omega), h i before, List.getD_append _ _ _ _ before]
  · have le : s.length ≤ i := Nat.le_of_not_lt before
    rw [List.length_append] at hi
    have place : p + i = p + s.length + (i - s.length) := by omega
    rw [place, store_inside mem _ (by omega), List.getD_append_right _ _ _ _ le]

theorem read_holds {mem : Memory} {p : Nat} {s : List Char} (h : Holds mem p s)
    (ends : mem (p + s.length) = '\x00') (text : ∀ c ∈ s, c ≠ '\x00') {n : Nat}
    (room : s.length < n) : read mem p n = s := by
  induction s generalizing p n with
  | nil =>
    cases n with
    | zero => rfl
    | succ n => exact if_pos ends
  | cons c s ih =>
    cases n with
    | zero => simp at room
    | succ n =>
      have first : mem p = c := h 0 (Nat.zero_lt_succ _)
      have rest : Holds mem (p + 1) s := by
        intro i hi
        have shifted := h (i + 1) (Nat.succ_lt_succ hi)
        rwa [List.getD_cons_succ, Nat.add_comm i 1, ← Nat.add_assoc] at shifted
      have ends' : mem (p + 1 + s.length) = '\x00' := by
        rwa [Nat.add_assoc, Nat.add_comm 1]
      rw [read, if_neg (first ▸ text c List.mem_cons_self), first,
        ih rest ends' (fun d hd => text d (List.mem_cons_of_mem c hd))
          (Nat.lt_of_succ_lt_succ room)]

end S6Reobs.CString
