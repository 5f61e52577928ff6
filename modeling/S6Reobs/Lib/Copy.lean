import Mathlib.Tactic.Ring
import Mathlib.Data.Nat.Init
import Mathlib.Data.List.Forall2

/-! Runs of words copied into a memory whose locations have word addresses.
A location outside every run keeps its word; a location some run covers gets
the word all covering runs agree on, in whatever order the runs are copied. -/

namespace Copy

variable {ι α : Type}

/-- One `memcpy`: `len` words read from `src`, written from `dest` on. -/
structure Piece (α : Type) where
  dest : Nat
  len : Nat
  src : Nat → α

def Piece.Covers (p : Piece α) (a : Nat) : Prop := p.dest ≤ a ∧ a < p.dest + p.len

instance (p : Piece α) (a : Nat) : Decidable (p.Covers a) :=
  inferInstanceAs (Decidable (_ ∧ _))

def Piece.copy (addr : ι → Nat) (p : Piece α) (mem : ι → α) : ι → α :=
  fun i => if p.Covers (addr i) then p.src (addr i - p.dest) else mem i

def copyAll (addr : ι → Nat) (ps : List (Piece α)) (mem : ι → α) : ι → α :=
  ps.foldl (fun mem p => p.copy addr mem) mem

/-- A run of `n` words from `base` on is the words counted up to `k` only for `k` its length. -/
theorem extent_iff (base : Nat) {n k : Nat} :
    (∀ a, base ≤ a ∧ a < base + n ↔ ∃ i < k, a = base + i) ↔ n = k := by
  constructor
  · intro same
    have le : n ≤ k := by
      by_contra longer
      obtain ⟨i, bound, eq⟩ := (same (base + k)).mp (by omega)
      omega
    have ge : k ≤ n := by
      by_contra shorter
      have := (same (base + n)).mpr ⟨n, by omega, rfl⟩
      omega
    exact Nat.le_antisymm le ge
  · rintro rfl a
    constructor
    · intro inside
      exact ⟨a - base, by omega, by omega⟩
    · rintro ⟨i, bound, rfl⟩
      omega

theorem copyAll_frame (addr : ι → Nat) (ps : List (Piece α)) (mem : ι → α) {i : ι}
    (out : ∀ p ∈ ps, ¬ p.Covers (addr i)) : copyAll addr ps mem i = mem i := by
  induction ps generalizing mem with
  | nil => rfl
  | cons p ps ih =>
    have hp := out p List.mem_cons_self
    have rest := ih (p.copy addr mem) (fun q hq => out q (List.mem_cons_of_mem p hq))
    calc copyAll addr (p :: ps) mem i = p.copy addr mem i := rest
      _ = mem i := by simp [Piece.copy, hp]

/-- A copy's word at one location depends on no other location. -/
theorem copyAll_congr (addr : ι → Nat) (ps : List (Piece α)) {mem mem' : ι → α} {i : ι}
    (h : mem i = mem' i) : copyAll addr ps mem i = copyAll addr ps mem' i := by
  induction ps generalizing mem mem' with
  | nil => exact h
  | cons p ps ih =>
    apply ih
    simp only [Piece.copy, h]

/-- Two runs that write the same words to the same place. -/
structure Piece.Same (p q : Piece α) : Prop where
  dest : p.dest = q.dest
  len : p.len = q.len
  src : ∀ j < p.len, p.src j = q.src j

theorem Piece.Same.copy {p q : Piece α} (same : p.Same q) (addr : ι → Nat) (mem : ι → α) :
    p.copy addr mem = q.copy addr mem := by
  funext i
  have covers : p.Covers (addr i) ↔ q.Covers (addr i) := by
    rw [Piece.Covers, Piece.Covers, same.dest, same.len]
  by_cases hp : p.Covers (addr i)
  · have inside : addr i - p.dest < p.len := by
      unfold Piece.Covers at hp
      omega
    have word := same.src _ inside
    simp only [Piece.copy, hp, covers.mp hp, ↓reduceIte, word]
    rw [same.dest]
  · simp only [Piece.copy, hp, mt covers.mpr hp, ↓reduceIte]

theorem copyAll_same (addr : ι → Nat) {ps qs : List (Piece α)}
    (same : List.Forall₂ Piece.Same ps qs) (mem : ι → α) :
    copyAll addr ps mem = copyAll addr qs mem := by
  induction same generalizing mem with
  | nil => rfl
  | cons head tail ih =>
    simp only [copyAll, List.foldl_cons, head.copy] at ih ⊢
    exact ih _

theorem copyAll_keeps (addr : ι → Nat) (ps : List (Piece α)) (mem : ι → α) {i : ι} {v : α}
    (agree : ∀ p ∈ ps, p.Covers (addr i) → p.src (addr i - p.dest) = v) (h : mem i = v) :
    copyAll addr ps mem i = v := by
  induction ps generalizing mem with
  | nil => exact h
  | cons p ps ih =>
    apply ih (p.copy addr mem) (fun q hq => agree q (List.mem_cons_of_mem p hq))
    unfold Piece.copy
    split
    · rename_i hc
      exact agree p List.mem_cons_self hc
    · exact h

/-- A covered location ends with the word its covering runs agree on. -/
theorem copyAll_value (addr : ι → Nat) (ps : List (Piece α)) (mem : ι → α) {i : ι} {v : α}
    (agree : ∀ p ∈ ps, p.Covers (addr i) → p.src (addr i - p.dest) = v)
    (some : ∃ p ∈ ps, p.Covers (addr i)) : copyAll addr ps mem i = v := by
  induction ps generalizing mem with
  | nil => simp at some
  | cons p ps ih =>
    have rest : ∀ q ∈ ps, q.Covers (addr i) → q.src (addr i - q.dest) = v :=
      fun q hq => agree q (List.mem_cons_of_mem p hq)
    by_cases hp : p.Covers (addr i)
    · apply copyAll_keeps addr ps (p.copy addr mem) rest
      simp only [Piece.copy, hp, ↓reduceIte]
      exact agree p List.mem_cons_self hp
    · obtain ⟨q, hq, hc⟩ := some
      have hq' : q ∈ ps := by
        rcases List.mem_cons.mp hq with rfl | h
        · exact absurd hc hp
        · exact h
      exact ih (p.copy addr mem) rest ⟨q, hq', hc⟩

/-! ## The parts of a word

A memory of words, seen as `n` parts to a word from word address `base` on. -/

section Parts

variable {β : Type} {n base : Nat} {part : α → Nat → β}

/-- `q` writes the parts that `p` writes as words. -/
structure Piece.InParts (n base : Nat) (part : α → Nat → β) (p : Piece α) (q : Piece β) :
    Prop where
  dest : ∃ d, p.dest = base + d ∧ q.dest = n * d
  len : q.len = n * p.len
  src : ∀ j < q.len, q.src j = part (p.src (j / n)) (j % n)

theorem Piece.InParts.copy {p : Piece α} {q : Piece β} (h : p.InParts n base part q) (pos : 0 < n)
    {addr : ι → Nat} {mem : ι → α} {data : Nat → β} {i : ι} {k : Nat}
    (place : addr i = base + k / n) (agree : part (mem i) (k % n) = data k) :
    part (p.copy addr mem i) (k % n) = q.copy id data k := by
  obtain ⟨d, pd, qd⟩ := h.dest
  have covers : p.Covers (addr i) ↔ q.Covers k := by
    have lo := Nat.le_div_iff_mul_le pos (x := d) (y := k)
    have hi := Nat.div_lt_iff_lt_mul pos (x := k) (y := d + p.len)
    rw [Nat.mul_comm d] at lo
    rw [Nat.mul_comm, Nat.mul_add] at hi
    rw [Piece.Covers, Piece.Covers, place, pd, qd, h.len, ← lo, ← hi]
    omega
  by_cases hp : p.Covers (addr i)
  · have hq := covers.mp hp
    have inside : k - q.dest < q.len := by
      unfold Piece.Covers at hq
      omega
    have low : n * d ≤ k := by
      rw [← qd]
      exact hq.1
    have word : (k - n * d) / n = addr i - p.dest := by
      rw [Nat.sub_mul_div, place, pd]
      omega
    have value := h.src _ inside
    rw [qd, word, Nat.sub_mul_mod low] at value
    simp only [Piece.copy, hp, hq, id, ↓reduceIte]
    rw [qd, value]
  · have hq := mt covers.mpr hp
    simp only [Piece.copy, hp, hq, id, ↓reduceIte, agree]

theorem copyAll_inParts {ps : List (Piece α)} {qs : List (Piece β)}
    (h : List.Forall₂ (Piece.InParts n base part) ps qs) (pos : 0 < n) {addr : ι → Nat}
    {mem : ι → α} {data : Nat → β} {i : ι} {k : Nat} (place : addr i = base + k / n)
    (agree : part (mem i) (k % n) = data k) :
    part (copyAll addr ps mem i) (k % n) = copyAll id qs data k := by
  induction h generalizing mem data with
  | nil => exact agree
  | cons head _ ih => exact ih (head.copy pos place agree)

end Parts

end Copy
