import Mathlib.Logic.Function.Basic
import S6Reobs.Lib.Period

/-! A ring of `size` slots between one writer and one reader, with a flag a slot. The
writer claims free slots in ring order, fills them and publishes them in the same
order; the reader reads published slots and then releases them. Counts never wrap:
the `i`th slot ever used is slot `i % size`. -/

variable {F V : Type}

/-- What holds between any two steps of the writer and the reader, when the writer has
claimed `claimed` slots and published `log`, and the reader has read `read` slots and
released `released`. -/
structure Handoff (free full : F) (size : Nat) (flag : Nat → F) (slot : Nat → V)
    (log : List V) (claimed read released : Nat) : Prop where
  released_le : released ≤ read
  read_le : read ≤ log.length
  published_le : log.length ≤ claimed
  room : claimed ≤ released + size
  isFull : ∀ i, released ≤ i → i < log.length → flag (i % size) = full
  isFree : ∀ i, log.length ≤ i → i < released + size → flag (i % size) = free
  kept : ∀ i (h : i < log.length), read ≤ i → slot (i % size) = log[i]

namespace Handoff

variable {free full : F} {size : Nat} {flag : Nat → F} {slot : Nat → V} {log : List V}
  {claimed read released : Nat}

theorem initial (none : ∀ i, flag i = free) : Handoff free full size flag slot [] 0 0 0 where
  released_le := Nat.le_refl _
  read_le := Nat.le_refl _
  published_le := Nat.le_refl _
  room := Nat.zero_le _
  isFull _ _ h := absurd h (Nat.not_lt_zero _)
  isFree _ _ _ := none _
  kept _ h := absurd h (Nat.not_lt_zero _)

/-- Slots in use at the same time are different. -/
theorem place_ne (size : Nat) {i j : Nat} (ij : i < j) (near : j < i + size) :
    j % size ≠ i % size := by
  intro h
  have := Period.eq_of_place_eq h.symm (Nat.le_of_lt ij) near
  omega

section

variable (h : Handoff free full size flag slot log claimed read released)
include h

/-! ## The writer -/

theorem claim (ne : free ≠ full) (isFree : flag (claimed % size) = free)
    (near : claimed < log.length + size) :
    Handoff free full size flag slot log (claimed + 1) read released where
  released_le := h.released_le
  read_le := h.read_le
  published_le := Nat.le_succ_of_le h.published_le
  room := by
    have room := h.room
    -- with no room left, the slot would be the oldest that is published
    by_contra full_
    have eq : claimed = released + size := by omega
    have published := h.isFull released (Nat.le_refl _) (by omega)
    rw [eq, Nat.add_mod_right, published] at isFree
    exact ne isFree.symm
  isFull := h.isFull
  isFree := h.isFree
  kept := h.kept

theorem fill {i : Nat} (held : log.length ≤ i) (claimed_ : i < claimed) (v : V) :
    Handoff free full size flag (Function.update slot (i % size) v) log claimed read released where
  released_le := h.released_le
  read_le := h.read_le
  published_le := h.published_le
  room := h.room
  isFull := h.isFull
  isFree := h.isFree
  kept := by
    intro j hj from_
    have room := h.room
    have released_le := h.released_le
    have ne := place_ne size (Nat.lt_of_lt_of_le hj held) (by omega)
    rw [Function.update_of_ne ne.symm]
    exact h.kept j hj from_

theorem publish (held : log.length < claimed) :
    Handoff free full size (Function.update flag (log.length % size) full) slot
      (log ++ [slot (log.length % size)]) claimed read released := by
  have room := h.room
  have length : (log ++ [slot (log.length % size)]).length = log.length + 1 := by simp
  refine ⟨h.released_le, ?_, ?_, h.room, ?_, ?_, ?_⟩
  · rw [length]
    exact Nat.le_succ_of_le h.read_le
  · rw [length]
    exact held
  · intro i from_ hi
    rw [length] at hi
    rcases Nat.lt_succ_iff_lt_or_eq.mp hi with before | rfl
    · have ne := place_ne size before (by omega)
      rw [Function.update_of_ne ne.symm]
      exact h.isFull i from_ before
    · exact Function.update_self ..
  · intro i from_ hi
    rw [length] at from_
    have released_le := Nat.le_trans h.released_le h.read_le
    have ne := place_ne size (show log.length < i by omega) (by omega)
    rw [Function.update_of_ne ne]
    exact h.isFree i (by omega) hi
  · intro i hi from_
    rw [length] at hi
    rcases Nat.lt_succ_iff_lt_or_eq.mp hi with before | rfl
    · rw [List.getElem_append_left before]
      exact h.kept i before from_
    · simp

/-! ## The reader -/

/-- A full slot after the released ones is the oldest that is published. -/
theorem arrived (ne : free ≠ full) (pos : 0 < size) (isFull : flag (released % size) = full) :
    released < log.length := by
  by_contra none
  have released_le := Nat.le_trans h.released_le h.read_le
  have isFree := h.isFree released (by omega) (by omega)
  exact ne (isFree.symm.trans isFull)

theorem take (more : read < log.length) :
    Handoff free full size flag slot log claimed (read + 1) released where
  released_le := Nat.le_succ_of_le h.released_le
  read_le := more
  published_le := h.published_le
  room := h.room
  isFull := h.isFull
  isFree := h.isFree
  kept i hi from_ := h.kept i hi (by omega)

/-- The reader may overwrite a slot that it has read and not yet released. -/
theorem scrub (more : released < read) (v : V) :
    Handoff free full size flag (Function.update slot (released % size) v) log claimed read
      released where
  released_le := h.released_le
  read_le := h.read_le
  published_le := h.published_le
  room := h.room
  isFull := h.isFull
  isFree := h.isFree
  kept := by
    intro j hj from_
    have room := h.room
    have published_le := h.published_le
    have ne := place_ne size (show released < j by omega) (by omega)
    rw [Function.update_of_ne ne]
    exact h.kept j hj from_

theorem release (more : released < read) :
    Handoff free full size (Function.update flag (released % size) free) slot log claimed read
      (released + 1) where
  released_le := more
  read_le := h.read_le
  published_le := h.published_le
  room := Nat.le_trans h.room (by omega)
  isFull := by
    intro i from_ hi
    have room := h.room
    have published_le := h.published_le
    have ne := place_ne size (show released < i by omega) (by omega)
    rw [Function.update_of_ne ne]
    exact h.isFull i (by omega) hi
  isFree := by
    intro i from_ hi
    have read_le := h.read_le
    by_cases lap : i = released + size
    · rw [lap, Nat.add_mod_right]
      exact Function.update_self ..
    · have ne := place_ne size (show released < i by omega) (by omega)
      rw [Function.update_of_ne ne]
      exact h.isFree i from_ (by omega)
  kept := h.kept

end

end Handoff
