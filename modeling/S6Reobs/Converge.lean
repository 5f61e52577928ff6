import S6Reobs.Window

/-! A window in any state meets a stream of consecutive mcnts. It takes the stream in
after few packets and at most one resync, and keeps step with it from then on. -/

namespace S6Reobs.Window

open Word

variable (per ring limit : Nat)

/-- The window after `n` packets with mcnts `y`, `y + 1` and so on. -/
def follow : State → Nat → Nat → State
  | w, _, 0 => w
  | w, y, n + 1 => follow (step per ring limit w y) (y + 1) n

def State.Resyncs (w : State) (mcnt : Nat) : Prop :=
  verdict per ring w.block mcnt = .stray ∧ limit < inc w.strays

instance (w : State) (mcnt : Nat) : Decidable (w.Resyncs per ring limit mcnt) :=
  inferInstanceAs (Decidable (_ ∧ _))

/-- The counter has room for the packet, should it be a stray. -/
def State.Counts (w : State) (mcnt : Nat) : Prop :=
  verdict per ring w.block mcnt = .stray → w.strays ≠ 2 ^ 31 - 1

/-- The number of resyncs while `n` packets are followed. -/
def resyncs : State → Nat → Nat → Nat
  | _, _, 0 => 0
  | w, y, n + 1 =>
    (if w.Resyncs per ring limit y then 1 else 0) + resyncs (step per ring limit w y) (y + 1) n

/-- The packet is for one of the two held blocks. -/
def State.Takes (w : State) (mcnt : Nat) : Prop :=
  per * w.block ≤ mcnt ∧ mcnt < per * w.block + 2 * per

/-- All packets from some point before `bound` on are taken, none before it, with at
most `resets` resyncs. -/
def Converges (w : State) (y bound resets : Nat) : Prop :=
  ∃ first < bound,
    (∀ i < first, ¬ (follow per ring limit w y i).Takes per (y + i)) ∧
    (∀ i, first ≤ i → (follow per ring limit w y i).Takes per (y + i)) ∧
    resyncs per ring limit w y first ≤ resets

/-- The next mcnt is inside the window or ends its third half block. -/
def State.Settled (w : State) (y : Nat) : Prop :=
  per * w.block ≤ y ∧ y ≤ per * w.block + 3 * (per / 2)

variable {per ring limit}

theorem follow_succ (w : State) (y n : Nat) : follow per ring limit w y (n + 1) =
    step per ring limit (follow per ring limit w y n) (y + n) := by
  induction n generalizing w y with
  | zero => rfl
  | succ n ih =>
    have shift := ih (step per ring limit w y) (y + 1)
    rw [show y + 1 + n = y + (n + 1) by omega] at shift
    exact shift

theorem follow_add (w : State) (y i n : Nat) : follow per ring limit w y (i + n) =
    follow per ring limit (follow per ring limit w y i) (y + i) n := by
  induction n with
  | zero => rfl
  | succ n ih => rw [← Nat.add_assoc, follow_succ, ih, follow_succ, Nat.add_assoc]

theorem resyncs_add (w : State) (y i n : Nat) : resyncs per ring limit w y (i + n) =
    resyncs per ring limit w y i +
      resyncs per ring limit (follow per ring limit w y i) (y + i) n := by
  induction i generalizing w y with
  | zero => simp [resyncs, follow]
  | succ i ih =>
    have rest := ih (step per ring limit w y) (y + 1)
    rw [show y + 1 + i = y + (i + 1) by omega] at rest
    rw [show i + 1 + n = i + n + 1 by omega]
    simp only [resyncs, follow, rest]
    omega

variable (ring) in
theorem takes_iff (even : 2 ∣ per) {w : State} {mcnt : Nat} : w.Takes per mcnt ↔
    verdict per ring w.block mcnt = .current ∨ verdict per ring w.block mcnt = .advance := by
  have half := Nat.mul_div_cancel' even
  rw [State.Takes, verdict_current, verdict_advance]
  omega

section Taken

variable (even : 2 ∣ per) {w : State} {y n : Nat}
  (taken : ∀ i < n, (follow per ring limit w y i).Takes per (y + i))
include even taken

theorem resyncs_taken : resyncs per ring limit w y n = 0 := by
  induction n with
  | zero => rfl
  | succ n ih =>
    have calm : ¬ (follow per ring limit w y n).Resyncs per ring limit (y + n) := by
      rintro ⟨stray, _⟩
      rcases (takes_iff ring even).mp (taken n (Nat.lt_succ_self n)) with v | v <;>
        simp [v] at stray
    rw [resyncs_add, ih (fun i hi => taken i (by omega))]
    simp [resyncs, calm]

theorem block_mono : w.block ≤ (follow per ring limit w y n).block := by
  induction n with
  | zero => exact Nat.le_refl _
  | succ n ih =>
    have before := ih (fun i hi => taken i (by omega))
    rw [follow_succ]
    cases (takes_iff ring even).mp (taken n (Nat.lt_succ_self n)) with
    | inl v => rwa [step_current v]
    | inr v =>
      rw [step_advance v]
      exact Nat.le_succ_of_le before

end Taken

section Settled

variable (ring limit) (pos : 0 < per) (even : 2 ∣ per) {w : State} {y : Nat}
include pos even

theorem State.Settled.takes (h : w.Settled per y) : w.Takes per y := by
  have half := Nat.mul_div_cancel' even
  obtain ⟨lo, hi⟩ := h
  exact ⟨lo, by omega⟩

omit pos in
/-- One step from a window that takes the packet. -/
theorem State.Takes.step_cases (h : w.Takes per y) :
    (step per ring limit w y = ⟨w.block, 0⟩ ∧ y < per * w.block + 3 * (per / 2)) ∨
    (step per ring limit w y = ⟨w.block + 1, 0⟩ ∧ per * w.block + 3 * (per / 2) ≤ y) := by
  cases (takes_iff ring even).mp h with
  | inl v => exact .inl ⟨step_current v, (verdict_current.mp v).2⟩
  | inr v => exact .inr ⟨step_advance v, (verdict_advance.mp v).1⟩

omit pos in
theorem State.Takes.settles (h : w.Takes per y) :
    (step per ring limit w y).Settled per (y + 1) := by
  have half := Nat.mul_div_cancel' even
  have moved := h.step_cases ring limit even
  obtain ⟨lo, hi⟩ := h
  rcases moved with ⟨next, early⟩ | ⟨next, done⟩ <;> rw [next]
  · exact ⟨by dsimp only; omega, by dsimp only; omega⟩
  · refine ⟨?_, ?_⟩ <;> simp only [Nat.mul_add, Nat.mul_one] <;> omega

theorem settled_follow (h : w.Settled per y) (n : Nat) :
    (follow per ring limit w y n).Settled per (y + n) := by
  induction n with
  | zero => exact h
  | succ n ih =>
    rw [follow_succ]
    exact (ih.takes pos even).settles ring limit even

/-- A settled window stays on its block until it has to leave it. -/
theorem block_follow (h : w.Settled per y) (n : Nat) :
    (follow per ring limit w y n).block = w.block ∨
    (w.block < (follow per ring limit w y n).block ∧
      per * (follow per ring limit w y n).block + per / 2 < y + n) := by
  have half := Nat.mul_div_cancel' even
  induction n with
  | zero => exact .inl rfl
  | succ n ih =>
    rw [follow_succ]
    have settled := settled_follow ring limit pos even h n
    rcases (settled.takes pos even).step_cases ring limit even with
      ⟨next, early⟩ | ⟨next, done⟩ <;> rw [next]
    · rcases ih with same | ⟨later, passed⟩
      · exact .inl same
      · exact .inr ⟨later, by dsimp only; omega⟩
    · refine .inr ⟨?_, ?_⟩
      · dsimp only
        omega
      · simp only [Nat.mul_add, Nat.mul_one]
        omega

/-- The packet that ends the third half block after the next block's start finds the
window on that block. -/
theorem reaches_next (h : w.Settled per y) {n : Nat}
    (at_ : y + n = per * (w.block + 1) + 3 * (per / 2)) :
    (follow per ring limit w y n).block = w.block + 1 := by
  have half := Nat.mul_div_cancel' even
  obtain ⟨lo, hi⟩ := settled_follow ring limit pos even h n
  rw [at_] at lo hi
  have least : w.block + 1 ≤ (follow per ring limit w y n).block := by
    by_contra less
    have := Nat.mul_le_mul_left per (show (follow per ring limit w y n).block ≤ w.block by omega)
    rw [Nat.mul_add] at hi
    omega
  rcases block_follow ring limit pos even h n with same | ⟨_, passed⟩
  · omega
  · by_contra ne
    have := Nat.mul_le_mul_left per
      (show w.block + 2 ≤ (follow per ring limit w y n).block by omega)
    rw [at_] at passed
    simp only [Nat.mul_add, Nat.mul_one] at passed this
    omega

/-- A block that is opened is the current one when its third half block ends. -/
theorem opened_reached (v : verdict per ring w.block y = .advance) {n : Nat}
    (at_ : y + (n + 1) = per * (w.block + 2) + 3 * (per / 2)) :
    (follow per ring limit w y (n + 1)).block = w.block + 2 := by
  have taken : w.Takes per y := (takes_iff ring even).mpr (.inr v)
  have settled := taken.settles ring limit even
  have next : step per ring limit w y = ⟨w.block + 1, 0⟩ := step_advance v
  rw [next] at settled
  rw [follow, next]
  refine reaches_next ring limit pos even settled ?_
  rw [Nat.add_assoc, Nat.add_comm 1 n, at_]

end Settled

/-! ## Convergence -/

section Converges

variable {w : State} {y bound resets : Nat}

theorem Converges.mono {bound' resets' : Nat} (h : Converges per ring limit w y bound resets)
    (hb : bound ≤ bound') (hr : resets ≤ resets') :
    Converges per ring limit w y bound' resets' := by
  obtain ⟨first, lt, before, after, few⟩ := h
  exact ⟨first, by omega, before, after, by omega⟩

theorem converges_taken (pos : 0 < per) (even : 2 ∣ per) (h : w.Takes per y) :
    Converges per ring limit w y 1 0 := by
  refine ⟨0, by omega, by omega, ?_, Nat.le_refl _⟩
  intro i _
  cases i with
  | zero => exact h
  | succ n =>
    have next := (settled_follow ring limit pos even
      (h.settles ring limit even) n).takes pos even
    rwa [show y + 1 + n = y + (n + 1) by omega] at next

/-- A packet that is not taken comes before the convergence of the rest. -/
theorem converges_step (h : ¬ w.Takes per y)
    (rest : Converges per ring limit (step per ring limit w y) (y + 1) bound resets) :
    Converges per ring limit w y (bound + 1)
      ((if w.Resyncs per ring limit y then 1 else 0) + resets) := by
  obtain ⟨first, lt, before, after, few⟩ := rest
  refine ⟨first + 1, by omega, ?_, ?_, by simp only [resyncs]; omega⟩
  · intro i hi
    cases i with
    | zero => exact h
    | succ n =>
      have := before n (by omega)
      rwa [show y + 1 + n = y + (n + 1) by omega] at this
  · intro i hi
    cases i with
    | zero => omega
    | succ n =>
      have := after n (by omega)
      rwa [show y + 1 + n = y + (n + 1) by omega] at this

/-- A late stream is ignored until it comes up to the window. -/
theorem converges_late (pos : 0 < per) (even : 2 ∣ per) {gap : Nat}
    (behind : y + gap = per * w.block) (near : gap < 2 * per * ring) :
    Converges per ring limit w y (gap + 1) 0 := by
  induction gap generalizing y with
  | zero => exact converges_taken pos even ⟨by omega, by omega⟩
  | succ gap ih =>
    have late : verdict per ring w.block y = .late := verdict_late.mpr ⟨by omega, by omega⟩
    have calm : ¬ w.Resyncs per ring limit y := by simp [State.Resyncs, late]
    have rest := ih (y := y + 1) (by omega) (by omega)
    have next : step per ring limit w y = w := step_late late
    rw [← next] at rest
    have all := converges_step (by unfold State.Takes; omega) rest
    simpa [calm] using all

/-- A window that was just moved to the stream takes it in within one lap. -/
theorem converges_resynced (pos : 0 < per) (even : 2 ∣ per) (rings : 0 < ring) {mcnt : Nat}
    {strays : Int} (block : Nat) :
    Converges per ring limit ⟨target per ring block mcnt, strays⟩ (mcnt + 1) (per * ring) 0 := by
  have half := Nat.mul_div_cancel' even
  obtain ⟨start, stop⟩ := Period.bounds_of_div pos mcnt
  obtain ⟨lo, hi⟩ := target_bounds per rings block mcnt
  have least := Nat.mul_le_mul_left per lo
  have most := Nat.mul_le_mul_left per (Nat.succ_le_of_lt hi)
  have lap : 1 ≤ per * ring := Nat.mul_pos pos rings
  generalize target per ring block mcnt = t at lo hi least most
  simp only [Nat.succ_eq_add_one, Nat.mul_add, Nat.mul_one] at stop most
  have double : 2 * per * ring = 2 * (per * ring) := Nat.mul_assoc _ _ _
  cases Nat.lt_or_ge mcnt (per * t) with
  | inl ahead =>
    obtain ⟨gap, eq⟩ := Nat.exists_eq_add_of_le (show mcnt + 1 ≤ per * t from ahead)
    exact (converges_late pos even eq.symm (by omega)).mono (by omega) (Nat.le_refl _)
  | inr reached =>
    exact (converges_taken pos even ⟨by dsimp only; omega, by dsimp only; omega⟩).mono lap
      (Nat.le_refl _)

/-- Unless the packet is one of the first strays, the end is near. -/
theorem converges_or_counts (limit : Nat) (pos : 0 < per) (even : 2 ∣ per) (rings : 0 < ring)
    (w : State) (y : Nat) : Converges per ring limit w y (1 + 2 * per * ring) 1 ∨
    (verdict per ring w.block y = .stray ∧ inc w.strays ≤ limit) := by
  have lap : 1 ≤ per * ring := Nat.mul_pos pos rings
  have double : 2 * per * ring = 2 * (per * ring) := Nat.mul_assoc _ _ _
  by_cases taken : w.Takes per y
  · exact .inl ((converges_taken pos even taken).mono (by omega) (by omega))
  · cases v : verdict per ring w.block y with
    | current => exact absurd ((takes_iff ring even).mpr (.inl v)) taken
    | advance => exact absurd ((takes_iff ring even).mpr (.inr v)) taken
    | late =>
      obtain ⟨behind, near⟩ := verdict_late.mp v
      obtain ⟨gap, eq⟩ := Nat.exists_eq_add_of_le (Nat.le_of_lt behind)
      exact .inl ((converges_late pos even eq.symm (by omega)).mono (by omega) (by omega))
    | stray =>
      cases lt_or_ge (limit : Int) (inc w.strays) with
      | inl many =>
        have rest : Converges per ring limit ⟨target per ring w.block y, inc w.strays⟩ (y + 1)
            (per * ring) 0 := converges_resynced pos even rings w.block
        rw [← step_resync v many] at rest
        exact .inl ((converges_step taken rest).mono (by omega) (by split <;> omega))
      | inr few => exact .inr ⟨rfl, few⟩

theorem State.Counts.inc (room : w.Counts per ring y) (least : 0 ≤ w.strays)
    (most : w.strays < 2 ^ 31) (v : verdict per ring w.block y = .stray) :
    inc w.strays = w.strays + 1 :=
  inc_of_range (by omega) (by have := room v; omega)

/-- From any window whose count of strays is not negative, any stream whose first packet
can be counted. -/
theorem converges (pos : 0 < per) (even : 2 ∣ per) (rings : 0 < ring) (small : limit < 2 ^ 31 - 1)
    {left : Nat} (w : State) (y : Nat) (least : 0 ≤ w.strays) (most : w.strays < 2 ^ 31)
    (room : w.Counts per ring y) (h : limit ≤ w.strays + left) :
    Converges per ring limit w y (left + 1 + 2 * per * ring) 1 := by
  induction left generalizing w y with
  | zero =>
    rcases converges_or_counts limit pos even rings w y with done | ⟨v, few⟩
    · exact done.mono (by omega) (by omega)
    · rw [room.inc least most v] at few
      omega
  | succ left ih =>
    rcases converges_or_counts limit pos even rings w y with done | ⟨v, few⟩
    · exact done.mono (by omega) (by omega)
    · have next := step_stray v few
      rw [room.inc least most v] at few next
      have rest := ih (step per ring limit w y) (y + 1) (by rw [next]; dsimp only; omega)
        (by rw [next]; dsimp only; omega) (by intro _; rw [next]; dsimp only; omega)
        (by rw [next]; dsimp only; omega)
      have taken : ¬ w.Takes per y := by rw [takes_iff ring even]; simp [v]
      have calm : ¬ w.Resyncs per ring limit y := by
        rintro ⟨_, many⟩
        rw [room.inc least most v] at many
        omega
      have all := converges_step taken rest
      rw [if_neg calm] at all
      exact all.mono (by omega) (by omega)

end Converges

end S6Reobs.Window
