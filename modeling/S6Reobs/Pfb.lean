import Mathlib.Algebra.Ring.Int.Defs
import Mathlib.Data.List.Nodup
import Mathlib.Logic.Function.Basic
import S6Reobs.Lib.Circular

/-! pfb_fir.cu: the polyphase FIR kernel, one work-item at a time and launched over its
grid. Sums are exact and indices do not overflow; a sample is what get_sample_10bit returns for
its index. -/

namespace S6Reobs.Pfb

def wgs : Nat := 128
def taps : Nat := 4

/-- The arguments of pfb_fir; `sample i` is `get_sample_10bit(in, i)`. -/
structure Args (R : Type) where
  sample : Nat → R
  weights : Nat → R
  n : Nat
  step : Nat
  stepy : Nat
  inOffset : Nat
  outOffset : Nat

variable {R : Type} [Semiring R] (k : Args R)

/-- `samples[]` and `in_offset` after `i` iterations of the priming loop; `samples` is what the
array held before. -/
def prime (samples : Nat → R) (inOffset : Nat) : Nat → (Nat → R) × Nat
  | 0 => (samples, inOffset)
  | i + 1 =>
    let (samples, inOffset) := prime samples inOffset i
    (Function.update samples i (k.sample inOffset), inOffset + k.step)

/-- `sum` for row `i`: the taps from the oldest on, each with its weight. -/
def tapSum (pos i : Nat) (samples : Nat → R) : R :=
  (List.range taps).foldl
    (fun sum j => sum + k.weights (j * k.step + pos) * samples ((i + j) % taps)) 0

/-- The main loop from row `i` on, with `rows` rows to go: the words of `out` that it assigns,
in order. `offset` has been added to `out` and `in_offset` and taken off `n`. -/
def mainLoop (pos offset inOffset : Nat) : (rows i : Nat) → (samples : Nat → R) → List (Nat × R)
  | 0, _, _ => []
  | rows + 1, i, samples =>
    let idx := i * k.step
    if (k.n : Int) - offset ≤ idx then []
    else
      let samples := Function.update samples ((i + taps - 1) % taps) (k.sample (inOffset + idx))
      (k.outOffset + offset + idx, tapSum k pos i samples) ::
        mainLoop pos offset inOffset rows (i + 1) samples

/-- What a work-item assigns, for any position and offset that it could be given. -/
def itemWrites (samples : Nat → R) (pos offset : Nat) : List (Nat × R) :=
  let primed := prime k samples (k.inOffset + offset) (taps - 1)
  mainLoop k pos offset primed.2 (k.stepy / k.step) 0 primed.1

/-- The work-item that has been given `pos` in the row block of `group_y`. -/
def workItem (samples : Nat → R) (groupY pos : Nat) : List (Nat × R) :=
  itemWrites k samples pos (groupY * k.stepy + pos)

/-- `int pos = group_x *   + lid;`: the sign belongs to `lid`. -/
def itemPos (groupX lid : Nat) : Nat := groupX * lid

/-- Every assignment to `out` of a launch with `step / WGS` by `ceil(n / stepy)` groups; `junk`
is what the work-items' arrays held. -/
def launch (junk : Nat → Nat → Nat → Nat → R) : List (Nat × R) :=
  (List.range (k.step / wgs)).flatMap fun groupX =>
    (List.range ((k.n + k.stepy - 1) / k.stepy)).flatMap fun groupY =>
      (List.range wgs).flatMap fun lid =>
        workItem k (junk groupX groupY lid) groupY (itemPos groupX lid)

/-- Output `m` of the filter. -/
def output (m : Nat) : R :=
  ((List.range taps).map fun j =>
    k.weights (j * k.step + m % k.step) * k.sample (k.inOffset + m + j * k.step)).sum

/-- Every output is assigned exactly once, with its value, and nothing else is. -/
def Computes (writes : List (Nat × R)) : Prop :=
  writes.Perm ((List.range k.n).map fun m => (k.outOffset + m, output k m))

/-! ## One work-item -/

/-- `samples[]` after the main loop has read the new sample of row `i - 1`. -/
def loopSamples (inOffset : Nat) (samples : Nat → R) : Nat → Nat → R
  | 0 => samples
  | i + 1 =>
    Function.update (loopSamples inOffset samples i) ((i + taps - 1) % taps)
      (k.sample (inOffset + i * k.step))

/-- `samples[]` of a work-item when it sums row `i`. -/
def rowSamples (samples : Nat → R) (offset i : Nat) : Nat → R :=
  let primed := prime k samples (k.inOffset + offset) (taps - 1)
  loopSamples k primed.2 primed.1 (i + 1)

/-- The rows of a work-item that lie inside the output. -/
def rowsInside (offset : Nat) : List Nat :=
  (List.range (k.stepy / k.step)).filter fun i => ((i * k.step : Nat) : Int) < k.n - offset

/-- Row `r` of the input as the work-item sees it. -/
def inputRow (offset r : Nat) : R := k.sample (k.inOffset + offset + r * k.step)

/-- The sliding-window sum of row `i`. -/
def windowSum (pos offset i : Nat) : R :=
  ((List.range taps).map fun j => k.weights (j * k.step + pos) * inputRow k offset (i + j)).sum

section
omit [Semiring R]

theorem prime_offset (samples : Nat → R) (inOffset i : Nat) :
    (prime k samples inOffset i).2 = inOffset + i * k.step := by
  induction i with
  | zero => simp [prime]
  | succ i ih => simp only [prime, ih, Nat.succ_mul, Nat.add_assoc]

/-- Priming reads the first rows into the cells of their numbers. -/
theorem prime_holds (samples : Nat → R) (offset i : Nat) (room : i ≤ taps) :
    Circular.Holds taps (inputRow k offset)
      (prime k samples (k.inOffset + offset) i).1 0 i := by
  induction i with
  | zero =>
    intro j hj
    omega
  | succ i ih =>
    have push := (ih (by omega)).push (show i < taps by omega)
    rw [Nat.zero_add, Nat.mod_eq_of_lt (show i < taps by omega)] at push
    simpa only [prime, prime_offset, inputRow] using push

/-- The read of row `i` completes the window of row `i`. -/
theorem loopSamples_push (samples : Nat → R) (offset i : Nat) :
    let primed := prime k samples (k.inOffset + offset) (taps - 1)
    Circular.Holds taps (inputRow k offset) (loopSamples k primed.2 primed.1 i) i (taps - 1) →
    Circular.Holds taps (inputRow k offset) (loopSamples k primed.2 primed.1 (i + 1)) i taps := by
  intro primed holds
  have read : k.sample (primed.2 + i * k.step) = inputRow k offset (i + (taps - 1)) := by
    simp only [inputRow, primed, prime_offset, Nat.add_mul]
    congr 1
    omega
  rw [loopSamples, read]
  exact holds.push (by decide)

/-- Between rows the array holds what the next sum needs of the rows already read. -/
theorem loopSamples_holds (samples : Nat → R) (offset i : Nat) :
    let primed := prime k samples (k.inOffset + offset) (taps - 1)
    Circular.Holds taps (inputRow k offset) (loopSamples k primed.2 primed.1 i) i (taps - 1) := by
  intro primed
  induction i with
  | zero => exact prime_holds k samples offset (taps - 1) (by decide)
  | succ i ih => exact (loopSamples_push k samples offset i ih).drop

theorem rowSamples_window (samples : Nat → R) (offset i : Nat) :
    Circular.Holds taps (inputRow k offset) (rowSamples k samples offset i) i taps :=
  loopSamples_push k samples offset i (loopSamples_holds k samples offset i)

/-- Past the break no row is inside: the rows only get further from the start. -/
theorem rows_end (offset i rows : Nat) (stop : (k.n : Int) - offset ≤ (i * k.step : Nat)) :
    (List.range' i rows).filter (fun r => ((r * k.step : Nat) : Int) < k.n - offset) = [] := by
  rw [List.filter_eq_nil_iff]
  intro r mem
  have after : i * k.step ≤ r * k.step :=
    Nat.mul_le_mul_right _ (List.mem_range'_1.mp mem).1
  simp only [decide_eq_true_eq]
  omega

end

/-- The main loop from row `i` on, with the array that the rows before it left. -/
theorem mainLoop_rows (pos offset inOffset : Nat) (samples : Nat → R) (rows i : Nat) :
    mainLoop k pos offset inOffset rows i (loopSamples k inOffset samples i) =
      ((List.range' i rows).filter fun r => ((r * k.step : Nat) : Int) < k.n - offset).map fun r =>
        (k.outOffset + offset + r * k.step,
          tapSum k pos r (loopSamples k inOffset samples (r + 1))) := by
  induction rows generalizing i with
  | zero => rfl
  | succ rows ih =>
    by_cases stop : (k.n : Int) - offset ≤ (i * k.step : Nat)
    · rw [rows_end k offset i (rows + 1) stop, mainLoop, if_pos stop, List.map_nil]
    · have inside : ((i * k.step : Nat) : Int) < k.n - offset := by omega
      rw [List.range'_succ, List.filter_cons_of_pos (by simpa), List.map_cons, ← ih (i + 1)]
      simp only [mainLoop, if_neg stop, loopSamples]

/-- With the window in the array the sum is the sliding one. -/
theorem tapSum_window (pos offset i : Nat) (samples : Nat → R)
    (window : Circular.Holds taps (inputRow k offset) samples i taps) :
    tapSum k pos i samples = windowSum k pos offset i := by
  simp only [tapSum, windowSum, List.sum_eq_foldl, List.foldl_map]
  apply List.foldl_ext
  intro sum j mem
  rw [window j (List.mem_range.mp mem)]

/-- Each row inside the output is assigned once, with the sum over the array as it stands then. -/
theorem itemWrites_rows (junk : Nat → R) (pos offset : Nat) :
    itemWrites k junk pos offset = (rowsInside k offset).map (fun i =>
      (k.outOffset + offset + i * k.step, tapSum k pos i (rowSamples k junk offset i))) := by
  rw [rowsInside, List.range_eq_range']
  exact mainLoop_rows k pos offset _ _ (k.stepy / k.step) 0

theorem itemWrites_sums (junk : Nat → R) (pos offset : Nat) :
    itemWrites k junk pos offset = (rowsInside k offset).map (fun i =>
      (k.outOffset + offset + i * k.step, windowSum k pos offset i)) := by
  have sums (i : Nat) := tapSum_window k pos offset i (rowSamples k junk offset i)
    (rowSamples_window k junk offset i)
  rw [itemWrites_rows]
  simp only [sums]

/-- What a work-item assigns does not depend on what its array held. -/
theorem workItem_sums (junk : Nat → R) (groupY pos : Nat) :
    workItem k junk groupY pos = (rowsInside k (groupY * k.stepy + pos)).map (fun i =>
      (k.outOffset + (groupY * k.stepy + pos) + i * k.step,
        windowSum k pos (groupY * k.stepy + pos) i)) :=
  itemWrites_sums k junk pos (groupY * k.stepy + pos)

/-- The main loop assigns the rows inside the output, each once, with the sliding-window sum: the
array that it sums holds the window. -/
theorem pfb_fir_rows (pos offset : Nat) (junk : Nat → R) :
    itemWrites k junk pos offset = (rowsInside k offset).map (fun i =>
      (k.outOffset + offset + i * k.step, windowSum k pos offset i)) ∧
    itemWrites k junk pos offset = (rowsInside k offset).map (fun i =>
      (k.outOffset + offset + i * k.step, tapSum k pos i (rowSamples k junk offset i))) ∧
    ∀ i, ∀ j < taps, rowSamples k junk offset i ((i + j) % taps) = inputRow k offset (i + j) := by
  have sums := itemWrites_sums k junk pos offset
  have rows := itemWrites_rows k junk pos offset
  have window (i : Nat) := rowSamples_window k junk offset i
  exact ⟨sums, rows, window⟩

/-- Two rows, the second past the end of the output. -/
example : workItem (R := Int) ⟨fun i => i, fun j => 10 ^ j, 3, 2, 4, 0, 0⟩ (fun _ => 7) 0 1 =
    [(1, 70503010)] := by decide

/-! ## Group 0 -/

/-- A work-item whose first row is inside the output assigns it. -/
theorem workItem_first (samples : Nat → R) (groupY pos : Nat) (rows : 0 < k.stepy / k.step)
    (inside : groupY * k.stepy + pos < k.n) : k.outOffset + (groupY * k.stepy + pos) ∈
      (workItem k samples groupY pos).map Prod.fst := by
  obtain ⟨more, eq⟩ := Nat.exists_eq_succ_of_ne_zero (Nat.ne_of_gt rows)
  have goes : ¬ (k.n : Int) - (groupY * k.stepy + pos : Nat) ≤ (0 * k.step : Nat) := by omega
  simp only [workItem, itemWrites, eq, Nat.succ_eq_add_one, mainLoop, if_neg goes, List.map_cons]
  rw [Nat.zero_mul]
  exact List.mem_cons_self

/-- All work-items of the first group assign the first output. -/
theorem launch_repeats (junk : Nat → Nat → Nat → Nat → R) (groups : 0 < k.step / wgs)
    (rows : 0 < k.stepy / k.step) (some : 0 < k.n) :
    ¬ ((launch k junk).map Prod.fst).Nodup := by
  intro nodup
  have stepy : 0 < k.stepy :=
    Nat.pos_of_ne_zero fun zero => by simp [zero] at rows
  have blocks : 0 < (k.n + k.stepy - 1) / k.stepy := Nat.div_pos (by omega) stepy
  simp only [launch, List.map_flatMap] at nodup
  have group := (List.nodup_flatMap.mp nodup).1 0 (List.mem_range.mpr groups)
  have block := (List.nodup_flatMap.mp group).1 0 (List.mem_range.mpr blocks)
  have apart := (List.nodup_flatMap.mp block).2
  have lanes := List.pairwise_iff_getElem.mp apart 0 1 (by simp [wgs]) (by simp [wgs]) (by decide)
  have first (lid : Nat) := workItem_first k (junk 0 0 lid) 0 (itemPos 0 lid)
    rows (by simpa [itemPos] using some)
  have same (lid : Nat) : itemPos 0 lid = 0 := Nat.zero_mul lid
  simp only [same] at first
  exact lanes (by simpa [same] using first 0) (by simpa [same] using first 1)

theorem Computes.nodup {writes : List (Nat × R)} (computes : Computes k writes) :
    (writes.map Prod.fst).Nodup := by
  rw [(computes.map Prod.fst).nodup_iff, List.map_map]
  exact List.Nodup.map (fun _ _ => Nat.add_left_cancel) List.nodup_range

/-- Whatever the arguments, the launch does not compute its output. -/
theorem pfb_fir_never (junk : Nat → Nat → Nat → Nat → R) (step : wgs ∣ k.step) (pos : 0 < k.step)
    (stepy : k.step ∣ k.stepy) (pos' : 0 < k.stepy) (some : 1 ≤ k.n) :
    ¬ Computes k (launch k junk) := by
  intro computes
  have groups := Nat.div_pos (Nat.le_of_dvd pos step) (show 0 < wgs by decide)
  have rows := Nat.div_pos (Nat.le_of_dvd pos' stepy) pos
  exact launch_repeats k junk groups rows some computes.nodup

/-- One group, one row, one output. -/
def oneOutput : Args Int where
  sample := fun _ => 0
  weights := fun _ => 0
  n := 1
  step := wgs
  stepy := wgs
  inOffset := 0
  outOffset := 0

theorem pfb_fir_never_one : ¬ Computes oneOutput (launch oneOutput fun _ _ _ _ => 0) :=
  pfb_fir_never oneOutput _ (by decide) (by decide) (by decide) (by decide) (by decide)

/-- The one output is assigned by every work-item of the group. -/
theorem pfb_fir_one_output :
    ((launch oneOutput fun _ _ _ _ => 0).map Prod.fst).count 0 = wgs ∧
    ¬ Computes oneOutput (launch oneOutput fun _ _ _ _ => 0) := by
  refine ⟨by decide +kernel, ?_⟩
  intro computes
  exact launch_repeats oneOutput _ (by decide) (by decide) (by decide) computes.nodup

end S6Reobs.Pfb
