import S6Reobs.Pfb

/-! What a launch of pfb_fir does compute. -/

namespace S6Reobs.Pfb

variable {R : Type} [Semiring R] (k : Args R)

omit [Semiring R] in
/-- A work-item stays at its position in the spectrum. -/
theorem place_mod {groupY pos i : Nat} (stepy : k.step ∣ k.stepy) (inside : pos < k.step) :
    (groupY * k.stepy + pos + i * k.step) % k.step = pos := by
  obtain ⟨rows, eq⟩ := stepy
  have whole : groupY * k.stepy + pos + i * k.step = pos + k.step * (groupY * rows + i) := by
    rw [eq]
    ring
  rw [whole, Nat.add_mul_mod_self_left, Nat.mod_eq_of_lt inside]

/-- Inside its row block a work-item's sums are outputs of the filter. -/
theorem windowSum_output {groupY pos i : Nat} (stepy : k.step ∣ k.stepy) (inside : pos < k.step) :
    windowSum k pos (groupY * k.stepy + pos) i =
      output k (groupY * k.stepy + pos + i * k.step) := by
  simp only [windowSum, output, inputRow, place_mod k stepy inside]
  congr 1
  apply List.map_congr_left
  intro j _
  congr 2
  ring

theorem mem_workItem (junk : Nat → R) {groupY pos : Nat} (stepy : k.step ∣ k.stepy)
    (inside : pos < k.step) (w : Nat × R) :
    w ∈ workItem k junk groupY pos ↔ ∃ i < k.stepy / k.step,
      groupY * k.stepy + pos + i * k.step < k.n ∧
        w = (k.outOffset + (groupY * k.stepy + pos + i * k.step),
          output k (groupY * k.stepy + pos + i * k.step)) := by
  simp only [workItem_sums, rowsInside, List.mem_map, List.mem_filter, List.mem_range,
    decide_eq_true_eq, windowSum_output k stepy inside, ← Nat.add_assoc]
  constructor
  · rintro ⟨i, ⟨row, before⟩, rfl⟩
    exact ⟨i, row, by omega, rfl⟩
  · rintro ⟨i, row, before, rfl⟩
    exact ⟨i, ⟨row, by omega⟩, rfl⟩

omit [Semiring R] in
/-- No lane is given a position past the step. -/
theorem itemPos_lt {groupX lid : Nat} (group : groupX < k.step / wgs) (lane : lid < wgs) :
    itemPos groupX lid < k.step := by
  have some : groupX * lid ≤ groupX * wgs := Nat.mul_le_mul_left _ (Nat.le_of_lt lane)
  have next : (groupX + 1) * wgs ≤ k.step / wgs * wgs := Nat.mul_le_mul_right _ group
  have whole : k.step / wgs * wgs ≤ k.step := Nat.div_mul_le_self ..
  have lanes : 0 < wgs := by decide
  rw [Nat.succ_mul] at next
  rw [itemPos]
  omega

omit [Semiring R] in
/-- Output `m` lies in the row block and the row that its number says. -/
theorem output_place {m : Nat} (stepy : k.step ∣ k.stepy) (pos : 0 < k.stepy) (inside : m < k.n) :
    m / k.stepy < (k.n + k.stepy - 1) / k.stepy ∧ m % k.stepy / k.step < k.stepy / k.step ∧
      m / k.stepy * k.stepy + m % k.step + m % k.stepy / k.step * k.step = m := by
  refine ⟨?_, ?_, ?_⟩
  · rw [Nat.lt_div_iff_mul_lt pos]
    have block := Nat.div_mul_le_self m k.stepy
    omega
  · exact Nat.div_lt_div_of_lt_of_dvd stepy (Nat.mod_lt m pos)
  · have row := Nat.div_add_mod (m % k.stepy) k.step
    rw [Nat.mod_mod_of_dvd m stepy, Nat.mul_comm] at row
    have block := Nat.div_add_mod m k.stepy
    rw [Nat.mul_comm] at block
    omega

/-- Whatever a launch assigns is the right value of an output, however often; assigned are just
the outputs at a position in their spectrum that is a group's number times a lane's. -/
theorem launch_right (junk : Nat → Nat → Nat → Nat → R) (stepy : k.step ∣ k.stepy)
    (pos : 0 < k.stepy) :
    (∀ w ∈ launch k junk, ∃ m < k.n, w = (k.outOffset + m, output k m)) ∧
    ∀ m < k.n, k.outOffset + m ∈ (launch k junk).map Prod.fst ↔
      ∃ groupX < k.step / wgs, ∃ lid < wgs, m % k.step = groupX * lid := by
  have all (w : Nat × R) : w ∈ launch k junk ↔ ∃ groupX < k.step / wgs,
      ∃ groupY < (k.n + k.stepy - 1) / k.stepy, ∃ lid < wgs,
        w ∈ workItem k (junk groupX groupY lid) groupY (itemPos groupX lid) := by
    simp only [launch, List.mem_flatMap, List.mem_range]
  constructor
  · intro w hw
    obtain ⟨groupX, group, groupY, _, lid, lane, item⟩ := (all w).mp hw
    obtain ⟨i, _, before, rfl⟩ := (mem_workItem k _ stepy (itemPos_lt k group lane) w).mp item
    exact ⟨_, before, rfl⟩
  · intro m inside
    constructor
    · intro assigned
      obtain ⟨w, hw, address⟩ := List.mem_map.mp assigned
      obtain ⟨groupX, group, groupY, _, lid, lane, item⟩ := (all w).mp hw
      have small := itemPos_lt k group lane
      obtain ⟨i, _, _, rfl⟩ := (mem_workItem k _ stepy small w).mp item
      refine ⟨groupX, group, lid, lane, ?_⟩
      have here : groupY * k.stepy + itemPos groupX lid + i * k.step = m :=
        Nat.add_left_cancel address
      rw [← here, place_mod k stepy small, itemPos]
    · rintro ⟨groupX, group, lid, lane, place⟩
      have small := itemPos_lt k group lane
      obtain ⟨block, row, whole⟩ := output_place k stepy pos inside
      rw [place] at whole
      have item := (mem_workItem k (junk groupX (m / k.stepy) lid) stepy small
        (k.outOffset + m, output k m)).mpr
          ⟨m % k.stepy / k.step, row, by rwa [itemPos, whole], by rw [itemPos, whole]⟩
      exact List.mem_map.mpr ⟨_, (all _).mpr ⟨groupX, group, _, block, lid, lane, item⟩, rfl⟩

/-- With two groups the first assigns output 0 from every lane, the second 0 to 127. -/
theorem launch_right_two : (∀ m < 256, 0 + m ∈ (launch (R := Int)
    ⟨fun i => i, fun _ => 1, 256, 256, 256, 0, 0⟩ fun _ _ _ _ => 7).map Prod.fst ↔
      ∃ groupX < 256 / wgs, ∃ lid < wgs, m % 256 = groupX * lid) ∧
    ∃ groupX < 256 / wgs, ∃ lid < wgs, 127 % 256 = groupX * lid := by
  refine ⟨(launch_right (R := Int) ⟨fun i => i, fun _ => 1, 256, 256, 256, 0, 0⟩ _
    (Nat.dvd_refl _) (by decide)).2, 1, by decide, 127, by decide, by decide⟩

end S6Reobs.Pfb
