import Mathlib.Tactic.Ring
import S6Reobs.Databuf

/-! Facts about the layout of s6_input_databuf_t that hold in every build. -/

namespace S6Reobs

namespace Macros

theorem slots_fit_block (m : Macros) : m.slotBytes * m.nm ≤ m.nDataBytesPerBlock := by
  obtain ⟨source, nTimeSamples, nInputBlocks⟩ := m
  cases source <;>
    simp only [slotBytes, nm, nDataBytesPerBlock, nSamplesPerBlock, nCoarseChan, nBytesPerChan,
      nSpectraPerPacket, nBytesPerSample, nFineChan, nPolsPerBeam, nBeamSlots] <;>
    omega

theorem dataAddr_succ (m : Macros) (b : Nat) :
    (b + 1) * m.blockWords = m.dataAddr b + m.dataWords := by
  rw [Nat.add_mul, dataAddr, blockWords]
  omega

end Macros

/-- A word of block `b`'s data area belongs to no other location. -/
theorem Loc.eq_data_of_addr {m : Macros} {b : Nat} (hb : b < m.nInputBlocks) {l : Loc}
    (valid : l.Valid m) (lo : m.dataAddr b ≤ l.addr m)
    (hi : l.addr m < m.dataAddr b + m.dataWords) : l = .data b (l.addr m - m.dataAddr b) := by
  rw [← m.dataAddr_succ] at hi
  have dataLo : b * m.blockWords + (m.headerWords + m.paddingWords) ≤ l.addr m := lo
  -- an address with block number `c` and an offset below the block size fixes the block
  have same {c k : Nat} (ha : l.addr m = c * m.blockWords + k) (hk : k < m.blockWords) : c = b := by
    rcases Nat.lt_trichotomy c b with h | h | h
    · have : (c + 1) * m.blockWords ≤ b * m.blockWords := Nat.mul_le_mul_right _ h
      rw [Nat.add_mul] at this
      omega
    · exact h
    · have : (b + 1) * m.blockWords ≤ c * m.blockWords := Nat.mul_le_mul_right _ h
      omega
  have size : m.blockWords = m.headerWords + m.paddingWords + m.dataWords := rfl
  cases l with
  | header c f =>
    have hk := valid.2
    have hc := same (c := c) (k := f.word) rfl (by omega)
    subst hc
    simp only [Loc.addr] at dataLo
    omega
  | padding c k =>
    have hk := valid.2
    have ha : (Loc.padding c k).addr m = c * m.blockWords + (m.headerWords + k) := by
      simp only [Loc.addr]; omega
    have hc := same ha (by omega)
    subst hc
    simp only [Loc.addr] at dataLo
    omega
  | data c k =>
    have hk := valid.2
    have ha : (Loc.data c k).addr m = c * m.blockWords + (m.headerWords + m.paddingWords + k) := by
      simp only [Loc.addr, Macros.dataAddr]; omega
    have hc := same ha (by omega)
    subst hc
    simp [Loc.addr]
  | past k =>
    have : (b + 1) * m.blockWords ≤ m.nInputBlocks * m.blockWords := Nat.mul_le_mul_right _ hb
    simp only [Loc.addr] at hi
    omega

theorem blockForMcnt_mul (g : Geometry) (k : Nat) :
    blockForMcnt g.toMacros (g.nm * k) = k % g.nInputBlocks := by
  have pos : 0 < g.nm := by have := g.two_le_nm; omega
  rw [blockForMcnt, Nat.mul_div_cancel_left k pos]

namespace Geometry

variable (g : Geometry)

theorem nm_pos : 0 < g.nm := by have := g.two_le_nm; omega

theorem nInputBlocks_pos : 0 < g.nInputBlocks := by have := g.two_le_blocks; omega

/-- The ring's mcnts are far fewer than an int64_t can hold. -/
theorem ring_lt : g.nm * g.nInputBlocks < 2 ^ 53 := by
  have fit := g.ring_fits
  have slots := Nat.mul_le_mul_left g.nInputBlocks g.slots_fit_block
  have big : 1024 ≤ g.slotBytes := by
    unfold Macros.slotBytes Macros.nCoarseChan Macros.nBytesPerChan Macros.nSpectraPerPacket
    cases g.source <;> decide
  have scaled : 1024 * (g.nm * g.nInputBlocks) ≤ g.nInputBlocks * (g.slotBytes * g.nm) := by
    calc 1024 * (g.nm * g.nInputBlocks) ≤ g.slotBytes * (g.nm * g.nInputBlocks) :=
          Nat.mul_le_mul_right _ big
      _ = g.nInputBlocks * (g.slotBytes * g.nm) := by ring
  omega

theorem nm_lt : g.nm < 2 ^ 53 := by
  have one : g.nm * 1 ≤ g.nm * g.nInputBlocks := Nat.mul_le_mul_left _ g.nInputBlocks_pos
  have := g.ring_lt
  omega

theorem half_nm : 2 * (g.nm / 2) = g.nm := Nat.mul_div_cancel' g.even

theorem latePktMcntThreshold_eq :
    g.latePktMcntThreshold = 2 * g.nm * g.nInputBlocks := by
  have small := g.ring_lt
  have lt : 2 * g.nm * g.nInputBlocks < 2 ^ 64 := by rw [Nat.mul_assoc]; omega
  simpa [Macros.latePktMcntThreshold] using Word.u64_of_lt lt

end Geometry

end S6Reobs
