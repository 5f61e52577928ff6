import S6Reobs.Assembler

/-! Where a packet's payload words land in its block. Packets of one block that
differ in mcnt, or in the S6 build in source, land on disjoint words. -/

namespace S6Reobs

open Word

/-- Index in the block's data of payload word `w`, for `w` below the slot size. -/
def place (m : Macros) (hdr : PacketHeader) (w : Nat) : Nat :=
  match m.source with
  | .s6 => (hdr.sid * m.nm + hdr.mcnt % m.nm) * m.slotWords + w
  | .dibas =>
    let subWords := m.nBytesPerSubspectrum / 8
    let sub := w / subWords % m.nSubspectraPerSpectrum
    let spectrum := w / subWords / m.nSubspectraPerSpectrum
    (sub * m.nFineChan + (hdr.mcnt * m.nSpectraPerPacket + spectrum) % m.nFineChan) * subWords +
      w % subWords
  | .fast => hdr.mcnt % m.nm * m.slotWords + w

/-- The payload is no longer than one slot. -/
def Fits (m : Macros) (f : Frame) : Prop := copyBytes m f ≤ m.slotBytes

instance (m : Macros) (f : Frame) : Decidable (Fits m f) := inferInstanceAs (Decidable (_ ≤ _))

/-- Payload words that are copied. -/
def copyWords (m : Macros) (f : Frame) : Nat := copyBytes m f / 8

theorem pair_inj {n a b x y : Nat} (hx : x < n) (hy : y < n) (h : a * n + x = b * n + y) :
    a = b ∧ x = y := by
  have pos : 0 < n := by omega
  have ha : (a * n + x) / n = a := by
    rw [Nat.mul_comm, Nat.mul_add_div pos, Nat.div_eq_of_lt hx, Nat.add_zero]
  have hb : (b * n + y) / n = b := by
    rw [Nat.mul_comm, Nat.mul_add_div pos, Nat.div_eq_of_lt hy, Nat.add_zero]
  have same : a = b := by rw [← ha, ← hb, h]
  subst same
  omega

/-- Block `b`'s words from `dest` on, in one piece. -/
theorem single_copied (m : Macros) (mem : Mem) (b dest len : Nat) (src : Nat → Nat) {w : Nat}
    (hw : w < len) :
    Copy.copyAll (Loc.addr m) [⟨m.dataAddr b + dest, len, src⟩] mem (.data b (dest + w)) =
      src w := by
  apply Copy.copyAll_value
  · simp only [List.mem_singleton, Loc.addr, forall_eq]
    intro _
    congr 1
    omega
  · exact ⟨_, List.mem_singleton_self _, by simp only [Copy.Piece.Covers, Loc.addr]; omega⟩

namespace Macros

theorem slotWords_s6 {m : Macros} (h : m.source = .s6) : m.slotWords = 160 := by
  simp [slotWords, slotBytes, nCoarseChan, nBytesPerChan, nSpectraPerPacket, h]

theorem slotWords_dibas {m : Macros} (h : m.source = .dibas) : m.slotWords = 1024 := by
  simp [slotWords, slotBytes, nCoarseChan, nBytesPerChan, nSpectraPerPacket, h]

theorem slotWords_fast {m : Macros} (h : m.source = .fast) : m.slotWords = 512 := by
  simp [slotWords, slotBytes, nCoarseChan, nBytesPerChan, nSpectraPerPacket, h]

theorem slotBytes_eq (m : Macros) : m.slotBytes = 8 * m.slotWords := by
  unfold slotWords slotBytes nCoarseChan nBytesPerChan nSpectraPerPacket
  cases m.source <;> rfl

theorem subWords_dibas {m : Macros} (h : m.source = .dibas) : m.nBytesPerSubspectrum = 256 := by
  simp [nBytesPerSubspectrum, nBytesPerSample, nCoarseChan, nSubspectraPerSpectrum,
    nPolsPerBeam, h]

end Macros

theorem fits_iff (m : Macros) (f : Frame) : Fits m f ↔ copyBytes m f ≤ 8 * m.slotWords := by
  rw [Fits, m.slotBytes_eq]

theorem copyWords_le {m : Macros} {f : Frame} (fits : Fits m f) : copyWords m f ≤ m.slotWords := by
  rw [fits_iff] at fits
  unfold copyWords
  omega

/-! ## The pieces of each build -/

theorem copyPieces_s6 {m : Macros} (h : m.source = .s6) (f : Frame) (b : Nat) :
    copyPieces m f b = [⟨m.dataAddr b +
      ((getHeader m f).sid * m.nm + (getHeader m f).mcnt % m.nm) * m.slotWords,
      copyWords m f, f.payload⟩] := by
  simp only [copyPieces, copyWords, h, m.slotWords_s6 h, Macros.nCoarseChan, Macros.nBytesPerChan]
  congr 3
  omega

theorem copyPieces_fast {m : Macros} (h : m.source = .fast) (f : Frame) (b : Nat) :
    copyPieces m f b = [⟨m.dataAddr b + (getHeader m f).mcnt % m.nm * m.slotWords,
      copyWords m f, f.payload⟩] := by
  simp only [copyPieces, copyWords, h, m.slotWords_fast h, Macros.nSpectraPerPacket]
  congr 3
  omega

/-- The DIBAS piece of one sub-spectrum, with the sizes put in. -/
theorem subspectrumPiece_dibas {m : Macros} (h : m.source = .dibas) (f : Frame) {mcnt : Nat}
    (hm : mcnt < 2 ^ 56) (b : Nat) {spectrum sub : Nat} (hs : spectrum < 4) :
    subspectrumPiece m f mcnt b spectrum sub =
      ⟨m.dataAddr b + (sub * m.nTimeSamples + (mcnt * 4 + spectrum) % m.nTimeSamples) * 32, 32,
        fun j => f.payload ((spectrum * 8 + sub) * 32 + j)⟩ := by
  have wrap : u64 (mcnt * 4 + spectrum : Nat) = mcnt * 4 + spectrum := u64_of_lt (by omega)
  simp only [subspectrumPiece, m.subWords_dibas h, Macros.nFineChan, Macros.nSpectraPerPacket,
    Macros.nSubspectraPerSpectrum, h]
  push_cast at wrap ⊢
  rw [wrap]
  congr 2
  omega

theorem mem_copyPieces_dibas {m : Macros} (h : m.source = .dibas) (f : Frame) (b : Nat)
    (p : Copy.Piece Nat) : p ∈ copyPieces m f b ↔ ∃ spectrum < 4, ∃ sub < 8,
      subspectrumPiece m f (getHeader m f).mcnt b spectrum sub = p := by
  simp [copyPieces, h, Macros.nSpectraPerPacket, Macros.nSubspectraPerSpectrum]

theorem place_dibas {m : Macros} (h : m.source = .dibas) (hdr : PacketHeader) (w : Nat) :
    place m hdr w = (w / 32 % 8 * m.nTimeSamples +
      (hdr.mcnt * 4 + w / 32 / 8) % m.nTimeSamples) * 32 + w % 32 := by
  simp [place, h, m.subWords_dibas h, Macros.nFineChan, Macros.nSpectraPerPacket,
    Macros.nSubspectraPerSpectrum]

theorem nm_dibas {m : Macros} (h : m.source = .dibas) : m.nm = m.nTimeSamples / 4 := by
  simp [Macros.nm, Macros.nSpectraPerPacket, h]

/-- Spectra of one block keep different places when their numbers are reduced
modulo N_FINE_CHAN. -/
theorem spectrum_place_inj {nTimeSamples mcnt mcnt' s s' : Nat} (hs : s < 4) (hs' : s' < 4)
    (pos : 0 < nTimeSamples / 4) (block : mcnt / (nTimeSamples / 4) = mcnt' / (nTimeSamples / 4))
    (h : (mcnt * 4 + s) % nTimeSamples = (mcnt' * 4 + s') % nTimeSamples) :
    mcnt = mcnt' ∧ s = s' := by
  have bounds := Period.bounds_of_div pos mcnt
  have bounds' := Period.bounds_of_div pos mcnt'
  rw [← block] at bounds'
  rw [Nat.mul_add] at bounds bounds'
  generalize nTimeSamples / 4 * (mcnt / (nTimeSamples / 4)) = start at bounds bounds'
  cases Nat.le_total (mcnt * 4 + s) (mcnt' * 4 + s') with
  | inl le =>
    have := Period.eq_of_place_eq h le (by omega)
    omega
  | inr le =>
    have := Period.eq_of_place_eq h.symm le (by omega)
    omega

/-! ## What a copy does -/

theorem copyPayload_slot_dibas {m : Macros} (h : m.source = .dibas) (pos : 0 < m.nm) (mem : Mem)
    (b : Nat) (f : Frame) {w : Nat} (hw : w < copyWords m f) :
    (Effect.copyPayload b f).apply m mem (.data b (place m (getHeader m f) w)) = f.payload w := by
  have hm := getHeader_mcnt_lt m f
  have hw : w < 1024 := by
    have := m.slotWords_dibas h
    simp only [copyWords, copyBytes, h] at hw
    unfold Macros.slotWords at this
    omega
  rw [nm_dibas h] at pos
  have addr : (Loc.data b (place m (getHeader m f) w)).addr m = m.dataAddr b +
      ((w / 32 % 8 * m.nTimeSamples + ((getHeader m f).mcnt * 4 + w / 32 / 8) %
        m.nTimeSamples) * 32 + w % 32) := by
    rw [place_dibas h]
    rfl
  apply Copy.copyAll_value
  · intro p hp hc
    obtain ⟨s, hs, sub, hsub, rfl⟩ := (mem_copyPieces_dibas h f b p).mp hp
    rw [subspectrumPiece_dibas h f hm b hs] at hc ⊢
    simp only [Copy.Piece.Covers, addr] at hc ⊢
    -- the piece that covers the word is the word's own sub-spectrum
    have same : sub * m.nTimeSamples + ((getHeader m f).mcnt * 4 + s) % m.nTimeSamples =
        w / 32 % 8 * m.nTimeSamples + ((getHeader m f).mcnt * 4 + w / 32 / 8) %
          m.nTimeSamples := by omega
    have posN : 0 < m.nTimeSamples := by omega
    obtain ⟨hsub', hspec⟩ := pair_inj (Nat.mod_lt _ posN) (Nat.mod_lt _ posN) same
    have hs' := (spectrum_place_inj hs (by omega) pos rfl hspec).2
    subst hs' hsub'
    congr 1
    omega
  · refine ⟨_, (mem_copyPieces_dibas h f b _).mpr
      ⟨w / 32 / 8, by omega, w / 32 % 8, by omega, rfl⟩, ?_⟩
    rw [subspectrumPiece_dibas h f hm b (by omega)]
    simp only [Copy.Piece.Covers, addr]
    omega

/-- Every copied payload word is found at its place. -/
theorem copyPayload_slot {m : Macros} (pos : 0 < m.nm) (mem : Mem) (b : Nat) (f : Frame) {w : Nat}
    (hw : w < copyWords m f) :
    (Effect.copyPayload b f).apply m mem (.data b (place m (getHeader m f) w)) = f.payload w := by
  cases h : m.source with
  | s6 =>
    rw [Effect.apply, copyPieces_s6 h]
    simp only [place, h]
    exact single_copied m mem b _ _ f.payload hw
  | fast =>
    rw [Effect.apply, copyPieces_fast h]
    simp only [place, h]
    exact single_copied m mem b _ _ f.payload hw
  | dibas => exact copyPayload_slot_dibas h pos mem b f hw

theorem place_lt {m : Macros} (pos : 0 < m.nm) {hdr : PacketHeader}
    (valid : hdr.sid < m.nSourceNodes) {w : Nat} (hw : w < m.slotWords) :
    place m hdr w < m.dataWords := by
  have hmod := Nat.mod_lt hdr.mcnt pos
  cases h : m.source with
  | s6 =>
    have words : m.dataWords = 1280 * m.nm := by
      simp only [Macros.dataWords, Macros.nDataBytesPerBlock, Macros.nSamplesPerBlock,
        Macros.nBytesPerSample, Macros.nFineChan, Macros.nCoarseChan, Macros.nPolsPerBeam,
        Macros.nBeamSlots, Macros.nm, Macros.nSpectraPerPacket, h]
      omega
    have sid : hdr.sid ≤ 6 := by
      simp only [Macros.nSourceNodes, Macros.nBeams, h] at valid
      omega
    have scaled : hdr.sid * m.nm ≤ 6 * m.nm := Nat.mul_le_mul_right _ sid
    rw [m.slotWords_s6 h] at hw
    simp only [place, h, m.slotWords_s6 h, words]
    omega
  | fast =>
    have words : 512 * m.nm ≤ m.dataWords := by
      simp only [Macros.dataWords, Macros.nDataBytesPerBlock, Macros.nSamplesPerBlock,
        Macros.nBytesPerSample, Macros.nCoarseChan, Macros.nPolsPerBeam, Macros.nm,
        Macros.nSpectraPerPacket, h]
      omega
    rw [m.slotWords_fast h] at hw
    simp only [place, h, m.slotWords_fast h]
    omega
  | dibas =>
    have words : m.dataWords = 256 * m.nTimeSamples := by
      simp only [Macros.dataWords, Macros.nDataBytesPerBlock, Macros.nSamplesPerBlock,
        Macros.nBytesPerSample, Macros.nFineChan, Macros.nCoarseChan, Macros.nPolsPerBeam, h]
      omega
    rw [nm_dibas h] at pos
    have posN : 0 < m.nTimeSamples := by omega
    have hx := Nat.mod_lt (hdr.mcnt * 4 + w / 32 / 8) posN
    have sub : w / 32 % 8 ≤ 7 := by omega
    have scaled : w / 32 % 8 * m.nTimeSamples ≤ 7 * m.nTimeSamples := Nat.mul_le_mul_right _ sub
    rw [place_dibas h, words]
    omega

/-- A copy that fits covers places of the packet only. -/
theorem covers_place {m : Macros} {f : Frame} (fits : Fits m f) {b a : Nat} {p : Copy.Piece Nat}
    (hp : p ∈ copyPieces m f b) (hc : p.Covers a) :
    ∃ w < m.slotWords, a = m.dataAddr b + place m (getHeader m f) w := by
  have le := copyWords_le fits
  cases h : m.source with
  | s6 =>
    rw [copyPieces_s6 h, List.mem_singleton] at hp
    subst hp
    simp only [Copy.Piece.Covers] at hc
    refine ⟨a - (m.dataAddr b +
      ((getHeader m f).sid * m.nm + (getHeader m f).mcnt % m.nm) * m.slotWords), by omega, ?_⟩
    simp only [place, h]
    omega
  | fast =>
    rw [copyPieces_fast h, List.mem_singleton] at hp
    subst hp
    simp only [Copy.Piece.Covers] at hc
    refine ⟨a - (m.dataAddr b + (getHeader m f).mcnt % m.nm * m.slotWords), by omega, ?_⟩
    simp only [place, h]
    omega
  | dibas =>
    obtain ⟨s, hs, sub, hsub, rfl⟩ := (mem_copyPieces_dibas h f b p).mp hp
    rw [subspectrumPiece_dibas h f (getHeader_mcnt_lt m f) b hs] at hc
    simp only [Copy.Piece.Covers] at hc
    obtain ⟨r, hr⟩ := Nat.exists_eq_add_of_le hc.1
    have hr32 : r < 32 := by omega
    refine ⟨(s * 8 + sub) * 32 + r, by rw [m.slotWords_dibas h]; omega, ?_⟩
    rw [place_dibas h]
    have h1 : ((s * 8 + sub) * 32 + r) / 32 = s * 8 + sub := by omega
    have h2 : ((s * 8 + sub) * 32 + r) % 32 = r := by omega
    have h3 : (s * 8 + sub) % 8 = sub := by omega
    have h4 : (s * 8 + sub) / 8 = s := by omega
    rw [h1, h2, h3, h4]
    omega

/-- The copy into block `b` assigns words of that block's data area only. -/
def StaysIn (m : Macros) (b : Nat) (f : Frame) : Prop :=
  ∀ a, (Effect.copyPayload b f).Writes m a → m.dataAddr b ≤ a ∧ a < m.dataAddr b + m.dataWords

theorem Fits.staysIn {m : Macros} {f : Frame} (fits : Fits m f) (pos : 0 < m.nm)
    (known : (getHeader m f).sid < m.nSourceNodes) (b : Nat) : StaysIn m b f := by
  rintro a ⟨p, hp, hc⟩
  obtain ⟨w, hw, rfl⟩ := covers_place fits hp hc
  have := place_lt pos known hw
  omega

/-- Words outside the block's data area are not written. -/
theorem StaysIn.frame {m : Macros} {b : Nat} {f : Frame} (stays : StaysIn m b f)
    (hb : b < m.nInputBlocks) (mem : Mem) {l : Loc} (valid : l.Valid m)
    (out : ∀ k, l ≠ .data b k) : (Effect.copyPayload b f).apply m mem l = mem l := by
  apply Effect.apply_frame m mem _ valid
  intro writes
  obtain ⟨lo, hi⟩ := stays _ writes
  exact out _ (Loc.eq_data_of_addr hb valid lo hi)

/-- A word that is no place of the packet is not written. -/
theorem copyPayload_frame {m : Macros} (pos : 0 < m.nm) (mem : Mem) {b : Nat}
    (hb : b < m.nInputBlocks) {f : Frame} (fits : Fits m f)
    (known : (getHeader m f).sid < m.nSourceNodes) {l : Loc} (valid : l.Valid m)
    (out : ∀ w < m.slotWords, l ≠ .data b (place m (getHeader m f) w)) :
    (Effect.copyPayload b f).apply m mem l = mem l := by
  apply Effect.apply_frame m mem _ valid
  rintro ⟨p, hp, hc⟩
  obtain ⟨w, hw, ha⟩ := covers_place fits hp hc
  have lt := place_lt pos known hw
  apply out w hw
  rw [Loc.eq_data_of_addr hb valid (by omega) (by omega), ha]
  congr 1
  omega

/-- Packets of one block whose places meet have the same mcnt and, in the S6
build, the same source. -/
theorem place_inj {m : Macros} (pos : 0 < m.nm) {hdr hdr' : PacketHeader}
    (block : hdr.mcnt / m.nm = hdr'.mcnt / m.nm) {w w' : Nat} (hw : w < m.slotWords)
    (hw' : w' < m.slotWords) (h : place m hdr w = place m hdr' w') :
    hdr.mcnt = hdr'.mcnt ∧ (m.source = .s6 → hdr.sid = hdr'.sid) ∧ w = w' := by
  have hmod := Nat.mod_lt hdr.mcnt pos
  have hmod' := Nat.mod_lt hdr'.mcnt pos
  have mcnt_eq (eq : hdr.mcnt % m.nm = hdr'.mcnt % m.nm) : hdr.mcnt = hdr'.mcnt := by
    rw [← Nat.div_add_mod hdr.mcnt m.nm, ← Nat.div_add_mod hdr'.mcnt m.nm, block, eq]
  cases src : m.source with
  | s6 =>
    simp only [place, src] at h
    obtain ⟨slot, word⟩ := pair_inj hw hw' h
    obtain ⟨sid, mod⟩ := pair_inj hmod hmod' slot
    exact ⟨mcnt_eq mod, fun _ => sid, word⟩
  | fast =>
    simp only [place, src] at h
    obtain ⟨mod, word⟩ := pair_inj hw hw' h
    exact ⟨mcnt_eq mod, by simp, word⟩
  | dibas =>
    rw [place_dibas src, place_dibas src] at h
    rw [m.slotWords_dibas src] at hw hw'
    rw [nm_dibas src] at pos block
    have posN : 0 < m.nTimeSamples := by omega
    have rows : w / 32 % 8 * m.nTimeSamples + (hdr.mcnt * 4 + w / 32 / 8) % m.nTimeSamples =
        w' / 32 % 8 * m.nTimeSamples + (hdr'.mcnt * 4 + w' / 32 / 8) % m.nTimeSamples := by omega
    obtain ⟨sub, spec⟩ := pair_inj (Nat.mod_lt _ posN) (Nat.mod_lt _ posN) rows
    obtain ⟨mcnt, spectrum⟩ :=
      spectrum_place_inj (by omega) (by omega) pos block spec
    exact ⟨mcnt, by simp, by omega⟩

end S6Reobs
