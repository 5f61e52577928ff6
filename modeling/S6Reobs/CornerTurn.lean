import Mathlib.Data.List.Nodup
import Mathlib.Data.List.Perm.Basic
import S6Reobs.PacketSizes

/-! The corner turn of the DIBAS build, in bytes and for any sizes: process_packet scatters
each packet by sub-spectrum and time sample, and log_rms reads the block by channel. -/

namespace S6Reobs

open Word

/-- The DIBAS sizes that the corner turn depends on. A sub-spectrum is a number of whole
channels and of whole 64-bit words, and a block a number of whole packets. -/
structure Turn where
  nTimeSamples : Nat
  nCoarseChan : Nat
  nSpectraPerPacket : Nat
  nSubspectraPerSpectrum : Nat
  nPolsPerBeam : Nat
  nBytesPerSample : Nat
  time_pos : 0 < nTimeSamples
  spectra_pos : 0 < nSpectraPerPacket
  sub_pos : 0 < nSubspectraPerSpectrum
  spectra_dvd : nSpectraPerPacket ∣ nTimeSamples
  sub_dvd : nSubspectraPerSpectrum ∣ nCoarseChan
  words : 8 ∣ nBytesPerSample * nCoarseChan / nSubspectraPerSpectrum * nPolsPerBeam

namespace Turn

variable {α : Type} (g : Turn)

def nFineChan : Nat := g.nTimeSamples

def nm : Nat := g.nTimeSamples / g.nSpectraPerPacket

def nBytesPerSubspectrum : Nat :=
  g.nBytesPerSample * g.nCoarseChan / g.nSubspectraPerSpectrum * g.nPolsPerBeam

def nDataBytesPerBlock : Nat :=
  g.nBytesPerSample * (g.nFineChan * g.nCoarseChan * g.nPolsPerBeam)

/-- The time sample at which a spectrum of a packet is placed. -/
def sampleOf (mcnt spectrum : Nat) : Nat :=
  u64 (mcnt * g.nSpectraPerPacket + spectrum) % g.nFineChan

/-- The memcpy for one sub-spectrum, from the bytes of a packet's payload to the bytes of a
block's data. The pointers count 64-bit words. -/
def piece (payload : Nat → α) (mcnt spectrum sub : Nat) : Copy.Piece α where
  dest := 8 * ((sub * g.nFineChan + g.sampleOf mcnt spectrum) * g.nBytesPerSubspectrum / 8)
  len := g.nBytesPerSubspectrum
  src j := payload
    (8 * ((spectrum * g.nSubspectraPerSpectrum + sub) * (g.nBytesPerSubspectrum / 8)) + j)

/-- The copy loops of process_packet for one packet. -/
def pieces (payload : Nat → α) (mcnt : Nat) : List (Copy.Piece α) :=
  (List.range g.nSpectraPerPacket).flatMap fun spectrum =>
    (List.range g.nSubspectraPerSpectrum).map fun sub => g.piece payload mcnt spectrum sub

/-- A block's data bytes after packets, each with its mcnt, were stored in this order. -/
def storeAll (data : Nat → α) (packets : List (Nat × (Nat → α))) : Nat → α :=
  packets.foldl (fun data p => Copy.copyAll id (g.pieces p.2 p.1) data) data

/-- The bytes of one channel in one time sample. -/
def nBytesPerChan : Nat := g.nPolsPerBeam * g.nBytesPerSample

/-- Where `coarse_chan_p` of log_rms points in iteration `i` of its loop. -/
def rmsAddr (coarseChan i : Nat) : Nat :=
  coarseChan / (g.nCoarseChan / g.nSubspectraPerSpectrum) * g.nFineChan *
      (g.nCoarseChan / g.nSubspectraPerSpectrum) * g.nPolsPerBeam * g.nBytesPerSample +
    coarseChan % (g.nCoarseChan / g.nSubspectraPerSpectrum) * g.nPolsPerBeam * g.nBytesPerSample +
    i * (g.nCoarseChan / g.nSubspectraPerSpectrum * g.nPolsPerBeam * g.nBytesPerSample)

/-- The bytes that iteration `i` squares, the second always two bytes on. -/
def rmsReads (coarseChan i : Nat) : List Nat :=
  [g.rmsAddr coarseChan i, g.rmsAddr coarseChan i + 2]

/-- The writer and the reader agree on the blocks that start at `start`. -/
structure Agrees (start : Nat) : Prop where
  /-- Writes of different packets, spectra or sub-spectra have no byte in common. -/
  disjoint : ∀ (payload payload' : Nat → Unit) (k k' : Nat), k < g.nm → k' < g.nm →
    ∀ spectrum < g.nSpectraPerPacket, ∀ spectrum' < g.nSpectraPerPacket,
    ∀ sub < g.nSubspectraPerSpectrum, ∀ sub' < g.nSubspectraPerSpectrum, ∀ a,
    (g.piece payload (start + k) spectrum sub).Covers a →
    (g.piece payload' (start + k') spectrum' sub').Covers a →
    k = k' ∧ spectrum = spectrum' ∧ sub = sub'
  /-- The packets' writes make up the block. -/
  covered : ∀ (payload : Nat → Unit) (a : Nat), a < g.nDataBytesPerBlock ↔
    ∃ k < g.nm, ∃ p ∈ g.pieces payload (start + k), p.Covers a
  /-- Whatever order the packets were stored in, the reader finds channel `c` of spectrum
  `t % N_SPECTRA_PER_PACKET` of packet `t / N_SPECTRA_PER_PACKET` in iteration `t`. -/
  reads : ∀ (data : Nat → Nat) (packets : List (Nat × (Nat → Nat))),
    (packets.map Prod.fst).Perm ((List.range g.nm).map (start + ·)) →
    ∀ c < g.nCoarseChan, ∀ t < g.nFineChan, ∀ payload,
    (start + t / g.nSpectraPerPacket, payload) ∈ packets → ∀ j < g.nBytesPerChan,
    g.storeAll data packets (g.rmsAddr c t + j) =
      payload ((t % g.nSpectraPerPacket * g.nCoarseChan + c) * g.nBytesPerChan + j)
  /-- The bytes that the reader squares are bytes of the channel. -/
  within : ∀ c < g.nCoarseChan, ∀ t < g.nFineChan, ∀ a ∈ g.rmsReads c t,
    ∃ j < g.nBytesPerChan, a = g.rmsAddr c t + j

/-- What a uint64_t loses of the block's spectrum numbers is a multiple of N_FINE_CHAN. -/
def Unwrapped (start : Nat) : Prop :=
  ∀ k < g.nm, ∀ spectrum < g.nSpectraPerPacket, g.nFineChan ∣
    2 ^ 64 * (((start + k) * g.nSpectraPerPacket + spectrum) / 2 ^ 64)

/-! ## Sizes -/

/-- Channels of a sub-spectrum. -/
def width : Nat := g.nCoarseChan / g.nSubspectraPerSpectrum

theorem nCoarseChan_eq : g.nCoarseChan = g.nSubspectraPerSpectrum * g.width :=
  (Nat.mul_div_cancel' g.sub_dvd).symm

theorem nBytesPerSubspectrum_eq : g.nBytesPerSubspectrum = g.width * g.nBytesPerChan := by
  rw [nBytesPerSubspectrum, Nat.mul_div_assoc _ g.sub_dvd, nBytesPerChan, width]
  ring

theorem nFineChan_eq : g.nFineChan = g.nm * g.nSpectraPerPacket :=
  (Nat.div_mul_cancel g.spectra_dvd).symm

theorem nDataBytesPerBlock_eq : g.nDataBytesPerBlock =
    g.nSubspectraPerSpectrum * g.nFineChan * g.nBytesPerSubspectrum := by
  rw [nDataBytesPerBlock, nBytesPerSubspectrum_eq, nCoarseChan_eq, nBytesPerChan]
  ring

theorem rmsAddr_eq (c t : Nat) : g.rmsAddr c t =
    (c / g.width * g.nFineChan + t) * g.nBytesPerSubspectrum + c % g.width * g.nBytesPerChan := by
  rw [rmsAddr, nBytesPerSubspectrum_eq, nBytesPerChan, width]
  ring

theorem dest_eq (payload : Nat → α) (mcnt spectrum sub : Nat) :
    (g.piece payload mcnt spectrum sub).dest =
      (sub * g.nFineChan + g.sampleOf mcnt spectrum) * g.nBytesPerSubspectrum :=
  Nat.mul_div_cancel' (Dvd.dvd.mul_left g.words _)

theorem src_eq (payload : Nat → α) (mcnt spectrum sub j : Nat) :
    (g.piece payload mcnt spectrum sub).src j =
      payload ((spectrum * g.nSubspectraPerSpectrum + sub) * g.nBytesPerSubspectrum + j) := by
  have words : 8 * (g.nBytesPerSubspectrum / 8) = g.nBytesPerSubspectrum :=
    Nat.mul_div_cancel' g.words
  simp only [piece]
  rw [Nat.mul_left_comm, words]

theorem mem_pieces (payload : Nat → α) (mcnt : Nat) (p : Copy.Piece α) :
    p ∈ g.pieces payload mcnt ↔ ∃ spectrum < g.nSpectraPerPacket,
      ∃ sub < g.nSubspectraPerSpectrum, g.piece payload mcnt spectrum sub = p := by
  simp [pieces]

/-- The byte that log_rms reads, as write number and byte of the write. -/
theorem rmsAddr_digits {c t j : Nat} (hj : j < g.nBytesPerChan) (wide : 0 < g.width) :
    (g.rmsAddr c t + j) / g.nBytesPerSubspectrum = c / g.width * g.nFineChan + t ∧
    (g.rmsAddr c t + j) % g.nBytesPerSubspectrum = c % g.width * g.nBytesPerChan + j := by
  have inside : c % g.width * g.nBytesPerChan + j < g.nBytesPerSubspectrum := by
    have lt := Nat.mod_lt c wide
    rw [nBytesPerSubspectrum_eq]
    calc c % g.width * g.nBytesPerChan + j
        < c % g.width * g.nBytesPerChan + g.nBytesPerChan := Nat.add_lt_add_left hj _
      _ = (c % g.width + 1) * g.nBytesPerChan := (Nat.succ_mul _ _).symm
      _ ≤ g.width * g.nBytesPerChan := Nat.mul_le_mul_right _ lt
  rw [← Period.eq_add_iff inside, rmsAddr_eq, Nat.add_assoc]

/-- Sub-spectrum and channel of the sub-spectrum name the channel. -/
theorem chan_offset (spectrum c j : Nat) :
    (spectrum * g.nSubspectraPerSpectrum + c / g.width) * g.nBytesPerSubspectrum +
      (c % g.width * g.nBytesPerChan + j) =
    (spectrum * g.nCoarseChan + c) * g.nBytesPerChan + j := by
  have split := Nat.div_add_mod c g.width
  calc (spectrum * g.nSubspectraPerSpectrum + c / g.width) * g.nBytesPerSubspectrum +
        (c % g.width * g.nBytesPerChan + j)
      = (spectrum * (g.nSubspectraPerSpectrum * g.width) +
          (g.width * (c / g.width) + c % g.width)) * g.nBytesPerChan + j := by
        rw [nBytesPerSubspectrum_eq]
        ring
    _ = (spectrum * g.nCoarseChan + c) * g.nBytesPerChan + j := by
        rw [split, ← nCoarseChan_eq]

/-! ## Where a spectrum is placed -/

section Block

variable {g} {start : Nat}

theorem sample_lt {k spectrum : Nat} (hk : k < g.nm) (hs : spectrum < g.nSpectraPerPacket) :
    k * g.nSpectraPerPacket + spectrum < g.nFineChan := by
  rw [nFineChan_eq]
  calc k * g.nSpectraPerPacket + spectrum
      < k * g.nSpectraPerPacket + g.nSpectraPerPacket := Nat.add_lt_add_left hs _
    _ = (k + 1) * g.nSpectraPerPacket := (Nat.succ_mul _ _).symm
    _ ≤ g.nm * g.nSpectraPerPacket := Nat.mul_le_mul_right _ hk

/-- A spectrum has its place in the block exactly when its number loses whole blocks. -/
theorem sampleOf_eq_iff (block : g.nm ∣ start) {k spectrum : Nat} (hk : k < g.nm)
    (hs : spectrum < g.nSpectraPerPacket) :
    g.sampleOf (start + k) spectrum = k * g.nSpectraPerPacket + spectrum ↔
      g.nFineChan ∣ 2 ^ 64 * (((start + k) * g.nSpectraPerPacket + spectrum) / 2 ^ 64) := by
  obtain ⟨b, rfl⟩ := block
  have number : (g.nm * b + k) * g.nSpectraPerPacket + spectrum =
      g.nFineChan * b + (k * g.nSpectraPerPacket + spectrum) := by
    rw [nFineChan_eq]
    ring
  have place : ((g.nm * b + k) * g.nSpectraPerPacket + spectrum) % g.nFineChan =
      k * g.nSpectraPerPacket + spectrum := by
    rw [number, Nat.mul_add_mod, Nat.mod_eq_of_lt (sample_lt hk hs)]
  have value : u64 ((g.nm * b + k : Nat) * g.nSpectraPerPacket + spectrum) =
      ((g.nm * b + k) * g.nSpectraPerPacket + spectrum) % 2 ^ 64 := by
    unfold u64
    omega
  rw [sampleOf, value]
  generalize (g.nm * b + k) * g.nSpectraPerPacket + spectrum = n at place
  have split := Nat.div_add_mod n (2 ^ 64)
  rw [← place]
  constructor
  · intro same
    have lost := Nat.dvd_of_mod_eq_zero (Nat.sub_mod_eq_zero_of_mod_eq same.symm)
    rwa [show n - n % 2 ^ 64 = 2 ^ 64 * (n / 2 ^ 64) by omega] at lost
  · intro whole
    calc n % 2 ^ 64 % g.nFineChan
        = (2 ^ 64 * (n / 2 ^ 64) + n % 2 ^ 64) % g.nFineChan := by
          rw [Nat.add_mod, Nat.mod_eq_zero_of_dvd whole, Nat.zero_add, Nat.mod_mod]
      _ = n % g.nFineChan := by rw [split]

variable (block : g.nm ∣ start) (unwrapped : g.Unwrapped start)
include block unwrapped

/-- Within the block, a packet's spectra are placed one after the other. -/
theorem sampleOf_eq {k spectrum : Nat} (hk : k < g.nm) (hs : spectrum < g.nSpectraPerPacket) :
    g.sampleOf (start + k) spectrum = k * g.nSpectraPerPacket + spectrum :=
  (sampleOf_eq_iff block hk hs).mpr (unwrapped k hk spectrum hs)

/-- A byte's position in the block names the one write that covers it. -/
theorem covers_iff (payload : Nat → α) {k spectrum sub : Nat} (hk : k < g.nm)
    (hs : spectrum < g.nSpectraPerPacket) (a : Nat) :
    (g.piece payload (start + k) spectrum sub).Covers a ↔ 0 < g.nBytesPerSubspectrum ∧
      a / g.nBytesPerSubspectrum / g.nFineChan = sub ∧
      a / g.nBytesPerSubspectrum % g.nFineChan / g.nSpectraPerPacket = k ∧
      a / g.nBytesPerSubspectrum % g.nFineChan % g.nSpectraPerPacket = spectrum := by
  have sample := sampleOf_eq block unwrapped hk hs
  have inside := sample_lt hk hs
  rw [Copy.Piece.Covers, dest_eq, sample]
  have len : (g.piece payload (start + k) spectrum sub).len = g.nBytesPerSubspectrum := rfl
  rw [len]
  cases Nat.eq_zero_or_pos g.nBytesPerSubspectrum with
  | inl empty =>
    simp only [empty, Nat.lt_irrefl, false_and, iff_false]
    omega
  | inr pos =>
    rw [← Period.eq_add_iff hs, ← Period.eq_add_iff inside, Period.div_eq_iff pos]
    exact (and_iff_right pos).symm

omit block unwrapped in
theorem sub_lt_iff (pos : 0 < g.nBytesPerSubspectrum) (a : Nat) :
    a / g.nBytesPerSubspectrum / g.nFineChan < g.nSubspectraPerSpectrum ↔
      a < g.nDataBytesPerBlock := by
  have fine : 0 < g.nFineChan := g.time_pos
  rw [nDataBytesPerBlock_eq, Nat.mul_assoc, Nat.mul_comm g.nFineChan, Nat.div_div_eq_div_mul,
    Nat.div_lt_iff_lt_mul (Nat.mul_pos pos fine)]

/-- Every byte of the block is covered by one write. -/
theorem covered_iff (payload : Nat → α) (a : Nat) : a < g.nDataBytesPerBlock ↔
    ∃ k < g.nm, ∃ p ∈ g.pieces payload (start + k), p.Covers a := by
  simp only [mem_pieces]
  constructor
  · intro inside
    have pos : 0 < g.nBytesPerSubspectrum :=
      Nat.pos_of_ne_zero fun zero => by simp [nDataBytesPerBlock_eq, zero] at inside
    have sub := (sub_lt_iff pos a).mpr inside
    have sample : a / g.nBytesPerSubspectrum % g.nFineChan < g.nm * g.nSpectraPerPacket := by
      rw [← nFineChan_eq]
      exact Nat.mod_lt _ g.time_pos
    have packet := (Nat.div_lt_iff_lt_mul g.spectra_pos).mpr sample
    have spectrum := Nat.mod_lt (a / g.nBytesPerSubspectrum % g.nFineChan) g.spectra_pos
    refine ⟨_, packet, _, ⟨_, spectrum, _, sub, rfl⟩, ?_⟩
    exact (covers_iff block unwrapped payload packet spectrum a).mpr ⟨pos, rfl, rfl, rfl⟩
  · rintro ⟨k, hk, p, ⟨spectrum, hs, sub, hsub, rfl⟩, covers⟩
    obtain ⟨pos, rfl, -, -⟩ := (covers_iff block unwrapped payload hk hs a).mp covers
    exact (sub_lt_iff pos a).mp hsub

omit block unwrapped in
theorem width_pos {c : Nat} (hc : c < g.nCoarseChan) : 0 < g.width := by
  rw [nCoarseChan_eq] at hc
  exact Nat.pos_of_ne_zero fun zero => by simp [zero] at hc

/-- The write that covers the byte read holds there what the packet holds for the channel. -/
theorem read_value (payload : Nat → α) {c t j k spectrum sub : Nat} (hc : c < g.nCoarseChan)
    (ht : t < g.nFineChan) (hj : j < g.nBytesPerChan) (hk : k < g.nm)
    (hs : spectrum < g.nSpectraPerPacket)
    (covers : (g.piece payload (start + k) spectrum sub).Covers (g.rmsAddr c t + j)) :
    k = t / g.nSpectraPerPacket ∧
    (g.piece payload (start + k) spectrum sub).src
        (g.rmsAddr c t + j - (g.piece payload (start + k) spectrum sub).dest) =
      payload ((t % g.nSpectraPerPacket * g.nCoarseChan + c) * g.nBytesPerChan + j) := by
  obtain ⟨quot, rem⟩ := g.rmsAddr_digits (c := c) (t := t) hj (width_pos hc)
  obtain ⟨sub_eq, sample_eq⟩ := (Period.eq_add_iff ht _ _).mp quot
  have split := Nat.div_add_mod (g.rmsAddr c t + j) g.nBytesPerSubspectrum
  have sample := sampleOf_eq block unwrapped hk hs
  obtain ⟨-, rfl, rfl, rfl⟩ := (covers_iff block unwrapped payload hk hs _).mp covers
  rw [sample_eq] at sample ⊢
  have dest : (g.rmsAddr c t + j) - (g.piece payload (start + t / g.nSpectraPerPacket)
      (t % g.nSpectraPerPacket) ((g.rmsAddr c t + j) / g.nBytesPerSubspectrum / g.nFineChan)).dest =
        c % g.width * g.nBytesPerChan + j := by
    rw [dest_eq, sample, sub_eq, Nat.mul_comm (t / _), Nat.div_add_mod]
    rw [quot, rem, Nat.mul_comm] at split
    omega
  rw [dest, src_eq, sub_eq, chan_offset]
  exact ⟨rfl, rfl⟩

end Block

variable {g}

/-- Storing packets one after the other is one run of copies. -/
theorem storeAll_eq (data : Nat → α) (packets : List (Nat × (Nat → α))) :
    g.storeAll data packets = Copy.copyAll id (packets.flatMap fun p => g.pieces p.2 p.1) data := by
  rw [Copy.copyAll, List.foldl_flatMap]
  rfl

/-- After the block's packets were stored in any order, log_rms reads what they hold. -/
theorem storeAll_read {start : Nat} (block : g.nm ∣ start) (unwrapped : g.Unwrapped start)
    (data : Nat → Nat) {packets : List (Nat × (Nat → Nat))}
    (order : (packets.map Prod.fst).Perm ((List.range g.nm).map (start + ·)))
    {c t j : Nat} (hc : c < g.nCoarseChan) (ht : t < g.nFineChan) {payload : Nat → Nat}
    (mine : (start + t / g.nSpectraPerPacket, payload) ∈ packets) (hj : j < g.nBytesPerChan) :
    g.storeAll data packets (g.rmsAddr c t + j) =
      payload ((t % g.nSpectraPerPacket * g.nCoarseChan + c) * g.nBytesPerChan + j) := by
  have wide := width_pos hc
  have pos : 0 < g.nBytesPerSubspectrum := by
    rw [nBytesPerSubspectrum_eq]
    exact Nat.mul_pos wide (Nat.zero_lt_of_lt hj)
  have packet : t / g.nSpectraPerPacket < g.nm := by
    rw [Nat.div_lt_iff_lt_mul g.spectra_pos, ← nFineChan_eq]
    exact ht
  have spectrum := Nat.mod_lt t g.spectra_pos
  have sub : c / g.width < g.nSubspectraPerSpectrum := by
    rw [Nat.div_lt_iff_lt_mul wide, ← nCoarseChan_eq]
    exact hc
  have distinct : (packets.map Prod.fst).Nodup :=
    order.nodup_iff.mpr (List.Nodup.map (fun _ _ => Nat.add_left_cancel) List.nodup_range)
  rw [storeAll_eq]
  apply Copy.copyAll_value
  · intro p hp covers
    obtain ⟨other, ho, hp⟩ := List.mem_flatMap.mp hp
    obtain ⟨k, hk, mcnt⟩ := List.mem_map.mp (order.mem_iff.mp (List.mem_map_of_mem ho))
    obtain ⟨i, hi, n, -, rfl⟩ := (g.mem_pieces _ _ p).mp hp
    rw [← mcnt] at covers ⊢
    obtain ⟨rfl, value⟩ := read_value block unwrapped other.2 hc ht hj
      (List.mem_range.mp hk) hi covers
    -- no other packet of the block has this mcnt
    have same := List.inj_on_of_nodup_map distinct ho mine mcnt.symm
    subst same
    exact value
  · refine ⟨g.piece payload (start + t / g.nSpectraPerPacket) (t % g.nSpectraPerPacket)
      (c / g.width), ?_, ?_⟩
    · exact List.mem_flatMap.mpr ⟨_, mine, (g.mem_pieces _ _ _).mpr ⟨_, spectrum, _, sub, rfl⟩⟩
    · obtain ⟨quot, -⟩ := g.rmsAddr_digits (c := c) (t := t) hj wide
      obtain ⟨sub_eq, sample_eq⟩ := (Period.eq_add_iff ht _ _).mp quot
      exact (covers_iff block unwrapped _ packet spectrum _).mpr
        ⟨pos, sub_eq, by rw [id, sample_eq], by rw [id, sample_eq]⟩

/-- Where the numbers wrap by whole blocks, the reader finds what the writer stored. -/
theorem agrees_of_unwrapped {start : Nat} (block : g.nm ∣ start) (wide : 2 < g.nBytesPerChan)
    (unwrapped : g.Unwrapped start) : g.Agrees start where
  disjoint := by
    intro payload payload' k k' hk hk' spectrum hs spectrum' hs' sub _ sub' _ a covers covers'
    obtain ⟨_, rfl, rfl, rfl⟩ := (covers_iff block unwrapped payload hk hs a).mp covers
    obtain ⟨_, rfl, rfl, rfl⟩ := (covers_iff block unwrapped payload' hk' hs' a).mp covers'
    exact ⟨rfl, rfl, rfl⟩
  covered payload a := covered_iff block unwrapped payload a
  reads data packets order c hc t ht payload mine j hj :=
    storeAll_read block unwrapped data order hc ht mine hj
  within := by
    intro c _ t _ a ha
    rcases List.mem_pair.mp ha with rfl | rfl
    · exact ⟨0, by omega, rfl⟩
    · exact ⟨2, wide, rfl⟩

/-- Without channels there is nothing to write or to read. -/
theorem agrees_of_empty (start : Nat) (empty : g.nCoarseChan = 0) : g.Agrees start := by
  have len : g.nBytesPerSubspectrum = 0 := by
    rw [nBytesPerSubspectrum, empty, Nat.mul_zero, Nat.zero_div, Nat.zero_mul]
  have nothing {α : Type} (payload : Nat → α) (mcnt spectrum sub a : Nat) :
      ¬ (g.piece payload mcnt spectrum sub).Covers a := by
    rintro ⟨lo, hi⟩
    simp only [piece, len] at lo hi
    omega
  constructor
  · intro payload payload' k k' _ _ spectrum _ spectrum' _ sub _ sub' _ a covers
    exact absurd covers (nothing _ _ _ _ _)
  · intro payload a
    rw [nDataBytesPerBlock_eq, len, Nat.mul_zero]
    refine iff_of_false (Nat.not_lt_zero a) ?_
    rintro ⟨k, _, p, hp, covers⟩
    obtain ⟨spectrum, _, sub, _, rfl⟩ := (g.mem_pieces _ _ p).mp hp
    exact nothing _ _ _ _ _ covers
  · intro data packets _ c hc
    omega
  · intro c hc
    omega

/-- The second byte squared is in the channel only if the channel has three. -/
theorem Agrees.wide {start : Nat} (agrees : g.Agrees start) (some : 0 < g.nCoarseChan) :
    2 < g.nBytesPerChan := by
  obtain ⟨j, hj, eq⟩ := agrees.within 0 some 0 g.time_pos (g.rmsAddr 0 0 + 2)
    (List.mem_pair.mpr (.inr rfl))
  omega

/-- The payload of which only byte `n` is not 0. -/
def onlyByte (n : Nat) : Nat → Nat := fun i => if i = n then 1 else 0

/-- The first byte of a spectrum is stored at the place of the spectrum and nowhere else. -/
theorem mark_stored {mcnt spectrum spectrum' sub a : Nat} (pos : 0 < g.nBytesPerSubspectrum)
    (hsub : sub < g.nSubspectraPerSpectrum)
    (covers : (g.piece (onlyByte (spectrum * g.nSubspectraPerSpectrum * g.nBytesPerSubspectrum))
      mcnt spectrum' sub).Covers a)
    (away : a ≠ g.sampleOf mcnt spectrum * g.nBytesPerSubspectrum) :
    (g.piece (onlyByte (spectrum * g.nSubspectraPerSpectrum * g.nBytesPerSubspectrum))
      mcnt spectrum' sub).src (a - (g.piece (onlyByte (spectrum * g.nSubspectraPerSpectrum *
        g.nBytesPerSubspectrum)) mcnt spectrum' sub).dest) = 0 := by
  rw [src_eq, onlyByte]
  refine if_neg fun marked => away ?_
  obtain ⟨lo, hi⟩ := covers
  have len (payload : Nat → Nat) : (g.piece payload mcnt spectrum' sub).len =
    g.nBytesPerSubspectrum := rfl
  rw [len] at hi
  rw [dest_eq] at lo hi marked
  obtain ⟨number, byte⟩ := (Period.eq_add_iff (by omega) _ _).mp marked.symm
  rw [Nat.mul_div_cancel _ pos] at number
  rw [Nat.mul_mod_left] at byte
  obtain ⟨same, first⟩ := (Period.eq_add_iff hsub _ _).mp number
  rw [Nat.mul_div_cancel _ g.sub_pos] at same
  rw [Nat.mul_mod_left] at first
  subst same first
  rw [Nat.zero_mul, Nat.zero_add] at lo byte
  omega

/-- A spectrum that is not placed where it belongs is not read there. -/
theorem Agrees.unwrapped {start : Nat} (block : g.nm ∣ start) (agrees : g.Agrees start)
    (some : 0 < g.nCoarseChan) : g.Unwrapped start := by
  intro k hk spectrum hs
  rw [← sampleOf_eq_iff block hk hs]
  by_contra moved
  have wide := agrees.wide some
  have pos : 0 < g.nBytesPerSubspectrum := by
    rw [nBytesPerSubspectrum_eq]
    exact Nat.mul_pos (width_pos some) (by omega)
  obtain ⟨packet, spectrum_eq⟩ : (k * g.nSpectraPerPacket + spectrum) / g.nSpectraPerPacket = k ∧
      (k * g.nSpectraPerPacket + spectrum) % g.nSpectraPerPacket = spectrum :=
    (Period.eq_add_iff hs _ _).mp rfl
  -- packet `k` marks the first byte of this spectrum, the other packets hold nothing
  let payload (i : Nat) : Nat → Nat := if i = k then
    onlyByte (spectrum * g.nSubspectraPerSpectrum * g.nBytesPerSubspectrum) else fun _ => 0
  let packets := (List.range g.nm).map fun i => (start + i, payload i)
  have read := agrees.reads (fun _ => 0) packets (by simp [packets, Function.comp_def]) 0 some
    (k * g.nSpectraPerPacket + spectrum) (sample_lt hk hs) (payload k)
    (by rw [packet]; exact List.mem_map.mpr ⟨k, List.mem_range.mpr hk, rfl⟩) 0 (by omega)
  have index : (spectrum * g.nCoarseChan + 0) * g.nBytesPerChan + 0 =
      spectrum * g.nSubspectraPerSpectrum * g.nBytesPerSubspectrum := by
    rw [nCoarseChan_eq, nBytesPerSubspectrum_eq]
    ring
  have address : g.rmsAddr 0 (k * g.nSpectraPerPacket + spectrum) + 0 =
      (k * g.nSpectraPerPacket + spectrum) * g.nBytesPerSubspectrum := by
    rw [rmsAddr_eq, Nat.zero_div, Nat.zero_mod]
    ring
  have clear : g.storeAll (fun _ => 0) packets
      (g.rmsAddr 0 (k * g.nSpectraPerPacket + spectrum) + 0) = 0 := by
    rw [storeAll_eq, address]
    refine Copy.copyAll_keeps id _ _ ?_ rfl
    intro p hp covers
    obtain ⟨other, ho, hp⟩ := List.mem_flatMap.mp hp
    obtain ⟨i, _, rfl⟩ := List.mem_map.mp ho
    obtain ⟨spectrum', _, sub, hsub, rfl⟩ := (g.mem_pieces _ _ p).mp hp
    by_cases mine : i = k
    · subst mine
      simp only [payload, ↓reduceIte] at covers ⊢
      refine mark_stored pos hsub covers fun eq => moved ?_
      exact (Nat.eq_of_mul_eq_mul_right pos eq).symm
    · simp only [payload, mine, ↓reduceIte]
      rw [src_eq]
  rw [clear, spectrum_eq, index] at read
  simp [payload, onlyByte] at read

/-- Writer and reader agree on a block exactly when the channel has room for the second byte
squared, and the spectrum numbers lose whole blocks when they wrap. -/
theorem corner_turn (g : Turn) {start : Nat} (block : g.nm ∣ start) : g.Agrees start ↔
    g.nCoarseChan = 0 ∨ (2 < g.nBytesPerChan ∧ g.Unwrapped start) := by
  constructor
  · intro agrees
    refine (Nat.eq_zero_or_pos g.nCoarseChan).imp_right fun some => ?_
    exact ⟨agrees.wide some, agrees.unwrapped block some⟩
  · rintro (empty | ⟨wide, unwrapped⟩)
    · exact agrees_of_empty start empty
    · exact agrees_of_unwrapped block wide unwrapped

/-- A block whose numbers all lose the same multiple of 2^64. -/
theorem unwrapped_of_laps {start : Nat} (laps : Nat)
    (lo : laps * 2 ^ 64 ≤ start * g.nSpectraPerPacket)
    (hi : (start + g.nm) * g.nSpectraPerPacket ≤ (laps + 1) * 2 ^ 64)
    (whole : g.nFineChan ∣ 2 ^ 64 * laps) : g.Unwrapped start := by
  intro k hk spectrum hs
  have inside := sample_lt hk hs
  rw [nFineChan_eq] at inside
  rw [Nat.add_mul] at hi ⊢
  have lost : (start * g.nSpectraPerPacket + k * g.nSpectraPerPacket + spectrum) / 2 ^ 64 = laps :=
    Nat.div_eq_of_lt_le (by omega) (by omega)
  rwa [lost]

/-- The 56 bits of a DIBAS packet's mcnt leave room for 256 spectra a packet. -/
theorem unwrapped_of_mcnt {start : Nat} (mcnt : start + g.nm ≤ 2 ^ 56)
    (few : g.nSpectraPerPacket ≤ 256) : g.Unwrapped start := by
  refine unwrapped_of_laps 0 (by rw [Nat.zero_mul]; exact Nat.zero_le _) ?_ (dvd_zero _)
  calc (start + g.nm) * g.nSpectraPerPacket ≤ 2 ^ 56 * 256 := Nat.mul_le_mul mcnt few
    _ = (0 + 1) * 2 ^ 64 := by norm_num

end Turn

/-! ## The build's own sizes

With the sizes of the DIBAS build the byte copies are the word copies of the ring. -/

/-- Byte `k` of a word. -/
def byteOf (word k : Nat) : Nat := word / 256 ^ k % 256

def Frame.payloadByte (f : Frame) (n : Nat) : Nat := byteOf (f.payload (n / 8)) (n % 8)

/-- Byte `n` of `block[b].data`. -/
def dataByte (b : Nat) (mem : Mem) (n : Nat) : Nat := byteOf (mem (.data b (n / 8))) (n % 8)

/-- The sizes of a DIBAS build whose blocks are whole packets. -/
def Turn.ofMacros (m : Macros) (whole : 4 ∣ m.nTimeSamples) (pos : 0 < m.nTimeSamples) : Turn where
  nTimeSamples := m.nTimeSamples
  nCoarseChan := 512
  nSpectraPerPacket := 4
  nSubspectraPerSpectrum := 8
  nPolsPerBeam := 2
  nBytesPerSample := 2
  time_pos := pos
  spectra_pos := by decide
  sub_pos := by decide
  spectra_dvd := whole
  sub_dvd := by decide
  words := by decide

section Ring

variable {m : Macros} (dibas : m.source = .dibas) (whole : 4 ∣ m.nTimeSamples)
  (pos : 0 < m.nTimeSamples)
include dibas

/-- The copies of a packet, in words and in bytes. -/
theorem copyPieces_inParts (f : Frame) (b : Nat) :
    List.Forall₂ (Copy.Piece.InParts 8 (m.dataAddr b) byteOf) (copyPieces m f b)
      ((Turn.ofMacros m whole pos).pieces f.payloadByte (getHeader m f).mcnt) := by
  have bytes := m.subWords_dibas dibas
  simp only [copyPieces, dibas, Turn.pieces]
  apply List.rel_flatMap (R := Eq)
  · simp only [Macros.nSpectraPerPacket, dibas, Turn.ofMacros]
    exact List.forall₂_refl _
  · rintro spectrum _ rfl
    rw [List.forall₂_map_left_iff, List.forall₂_map_right_iff]
    simp only [Macros.nSubspectraPerSpectrum, dibas, Turn.ofMacros]
    rw [List.forall₂_same]
    intro sub _
    refine ⟨⟨_, rfl, ?_⟩, ?_, ?_⟩
    · simp only [Turn.piece, Turn.sampleOf, Turn.nFineChan, Turn.nBytesPerSubspectrum, bytes,
        Macros.nFineChan, Macros.nSpectraPerPacket, dibas]
    · simp only [Turn.piece, Turn.nBytesPerSubspectrum, subspectrumPiece, bytes]
    · intro j _
      have word (x : Nat) : (8 * x + j) / 8 = x + j / 8 ∧ (8 * x + j) % 8 = j % 8 := by omega
      simp only [Turn.piece, Turn.nBytesPerSubspectrum, Frame.payloadByte, word]
      rw [subspectrumPiece]
      simp only [bytes, Macros.nSubspectraPerSpectrum, dibas]

/-- Storing a packet does to the bytes of its block what the byte copies do. -/
theorem dataByte_copyPayload (f : Frame) (b : Nat) (mem : Mem) :
    dataByte b ((Effect.copyPayload b f).apply m mem) = Copy.copyAll id
      ((Turn.ofMacros m whole pos).pieces f.payloadByte (getHeader m f).mcnt) (dataByte b mem) := by
  funext n
  exact Copy.copyAll_inParts (copyPieces_inParts dibas whole pos f b) (by decide) rfl rfl

theorem dataByte_storeAll (frames : List Frame) (b : Nat) (mem : Mem) :
    dataByte b (frames.foldl (fun mem f => (Effect.copyPayload b f).apply m mem) mem) =
      (Turn.ofMacros m whole pos).storeAll (dataByte b mem)
        (frames.map fun f => ((getHeader m f).mcnt, f.payloadByte)) := by
  induction frames generalizing mem with
  | nil => rfl
  | cons f frames ih =>
    rw [List.foldl_cons, ih, dataByte_copyPayload dibas whole pos]
    rfl

/-- What log_rms reads of a block of the ring, after its packets were stored in any order. -/
theorem ring_corner_turn {start : Nat} (block : m.nm ∣ start) (mcnt : start + m.nm ≤ 2 ^ 56)
    (mem : Mem) (b : Nat) (frames : List Frame)
    (order : (frames.map fun f => (getHeader m f).mcnt).Perm ((List.range m.nm).map (start + ·)))
    {c t j : Nat} (hc : c < 512) (ht : t < m.nTimeSamples) (hj : j < 4) {f : Frame}
    (mine : f ∈ frames) (hf : (getHeader m f).mcnt = start + t / 4) :
    dataByte b (frames.foldl (fun mem f => (Effect.copyPayload b f).apply m mem) mem)
        ((Turn.ofMacros m whole pos).rmsAddr c t + j) =
      f.payloadByte ((t % 4 * 512 + c) * 4 + j) := by
  have nm : m.nm = (Turn.ofMacros m whole pos).nm := by
    simp only [Macros.nm, Macros.nSpectraPerPacket, dibas]
    rfl
  rw [nm] at block mcnt order
  have unwrapped := Turn.unwrapped_of_mcnt mcnt (show 4 ≤ 256 by decide)
  rw [dataByte_storeAll dibas whole pos]
  apply Turn.storeAll_read block unwrapped _ _ hc ht _ hj
  · rwa [List.map_map]
  · exact List.mem_map.mpr ⟨f, mine, by rw [hf]; rfl⟩

end Ring

/-! ## Sizes that fit and sizes that do not -/

/-- 384 spectra a packet, two packets a block. -/
def wideTurn : Turn where
  nTimeSamples := 768
  nCoarseChan := 2
  nSpectraPerPacket := 384
  nSubspectraPerSpectrum := 1
  nPolsPerBeam := 2
  nBytesPerSample := 2
  time_pos := by decide
  spectra_pos := by decide
  sub_pos := by decide
  spectra_dvd := by decide
  sub_dvd := by decide
  words := by decide

/-- 1536 spectra a packet, two packets a block. -/
def wholeTurn : Turn where
  nTimeSamples := 3072
  nCoarseChan := 2
  nSpectraPerPacket := 1536
  nSubspectraPerSpectrum := 1
  nPolsPerBeam := 2
  nBytesPerSample := 2
  time_pos := by decide
  spectra_pos := by decide
  sub_pos := by decide
  spectra_dvd := by decide
  sub_dvd := by decide
  words := by decide

/-- At mcnt 2^55 the numbers of its spectra have wrapped three times, by whole blocks. -/
theorem corner_turn_whole : wholeTurn.Agrees (2 ^ 55) :=
  (Turn.corner_turn wholeTurn (by decide)).mpr
    (.inr ⟨by decide, Turn.unwrapped_of_laps 3 (by decide) (by decide) (by decide)⟩)

/-- Channels of two bytes. -/
def narrowTurn : Turn where
  nTimeSamples := 2
  nCoarseChan := 4
  nSpectraPerPacket := 1
  nSubspectraPerSpectrum := 1
  nPolsPerBeam := 1
  nBytesPerSample := 2
  time_pos := by decide
  spectra_pos := by decide
  sub_pos := by decide
  spectra_dvd := by decide
  sub_dvd := by decide
  words := by decide

/-- In the last block of 56-bit mcnts the numbers of the spectra lose 2^64, which is no multiple
of 768. And the second byte that log_rms squares is the next channel's if a channel has two. -/
theorem corner_turn_fails :
    (wideTurn.nm ∣ 2 ^ 56 - 2 ∧ ¬ wideTurn.Agrees (2 ^ 56 - 2)) ∧
    (narrowTurn.nm ∣ 0 ∧ ¬ narrowTurn.Agrees 0) := by
  refine ⟨⟨by decide, fun agrees => ?_⟩, by decide, fun agrees => ?_⟩
  · have lost := agrees.unwrapped (by decide) (by decide) 0 (by decide) 0 (by decide)
    revert lost
    decide
  · have wide := agrees.wide (by decide)
    revert wide
    decide

end S6Reobs
