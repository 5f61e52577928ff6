import S6Reobs.MainLoop

/-! How far a copy reaches. The size test admits packets with room for a CRC word
and two interframe gaps; what is copied is the packet less its own overhead, so
the longest admitted packets reach past their slot. -/

namespace S6Reobs

open Word

/-- First byte, within a block's data, of the slot of a packet. The DIBAS layout
has no slots of contiguous bytes. -/
def slotStart (m : Macros) (hdr : PacketHeader) : Nat :=
  match m.source with
  | .s6 => (hdr.sid * m.nm + hdr.mcnt % m.nm) * (m.nCoarseChan * m.nBytesPerChan)
  | .dibas => 0
  | .fast => hdr.mcnt % m.nm * m.nSpectraPerPacket

def slotLength (m : Macros) : Nat :=
  match m.source with
  | .s6 => m.nCoarseChan * m.nBytesPerChan
  | .dibas => 0
  | .fast => m.nSpectraPerPacket

/-- What the copy leaves out of `packet_size`: the header word and, in the S6
build, the CRC word. -/
def copyOverhead (m : Macros) : Nat :=
  match m.source with
  | .s6 => 16
  | .dibas => 0
  | .fast => 8

/-- Word `k` of a block's data lies inside the slot. -/
def InSlot (m : Macros) (hdr : PacketHeader) (k : Nat) : Prop :=
  slotStart m hdr ≤ 8 * k ∧ 8 * k + 8 ≤ slotStart m hdr + slotLength m

/-- Every word that the call copies to lies inside the slot of the packet. -/
def WritesOwnSlot (m : Macros) (s : State) (a : Arrival) : Prop :=
  ∀ b f, .copyPayload b f ∈ (processPacket m s.thread a).effects →
    ∀ addr, (Effect.copyPayload b f).Writes m addr →
      m.dataAddr (blockForMcnt m (getHeader m a.frame).mcnt) ≤ addr ∧
      InSlot m (getHeader m a.frame)
        (addr - m.dataAddr (blockForMcnt m (getHeader m a.frame).mcnt))

/-- A stored packet is copied once, into its own block. -/
theorem stores_copies {m : Macros} {s : State} {a : Arrival} (stores : Stores m s a) (b : Nat)
    (f : Frame) : .copyPayload b f ∈ (processPacket m s.thread a).effects ↔
      b = blockForMcnt m (getHeader m a.frame).mcnt ∧ f = a.frame := by
  obtain ⟨window, known⟩ := stores
  constructor
  · intro mem
    obtain ⟨block, own, _⟩ := processPacket_copies mem
    exact ⟨block, own⟩
  · rintro ⟨rfl, rfl⟩
    obtain ⟨_, es, _, effects⟩ := processPacket_window_spec window
    rw [effects, storing_known known]
    simp [decFor, copyFor]

/-- The copied bytes of an accepted packet, in the builds with slots. -/
theorem copyBytes_accepted {m : Macros} {f : Frame} (layout : m.source = .s6 ∨ m.source = .fast)
    (accepted : Accepted m f) :
    copyBytes m f = 8 * copyWords m f ∧
    (8 * copyWords m f + copyOverhead m : Nat) = packetSize f := by
  have small := f.udpSize_lt
  simp only [Accepted, not_or, not_lt, ne_eq, not_not] at accepted
  obtain ⟨least, _, whole⟩ := accepted
  unfold packetSize at least whole ⊢
  rw [Int.tmod_eq_emod_of_nonneg (by omega)] at whole
  cases layout with
  | inl h =>
    have copied : (u64 ((f.udpSize : Int) - 8 - 8 - 8) : Int) = f.udpSize - 8 - 8 - 8 :=
      u64_of_range (by omega) (by omega)
    simp only [copyWords, copyBytes, copyOverhead, h]
    omega
  | inr h =>
    have copied : (u64 ((f.udpSize : Int) - 8 - 8) : Int) = f.udpSize - 8 - 8 :=
      u64_of_range (by omega) (by omega)
    simp only [copyWords, copyBytes, copyOverhead, h]
    omega

theorem slotLength_eq {m : Macros} (layout : m.source = .s6 ∨ m.source = .fast) :
    slotLength m = 8 * m.slotWords := by
  cases layout with
  | inl h => simp [slotLength, h, m.slotWords_s6 h, Macros.nCoarseChan, Macros.nBytesPerChan]
  | inr h => simp [slotLength, h, m.slotWords_fast h, Macros.nSpectraPerPacket]

theorem place_eq {m : Macros} (layout : m.source = .s6 ∨ m.source = .fast) (hdr : PacketHeader)
    (w : Nat) : 8 * place m hdr w = slotStart m hdr + 8 * w := by
  cases layout with
  | inl h =>
    simp only [place, slotStart, h, m.slotWords_s6 h, Macros.nCoarseChan, Macros.nBytesPerChan]
    omega
  | inr h =>
    simp only [place, slotStart, h, m.slotWords_fast h, Macros.nSpectraPerPacket]
    omega

/-- The copy in one piece, in the builds with slots. -/
theorem copyPieces_slot {m : Macros} (layout : m.source = .s6 ∨ m.source = .fast) (f : Frame)
    (b : Nat) : copyPieces m f b =
      [⟨m.dataAddr b + place m (getHeader m f) 0, copyWords m f, f.payload⟩] := by
  cases layout with
  | inl h => simp [copyPieces_s6 h, place, h]
  | inr h => simp [copyPieces_fast h, place, h]

/-- The copy stays in the slot exactly when it is no longer than the slot. -/
theorem writesOwnSlot_iff {m : Macros} (layout : m.source = .s6 ∨ m.source = .fast) {s : State}
    {a : Arrival} (stores : Stores m s a) :
    WritesOwnSlot m s a ↔ copyWords m a.frame ≤ m.slotWords := by
  have length := slotLength_eq layout
  have place_zero := place_eq layout (getHeader m a.frame) 0
  constructor
  · intro own
    by_contra long
    -- the first word past the slot is written
    obtain ⟨_, _, inside⟩ := own _ _ ((stores_copies stores _ _).mpr ⟨rfl, rfl⟩)
      (m.dataAddr (blockForMcnt m (getHeader m a.frame).mcnt) +
        place m (getHeader m a.frame) 0 + m.slotWords)
      ⟨_, by rw [copyPieces_slot layout]; exact List.mem_singleton_self _, by
        simp only [Copy.Piece.Covers]; omega⟩
    omega
  · rintro short b f copies addr ⟨p, hp, covers⟩
    obtain ⟨rfl, rfl⟩ := (stores_copies stores b f).mp copies
    rw [copyPieces_slot layout, List.mem_singleton] at hp
    subst hp
    simp only [Copy.Piece.Covers] at covers
    exact ⟨by omega, by omega, by omega⟩

/-- An accepted packet that is stored stays in its slot exactly when it is no longer
than the slot and its overhead; then nothing outside the slot is modified. -/
theorem accepted_own_slot_iff {m : Macros} (layout : m.source = .s6 ∨ m.source = .fast)
    {packets : Nat} (samples : m.nTimeSamples = m.nSpectraPerPacket * packets)
    (pos : 0 < packets) (blocks : 0 < m.nInputBlocks) {s : State} {a : Arrival}
    (accepted : Accepted m a.frame) (stores : Stores m s a) :
    (WritesOwnSlot m s a ↔ packetSize a.frame ≤ (slotLength m + copyOverhead m : Nat)) ∧
    (packetSize a.frame ≤ (slotLength m + copyOverhead m : Nat) →
      ∀ b f, .copyPayload b f ∈ (processPacket m s.thread a).effects →
        ∀ mem (l : Loc), l.Valid m →
          (∀ k, InSlot m (getHeader m a.frame) k →
            l ≠ .data (blockForMcnt m (getHeader m a.frame).mcnt) k) →
          (Effect.copyPayload b f).apply m mem l = mem l) := by
  have nm : 0 < m.nm := by
    have spectra : 0 < m.nSpectraPerPacket := by
      unfold Macros.nSpectraPerPacket
      split <;> decide
    rw [Macros.nm, samples, Nat.mul_div_cancel_left _ spectra]
    exact pos
  obtain ⟨whole, size⟩ := copyBytes_accepted layout accepted
  have length := slotLength_eq layout
  have within : packetSize a.frame ≤ (slotLength m + copyOverhead m : Nat) ↔
      copyWords m a.frame ≤ m.slotWords := by omega
  rw [within]
  refine ⟨writesOwnSlot_iff layout stores, ?_⟩
  intro short b f copies mem l valid outside
  obtain ⟨rfl, rfl⟩ := (stores_copies stores b f).mp copies
  have fits : Fits m a.frame := by rw [fits_iff]; omega
  refine copyPayload_frame nm mem (Nat.mod_lt _ blocks) fits stores.2 valid ?_
  intro w hw
  have place_w := place_eq layout (getHeader m a.frame) w
  exact outside _ ⟨by omega, by omega⟩

theorem accepted_own_slot_full :
    WritesOwnSlot fastSmall.toMacros (State.start fastSmall.toMacros (fun _ => 0) fun _ => .free)
      (fastPacket (2 ^ 57 + 1)) :=
  have two : fastSmall.nTimeSamples = fastSmall.nSpectraPerPacket * 2 := rfl
  (accepted_own_slot_iff (.inr rfl) two (by decide) (by decide) (by decide)
    ⟨by decide, by decide⟩).1.mpr (by decide)

/-- The longest packet the FAST size test admits, for the last slot of block 0. -/
def fastLongest : Arrival where
  frame :=
    { udpSize := 4136
      udpWord := fun k => if k = 0 then 2 ^ 57 + 1 else 7
      udpSize_lt := by decide
      udpWord_lt := fun k => by split <;> decide }
  now := ⟨0, 0⟩

/-- It is accepted and stored, and its last words are the new header.mcnt, coarse_chan_id
and num_coarse_chan of block 1. -/
theorem longest_overwrites_header :
    Accepted fastSmall.toMacros fastLongest.frame ∧
    Stores fastSmall.toMacros (State.start fastSmall.toMacros (fun _ => 0) fun _ => .free)
      fastLongest ∧
    ¬ WritesOwnSlot fastSmall.toMacros
      (State.start fastSmall.toMacros (fun _ => 0) fun _ => .free) fastLongest ∧
    (State.start fastSmall.toMacros (fun _ => 0) fun _ => .free).ring.mem (.header 1 .mcnt) = 2 ∧
    ((State.start fastSmall.toMacros (fun _ => 0) fun _ => .free).call fastSmall.toMacros
      fastLongest).ring.mem (.header 1 .mcnt) = 7 := by
  have stores : Stores fastSmall.toMacros
      (State.start fastSmall.toMacros (fun _ => 0) fun _ => .free) fastLongest :=
    ⟨by decide, by decide⟩
  refine ⟨by decide, stores, ?_, by decide +kernel, by decide +kernel⟩
  rw [writesOwnSlot_iff (.inr rfl) stores]
  decide

end S6Reobs
