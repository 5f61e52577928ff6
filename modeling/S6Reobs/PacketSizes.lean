import S6Reobs.Overflow

/-! The sizes that run() lets through, against what get_header and the copy make of them.
The size test, the channel count and the copy each allow for overhead of their own. -/

namespace S6Reobs

open Word

/-! ## The channel count -/

/-- What get_header takes off PKT_UDP_SIZE. -/
def headerOverhead (m : Macros) : Nat :=
  match m.source with
  | .s6 => 3 * 8
  | .dibas => 5 * 8
  | .fast => 3 * 8

/-- The bytes that the copy of a packet moves. -/
def copiedBytes (m : Macros) (f : Frame) (b : Nat) : Nat :=
  ((copyPieces m f b).map fun p => 8 * p.len).sum

/-- The channel count of the header describes what is stored. -/
structure ChannelsMatch (m : Macros) (f : Frame) (b : Nat) : Prop where
  no_underflow : headerOverhead m ≤ f.udpSize
  bounded : (getHeader m f).nchan ≤ m.nCoarseChan
  stored : (getHeader m f).nchan * m.nBytesPerChan * m.nSpectraPerPacket = copiedBytes m f b

/-- The sizes for which it does: S6 packets with no more than the CRC word beyond a full
payload, DIBAS packets with two interframe gaps, and no FAST packet. -/
def ChannelsFit (m : Macros) (f : Frame) : Prop :=
  match m.source with
  | .s6 => packetSize f ≤ 8 + m.slotBytes + 8
  | .dibas => packetSize f = maxPacketSize m
  | .fast => False

theorem maxPacketSize_eq (m : Macros) : maxPacketSize m = m.slotBytes + 32 := by
  unfold maxPacketSize Macros.slotBytes
  omega

theorem slotBytes_source (m : Macros) : m.slotBytes = match m.source with
    | .s6 => 1280
    | .dibas => 8192
    | .fast => 4096 := by
  unfold Macros.slotBytes Macros.nCoarseChan Macros.nBytesPerChan Macros.nSpectraPerPacket
  cases m.source <;> rfl

/-- The bounds and the alignment that the size test gives. -/
theorem Accepted.bounds {m : Macros} {f : Frame} (accepted : Accepted m f) :
    24 ≤ f.udpSize ∧ f.udpSize ≤ m.slotBytes + 40 ∧ f.udpSize % 8 = 0 := by
  simp only [Accepted, not_or, Int.not_lt, Nat.not_lt, ne_eq, not_not] at accepted
  obtain ⟨lo, hi, aligned⟩ := accepted
  have small := f.udpSize_lt
  have size : u64 (packetSize f) = f.udpSize - 8 := by
    unfold packetSize u64 at *
    omega
  rw [size, maxPacketSize_eq] at hi
  unfold packetSize at lo aligned
  rw [Int.tmod_eq_emod_of_nonneg (by omega)] at aligned
  omega

theorem copiedBytes_dibas {m : Macros} (source : m.source = .dibas) (f : Frame) (b : Nat) :
    copiedBytes m f b = m.slotBytes := by
  rw [slotBytes_source, source]
  simp [copiedBytes, copyPieces, subspectrumPiece, m.subWords_dibas source, source,
    Macros.nSpectraPerPacket, Macros.nSubspectraPerSpectrum, List.range, List.range.loop]

/-- S6 and FAST copy what the packet has beyond its header and the last words. -/
theorem copiedBytes_length {m : Macros} (source : m.source ≠ .dibas) {f : Frame}
    (accepted : Accepted m f) (b : Nat) : copiedBytes m f b = copyBytes m f := by
  obtain ⟨lo, _, aligned⟩ := accepted.bounds
  cases build : m.source with
  | dibas => exact absurd build source
  | s6 | fast =>
    simp only [copiedBytes, copyPieces, build, copyBytes, List.map_cons, List.map_nil,
      List.sum_cons, List.sum_nil, u64]
    omega

/-- The channel count, where its subtraction does not wrap. -/
theorem nchan_eq {m : Macros} {f : Frame} (room : headerOverhead m ≤ f.udpSize) :
    (getHeader m f).nchan =
      (f.udpSize - headerOverhead m) / m.nBytesPerChan / m.nSpectraPerPacket := by
  have small := f.udpSize_lt
  unfold headerOverhead at room ⊢
  cases source : m.source <;> simp only [source] at room ⊢ <;>
    simp only [getHeader, source, Macros.nBytesPerChan, Macros.nSpectraPerPacket, u32] <;> omega

theorem channelsMatch_s6 {m : Macros} (source : m.source = .s6) {f : Frame} {b : Nat}
    (accepted : Accepted m f) :
    ChannelsMatch m f b ↔ packetSize f ≤ 8 + m.slotBytes + 8 := by
  obtain ⟨lo, hi, aligned⟩ := accepted.bounds
  have slot := slotBytes_source m
  simp only [source] at slot
  have room : headerOverhead m ≤ f.udpSize := by simpa [headerOverhead, source] using lo
  have count := nchan_eq room
  have bytes := copiedBytes_length (by simp [source]) accepted b
  simp only [headerOverhead, Macros.nBytesPerChan, Macros.nSpectraPerPacket, source] at count
  simp only [copyBytes, source, u64] at bytes
  have chans : m.nCoarseChan = 320 := by simp [Macros.nCoarseChan, source]
  simp only [slot, packetSize]
  constructor
  · intro right
    have bounded := right.bounded
    omega
  · intro fits
    refine ⟨room, by omega, ?_⟩
    simp only [count, bytes, Macros.nBytesPerChan, Macros.nSpectraPerPacket, source]
    omega

theorem channelsMatch_dibas {m : Macros} (source : m.source = .dibas) {f : Frame} {b : Nat}
    (accepted : Accepted m f) : ChannelsMatch m f b ↔ packetSize f = maxPacketSize m := by
  obtain ⟨lo, hi, aligned⟩ := accepted.bounds
  have slot := slotBytes_source m
  simp only [source] at slot
  have bytes := copiedBytes_dibas source f b
  have overhead : headerOverhead m = 40 := by simp [headerOverhead, source]
  have chans : m.nCoarseChan = 512 := by simp [Macros.nCoarseChan, source]
  simp only [slot, packetSize, maxPacketSize_eq]
  constructor
  · intro right
    have room := right.no_underflow
    have stored := right.stored
    simp only [nchan_eq room, overhead, bytes, slot, Macros.nBytesPerChan,
      Macros.nSpectraPerPacket, source] at stored
    omega
  · intro full
    have room : headerOverhead m ≤ f.udpSize := by omega
    have count := nchan_eq room
    simp only [overhead, Macros.nBytesPerChan, Macros.nSpectraPerPacket, source] at count
    refine ⟨room, by omega, ?_⟩
    simp only [count, bytes, slot, Macros.nBytesPerChan, Macros.nSpectraPerPacket, source]
    omega

theorem not_channelsMatch_fast {m : Macros} (source : m.source = .fast) {f : Frame} {b : Nat}
    (accepted : Accepted m f) : ¬ ChannelsMatch m f b := by
  obtain ⟨lo, hi, aligned⟩ := accepted.bounds
  have room : headerOverhead m ≤ f.udpSize := by simpa [headerOverhead, source] using lo
  have count := nchan_eq room
  have bytes := copiedBytes_length (by simp [source]) accepted b
  simp only [headerOverhead, Macros.nBytesPerChan, Macros.nSpectraPerPacket, source] at count
  simp only [copyBytes, source, u64] at bytes
  intro right
  have stored := right.stored
  simp only [count, bytes, Macros.nBytesPerChan, Macros.nSpectraPerPacket, source] at stored
  omega

/-- For the frames that the size test lets through, the channel count is right for exactly
these sizes. -/
theorem channels_match_iff (m : Macros) (f : Frame) (b : Nat) (accepted : Accepted m f) :
    ChannelsMatch m f b ↔ ChannelsFit m f := by
  cases source : m.source with
  | s6 => simpa only [ChannelsFit, source] using channelsMatch_s6 source accepted
  | dibas => simpa only [ChannelsFit, source] using channelsMatch_dibas source accepted
  | fast =>
    simp only [ChannelsFit, source, iff_false]
    exact not_channelsMatch_fast source accepted

/-- A full packet of the S6 build. -/
theorem channels_match_full : Accepted s6Small.toMacros (.ofWords (8 + 8 + 1280 + 8) []) ∧
    (ChannelsMatch s6Small.toMacros (.ofWords (8 + 8 + 1280 + 8) []) 0 ↔
      ChannelsFit s6Small.toMacros (.ofWords (8 + 8 + 1280 + 8) [])) :=
  ⟨by decide, channels_match_iff _ _ 0 (by decide)⟩

/-- The size of every full packet of the FAST build gives no channel. -/
theorem fast_counts_no_channel : Accepted fastSmall.toMacros (fastPacket (2 ^ 57)).frame ∧
    (getHeader fastSmall.toMacros (fastPacket (2 ^ 57)).frame).nchan = 0 ∧
    copiedBytes fastSmall.toMacros (fastPacket (2 ^ 57)).frame 0 = 4096 ∧
    ¬ ChannelsMatch fastSmall.toMacros (fastPacket (2 ^ 57)).frame 0 := by
  have count : (getHeader fastSmall.toMacros (fastPacket (2 ^ 57)).frame).nchan = 0 := by
    decide +kernel
  have bytes : copiedBytes fastSmall.toMacros (fastPacket (2 ^ 57)).frame 0 = 4096 := by
    decide +kernel
  refine ⟨by decide, count, bytes, ?_⟩
  intro right
  have stored := right.stored
  rw [count, bytes] at stored
  simp at stored

/-! ## What the DIBAS copy reads -/

/-- The word of the UDP data that is word `j` of a sub-spectrum, where the copy looks for it. -/
def subspectrumSource (m : Macros) (spectrum sub j : Nat) : Nat :=
  1 + ((spectrum * m.nSubspectraPerSpectrum + sub) * (m.nBytesPerSubspectrum / 8) + j)

theorem subspectrumPiece_src (m : Macros) (f : Frame) (mcnt b spectrum sub j : Nat) :
    (subspectrumPiece m f mcnt b spectrum sub).src j =
      f.udpWord (subspectrumSource m spectrum sub j) := rfl

/-- Every word that the call's copy loops read lies behind the header word and inside the
UDP data of the packet. -/
def ReadsOwnData (m : Macros) (s : State) (a : Arrival) : Prop :=
  ∀ b f, .copyPayload b f ∈ (processPacket m s.thread a).effects →
    ∀ spectrum < m.nSpectraPerPacket, ∀ sub < m.nSubspectraPerSpectrum,
    ∀ j < m.nBytesPerSubspectrum / 8,
      8 ≤ 8 * subspectrumSource m spectrum sub j ∧
      ((8 * subspectrumSource m spectrum sub j + 8 : Nat) : Int) ≤ packetSize f

/-- The last word of the last sub-spectrum bounds the size from below. -/
theorem ReadsOwnData.full {m : Macros} (dibas : m.source = .dibas) {s : State} {a : Arrival}
    (stores : Stores m s a) (reads : ReadsOwnData m s a) :
    ((8 + m.slotBytes : Nat) : Int) ≤ packetSize a.frame := by
  have slot := slotBytes_source m
  simp only [dibas] at slot
  simp only [ReadsOwnData, subspectrumSource, m.subWords_dibas dibas,
    Macros.nSpectraPerPacket, Macros.nSubspectraPerSpectrum, dibas] at reads
  have copied := (stores_copies stores _ a.frame).mpr ⟨rfl, rfl⟩
  have last := reads _ a.frame copied 3 (by decide) 7 (by decide) 31 (by decide)
  omega

/-- The frames hold the same datagram; what lies behind it may differ. -/
structure SameDatagram (f f' : Frame) : Prop where
  size : f.udpSize = f'.udpSize
  word : ∀ w : Nat, ((8 * w + 8 : Nat) : Int) ≤ packetSize f → f.udpWord w = f'.udpWord w

section SameDatagram

variable {f f' : Frame} (same : SameDatagram f f')
include same

theorem SameDatagram.getHeader (m : Macros) (lo : 8 ≤ packetSize f) :
    getHeader m f = S6Reobs.getHeader m f' := by
  have first := same.word 0 (by omega)
  simp only [S6Reobs.getHeader, first, same.size]

/-- A DIBAS packet that holds a full payload leaves the same memory whatever follows it. -/
theorem SameDatagram.copyPayload {m : Macros} (dibas : m.source = .dibas)
    (full : ((8 + m.slotBytes : Nat) : Int) ≤ packetSize f) (b : Nat) (mem : Mem) :
    (Effect.copyPayload b f).apply m mem = (Effect.copyPayload b f').apply m mem := by
  have header := same.getHeader m (by omega)
  have slot := slotBytes_source m
  have bytes := m.subWords_dibas dibas
  simp only [dibas] at slot
  apply Copy.copyAll_same
  simp only [copyPieces, dibas, ← header]
  apply List.rel_flatMap (R := fun x y => x = y ∧ x < 4)
  · rw [List.forall₂_same]
    intro spectrum hs
    have hs := List.mem_range.mp hs
    simp only [Macros.nSpectraPerPacket, dibas] at hs
    exact ⟨rfl, hs⟩
  · rintro spectrum _ ⟨rfl, hs⟩
    rw [List.forall₂_map_left_iff, List.forall₂_map_right_iff, List.forall₂_same]
    intro sub hsub
    have hsub := List.mem_range.mp hsub
    simp only [Macros.nSubspectraPerSpectrum, dibas] at hsub
    refine ⟨rfl, rfl, ?_⟩
    intro j hj
    simp only [subspectrumPiece, bytes] at hj
    simp only [subspectrumPiece_src]
    apply same.word
    simp only [subspectrumSource, bytes, Macros.nSubspectraPerSpectrum, dibas]
    omega

end SameDatagram

/-- The copy of a stored DIBAS packet stays inside the packet for exactly the sizes that hold
a full payload, and at those sizes nothing that follows the datagram is stored. -/
theorem reads_own_data_iff {m : Macros} (dibas : m.source = .dibas) {s : State} {a : Arrival}
    (stores : Stores m s a) :
    (ReadsOwnData m s a ↔ ((8 + m.slotBytes : Nat) : Int) ≤ packetSize a.frame) ∧
    (((8 + m.slotBytes : Nat) : Int) ≤ packetSize a.frame → ∀ f, SameDatagram a.frame f →
      ∀ b mem, (Effect.copyPayload b a.frame).apply m mem =
        (Effect.copyPayload b f).apply m mem) := by
  refine ⟨⟨fun reads => reads.full dibas stores, ?_⟩,
    fun full f same => same.copyPayload dibas full⟩
  intro full b f copy spectrum hs sub hsub j hj
  obtain ⟨_, rfl⟩ := (stores_copies stores b f).mp copy
  have slot := slotBytes_source m
  simp only [dibas] at slot
  simp only [Macros.nSpectraPerPacket, dibas] at hs
  simp only [Macros.nSubspectraPerSpectrum, dibas] at hsub
  simp only [m.subWords_dibas dibas] at hj
  simp only [subspectrumSource, m.subWords_dibas dibas, Macros.nSubspectraPerSpectrum,
    dibas]
  omega

/-- The smallest packet that holds a full payload, with no CRC word, in a frame where an
earlier packet was longer. -/
theorem reads_own_data_full :
    let s := State.start dibasSmall.toMacros (fun _ => 0) (fun _ => .free)
    let a : Arrival := ⟨.ofWords (8 + 8 + 8192) [], ⟨0, 0⟩⟩
    let stale : Frame := ⟨8 + 8 + 8192, fun w => if w = 1025 then 7 else 0, by decide,
      by grind⟩
    ReadsOwnData dibasSmall.toMacros s a ∧ a.frame.udpWord 1025 ≠ stale.udpWord 1025 ∧
      ∀ b mem, (Effect.copyPayload b a.frame).apply dibasSmall.toMacros mem =
        (Effect.copyPayload b stale).apply dibasSmall.toMacros mem := by
  intro s a stale
  obtain ⟨reads, alike⟩ := reads_own_data_iff (m := dibasSmall.toMacros) (s := s) (a := a) rfl
    ⟨by decide +kernel, by decide +kernel⟩
  have same : SameDatagram a.frame stale := by
    refine ⟨rfl, ?_⟩
    intro w inside
    have hw : w ≠ 1025 := by
      simp only [packetSize, a, Frame.ofWords] at inside
      omega
    simp [a, stale, Frame.ofWords, hw]
  exact ⟨reads.mpr (by decide), by decide +kernel, alike (by decide) stale same⟩

/-- A packet of one word, in a frame where an earlier packet was longer. -/
theorem leftover_stored :
    let s := State.start dibasSmall.toMacros (fun _ => 0) (fun _ => .free)
    let clean : Arrival := ⟨.ofWords 24 [], ⟨0, 0⟩⟩
    let stale : Arrival := ⟨.ofWords 24 [0, 0, 7], ⟨0, 0⟩⟩
    Accepted dibasSmall.toMacros stale.frame ∧ Stores dibasSmall.toMacros s stale ∧
    SameDatagram clean.frame stale.frame ∧ ¬ ReadsOwnData dibasSmall.toMacros s stale ∧
    (s.call dibasSmall.toMacros clean).ring.mem (.data 0 1) = 0 ∧
    (s.call dibasSmall.toMacros stale).ring.mem (.data 0 1) = 7 := by
  intro s clean stale
  have stores : Stores dibasSmall.toMacros s stale := by
    constructor
    · decide +kernel
    · decide +kernel
  refine ⟨by decide, stores, ⟨rfl, ?_⟩, ?_, by decide +kernel, by decide +kernel⟩
  · intro w inside
    have hw : w = 0 ∨ w = 1 := by
      simp only [packetSize, clean, Frame.ofWords] at inside
      omega
    rcases hw with rfl | rfl <;> rfl
  · intro reads
    have full := reads.full rfl stores
    revert full
    decide

end S6Reobs
