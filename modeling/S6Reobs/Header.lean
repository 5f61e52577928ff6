import S6Reobs.Layout

/-! Frames as the packet socket delivers them, and get_header. Every length
that run() lets through is a multiple of 8, so a payload is read in words. -/

namespace S6Reobs

open Word

/-- What the code reads of a frame: PKT_UDP_SIZE, the length field of the UDP
header, and the words from PKT_UDP_DATA on, loaded little-endian. The words past
the datagram are what earlier packets left in the frame. -/
structure Frame where
  udpSize : Nat
  udpWord : Nat → Nat
  udpSize_lt : udpSize < 2 ^ 16
  udpWord_lt : ∀ k, udpWord k < 2 ^ 64

/-- A frame from its first words, zero beyond them. -/
def Frame.ofWords (udpSize : Nat) (words : List Nat) : Frame where
  udpSize := udpSize % 2 ^ 16
  udpWord k := words.getD k 0 % 2 ^ 64
  udpSize_lt := Nat.mod_lt _ (by decide)
  udpWord_lt k := Nat.mod_lt _ (by decide)

/-- The payload starts after the 8-byte header word. -/
def Frame.payload (f : Frame) (w : Nat) : Nat := f.udpWord (1 + w)

structure PacketHeader where
  mcnt : Nat
  pchan : Nat
  nchan : Nat
  sid : Nat
  deriving DecidableEq, Repr

/-- A big-endian word that was loaded little-endian. -/
def be64toh (x : Nat) : Nat :=
  (List.range 8).foldl (fun acc i => acc * 256 + x / 256 ^ i % 256) 0

/-- The FAST source id: bits 1 to 5 are the beam, counted from 1, bit 0 the pol. -/
def fastSid (rawSid : Nat) : Nat :=
  let beam := (rawSid &&& 0x3e) >>> 1
  let pol := rawSid &&& 0x01
  u64 (((beam : Int) - 1) * 2 + pol)

def getHeader (m : Macros) (f : Frame) : PacketHeader :=
  match m.source with
  | .s6 =>
    let raw := be64toh (f.udpWord 0)
    { mcnt := raw >>> 16
      pchan := (raw >>> 4) &&& 0x0000000000000FFF
      nchan := u32 (f.udpSize - 3 * 8) / m.nBytesPerChan / m.nSpectraPerPacket
      sid := raw &&& 0x000000000000000F }
  | .dibas =>
    let raw := be64toh (f.udpWord 0)
    { mcnt := raw &&& 0x00FFFFFFFFFFFFFF
      pchan := (raw >>> 56) * m.nCoarseChan
      nchan := u32 (f.udpSize - 5 * 8) / m.nBytesPerChan / m.nSpectraPerPacket
      sid := raw >>> 56 }
  | .fast =>
    let raw := f.udpWord 0
    { mcnt := raw &&& 0x00FFFFFFFFFFFFFF
      pchan := 0
      nchan := u32 (f.udpSize - 3 * 8) / m.nBytesPerChan / m.nSpectraPerPacket
      sid := fastSid (raw >>> 56) }

theorem be64toh_lt (x : Nat) : be64toh x < 2 ^ 64 := by
  simp only [be64toh, List.range, List.range.loop, List.foldl]
  omega

/-- The counter is 48 bits wide in the S6 header and 56 in the others. -/
theorem getHeader_mcnt_lt (m : Macros) (f : Frame) : (getHeader m f).mcnt < 2 ^ 56 := by
  have low (raw : Nat) : raw &&& 0x00FFFFFFFFFFFFFF < 2 ^ 56 :=
    Nat.and_lt_two_pow raw (by decide)
  unfold getHeader
  split
  · have := be64toh_lt (f.udpWord 0)
    simp only [Nat.shiftRight_eq_div_pow]
    omega
  · exact low _
  · exact low _

theorem beamBits_le (rawSid : Nat) : (rawSid &&& 0x3e) >>> 1 ≤ 31 := by
  have := Nat.and_le_right (n := rawSid) (m := 0x3e)
  rw [Nat.shiftRight_eq_div_pow]
  omega

/-- Beams count from 1 in the raw header and from 0 in the source id. -/
theorem fastSid_eq {rawSid beam pol : Nat} (hb : (rawSid &&& 0x3e) >>> 1 = beam)
    (hq : rawSid &&& 0x01 = pol) (one : 1 ≤ beam) : fastSid rawSid = 2 * (beam - 1) + pol := by
  have beam_le := beamBits_le rawSid
  have pol_le : rawSid &&& 0x01 ≤ 1 := Nat.and_le_right
  have small : u64 ((2 * (beam - 1) + pol : Nat) : Int) = 2 * (beam - 1) + pol :=
    u64_of_lt (by omega)
  have value : ((beam : Int) - 1) * 2 + pol = ((2 * (beam - 1) + pol : Nat) : Int) := by omega
  simp only [fastSid, hb, hq, value, small]

end S6Reobs
