import S6Reobs.Lib.FixedDigits
import S6Reobs.Ledger

/-! The header word of a packet on the wire, against get_header. -/

namespace S6Reobs

/-- The word that stands for these fields; the two highest bits of a FAST word are spare. -/
def headerWord (m : Macros) (mcnt pchan sid : Nat) : Nat :=
  match m.source with
  | .s6 => be64toh (mcnt * 2 ^ 16 + pchan * 2 ^ 4 + sid)
  | .dibas => be64toh (sid * 2 ^ 56 + mcnt)
  | .fast => (sid + 2) * 2 ^ 56 + mcnt

def wordBits : Source → Nat
  | .s6 | .dibas => 64
  | .fast => 62

/-- The fields a word can say. -/
def Sayable (m : Macros) (mcnt pchan sid : Nat) : Prop :=
  match m.source with
  | .s6 => mcnt < 2 ^ 48 ∧ pchan < 2 ^ 12 ∧ sid < 2 ^ 4
  | .dibas => mcnt < 2 ^ 56 ∧ pchan = sid * m.nCoarseChan ∧ sid < 2 ^ 8
  | .fast => mcnt < 2 ^ 56 ∧ pchan = 0 ∧ sid < 62

/-- The beams of the FAST packets are counted from 1. -/
def Beamed (m : Macros) (f : Frame) : Prop :=
  m.source = .fast → ((f.udpWord 0 >>> 56) &&& 0x3e) >>> 1 ≠ 0

theorem be64toh_eq_swap (x : Nat) : be64toh x = FixedDigits.swap 256 8 x :=
  FixedDigits.foldl_eq_swap 8 x

theorem be64toh_be64toh {x : Nat} (h : x < 2 ^ 64) : be64toh (be64toh x) = x := by
  rw [be64toh_eq_swap, be64toh_eq_swap, FixedDigits.swap_swap (by decide)]
  exact Nat.mod_eq_of_lt h

theorem be64toh_eq_iff {w x : Nat} (hw : w < 2 ^ 64) (hx : x < 2 ^ 64) :
    be64toh w = x ↔ w = be64toh x := by
  constructor
  · rintro rfl
    exact (be64toh_be64toh hw).symm
  · rintro rfl
    exact be64toh_be64toh hx

theorem and_mask (x k : Nat) : x &&& (2 ^ k - 1) = x % 2 ^ k := Nat.and_two_pow_sub_one_eq_mod x k

section

variable {m : Macros}

theorem s6_words (source : m.source = .s6) (f : Frame) (mcnt pchan sid : Nat) :
    ((getHeader m f).mcnt = mcnt ∧ (getHeader m f).pchan = pchan ∧ (getHeader m f).sid = sid) ↔
      Sayable m mcnt pchan sid ∧ f.udpWord 0 = headerWord m mcnt pchan sid := by
  have small := be64toh_lt (f.udpWord 0)
  have low (x : Nat) : x &&& 0x000000000000000F = x % 2 ^ 4 := and_mask x 4
  have mid (x : Nat) : x &&& 0x0000000000000FFF = x % 2 ^ 12 := and_mask x 12
  simp only [getHeader, Sayable, headerWord, source, low, mid, Nat.shiftRight_eq_div_pow]
  constructor
  · rintro ⟨rfl, rfl, rfl⟩
    refine ⟨by omega, ?_⟩
    rw [← be64toh_eq_iff (f.udpWord_lt 0) (by omega)]
    omega
  · rintro ⟨bounds, word⟩
    rw [← be64toh_eq_iff (f.udpWord_lt 0) (by omega)] at word
    omega

theorem dibas_words (source : m.source = .dibas) (f : Frame) (mcnt pchan sid : Nat) :
    ((getHeader m f).mcnt = mcnt ∧ (getHeader m f).pchan = pchan ∧ (getHeader m f).sid = sid) ↔
      Sayable m mcnt pchan sid ∧ f.udpWord 0 = headerWord m mcnt pchan sid := by
  have small := be64toh_lt (f.udpWord 0)
  have low (x : Nat) : x &&& 0x00FFFFFFFFFFFFFF = x % 2 ^ 56 := and_mask x 56
  simp only [getHeader, Sayable, headerWord, source, low, Nat.shiftRight_eq_div_pow]
  constructor
  · rintro ⟨rfl, rfl, rfl⟩
    refine ⟨⟨by omega, rfl, by omega⟩, ?_⟩
    rw [← be64toh_eq_iff (f.udpWord_lt 0) (by omega)]
    omega
  · rintro ⟨⟨_, rfl, _⟩, word⟩
    rw [← be64toh_eq_iff (f.udpWord_lt 0) (by omega)] at word
    have node : be64toh (f.udpWord 0) / 2 ^ 56 = sid := by omega
    exact ⟨by omega, by rw [node], node⟩

theorem beam_eq (x : Nat) : (x &&& 0x3e) >>> 1 = x / 2 % 32 := by
  rw [Nat.shiftRight_and_distrib, Nat.shiftRight_eq_div_pow]
  exact and_mask (x / 2) 5

theorem fast_words (source : m.source = .fast) (f : Frame) (mcnt pchan sid : Nat) :
    (((getHeader m f).mcnt = mcnt ∧ (getHeader m f).pchan = pchan ∧ (getHeader m f).sid = sid) ∧
      Beamed m f) ↔
      Sayable m mcnt pchan sid ∧ f.udpWord 0 % 2 ^ 62 = headerWord m mcnt pchan sid := by
  have small := f.udpWord_lt 0
  have low (x : Nat) : x &&& 0x00FFFFFFFFFFFFFF = x % 2 ^ 56 := and_mask x 56
  have pol (x : Nat) : x &&& 0x01 = x % 2 := and_mask x 1
  have beam (x : Nat) : (x &&& 0x3e) / 2 ^ 1 = x / 2 % 32 := by
    rw [← Nat.shiftRight_eq_div_pow, beam_eq]
  have rawSid (one : 1 ≤ f.udpWord 0 / 2 ^ 56 / 2 % 32) : fastSid (f.udpWord 0 / 2 ^ 56) =
      2 * (f.udpWord 0 / 2 ^ 56 / 2 % 32 - 1) + f.udpWord 0 / 2 ^ 56 % 2 :=
    fastSid_eq (beam_eq _) (pol _) one
  simp only [getHeader, Sayable, headerWord, Beamed, source, low, beam,
    Nat.shiftRight_eq_div_pow, forall_const]
  constructor
  · rintro ⟨⟨rfl, rfl, rfl⟩, one⟩
    rw [rawSid (by omega)]
    omega
  · rintro ⟨⟨bound, rfl, nodes⟩, word⟩
    rw [rawSid (by omega)]
    omega

/-- The packets of beam 0 have no source node. -/
theorem beamless_unknown (source : m.source = .fast) {f : Frame} (beamless : ¬ Beamed m f) :
    ¬ Known m f := by
  have zero : ((f.udpWord 0 >>> 56) &&& 0x3e) >>> 1 = 0 := by
    by_contra beam
    exact beamless fun _ => beam
  have pol : f.udpWord 0 >>> 56 &&& 0x01 ≤ 1 := Nat.and_le_right
  have sid : 2 ^ 64 - 2 ≤ fastSid (f.udpWord 0 >>> 56) := by
    simp only [fastSid, zero, Word.u64]
    omega
  have nodes : m.nSourceNodes < 2 ^ 64 - 2 := by
    simp [Macros.nSourceNodes, Macros.nBeams, source]
  simp only [Known, getHeader, source]
  omega

end

/-- get_header finds in a word just what the word was made of, and every word is made of
something, up to the spare bits and to the beam 0 of the FAST packets, which no source
node has. -/
theorem header_words (m : Macros) (f : Frame) :
    (∀ mcnt pchan sid, ((getHeader m f).mcnt = mcnt ∧ (getHeader m f).pchan = pchan ∧
      (getHeader m f).sid = sid) ∧ Beamed m f ↔ Sayable m mcnt pchan sid ∧
        f.udpWord 0 % 2 ^ wordBits m.source = headerWord m mcnt pchan sid) ∧
    (¬ Beamed m f → ¬ Known m f) := by
  have beamed (other : m.source ≠ .fast) : Beamed m f := fun fast => absurd fast other
  have whole : f.udpWord 0 % 2 ^ 64 = f.udpWord 0 := Nat.mod_eq_of_lt (f.udpWord_lt 0)
  cases source : m.source with
  | s6 =>
    have all := beamed (by rw [source]; decide)
    refine ⟨fun mcnt pchan sid => ?_, fun none => absurd all none⟩
    rw [wordBits, whole, and_iff_left all]
    exact s6_words source f mcnt pchan sid
  | dibas =>
    have all := beamed (by rw [source]; decide)
    refine ⟨fun mcnt pchan sid => ?_, fun none => absurd all none⟩
    rw [wordBits, whole, and_iff_left all]
    exact dibas_words source f mcnt pchan sid
  | fast => exact ⟨fast_words source f, beamless_unknown source⟩

end S6Reobs
