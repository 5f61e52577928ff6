import S6Reobs.FakeNet
import S6Reobs.NetThread

/-! header.missed_pkts outside the assembler: the metadata that run() of s6_gpu_thread.cpp passes
on, and the clearing in s6_fake_net_thread.cpp and s6_net_thread.cpp. A block is its words here,
from its header on. -/

namespace S6Reobs

/-- The fields of s6_output_block_header_t; there is a `sid` in the FAST build only. -/
inductive OutputField
  | mcnt | coarseChanId | numCoarseChan | sid | timeSec | timeNsec
  | missedPkts (i : Nat)
  | nhits (i : Nat)

variable (m : Macros)

def outputSidWords : Nat := match m.source with | .s6 => 0 | .dibas => 0 | .fast => 1

def OutputField.word : OutputField → Nat
  | .mcnt => 0
  | .coarseChanId => 1
  | .numCoarseChan => 2
  | .sid => 3
  | .timeSec => 3 + outputSidWords m
  | .timeNsec => 4 + outputSidWords m
  | .missedPkts i => 5 + outputSidWords m + i
  | .nhits i => 5 + outputSidWords m + m.nBors + i

/-- One assignment from the input header to the output header. -/
def passField (input : Nat → Nat) (src : Field) (dst : OutputField) (output : Nat → Nat) :
    Nat → Nat :=
  Function.update output (dst.word m) (input src.word)

/-- The memcpy of missed_pkts: N_BEAM_SLOTS words. -/
def missedPktsCopy (input : Nat → Nat) : Copy.Piece Nat where
  dest := OutputField.word m (.missedPkts 0)
  len := m.nBeamSlots
  src j := input ((Field.missedPkts 0).word + j)

/-- "pass input metadata to output". -/
def passMetadata (input output : Nat → Nat) : Nat → Nat :=
  let output := passField m input .mcnt .mcnt output
  let output := passField m input .coarseChanId .coarseChanId output
  let output := passField m input .numCoarseChan .numCoarseChan output
  let output := passField m input .timeSec .timeSec output
  let output := passField m input .timeNsec .timeNsec output
  let output := (missedPktsCopy m input).copy id output
  match m.source with
  | .s6 => output
  | .dibas => output
  | .fast => passField m input .sid .sid output

/-- Every counter arrives, and nhits and all words after it stay; the fields before
missed_pkts are all assigned. -/
structure PassesMissed (input output : Nat → Nat) : Prop where
  missed : ∀ i < m.nBors, passMetadata m input output (OutputField.word m (.missedPkts i)) =
    input (Field.missedPkts i).word
  nhits : ∀ w, OutputField.word m (.nhits 0) ≤ w → passMetadata m input output w = output w

/-- What the code forgets to write is there already, and so is what it writes too much. -/
structure TailsAgree (input output : Nat → Nat) : Prop where
  short : ∀ i, m.nBeamSlots ≤ i → i < m.nBors →
    input (Field.missedPkts i).word = output (OutputField.word m (.missedPkts i))
  excess : ∀ i, m.nBors ≤ i → i < m.nBeamSlots →
    input (Field.missedPkts i).word = output (OutputField.word m (.missedPkts i))

/-- The words are those of `block[b].header.missed_pkts`. -/
def Clears (b : Nat) (words : Nat → Prop) : Prop :=
  ∀ a, words a ↔ ∃ i < m.nBors, a = (Loc.header b (.missedPkts i)).addr m

/-- All three threads keep to the N_BORS counters, whatever the blocks hold. -/
structure KeepsToMissed (b : Nat) : Prop where
  gpu : ∀ input output, PassesMissed m input output
  fakeNet : Clears m b fun a => (FakeNet.Effect.clearMissedPkts b).Writes m a
  net : Clears m b (Net.missedPktsPiece m b).Covers

variable {m}

theorem passField_frame (input : Nat → Nat) (src : Field) (dst : OutputField)
    (output : Nat → Nat) {w : Nat} (before : dst.word m < w) :
    passField m input src dst output w = output w :=
  Function.update_of_ne (Nat.ne_of_gt before) _ _

theorem missedPktsCopy_at (input output : Nat → Nat) (i : Nat) :
    (missedPktsCopy m input).copy id output (OutputField.word m (.missedPkts i)) =
      if i < m.nBeamSlots then input (Field.missedPkts i).word
      else output (OutputField.word m (.missedPkts i)) := by
  simp [Copy.Piece.copy, Copy.Piece.Covers, missedPktsCopy, OutputField.word, Field.word]

/-- missed_pkts counted on past its end: the input header's pad comes next, and nhits. -/
theorem passMetadata_missed (input output : Nat → Nat) (i : Nat) :
    passMetadata m input output (OutputField.word m (.missedPkts i)) =
      if i < m.nBeamSlots then input (Field.missedPkts i).word
      else output (OutputField.word m (.missedPkts i)) := by
  cases source : m.source <;> simp only [passMetadata, source] <;>
    simp (disch := (simp only [OutputField.word, outputSidWords, source]; omega)) only
      [passField_frame, missedPktsCopy_at]

theorem passesMissed_iff (input output : Nat → Nat) :
    PassesMissed m input output ↔ TailsAgree m input output := by
  constructor
  · rintro ⟨missed, nhits⟩
    constructor
    · intro i short bound
      rw [← missed i bound, passMetadata_missed, if_neg (by omega)]
    · intro i bound copied
      rw [← nhits _ (by simp only [OutputField.word]; omega), passMetadata_missed, if_pos copied]
  · rintro ⟨short, excess⟩
    constructor
    · intro i bound
      rw [passMetadata_missed]
      by_cases copied : i < m.nBeamSlots
      · rw [if_pos copied]
      · rw [if_neg copied, short i (by omega) bound]
    · intro w behind
      simp only [OutputField.word] at behind
      have place : w = OutputField.word m (.missedPkts (w - (5 + outputSidWords m))) := by
        simp only [OutputField.word]
        omega
      rw [place, passMetadata_missed]
      by_cases copied : w - (5 + outputSidWords m) < m.nBeamSlots
      · rw [if_pos copied, excess _ (by omega) copied]
      · rw [if_neg copied]

/-- N_BEAM_SLOTS is 8 for 7 counters, 1 for 8, and 1 for 1. -/
theorem slots_eq_bors_iff : m.nBeamSlots = m.nBors ↔ m.source = .fast := by
  cases source : m.source <;>
    simp [Macros.nBeamSlots, Macros.nBors, Macros.nBeams, Macros.nSubspectraPerSpectrum, source]

theorem clears_iff {b : Nat} {words : Nat → Prop}
    (slots : ∀ a, words a ↔ (Loc.header b (.missedPkts 0)).addr m ≤ a ∧
      a < (Loc.header b (.missedPkts 0)).addr m + m.nBeamSlots) :
    Clears m b words ↔ m.source = .fast := by
  have addr (i : Nat) : (Loc.header b (.missedPkts i)).addr m =
      (Loc.header b (.missedPkts 0)).addr m + i := by
    simp only [Loc.addr, Field.word]
    omega
  rw [← slots_eq_bors_iff, ← Copy.extent_iff ((Loc.header b (.missedPkts 0)).addr m)]
  refine forall_congr' fun a => ?_
  rw [slots]
  refine iff_congr Iff.rfl (exists_congr fun i => ?_)
  rw [addr i]

theorem fakeNet_clears_iff (b : Nat) :
    Clears m b (fun a => (FakeNet.Effect.clearMissedPkts b).Writes m a) ↔ m.source = .fast :=
  clears_iff fun _ => Iff.rfl

theorem net_clears_iff (b : Nat) :
    Clears m b (Net.missedPktsPiece m b).Covers ↔ m.source = .fast :=
  clears_iff fun _ => Iff.rfl

/-- Only where N_BEAM_SLOTS is N_BORS do the threads keep to missed_pkts; the pass of metadata
does so for the blocks whose tails agree. -/
theorem missed_pkts_extent_iff (b : Nat) :
    (KeepsToMissed m b ↔ m.source = .fast) ∧
    (∀ input output, PassesMissed m input output ↔ TailsAgree m input output) ∧
    (Clears m b (fun a => (FakeNet.Effect.clearMissedPkts b).Writes m a) ↔ m.source = .fast) ∧
    (Clears m b (Net.missedPktsPiece m b).Covers ↔ m.source = .fast) := by
  have fakeNet := fakeNet_clears_iff (m := m) b
  have net := net_clears_iff (m := m) b
  have whole : KeepsToMissed m b ↔ m.source = .fast := by
    constructor
    · exact fun keeps => net.mp keeps.net
    · intro fast
      have same := slots_eq_bors_iff.mpr fast
      constructor
      · intro input output
        rw [passesMissed_iff]
        constructor <;> intros <;> omega
      · exact fakeNet.mpr fast
      · exact net.mpr fast
  exact ⟨whole, passesMissed_iff, fakeNet, net⟩

/-- A counter of the second subspectrum that does not arrive; a count of hits that does not
stay. -/
theorem missed_pkts_lost :
    let dibas : Macros := ⟨.dibas, 512 * 1024, 3⟩
    let s6 : Macros := ⟨.s6, 128 * 1024, 3⟩
    let lost (w : Nat) := if w = (Field.missedPkts 1).word then 3 else 0
    let found (w : Nat) := if w = OutputField.word s6 (.nhits 0) then 5 else 0
    passMetadata dibas lost (fun _ => 0) (OutputField.word dibas (.missedPkts 1)) = 0 ∧
    ¬ PassesMissed dibas lost (fun _ => 0) ∧
    passMetadata s6 (fun _ => 0) found (OutputField.word s6 (.nhits 0)) = 0 ∧
    ¬ PassesMissed s6 (fun _ => 0) found := by
  intro dibas s6 lost found
  have short : passMetadata dibas lost (fun _ => 0)
      (OutputField.word dibas (.missedPkts 1)) = 0 := by decide
  have excess : passMetadata s6 (fun _ => 0) found (OutputField.word s6 (.nhits 0)) = 0 := by decide
  refine ⟨short, ?_, excess, ?_⟩
  · intro passes
    have := short.symm.trans (passes.missed 1 (by decide))
    contradiction
  · intro passes
    have := excess.symm.trans (passes.nhits _ (Nat.le_refl _))
    contradiction

end S6Reobs
