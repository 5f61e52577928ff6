import Mathlib.Logic.Function.Basic
import S6Reobs.Lib.Word
import S6Reobs.Lib.Period

/-! s6_databuf.h: the size macros of the three builds and the layout of
s6_input_databuf_t. Sizes that are the same in every build stay constants;
N_TIME_SAMPLES and N_INPUT_BLOCKS, which are tuned separately, are parameters. -/

namespace S6Reobs

open Word

/-- The build chosen with `-D SOURCE_S6`, `-D SOURCE_DIBAS` or `-D SOURCE_FAST`. -/
inductive Source
  | s6 | dibas | fast
  deriving DecidableEq, Repr

structure Macros where
  source : Source
  nTimeSamples : Nat
  nInputBlocks : Nat
  deriving DecidableEq, Repr

namespace Macros

variable (m : Macros)

def nPolsPerBeam : Nat := match m.source with | .s6 => 2 | .dibas => 2 | .fast => 1
def nBytesPerSample : Nat := match m.source with | .s6 => 2 | .dibas => 2 | .fast => 1
def nBeams : Nat := match m.source with | .s6 => 7 | .dibas => 1 | .fast => 19
def nBeamSlots : Nat := match m.source with | .s6 => 8 | .dibas => 1 | .fast => 1
def nCoarseChan : Nat := match m.source with | .s6 => 320 | .dibas => 512 | .fast => 1
def nSpectraPerPacket : Nat := match m.source with | .s6 => 1 | .dibas => 4 | .fast => 4096
def nSubspectraPerSpectrum : Nat := match m.source with | .s6 => 1 | .dibas => 8 | .fast => 1

def nFineChan : Nat := match m.source with
  | .s6 => m.nTimeSamples
  | .dibas => m.nTimeSamples
  | .fast => m.nTimeSamples / 2

def nSamplesPerBlock : Nat := match m.source with
  | .s6 => m.nFineChan * m.nCoarseChan * m.nPolsPerBeam * m.nBeamSlots
  | .dibas => m.nFineChan * m.nCoarseChan * m.nPolsPerBeam
  | .fast => m.nTimeSamples * m.nCoarseChan * m.nPolsPerBeam

def nBors : Nat := match m.source with
  | .s6 => m.nBeams
  | .dibas => m.nSubspectraPerSpectrum
  | .fast => m.nSubspectraPerSpectrum

/-- N_SOURCE_NODES; in the FAST build N_POLS_PER_BEAM_TOTAL is 2. -/
def nSourceNodes : Nat := match m.source with
  | .s6 => m.nBeams
  | .dibas => 8
  | .fast => m.nBeams * 2

def nBytesPerSubspectrum : Nat :=
  m.nBytesPerSample * m.nCoarseChan / m.nSubspectraPerSpectrum * m.nPolsPerBeam

def nDataBytesPerBlock : Nat := m.nBytesPerSample * m.nSamplesPerBlock

/-- Nm: mcnts per block. -/
def nm : Nat := m.nTimeSamples / m.nSpectraPerPacket

def nPacketsPerBlock : Nat := u32 (m.nm * m.nBeams)

def nBytesPerChan : Nat := match m.source with | .s6 => 4 | .dibas => 4 | .fast => 1

/-- The data bytes of one full packet, and of its place in a block. -/
def slotBytes : Nat := m.nCoarseChan * m.nBytesPerChan * m.nSpectraPerPacket

def slotWords : Nat := m.slotBytes / 8

def maxOutOfSeq : Nat := 2 * m.nBors

def latePktMcntThreshold : Nat := u64 (2 * m.nm * m.nInputBlocks)

/-! ## Layout in 64-bit words

A header is six uint64_t fields and missed_pkts[N_BORS]; a pad fills it up to
CACHE_ALIGNMENT (256) bytes; the data follow. Addresses count from block[0]. -/

def headerWords : Nat := 6 + m.nBors
def paddingWords : Nat := (256 - 8 * m.headerWords % 256) / 8
def dataWords : Nat := m.nDataBytesPerBlock / 8
def blockWords : Nat := m.headerWords + m.paddingWords + m.dataWords

/-- The first word of `block[b].data`. -/
def dataAddr (b : Nat) : Nat := b * m.blockWords + (m.headerWords + m.paddingWords)

end Macros

inductive Field
  | mcnt | coarseChanId | numCoarseChan | sid | timeSec | timeNsec
  | missedPkts (i : Nat)
  deriving DecidableEq, Repr

def Field.word : Field → Nat
  | .mcnt => 0
  | .coarseChanId => 1
  | .numCoarseChan => 2
  | .sid => 3
  | .timeSec => 4
  | .timeNsec => 5
  | .missedPkts i => 6 + i

/-- A word of the ring, or the `k`th word past its end. -/
inductive Loc
  | header (b : Nat) (f : Field)
  | padding (b k : Nat)
  | data (b k : Nat)
  | past (k : Nat)
  deriving DecidableEq, Repr

def Loc.addr (m : Macros) : Loc → Nat
  | .header b f => b * m.blockWords + f.word
  | .padding b k => b * m.blockWords + m.headerWords + k
  | .data b k => m.dataAddr b + k
  | .past k => m.nInputBlocks * m.blockWords + k

def Loc.Valid (m : Macros) : Loc → Prop
  | .header b f => b < m.nInputBlocks ∧ f.word < m.headerWords
  | .padding b k => b < m.nInputBlocks ∧ k < m.paddingWords
  | .data b k => b < m.nInputBlocks ∧ k < m.dataWords
  | .past _ => True

abbrev Mem := Loc → Nat

/-- `(mcnt / Nm) % N_INPUT_BLOCKS`. -/
def blockForMcnt (m : Macros) (mcnt : Nat) : Nat := mcnt / m.nm % m.nInputBlocks

/-- Sizes the assembler can be built with: an even number of mcnts per block,
two blocks or more, and a ring small enough to be one C++ object. -/
structure Geometry extends Macros where
  even : 2 ∣ toMacros.nm
  two_le_nm : 2 ≤ toMacros.nm
  two_le_blocks : 2 ≤ nInputBlocks
  ring_fits : nInputBlocks * toMacros.nDataBytesPerBlock < 2 ^ 63

end S6Reobs
