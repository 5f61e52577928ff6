import S6Reobs.FakeNet
import S6Reobs.NetBatch

/-! s6_net_thread.cpp: run() as the ring sees it. s6_memcpy_benchmark, before the main loop,
writes to every block. -/

namespace S6Reobs.Net

open Word

inductive RunEffect
  | op (e : Effect)
  /-- The s6_memcpy call of s6_memcpy_benchmark. -/
  | benchmark (pktBlockI sid pktMcnt : Nat)

def numBenchmarks : Nat := 10

variable (m : Macros)

/-- `p` is run()'s packet, which holds anything. -/
def benchmarkPieces (p : UdpPacket) (pktBlockI sid pktMcnt : Nat) : List (Copy.Piece Nat) :=
  s6Memcpy
    (m.dataAddr pktBlockI + (sid * nm m + pktMcnt % nm m) * m.nCoarseChan * nBytesPerChan / 8)
    (fun w => p.word (1 + w)) (u64 (benchmarkPacketSize m - 8 - 8))

def s6MemcpyBenchmark : List RunEffect :=
  (List.range numBenchmarks).flatMap fun _ =>
    (List.range m.nInputBlocks).flatMap fun pktBlockI =>
      (List.range m.nBeams).flatMap fun sid =>
        (List.range m.nFineChan).map fun pktMcnt => .benchmark pktBlockI sid pktMcnt

def Effect.Writes (a : Nat) : Effect → Prop
  | .initializeBlock b mcnt pchan nchan => ∃ q ∈ initPieces m b mcnt pchan nchan, q.Covers a
  | .decMissedPkts b i => a = (Loc.header b (.missedPkts i)).addr m
  | .copyPayload b p => ∃ q ∈ copyPieces m p b, q.Covers a
  | .setFilled _ | .busywaitFree _ | .log _ => False

def RunEffect.apply (p : UdpPacket) (mem : Mem) : RunEffect → Mem
  | .op e => e.apply m mem
  | .benchmark b sid mcnt => Copy.copyAll (Loc.addr m) (benchmarkPieces m p b sid mcnt) mem

def RunEffect.role (p : UdpPacket) : RunEffect → Lease.Role
  | .op (.busywaitFree b) => .acquire b
  | .op (.setFilled b) => .publish b
  | .op e => .write (blocksOf m (e.Writes m))
  | .benchmark b sid mcnt =>
    .write (blocksOf m fun a => ∃ q ∈ benchmarkPieces m p b sid mcnt, q.Covers a)

/-- What s6_memcpy stores of the payload ends inside the block. -/
def StaysInBlock (p : UdpPacket) : Prop :=
  let hdr := getHeader p
  hdr.sid < m.nBeams →
    (hdr.sid * nm m + hdr.mcnt % nm m) * m.nCoarseChan * nBytesPerChan / 8 +
      4 * (u64 (p.packetSize - 8 - 8) / 32) ≤ m.dataWords

instance (p : UdpPacket) : Decidable (StaysInBlock m p) := inferInstanceAs (Decidable (_ → _))

/-- One packet of a batch: the size test before the batch looks at the benchmark's packet. -/
def handle (t : Thread) (p : UdpPacket) : Thread × List RunEffect :=
  match gate m (benchmarkPacketSize m) with
  | .pass =>
    let o := processPacket m t p
    (o.thread, o.effects.map .op)
  | .ignore | .exit => (t, [])

/-- run(), with an input for each packet that is received. -/
def writer (p : UdpPacket) :
    Lease.Writer Flag Thread {q : UdpPacket // StaysInBlock m q} RunEffect Mem where
  free := .free
  full := .filled
  initial := Thread.initial m
  startup := (startupEffects m).map .op ++ s6MemcpyBenchmark m
  call t q := handle m t q
  apply e mem := e.apply m p mem
  role := RunEffect.role m p

/-- A copy of the benchmark, of a word or more, to a block that the thread did not wait for. -/
def RunEffect.Beyond : RunEffect → Prop
  | .benchmark pktBlockI _ _ => 2 ≤ pktBlockI ∧ m.source ≠ .fast
  | .op _ => False

variable {m}

/-! ## Where the copies go -/

/-- A copy that ends inside the block writes to no other. -/
theorem InBlock.copy {b k out nBytes a : Nat} {src : Nat → Nat} (at_ : out = m.dataAddr b + k)
    (fits : k + 4 * (nBytes / 32) ≤ m.dataWords)
    (covered : ∃ q ∈ s6Memcpy out src nBytes, q.Covers a) : InBlock m b a := by
  obtain ⟨lo, hi⟩ := s6Memcpy_covers.mp covered
  exact .data (by omega) (by omega)

theorem benchmark_length : u64 (benchmarkPacketSize m - 8 - 8) = m.nCoarseChan * 4 := by
  unfold benchmarkPacketSize Macros.nCoarseChan
  cases m.source <;> decide

/-- The benchmark's copies, too, end inside the block that they are for. -/
theorem benchmark_fits {sid : Nat} (pktMcnt : Nat) (beam : sid < m.nBeams) (pos : 0 < nm m)
    (slow : m.source ≠ .fast) :
    (sid * nm m + pktMcnt % nm m) * m.nCoarseChan * nBytesPerChan / 8 +
      4 * (m.nCoarseChan * 4 / 32) ≤ m.dataWords := by
  obtain ⟨source, nTimeSamples, nInputBlocks⟩ := m
  have inside := Nat.mod_lt pktMcnt pos
  generalize pktMcnt % nm ⟨source, nTimeSamples, nInputBlocks⟩ = r at inside ⊢
  cases source with
  | fast => exact absurd rfl slow
  | s6 =>
    simp only [nm, Macros.nFineChan, Macros.nBeams, Macros.nCoarseChan, nBytesPerChan,
      Macros.dataWords, Macros.nDataBytesPerBlock, Macros.nSamplesPerBlock, Macros.nBytesPerSample,
      Macros.nPolsPerBeam, Macros.nBeamSlots] at beam inside ⊢
    have rows := Nat.mul_le_mul_right nTimeSamples (Nat.le_of_lt_succ beam)
    omega
  | dibas =>
    simp only [nm, Macros.nFineChan, Macros.nBeams, Macros.nCoarseChan, nBytesPerChan,
      Macros.dataWords, Macros.nDataBytesPerBlock, Macros.nSamplesPerBlock, Macros.nBytesPerSample,
      Macros.nPolsPerBeam] at beam inside ⊢
    obtain rfl : sid = 0 := by omega
    omega

/-- The blocks that a copy of the benchmark writes to. -/
theorem blocksOf_benchmark (p : UdpPacket) {b sid : Nat} (pktMcnt : Nat) (beam : sid < m.nBeams)
    (pos : 0 < nm m) :
    blocksOf m (fun a => ∃ q ∈ benchmarkPieces m p b sid pktMcnt, q.Covers a) =
      if m.source = .fast then ∅ else {b} := by
  by_cases fast : m.source = .fast
  · rw [if_pos fast, Set.eq_empty_iff_forall_notMem]
    rintro c ⟨a, covered, _⟩
    obtain ⟨lo, hi⟩ := s6Memcpy_covers.mp covered
    have short : u64 (benchmarkPacketSize m - 8 - 8) / 32 = 0 := by
      rw [benchmark_length]
      simp [Macros.nCoarseChan, fast]
    omega
  · rw [if_neg fast]
    have fits := benchmark_fits pktMcnt beam pos fast
    rw [← benchmark_length] at fits
    apply blocksOf_eq
    · exact fun a covered => InBlock.copy rfl fits covered
    · have whole : 0 < u64 (benchmarkPacketSize m - 8 - 8) / 32 := by
        rw [benchmark_length, Macros.nCoarseChan]
        split <;> simp_all
      exact ⟨_, s6Memcpy_covers.mpr ⟨Nat.le_refl _, by omega⟩⟩

end S6Reobs.Net
