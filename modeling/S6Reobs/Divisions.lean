import S6Reobs.Fills
import S6Reobs.Gather

/-! The divisions and remainders by Nm in s6_pktsock_thread.cpp, which are defined only where Nm
is not zero, and the extent of the payloads, for the macros of each build. -/

namespace S6Reobs

open Word

/-- The macros of s6_databuf.h as they are. -/
def shipped : Source → Macros
  | .s6 => ⟨.s6, 128 * 1024, 3⟩
  | .dibas => ⟨.dibas, 512 * 1024, 3⟩
  | .fast => ⟨.fast, 256, 4⟩

/-- The operands of a `/` or a `%`. -/
structure Division where
  dividend : Nat
  divisor : Nat
  deriving DecidableEq

variable (m : Macros)

/-! ## The divisions by Nm that each function does, in order -/

def blockForMcntDivisions (mcnt : Nat) : List Division := [⟨mcnt, m.nm⟩]

def initializeBlockDivisions (mcnt : Nat) : List Division :=
  blockForMcntDivisions m mcnt ++ [⟨mcnt, m.nm⟩]

def setBlockFilledDivisions (t : Thread) : List Division :=
  let blockI := blockForMcnt m t.binfo.mcntStart
  let missedPktCnt := u32 (m.nPacketsPerBlock - t.binfo.blockPacketCounter blockI)
  blockForMcntDivisions m t.binfo.mcntStart ++ [⟨missedPktCnt, m.nm⟩, ⟨missedPktCnt, m.nm⟩]

/-- `dest_p`; the DIBAS build has N_FINE_CHAN there. -/
def destDivisions (mcnt : Nat) : List Division :=
  match m.source with
  | .s6 => [⟨mcnt, m.nm⟩]
  | .dibas => []
  | .fast => [⟨mcnt, m.nm⟩]

def resyncDivisions (t : Thread) (hdr : PacketHeader) : List Division :=
  let pktMcnt := advancedMcnt m t.binfo.blockI hdr.mcnt
  let mcntStart := pktMcnt - pktMcnt % m.nm
  [⟨pktMcnt, m.nm⟩] ++ blockForMcntDivisions m mcntStart ++
    -- the warning names the block once more
    blockForMcntDivisions m mcntStart ++
    initializeBlockDivisions m mcntStart ++ initializeBlockDivisions m (u64 (mcntStart + m.nm))

def processPacketDivisions (t : Thread) (a : Arrival) : List Division :=
  let hdr := getHeader m a.frame
  blockForMcntDivisions m hdr.mcnt ++
  match pktZone m t.binfo.mcntStart hdr.mcnt with
  | .window =>
    (if BlockDone m t.binfo.mcntStart hdr.mcnt then
      setBlockFilledDivisions m t ++ initializeBlockDivisions m (u64 (hdr.mcnt + m.nm))
    else []) ++
    if hdr.sid ≥ m.nSourceNodes then [] else destDivisions m hdr.mcnt
  | .late => []
  | .outOfSeq =>
    if inc t.binfo.outOfSeqCnt > m.maxOutOfSeq then resyncDivisions m t hdr else []

/-- Blocks 0 and 1 are initialised with mcnt 0 and Nm. -/
def startupDivisions : List Division :=
  initializeBlockDivisions m 0 ++ initializeBlockDivisions m m.nm

/-- run() from its startup on, over full-size packets with valid source ids: each division is
defined, and each payload is stored in the data area of its block. -/
structure GeometrySafe : Prop where
  startup : ∀ d ∈ startupDivisions m, d.divisor ≠ 0
  calls : ∀ (mem : Mem) (flag : Nat → Flag) (l : List Arrival) (a : Arrival),
    (∀ p ∈ l ++ [a], FullSize m p.frame ∧ Known m p.frame) →
    ∀ d ∈ processPacketDivisions m ((State.start m mem flag).run m l).thread a, d.divisor ≠ 0
  payloads : ∀ (mem : Mem) (flag : Nat → Flag) (l : List Arrival),
    (∀ p ∈ l, FullSize m p.frame ∧ Known m p.frame) →
    ∀ e ∈ ((State.start m mem flag).run m l).ring.trace, ∀ b f,
      e.effect = .copyPayload b f → StaysIn m b f

variable {m}

theorem blockForMcntDivisions_divisor {mcnt : Nat} {d : Division}
    (mem : d ∈ blockForMcntDivisions m mcnt) : d.divisor = m.nm := by
  rw [List.mem_singleton.mp mem]

theorem initializeBlockDivisions_divisor {mcnt : Nat} {d : Division}
    (mem : d ∈ initializeBlockDivisions m mcnt) : d.divisor = m.nm := by
  cases List.mem_append.mp mem with
  | inl block => exact blockForMcntDivisions_divisor block
  | inr round => rw [List.mem_singleton.mp round]

theorem setBlockFilledDivisions_divisor {t : Thread} {d : Division}
    (mem : d ∈ setBlockFilledDivisions m t) : d.divisor = m.nm := by
  cases List.mem_append.mp mem with
  | inl block => exact blockForMcntDivisions_divisor block
  | inr missed =>
    simp only [List.mem_cons, List.not_mem_nil, or_false, or_self] at missed
    rw [missed]

theorem destDivisions_divisor {mcnt : Nat} {d : Division}
    (mem : d ∈ destDivisions m mcnt) : d.divisor = m.nm := by
  unfold destDivisions at mem
  cases source : m.source <;> simp only [source, List.mem_singleton, List.not_mem_nil] at mem
  · rw [mem]
  · rw [mem]

theorem resyncDivisions_divisor {t : Thread} {hdr : PacketHeader} {d : Division}
    (mem : d ∈ resyncDivisions m t hdr) : d.divisor = m.nm := by
  simp only [resyncDivisions, List.mem_append, List.mem_singleton] at mem
  rcases mem with (((round | block) | warned) | first) | second
  · rw [round]
  · exact blockForMcntDivisions_divisor block
  · exact blockForMcntDivisions_divisor warned
  · exact initializeBlockDivisions_divisor first
  · exact initializeBlockDivisions_divisor second

theorem processPacketDivisions_divisor {t : Thread} {a : Arrival} {d : Division}
    (mem : d ∈ processPacketDivisions m t a) : d.divisor = m.nm := by
  cases List.mem_append.mp mem with
  | inl block => exact blockForMcntDivisions_divisor block
  | inr rest =>
    cases zone : pktZone m t.binfo.mcntStart (getHeader m a.frame).mcnt with
    | window =>
      simp only [zone] at rest
      cases List.mem_append.mp rest with
      | inl done =>
        split at done
        · cases List.mem_append.mp done with
          | inl filled => exact setBlockFilledDivisions_divisor filled
          | inr next => exact initializeBlockDivisions_divisor next
        · cases done
      | inr dest =>
        split at dest
        · cases dest
        · exact destDivisions_divisor dest
    | late =>
      simp only [zone] at rest
      cases rest
    | outOfSeq =>
      simp only [zone] at rest
      split at rest
      · exact resyncDivisions_divisor rest
      · cases rest

/-! ## The payloads of a run -/

theorem start_copies_nothing (mem : Mem) (flag : Nat → Flag) (b : Nat) (f : Frame) :
    .copyPayload b f ∉ (State.start m mem flag).ring.trace.map Entry.effect := by
  rw [State.start, effects_execAll]
  simp [startupEffects, initializeBlock]

theorem run_copies {s : State} {l : List Arrival} {b : Nat} {f : Frame}
    (mem : .copyPayload b f ∈ (s.run m l).ring.trace.map Entry.effect) :
    .copyPayload b f ∈ s.ring.trace.map Entry.effect ∨ (∃ a ∈ l, f = a.frame) ∧ Known m f := by
  induction l generalizing s with
  | nil => exact .inl mem
  | cons a l ih =>
    cases ih mem with
    | inr later =>
      obtain ⟨⟨p, hp, eq⟩, known⟩ := later
      exact .inr ⟨⟨p, List.mem_cons_of_mem a hp, eq⟩, known⟩
    | inl before =>
      rw [State.call, effects_execAll] at before
      cases List.mem_append.mp before with
      | inl now =>
        obtain ⟨_, rfl, known⟩ := processPacket_copies (List.mem_reverse.mp now)
        exact .inr ⟨⟨a, List.mem_cons_self, rfl⟩, known⟩
      | inr old => exact .inl old

/-! ## The shipped builds -/

theorem geometrySafe_iff (m : Macros) : GeometrySafe m ↔ 0 < m.nm := by
  constructor
  · intro safe
    exact Nat.pos_of_ne_zero (safe.startup ⟨0, m.nm⟩ List.mem_cons_self)
  · intro pos
    constructor
    · intro d mem
      have divisor : d.divisor = m.nm := by
        cases List.mem_append.mp mem with
        | inl first => exact initializeBlockDivisions_divisor first
        | inr second => exact initializeBlockDivisions_divisor second
      omega
    · intro mem flag l a full d hd
      have divisor := processPacketDivisions_divisor hd
      omega
    · intro mem flag l full e he b f copy
      have copied : .copyPayload b f ∈
          ((State.start m mem flag).run m l).ring.trace.map Entry.effect := by
        rw [← copy]
        exact List.mem_map_of_mem he
      cases run_copies copied with
      | inl before => exact absurd before (start_copies_nothing mem flag b f)
      | inr own =>
        obtain ⟨⟨a, ha, rfl⟩, known⟩ := own
        exact (full a ha).1.fits.staysIn pos known b

theorem nm_pos_iff (m : Macros) : 0 < m.nm ↔ m.nSpectraPerPacket ≤ m.nTimeSamples := by
  have spectra : 0 < m.nSpectraPerPacket := by
    cases source : m.source <;> simp [Macros.nSpectraPerPacket, source]
  exact Nat.div_pos_iff.trans (and_iff_right spectra)

/-- A shipped build is safe if its blocks have room for one packet of a source: S6 and DIBAS, and
not FAST. -/
theorem geometry_safe_iff (source : Source) :
    (GeometrySafe (shipped source) ↔
      (shipped source).nSpectraPerPacket ≤ (shipped source).nTimeSamples) ∧
    (GeometrySafe (shipped source) ↔ source ≠ .fast) := by
  constructor
  · rw [geometrySafe_iff, nm_pos_iff]
  · rw [geometrySafe_iff]
    cases source <;> decide

/-- The first division of the FAST build's run(): initialize_block(db, 0, 0, 0, 0) asks for the
block of mcnt 0. -/
theorem fast_startup_divides_by_zero :
    (startupDivisions (shipped .fast)).head? = some ⟨0, 0⟩ ∧ ¬ GeometrySafe (shipped .fast) := by
  constructor
  · decide
  · intro safe
    exact safe.startup ⟨0, 0⟩ (by decide) rfl

end S6Reobs
