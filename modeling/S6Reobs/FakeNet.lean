import S6Reobs.Lib.Lease
import S6Reobs.Ownership

/-! s6_fake_net_thread.cpp: run(). It waits for one block a pass, and writes to all of them. -/

namespace S6Reobs

/-- Sizes the ring can be built with: blocks of whole words, and one C++ object in all. -/
structure Sized (m : Macros) : Prop where
  words : 8 ∣ m.nTimeSamples
  samples : 0 < m.nTimeSamples
  blocks : 0 < m.nInputBlocks
  ring_fits : m.nInputBlocks * m.nDataBytesPerBlock < 2 ^ 63

/-- The blocks that have one of the words. -/
def blocksOf (m : Macros) (words : Nat → Prop) : Set Nat := {b | ∃ a, words a ∧ InBlock m b a}

namespace FakeNet

inductive Effect
  /-- s6_input_databuf_wait_free, returning HASHPIPE_OK. -/
  | waitFree (b : Nat)
  /-- header.mcnt, header.coarse_chan_id and header.num_coarse_chan of `block[b]` are assigned. -/
  | setHeader (b mcnt numCoarseChan : Nat)
  /-- The memset of `block[b].header.missed_pkts`. -/
  | clearMissedPkts (b : Nat)
  /-- gen_fake_data on `block[0].data`, in the pass that fills `block[b]`. -/
  | genFakeData (b : Nat)
  /-- The memcpy to `block[blockI].data`, in the pass that fills `block[b]`. -/
  | copyFakeData (b blockI : Nat)
  /-- s6_input_databuf_set_filled, returning HASHPIPE_OK. -/
  | setFilled (b : Nat)

variable (m : Macros) (fake : Nat → Nat)

/-- The word address that an effect writes from, and how many words. -/
def Effect.dest : Effect → Nat × Nat
  | .waitFree _ | .setFilled _ => (0, 0)
  | .setHeader b .. => ((Loc.header b .mcnt).addr m, 3)
  | .clearMissedPkts b => ((Loc.header b (.missedPkts 0)).addr m, m.nBeamSlots)
  | .genFakeData _ => (m.dataAddr 0, m.nTimeSamples / 8)
  | .copyFakeData _ blockI => (m.dataAddr blockI, m.dataWords)

/-- The words that it writes; `fake` are those of the generated sine wave. -/
def Effect.src (mem : Mem) : Effect → Nat → Nat
  | .setHeader _ mcnt numCoarseChan => fun | 0 => mcnt | 1 => 321 | _ => numCoarseChan
  | .genFakeData _ => fake
  | .copyFakeData .. => fun j => mem (.data 0 j)
  | .waitFree _ | .setFilled _ | .clearMissedPkts _ => fun _ => 0

def Effect.apply (e : Effect) (mem : Mem) : Mem :=
  Copy.Piece.copy (Loc.addr m) ⟨(e.dest m).1, (e.dest m).2, e.src fake mem⟩ mem

def Effect.Writes (a : Nat) (e : Effect) : Prop :=
  (e.dest m).1 ≤ a ∧ a < (e.dest m).1 + (e.dest m).2

def Effect.role (e : Effect) : Lease.Role :=
  match e with
  | .waitFree b => .acquire b
  | .setFilled b => .publish b
  | _ => .write (blocksOf m (e.Writes m))

structure State where
  blockIdx : Nat
  mcnt : Nat

/-- What a pass writes; gen_fake is always set. -/
def filling (s : State) : List Effect :=
  [.setHeader s.blockIdx s.mcnt m.nCoarseChan, .clearMissedPkts s.blockIdx,
    .genFakeData s.blockIdx] ++
    (List.range' 1 (m.nInputBlocks - 1)).map (.copyFakeData s.blockIdx)

/-- One pass of the loop. N_DEBUG_INPUT_BLOCKS is 0, so `n_block` is N_INPUT_BLOCKS. -/
def pass (s : State) : State × List Effect :=
  (⟨(s.blockIdx + 1) % m.nInputBlocks, Word.u64 (s.mcnt + 1)⟩,
    .waitFree s.blockIdx :: (filling m s ++ [.setFilled s.blockIdx]))

/-- run(), with an input for each time that run_threads() holds. -/
def writer : Lease.Writer Flag State Unit Effect Mem where
  free := .free
  full := .filled
  initial := ⟨0, 0⟩
  startup := []
  call s _ := pass m s
  apply := Effect.apply m fake
  role := Effect.role m

/-- The effect writes to another block than the one that was waited for. -/
def Effect.Elsewhere : Effect → Prop
  | .genFakeData b => b ≠ 0
  | .copyFakeData b blockI => blockI ≠ b
  | _ => False

end FakeNet

/-! ## Which block an effect writes to -/

section Blocks

variable {m : Macros} {words : Nat → Prop} {b : Nat}

theorem blocksOf_subset (inside : ∀ a, words a → InBlock m b a) : blocksOf m words ⊆ {b} := by
  rintro c ⟨a, ha, there⟩
  exact (inside a ha).unique there

theorem blocksOf_eq (inside : ∀ a, words a → InBlock m b a) (some : ∃ a, words a) :
    blocksOf m words = {b} := by
  apply Set.Subset.antisymm (blocksOf_subset inside)
  rintro c rfl
  obtain ⟨a, ha⟩ := some
  exact ⟨a, ha, inside a ha⟩

/-- Words of the header and its padding. -/
theorem InBlock.header {k a : Nat} (lo : b * m.blockWords + k ≤ a)
    (hi : a < b * m.blockWords + (m.headerWords + m.paddingWords)) : InBlock m b a := by
  constructor
  · exact Nat.le_trans (Nat.le_add_right ..) lo
  · rw [m.dataAddr_succ, Macros.dataAddr]
    omega

theorem InBlock.data {a : Nat} (lo : m.dataAddr b ≤ a) (hi : a < m.dataAddr b + m.dataWords) :
    InBlock m b a := by
  constructor
  · exact Nat.le_trans (Nat.le_add_right ..) lo
  · rw [m.dataAddr_succ]
    exact hi

/-- N_BEAM_SLOTS counters may be more than missed_pkts has, but the padding takes them. -/
theorem Macros.beamSlots_le (m : Macros) :
    6 + m.nBeamSlots ≤ m.headerWords + m.paddingWords := by
  unfold paddingWords headerWords nBors nBeamSlots nBeams nSubspectraPerSpectrum
  cases m.source <;> decide

theorem Macros.headerWords_le (m : Macros) : 6 ≤ m.headerWords := Nat.le_add_right ..

/-- The generated samples fit the block. -/
theorem Macros.samples_le (m : Macros) : m.nTimeSamples / 8 ≤ m.dataWords := by
  obtain ⟨source, nTimeSamples, nInputBlocks⟩ := m
  cases source <;>
    simp only [dataWords, nDataBytesPerBlock, nSamplesPerBlock, nCoarseChan, nBytesPerSample,
      nFineChan, nPolsPerBeam, nBeamSlots] <;>
    omega

end Blocks

namespace FakeNet

variable {m : Macros} (fake : Nat → Nat)

/-- The header writes of a pass go to the block that was waited for. -/
theorem blocksOf_header (b mcnt numCoarseChan : Nat) :
    blocksOf m ((Effect.setHeader b mcnt numCoarseChan).Writes m) ⊆ {b} ∧
    blocksOf m ((Effect.clearMissedPkts b).Writes m) ⊆ {b} := by
  have header := m.headerWords_le
  have slots := m.beamSlots_le
  constructor
  · apply blocksOf_subset
    rintro a ⟨lo, hi⟩
    simp only [Effect.dest, Loc.addr, Field.word] at lo hi
    exact .header lo (by omega)
  · apply blocksOf_subset
    rintro a ⟨lo, hi⟩
    simp only [Effect.dest, Loc.addr, Field.word] at lo hi
    exact .header lo (by omega)

/-- Fake data are generated in block 0, and copied to the block that the copy is for. -/
theorem blocksOf_data (sized : Sized m) (b blockI : Nat) :
    blocksOf m ((Effect.genFakeData b).Writes m) = {0} ∧
    blocksOf m ((Effect.copyFakeData b blockI).Writes m) = {blockI} := by
  have samples := m.samples_le
  have positive : 0 < m.nTimeSamples / 8 := by
    have := sized.words
    have := sized.samples
    omega
  constructor
  · apply blocksOf_eq
    · rintro a ⟨lo, hi⟩
      exact .data lo (Nat.lt_of_lt_of_le hi (Nat.add_le_add_left samples _))
    · exact ⟨_, Nat.le_refl _, Nat.lt_add_of_pos_right positive⟩
  · apply blocksOf_eq
    · rintro a ⟨lo, hi⟩
      exact .data lo hi
    · exact ⟨_, Nat.le_refl _, Nat.lt_add_of_pos_right (Nat.lt_of_lt_of_le positive samples)⟩

/-- Every write of a pass is to one block, the one that was waited for or another. -/
theorem filling_writes (sized : Sized m) (s : State) : ∀ e ∈ filling m s, ∃ blocks,
    (writer m fake).role e = .write blocks ∧ (blocks ⊆ {s.blockIdx} ↔ ¬ e.Elsewhere) := by
  obtain ⟨header, clear⟩ := blocksOf_header (m := m) s.blockIdx s.mcnt m.nCoarseChan
  intro e he
  simp only [filling, List.mem_append, List.mem_cons, List.mem_map, List.not_mem_nil,
    or_false] at he
  rcases he with (rfl | rfl | rfl) | ⟨blockI, _, rfl⟩
  · exact ⟨_, rfl, by simpa [Effect.Elsewhere] using header⟩
  · exact ⟨_, rfl, by simpa [Effect.Elsewhere] using clear⟩
  · refine ⟨_, rfl, ?_⟩
    rw [(blocksOf_data sized s.blockIdx 0).1]
    simp [Effect.Elsewhere, eq_comm]
  · refine ⟨_, rfl, ?_⟩
    rw [(blocksOf_data sized s.blockIdx blockI).2]
    simp [Effect.Elsewhere]

open Lease.Writer in
/-- A pass ends as it began, with no block held. -/
theorem pass_marks (sized : Sized m) (s : State) :
    (writer m fake).Marks Effect.Elsewhere ∅ (pass m s).2 ∧
    (writer m fake).heldAfter ∅ (pass m s).2 = ∅ := by
  obtain ⟨marks, held⟩ := marks_writes (filling_writes fake sized s)
  have acquired : (Effect.role m (.waitFree s.blockIdx)).after ∅ = {s.blockIdx} := by
    simp [Effect.role, Lease.Role.after]
  constructor
  · refine ⟨by simp [writer, Effect.role, Lease.Role.slots, Effect.Elsewhere], ?_⟩
    change Marks _ _ ((Effect.role m (.waitFree s.blockIdx)).after ∅) _
    rw [acquired, marks_append, held]
    refine ⟨marks, ?_, trivial⟩
    simp [writer, Effect.role, Lease.Role.slots, Effect.Elsewhere]
  · change heldAfter _ ((Effect.role m (.waitFree s.blockIdx)).after ∅) _ = ∅
    rw [acquired, heldAfter_append, held]
    simp [writer, Effect.role, Lease.Role.after]

theorem keeps (sized : Sized m) : (writer m fake).Keeps Effect.Elsewhere
    fun s held => held = ∅ ∧ s.blockIdx < m.nInputBlocks where
  startup := trivial
  initial := ⟨rfl, sized.blocks⟩
  call := by
    rintro s _ i ⟨rfl, _⟩
    exact (pass_marks fake sized s).1
  next := by
    rintro s _ i ⟨rfl, _⟩
    exact ⟨(pass_marks fake sized s).2, Nat.mod_lt _ sized.blocks⟩

/-- In a ring of one block there is no other. -/
theorem keeps_one (sized : Sized m) (one : m.nInputBlocks = 1) :
    (writer m fake).Keeps (fun _ => False)
      fun s held => held = ∅ ∧ s.blockIdx < m.nInputBlocks where
  startup := trivial
  initial := (keeps fake sized).initial
  call := by
    rintro s held i ⟨none, lt⟩
    apply ((keeps fake sized).call s held i ⟨none, lt⟩).congr
    intro e he
    have zero : s.blockIdx = 0 := by omega
    simp only [writer, pass, filling, one, List.range', Nat.sub_self, List.map_nil, zero] at he
    simp only [List.append_nil, List.cons_append, List.nil_append, List.mem_cons,
      List.not_mem_nil, or_false] at he
    rcases he with rfl | rfl | rfl | rfl | rfl <;> simp [Effect.Elsewhere]
  next := (keeps fake sized).next

/-- The first pass, up to its write to block 1. -/
theorem first_pass (two : 2 ≤ m.nInputBlocks) (mem : Mem) (flag : Nat → Flag)
    (free : flag 0 = .free) : ∃ c rest, (writer m fake).Reachable c ∧
      c.pending = .copyFakeData 0 1 :: rest ∧ c.flag = flag ∧
      (writer m fake).held c.trace = {0} := by
  let ops : List Effect :=
    [.waitFree 0, .setHeader 0 0 m.nCoarseChan, .clearMissedPkts 0, .genFakeData 0]
  let rest := (List.range' 2 (m.nInputBlocks - 2)).map (Effect.copyFakeData 0) ++ [.setFilled 0]
  have blocks : List.range' 1 (m.nInputBlocks - 1) = 1 :: List.range' 2 (m.nInputBlocks - 2) := by
    rw [show m.nInputBlocks - 1 = m.nInputBlocks - 2 + 1 by omega, List.range'_succ]
  have called := (Lease.Writer.Reachable.start (w := writer m fake) mem flag).next
    (.call _ rfl ())
  have next : (pass m ⟨0, 0⟩).2 = ops ++ .copyFakeData 0 1 :: rest := by
    simp [pass, filling, blocks, ops, rest]
  obtain ⟨c, reach, pending, same, held⟩ := called.execAll next (by
    intro e he
    simp only [ops, List.mem_cons, List.not_mem_nil, or_false] at he
    rcases he with rfl | rfl | rfl | rfl
    · exact .inl ⟨0, rfl, free⟩
    · exact .inr ⟨_, rfl⟩
    · exact .inr ⟨_, rfl⟩
    · exact .inr ⟨_, rfl⟩)
  refine ⟨c, rest, reach, pending, same, ?_⟩
  rw [held]
  simp [ops, Lease.Writer.heldAfter, Lease.Writer.held, Lease.Writer.start, writer, Effect.role,
    Lease.Role.after]

/-- The thread keeps to the block it waited for, whatever the consumer does, in a ring of one
block only. -/
theorem always_owned_iff (sized : Sized m) :
    (∀ c, (writer m fake).Reachable c → (writer m fake).Owned c.trace) ↔
      m.nInputBlocks = 1 := by
  constructor
  · intro always
    by_contra more
    have two : 2 ≤ m.nInputBlocks := by
      have := sized.blocks
      omega
    obtain ⟨c, rest, reach, next, _⟩ :=
      first_pass fake two (fun _ => 0) (fun _ => .free) rfl
    have copied := reach.next (.exec c _ rest next trivial)
    have tame := ((keeps fake sized).owned_iff copied).mp (always _ copied)
    exact tame _ List.mem_cons_self Nat.one_ne_zero
  · intro one c reach
    exact ((keeps_one fake sized one).owned_iff reach).mpr fun _ _ => id

end FakeNet

end S6Reobs
