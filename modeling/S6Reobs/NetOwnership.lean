import S6Reobs.NetBenchmark

/-! Which blocks run() of s6_net_thread.cpp holds. The main loop keeps to the two blocks that it
has acquired, in whatever order packets arrive; the benchmark does not. -/

namespace S6Reobs.Net

open Word

variable (m : Macros)

/-- The two blocks held from block number `k` on. -/
def window (k : Nat) : Set Nat := {k % m.nInputBlocks, (k + 1) % m.nInputBlocks}

/-- The thread has got to block number `k`. -/
structure OnBlock (t : Thread) (k : Nat) : Prop where
  mcntStart : t.binfo.mcntStart = nm m * k
  blockI : t.binfo.blockI = k % m.nInputBlocks
  bound : nm m * k < 2 ^ 57

variable {m}

/-! ## What a call keeps -/

section Window

/-- The effect writes to blocks of `S` only, or to none. -/
def Effect.Within (m : Macros) (p : UdpPacket) (S : Set Nat) (e : Effect) : Prop :=
  ∃ blocks, RunEffect.role m p (.op e) = .write blocks ∧ blocks ⊆ S

variable {p : UdpPacket} {S : Set Nat}

theorem log_within (msg : Msg) : (Effect.log msg).Within m p S := by
  refine ⟨_, rfl, ?_⟩
  rintro c ⟨a, writes, _⟩
  exact writes.elim

theorem logs_within (msgs : List Msg) : ∀ e ∈ msgs.map Effect.log, e.Within m p S := by
  intro e he
  obtain ⟨msg, _, rfl⟩ := List.mem_map.mp he
  exact log_within msg

theorem initializeBlock_within {b : Nat} (own : b ∈ S) (mcnt pchan nchan : Nat) :
    (Effect.initializeBlock b mcnt pchan nchan).Within m p S := by
  refine ⟨_, rfl, Set.Subset.trans (blocksOf_subset ?_) (Set.singleton_subset_iff.mpr own)⟩
  have header := m.headerWords_le
  have slots := m.beamSlots_le
  rintro a ⟨q, hq, lo, hi⟩
  simp only [initPieces, List.mem_cons, List.not_mem_nil, or_false] at hq
  rcases hq with rfl | rfl <;>
    simp only [missedPktsPiece, fieldsPiece, Loc.addr, Field.word] at lo hi
  · exact .header lo (by omega)
  · exact .header lo (by omega)

theorem decMissedPkts_within {b i : Nat} (own : b ∈ S) (beam : i < m.nBeams) :
    (Effect.decMissedPkts b i).Within m p S := by
  refine ⟨_, rfl, Set.Subset.trans (blocksOf_subset ?_) (Set.singleton_subset_iff.mpr own)⟩
  rintro a rfl
  have room : 6 + m.nBeams ≤ m.headerWords + m.paddingWords := by
    unfold Macros.paddingWords Macros.headerWords Macros.nBors Macros.nBeams
      Macros.nSubspectraPerSpectrum
    cases m.source <;> decide
  refine .header (k := 6 + i) (Nat.le_refl _) ?_
  simp only [Loc.addr, Field.word]
  omega

theorem copyPayload_within {b : Nat} {q : UdpPacket} (own : b ∈ S)
    (beam : (getHeader q).sid < m.nBeams) (stays : StaysInBlock m q) :
    (Effect.copyPayload b q).Within m p S := by
  refine ⟨_, rfl, Set.Subset.trans (blocksOf_subset ?_) (Set.singleton_subset_iff.mpr own)⟩
  intro a covered
  simp only [Effect.Writes, copyPieces] at covered
  exact InBlock.copy rfl (stays beam) covered

/-- A list of effects on the blocks of `S` changes nothing that is held, and is not wild. -/
theorem marks_within {es : List Effect} (within : ∀ e ∈ es, e.Within m p S) :
    (writer m p).Marks (RunEffect.Beyond m) S (es.map .op) ∧
    (writer m p).heldAfter S (es.map .op) = S := by
  apply Lease.Writer.marks_writes
  intro op hop
  obtain ⟨e, he, rfl⟩ := List.mem_map.mp hop
  obtain ⟨blocks, role, inside⟩ := within e he
  exact ⟨blocks, role, by simpa [RunEffect.Beyond] using inside⟩

end Window

/-! ## The decisions, with counters that do not wrap -/

theorem mcnt_lt (q : UdpPacket) : (getHeader q).mcnt < 2 ^ 48 := by
  have raw := be64toh_lt (q.word 0)
  simp only [getHeader, Nat.shiftRight_eq_div_pow]
  omega

theorem two_le_nm (sized : Sized m) : 2 ≤ nm m := by
  obtain ⟨words, samples, _, _⟩ := sized
  unfold nm Macros.nFineChan
  cases m.source <;> simp only <;> omega

theorem nm_pos (sized : Sized m) : 0 < nm m :=
  Nat.lt_of_lt_of_le Nat.two_pos (two_le_nm sized)

theorem ring_lt (sized : Sized m) (slow : m.source ≠ .fast) : nm m * m.nInputBlocks < 2 ^ 53 := by
  have fits := sized.ring_fits
  have rows : 2048 * nm m ≤ m.nDataBytesPerBlock := by
    obtain ⟨source, nTimeSamples, nInputBlocks⟩ := m
    cases source with
    | fast => exact absurd rfl slow
    | s6 | dibas =>
      simp only [nm, Macros.nFineChan, Macros.nDataBytesPerBlock, Macros.nSamplesPerBlock,
        Macros.nBytesPerSample, Macros.nCoarseChan, Macros.nPolsPerBeam, Macros.nBeamSlots]
      omega
  have scaled := Nat.mul_le_mul_left m.nInputBlocks rows
  rw [Nat.mul_left_comm, Nat.mul_comm m.nInputBlocks] at scaled
  omega

section Decisions

variable {k mcnt : Nat} (start : nm m * k < 2 ^ 57) (packet : mcnt < 2 ^ 48)
include start packet

theorem window_bounds (room : nm m < 2 ^ 53) (zone : pktZone m (nm m * k) mcnt = .window) :
    nm m * k ≤ mcnt ∧ mcnt < nm m * k + 2 * nm m := by
  simp only [pktZone, pktMcntDist_eq start (Nat.lt_trans packet (by decide))] at zone
  split at zone
  · obtain ⟨lo, hi⟩ := ‹_ ∧ _›
    have dist := u64_of_range lo (by omega)
    have twice : u64 (2 * nm m) = 2 * nm m := by
      simpa using u64_of_lt (x := 2 * nm m) (by omega)
    omega
  · split at zone <;> cases zone

theorem done_bound (room : nm m < 2 ^ 53) (lo : nm m * k ≤ mcnt)
    (done : BlockDone m (nm m * k) mcnt) : nm m * k + 3 * (nm m / 2) ≤ mcnt := by
  unfold BlockDone at done
  rw [pktMcntDist_eq start (Nat.lt_trans packet (by decide))] at done
  have dist := u64_of_range (x := (mcnt : Int) - (nm m * k : Nat)) (by omega) (by omega)
  have half : u64 (3 * ((nm m : Int) / 2)) = 3 * (nm m / 2) := by
    simpa using u64_of_lt (x := 3 * (nm m / 2)) (by omega)
  omega

omit start packet in
/-- A packet of the window is for one of the two held blocks. -/
theorem window_block (lo : nm m * k ≤ mcnt) (hi : mcnt < nm m * k + 2 * nm m) :
    mcnt / nm m = k ∨ mcnt / nm m = k + 1 := by
  cases Nat.lt_or_ge mcnt (nm m * (k + 1)) with
  | inl first => exact .inl (Nat.div_eq_of_lt_le (by rwa [Nat.mul_comm]) (by rwa [Nat.mul_comm]))
  | inr second =>
    refine .inr (Nat.div_eq_of_lt_le (by rwa [Nat.mul_comm]) ?_)
    rw [Nat.mul_comm]
    simp only [Nat.mul_add, Nat.mul_one] at *
    omega

end Decisions

/-! ## Calls -/

/-- From the held blocks `S`, the outcome leads to block number `k` without a wild effect. -/
structure Outcome.Moves (m : Macros) (p : UdpPacket) (S : Set Nat) (o : Outcome) (k : Nat) :
    Prop where
  on : OnBlock m o.thread k
  marks : (writer m p).Marks (RunEffect.Beyond m) S (o.effects.map .op)
  held : (writer m p).heldAfter S (o.effects.map .op) = window m k

section Calls

theorem blockForMcnt_mul (pos : 0 < nm m) (k : Nat) :
    blockForMcnt m (nm m * k) = k % m.nInputBlocks := by
  rw [blockForMcnt, Nat.mul_div_cancel_left k pos]

variable {p q : UdpPacket} {t : Thread} {k : Nat} {S : Set Nat} {hdr : PacketHeader}

theorem OnBlock.moves (on : OnBlock m t k) {es : List Effect} (ret : Nat)
    (within : ∀ e ∈ es, e.Within m p (window m k)) :
    Outcome.Moves m p (window m k) ⟨t, es, ret⟩ k := by
  obtain ⟨marks, held⟩ := marks_within within
  exact ⟨on, marks, held⟩

theorem calcBlockIndexes_cases (binfo : BlockInfo) (hdr : PacketHeader) :
    (calcBlockIndexes m binfo hdr).2 = none ∨ hdr.sid < m.nBeams ∧ ∃ pchan nchan,
      (calcBlockIndexes m binfo hdr).2 = some { binfo with pchan := pchan, nchan := nchan } := by
  unfold calcBlockIndexes
  split
  · exact .inl rfl
  · refine .inr ⟨by omega, ?_⟩
    dsimp only
    split
    · exact ⟨hdr.pchan, hdr.nchan, rfl⟩
    · exact ⟨binfo.pchan, binfo.nchan, rfl⟩

/-- More effects on the blocks held by then. -/
theorem Outcome.Moves.append {o : Outcome} (h : o.Moves m p S k) {es : List Effect}
    (within : ∀ e ∈ es, e.Within m p (window m k)) (on : OnBlock m t k) (ret : Nat) :
    Outcome.Moves m p S ⟨t, o.effects ++ es, ret⟩ k := by
  obtain ⟨marks, held⟩ := marks_within within
  refine ⟨on, ?_, ?_⟩ <;> simp only [List.map_append]
  · rw [Lease.Writer.marks_append, h.held]
    exact ⟨h.marks, marks⟩
  · rw [Lease.Writer.heldAfter_append, h.held, held]

/-- Messages before the effects. -/
theorem Outcome.Moves.warn {o : Outcome} (h : o.Moves m p S k) (msgs : List Msg) :
    Outcome.Moves m p S { o with effects := msgs.map .log ++ o.effects } k := by
  obtain ⟨marks, held⟩ := marks_within (logs_within (m := m) (p := p) (S := S) msgs)
  refine ⟨h.on, ?_, ?_⟩ <;> simp only [List.map_append]
  · rw [Lease.Writer.marks_append, held]
    exact ⟨marks, h.marks⟩
  · rw [Lease.Writer.heldAfter_append, held]
    exact h.held

/-- Counting and storing a packet of a held block. -/
theorem Outcome.Moves.countAndStore {o : Outcome} (h : o.Moves m p S k)
    (own : blockForMcnt m (getHeader q).mcnt ∈ window m k) (stays : StaysInBlock m q) :
    (Net.countAndStore m o (getHeader q) q).Moves m p S k := by
  let binfo := o.thread.binfo.count (blockForMcnt m (getHeader q).mcnt)
  have on (pchan nchan : Nat) : OnBlock m
      { o.thread with binfo := { binfo with pchan := pchan, nchan := nchan } } k :=
    ⟨h.on.mcntStart, h.on.blockI, h.on.bound⟩
  rcases eq : calcBlockIndexes m binfo (getHeader q) with ⟨msgs, res⟩
  have second := congrArg Prod.snd eq
  simp only [Net.countAndStore]
  rw [show o.thread.binfo.count (blockForMcnt m (getHeader q).mcnt) = binfo from rfl, eq]
  rcases calcBlockIndexes_cases (m := m) binfo (getHeader q) with none | ⟨beam, pchan, nchan, some⟩
  · obtain rfl : res = Option.none := second.symm.trans none
    exact h.append (logs_within msgs) (on binfo.pchan binfo.nchan) _
  · obtain rfl := second.symm.trans some
    simp only [List.append_assoc]
    refine h.append ?_ (on pchan nchan) _
    intro e he
    simp only [List.mem_append, List.mem_cons, List.not_mem_nil, or_false] at he
    rcases he with he | rfl | rfl
    · exact logs_within msgs e he
    · exact decMissedPkts_within own beam
    · exact copyPayload_within own beam stays

theorem window_succ (two : 2 ≤ m.nInputBlocks) (k : Nat) :
    insert ((k + 2) % m.nInputBlocks) (window m k \ {k % m.nInputBlocks}) = window m (k + 1) := by
  have next := Period.place_ne_succ two k
  ext b
  simp only [window, Set.mem_insert_iff, Set.mem_sdiff, Set.mem_singleton_iff]
  constructor
  · rintro (rfl | ⟨rfl | rfl, ne⟩)
    · exact .inr rfl
    · exact absurd rfl ne
    · exact .inl rfl
  · rintro (rfl | rfl)
    · exact .inr ⟨.inr rfl, next.symm⟩
    · exact .inl rfl

theorem OnBlock.setBlockFilled (on : OnBlock m t k) (pos : 0 < nm m) :
    ∃ msgs : List Msg, (Net.setBlockFilled m t).effects =
      msgs.map .log ++ [.setFilled (k % m.nInputBlocks)] := by
  simp only [Net.setBlockFilled, on.mcntStart, blockForMcnt_mul pos, on.blockI, ne_eq,
    not_true_eq_false, ↓reduceIte, List.append_nil]
  split
  · exact ⟨[_], rfl⟩
  · exact ⟨[], rfl⟩

/-- Publishing the first held block and acquiring the one after the second. -/
theorem OnBlock.finishBlock (on : OnBlock m t k) (two : 2 ≤ m.nInputBlocks) (room : nm m < 2 ^ 53)
    (pos : 0 < nm m) (packet : hdr.mcnt < 2 ^ 48) (block : hdr.mcnt / nm m = k + 1) :
    (Net.finishBlock m t hdr).Moves m p (window m k) (k + 1) := by
  have step : nm m * (k + 1) = nm m * k + nm m := by rw [Nat.mul_add, Nat.mul_one]
  have small : nm m * (k + 1) < 2 ^ 57 := by
    have lo := (Period.bounds_of_div pos hdr.mcnt).1
    rw [block] at lo
    omega
  have sum : u64 (hdr.mcnt + nm m) = hdr.mcnt + nm m := by
    simpa using u64_of_lt (x := hdr.mcnt + nm m) (by omega)
  have third : blockForMcnt m (u64 (hdr.mcnt + nm m)) = (k + 2) % m.nInputBlocks := by
    rw [sum, blockForMcnt, Nat.add_div_right _ pos, block]
  obtain ⟨msgs, fills⟩ := on.setBlockFilled pos
  obtain ⟨marks, held⟩ := marks_within (logs_within (m := m) (p := p) (S := window m k) msgs)
  have fresh : ∀ e ∈ [initializeBlock m (u64 (hdr.mcnt + nm m)) hdr.pchan hdr.nchan],
      e.Within m p (window m (k + 1)) := by
    intro e he
    rw [List.mem_singleton.mp he, initializeBlock, third]
    exact initializeBlock_within (.inr rfl) _ _ _
  obtain ⟨marks', held'⟩ := marks_within fresh
  have effects : (Net.finishBlock m t hdr).effects.map RunEffect.op =
      (msgs.map Effect.log).map .op ++ ([.op (.setFilled (k % m.nInputBlocks)),
        .op (.busywaitFree ((k + 2) % m.nInputBlocks))] ++
        [initializeBlock m (u64 (hdr.mcnt + nm m)) hdr.pchan hdr.nchan].map .op) := by
    simp [Net.finishBlock, fills, on.blockI]
  have swap : (writer m p).heldAfter (window m k) [.op (.setFilled (k % m.nInputBlocks)),
      .op (.busywaitFree ((k + 2) % m.nInputBlocks))] = window m (k + 1) := window_succ two k
  refine ⟨⟨?_, ?_, small⟩, ?_, ?_⟩
  · change u64 (t.binfo.mcntStart + nm m) = _
    rw [on.mcntStart, step]
    simpa using u64_of_lt (x := nm m * k + nm m) (by omega)
  · change (t.binfo.blockI + 1) % m.nInputBlocks = _
    rw [on.blockI, Period.place_succ]
  · rw [effects, Lease.Writer.marks_append, held, Lease.Writer.marks_append, swap]
    refine ⟨marks, ⟨?_, ?_, trivial⟩, marks'⟩ <;>
      simp [writer, RunEffect.role, Lease.Role.slots, RunEffect.Beyond]
  · rw [effects, Lease.Writer.heldAfter_append, held, Lease.Writer.heldAfter_append, swap, held']

/-- A resync starts at the first block from the packet's on that has the place of the current. -/
theorem OnBlock.advancedMcnt (on : OnBlock m t k) (sized : Sized m) (slow : m.source ≠ .fast)
    (packet : hdr.mcnt < 2 ^ 48) : ∃ k', k' % m.nInputBlocks = k % m.nInputBlocks ∧
      Net.advancedMcnt m t.binfo.blockI hdr.mcnt -
        Net.advancedMcnt m t.binfo.blockI hdr.mcnt % nm m = nm m * k' ∧
      nm m * (k' + 1) < 2 ^ 57 := by
  have ring := ring_lt sized slow
  have blocks := sized.blocks
  have pos := nm_pos sized
  obtain ⟨lead, eq⟩ : ∃ lead, lead =
    Period.lead m.nInputBlocks (hdr.mcnt / nm m % m.nInputBlocks) (k % m.nInputBlocks) := ⟨_, rfl⟩
  have lead_lt : lead < m.nInputBlocks := by
    rw [eq]
    exact Period.lead_lt (Nat.mod_lt _ blocks) (Nat.mod_lt _ blocks)
  have advanced : Net.advancedMcnt m t.binfo.blockI hdr.mcnt = hdr.mcnt + nm m * lead := by
    rw [on.blockI, eq]
    exact advance_eq (Nat.mod_lt _ blocks) (Nat.mod_lt _ blocks) (by omega)
  refine ⟨hdr.mcnt / nm m + lead, ?_, ?_, ?_⟩
  · rw [eq]
    exact Period.add_lead_place (Nat.mod_lt _ blocks) _
  · rw [advanced, Period.sub_mod_eq, Nat.add_mul_div_left _ _ pos]
  · have packets := (Period.bounds_of_div pos hdr.mcnt).1
    have laps := Nat.mul_le_mul_left (nm m) (show lead + 1 ≤ m.nInputBlocks from lead_lt)
    calc nm m * (hdr.mcnt / nm m + lead + 1)
        = nm m * (hdr.mcnt / nm m) + nm m * (lead + 1) := by rw [Nat.add_assoc, Nat.mul_add]
      _ < 2 ^ 57 := by omega

/-- A resync gives the two held blocks new numbers. -/
theorem OnBlock.resync (on : OnBlock m t k) (sized : Sized m) (slow : m.source ≠ .fast)
    (packet : hdr.mcnt < 2 ^ 48) : ∃ k', (Net.resync m t hdr).Moves m p (window m k) k' := by
  have pos := nm_pos sized
  obtain ⟨k', place, start, small⟩ := on.advancedMcnt sized slow packet
  have same : window m k' = window m k := by
    rw [window, window, ← Period.place_succ, place, Period.place_succ]
  have step : nm m * (k' + 1) = nm m * k' + nm m := Nat.mul_succ _ _
  have next : u64 ((nm m * k' : Nat) + nm m) = nm m * (k' + 1) := by
    rw [step] at small ⊢
    simpa using u64_of_lt (x := nm m * k' + nm m) (by omega)
  have fresh (j : Nat) (own : j % m.nInputBlocks ∈ window m k') :
      (initializeBlock m (nm m * j) hdr.pchan hdr.nchan).Within m p (window m k') := by
    rw [initializeBlock, blockForMcnt_mul pos]
    exact initializeBlock_within own _ _ _
  refine ⟨k', ?_⟩
  rw [← same]
  simp only [Net.resync, start, next]
  apply OnBlock.moves
  · exact ⟨rfl, blockForMcnt_mul pos k', by omega⟩
  · intro e he
    simp only [List.mem_cons, List.not_mem_nil, or_false] at he
    rcases he with rfl | rfl | rfl
    · exact log_within _
    · exact fresh k' (.inl rfl)
    · exact fresh (k' + 1) (.inr rfl)

/-- A packet of the window is stored in the block that it is for, which is held by then. -/
theorem OnBlock.inWindow (on : OnBlock m t k) (sized : Sized m) (two : 2 ≤ m.nInputBlocks)
    (room : nm m < 2 ^ 53)
    (zone : pktZone m t.binfo.mcntStart (getHeader q).mcnt = .window) (stays : StaysInBlock m q) :
    ∃ k', (Net.countAndStore m (if BlockDone m t.binfo.mcntStart (getHeader q).mcnt then
        Net.finishBlock m t (getHeader q) else { thread := t, effects := [], ret := noMcnt })
      (getHeader q) q).Moves m p (window m k) k' := by
  have per := two_le_nm sized
  have packet := mcnt_lt q
  rw [on.mcntStart] at zone ⊢
  obtain ⟨lo, hi⟩ := window_bounds on.bound packet room zone
  have own {k' : Nat} (h : (getHeader q).mcnt / nm m = k' ∨ (getHeader q).mcnt / nm m = k' + 1) :
      blockForMcnt m (getHeader q).mcnt ∈ window m k' := by
    rcases h with h | h <;> rw [blockForMcnt, h]
    · exact .inl rfl
    · exact .inr rfl
  by_cases done : BlockDone m (nm m * k) (getHeader q).mcnt
  · have late := done_bound on.bound packet room lo done
    have block : (getHeader q).mcnt / nm m = k + 1 := by
      apply Nat.div_eq_of_lt_le <;> rw [Nat.mul_comm] <;>
        simp only [Nat.mul_add, Nat.mul_one] <;> omega
    have filled := on.finishBlock (p := p) two room (by omega) packet block
    rw [if_pos done]
    exact ⟨k + 1, filled.countAndStore (own (.inl block)) stays⟩
  · have idle : Outcome.Moves m p (window m k) ⟨t, [], noMcnt⟩ k := on.moves noMcnt (by simp)
    rw [if_neg done]
    exact ⟨k, idle.countAndStore (own (window_block lo hi)) stays⟩

/-- A packet out of sequence is counted, and leads to a resync if there were many. -/
theorem OnBlock.outOfSeqPacket (on : OnBlock m t k) (sized : Sized m) (slow : m.source ≠ .fast)
    (packet : hdr.mcnt < 2 ^ 48) :
    ∃ k', (Net.outOfSeqPacket m t hdr).Moves m p (window m k) k' := by
  have counted : OnBlock m { t with
      binfo := { t.binfo with outOfSeqCnt := inc t.binfo.outOfSeqCnt } } k :=
    ⟨on.mcntStart, on.blockI, on.bound⟩
  have warning (start : Nat) (msg : Msg) : ∃ msgs : List Msg,
      (if start ≠ 0 then [Effect.log msg] else []) = msgs.map .log := by
    split
    · exact ⟨[msg], rfl⟩
    · exact ⟨[], rfl⟩
  simp only [Net.outOfSeqPacket]
  obtain ⟨msgs, warn⟩ := warning t.binfo.mcntStart (.outOfSeq hdr.mcnt t.binfo.mcntStart
    (u64 (t.binfo.mcntStart + 2 * nm m)))
  rw [warn]
  split
  · obtain ⟨k', moves⟩ := counted.resync (p := p) sized slow packet
    exact ⟨k', moves.warn msgs⟩
  · have idle : Outcome.Moves m p (window m k) ⟨_, [], noMcnt⟩ k := counted.moves noMcnt (by simp)
    exact ⟨k, by simpa using idle.warn msgs⟩

/-- A packet moves the thread from one pair of blocks to another, and writes to no other. -/
theorem OnBlock.processPacket (on : OnBlock m t k) (sized : Sized m) (slow : m.source ≠ .fast)
    (two : 2 ≤ m.nInputBlocks) (stays : StaysInBlock m q) :
    ∃ k', (Net.processPacket m t q).Moves m p (window m k) k' := by
  have ring := ring_lt sized slow
  have room : nm m < 2 ^ 53 := by
    have := Nat.mul_le_mul_left (nm m) two
    omega
  simp only [Net.processPacket]
  cases zone : pktZone m t.binfo.mcntStart (getHeader q).mcnt with
  | window => exact on.inWindow sized two room zone stays
  | late =>
    refine ⟨k, ?_⟩
    apply on.moves
    intro e he
    split at he
    · rw [List.mem_singleton.mp he]
      exact log_within _
    · exact absurd he List.not_mem_nil
  | outOfSeq => exact on.outOfSeqPacket sized slow (mcnt_lt q)

theorem OnBlock.handle (on : OnBlock m t k) (sized : Sized m) (two : 2 ≤ m.nInputBlocks)
    (stays : StaysInBlock m q) :
    (writer m p).Marks (RunEffect.Beyond m) (window m k) (Net.handle m t q).2 ∧
    ∃ k', OnBlock m (Net.handle m t q).1 k' ∧
      (writer m p).heldAfter (window m k) (Net.handle m t q).2 = window m k' := by
  by_cases fast : m.source = .fast
  · simp only [Net.handle, gate_benchmark, fast, ↓reduceIte]
    exact ⟨trivial, k, on, rfl⟩
  · simp only [Net.handle, gate_benchmark, fast, ↓reduceIte]
    obtain ⟨k', moves⟩ := on.processPacket (p := p) sized fast two stays
    exact ⟨moves.marks, k', moves.on, moves.held⟩

end Calls

/-! ## Startup -/

section Startup

open Lease.Writer

variable (p : UdpPacket)

theorem mem_s6MemcpyBenchmark {op : RunEffect} : op ∈ s6MemcpyBenchmark m ↔
    ∃ b < m.nInputBlocks, ∃ sid < m.nBeams, ∃ mcnt < m.nFineChan, op = .benchmark b sid mcnt := by
  simp only [s6MemcpyBenchmark, List.mem_flatMap, List.mem_map, List.mem_range, numBenchmarks]
  constructor
  · rintro ⟨_, _, b, hb, sid, hs, mcnt, hm, rfl⟩
    exact ⟨b, hb, sid, hs, mcnt, hm, rfl⟩
  · rintro ⟨b, hb, sid, hs, mcnt, hm, rfl⟩
    exact ⟨0, by decide, b, hb, sid, hs, mcnt, hm, rfl⟩

theorem window_zero (two : 2 ≤ m.nInputBlocks) : window m 0 = {0, 1} := by
  rw [window, Nat.zero_mod, Nat.mod_eq_of_lt two]

/-- The benchmark's copies write to the block that they are for. -/
theorem benchmark_writes (sized : Sized m) (two : 2 ≤ m.nInputBlocks) {op : RunEffect}
    (hop : op ∈ s6MemcpyBenchmark m) : ∃ blocks, (writer m p).role op = .write blocks ∧
      (blocks ⊆ window m 0 ↔ ¬ op.Beyond m) := by
  obtain ⟨b, _, sid, beam, mcnt, _, rfl⟩ := mem_s6MemcpyBenchmark.mp hop
  have pos := nm_pos sized
  refine ⟨_, rfl, ?_⟩
  rw [blocksOf_benchmark p mcnt beam pos, window_zero two]
  by_cases fast : m.source = .fast
  · simp [fast, RunEffect.Beyond]
  · simp only [fast, ↓reduceIte, Set.singleton_subset_iff, Set.mem_insert_iff,
      Set.mem_singleton_iff, RunEffect.Beyond, ne_eq, not_false_eq_true, and_true]
    omega

/-- The two waits, and the headers of their blocks. -/
theorem acquire_marks (sized : Sized m) (two : 2 ≤ m.nInputBlocks) :
    (writer m p).Marks (RunEffect.Beyond m) ∅ ((startupEffects m).map .op) ∧
    (writer m p).heldAfter ∅ ((startupEffects m).map .op) = window m 0 := by
  have pos := nm_pos sized
  have waits : (writer m p).heldAfter ∅ [.op (.busywaitFree 0), .op (.busywaitFree 1)] =
      window m 0 := by
    rw [window_zero two]
    simp [heldAfter, writer, RunEffect.role, Lease.Role.after, Set.pair_comm]
  have first : blockForMcnt m 0 = 0 % m.nInputBlocks := by rw [blockForMcnt, Nat.zero_div]
  have second : blockForMcnt m (nm m) = (0 + 1) % m.nInputBlocks := by
    rw [blockForMcnt, Nat.div_self pos]
  have headers : ∀ e ∈ [initializeBlock m 0 0 0, initializeBlock m (nm m) 0 0],
      e.Within m p (window m 0) := by
    intro e he
    simp only [List.mem_cons, List.not_mem_nil, or_false] at he
    rcases he with rfl | rfl
    · rw [initializeBlock, first]
      exact initializeBlock_within (.inl rfl) _ _ _
    · rw [initializeBlock, second]
      exact initializeBlock_within (.inr rfl) _ _ _
  obtain ⟨marks, held⟩ := marks_within headers
  have effects : (startupEffects m).map RunEffect.op =
      [.op (.busywaitFree 0), .op (.busywaitFree 1)] ++
        [initializeBlock m 0 0 0, initializeBlock m (nm m) 0 0].map .op := rfl
  rw [effects, marks_append, heldAfter_append, waits]
  refine ⟨⟨⟨?_, ?_, trivial⟩, marks⟩, held⟩ <;>
    simp [writer, RunEffect.role, Lease.Role.slots, RunEffect.Beyond]

theorem keeps (sized : Sized m) (two : 2 ≤ m.nInputBlocks) :
    (writer m p).Keeps (RunEffect.Beyond m)
      fun t held => ∃ k, OnBlock m t k ∧ held = window m k where
  startup := by
    obtain ⟨acquired, held⟩ := acquire_marks p sized two
    change Marks _ _ _ ((startupEffects m).map .op ++ s6MemcpyBenchmark m)
    rw [marks_append, held]
    exact ⟨acquired, (marks_writes fun _ => benchmark_writes p sized two).1⟩
  initial := by
    have on : OnBlock m (Thread.initial m) 0 :=
      ⟨by simp [Thread.initial, initializeBlockInfo], (Nat.zero_mod _).symm, by simp⟩
    refine ⟨0, on, ?_⟩
    change heldAfter _ _ ((startupEffects m).map .op ++ s6MemcpyBenchmark m) = _
    rw [heldAfter_append, (acquire_marks p sized two).2]
    exact (marks_writes fun _ => benchmark_writes p sized two).2
  call := by
    rintro t _ ⟨q, stays⟩ ⟨k, on, rfl⟩
    exact (on.handle sized two stays).1
  next := by
    rintro t _ ⟨q, stays⟩ ⟨k, on, rfl⟩
    exact (on.handle sized two stays).2

/-- No copy of the benchmark goes beyond the first two blocks. -/
theorem keeps_two (sized : Sized m) (two : 2 ≤ m.nInputBlocks)
    (short : m.source = .fast ∨ m.nInputBlocks = 2) :
    (writer m p).Keeps (fun _ => False)
      fun t held => ∃ k, OnBlock m t k ∧ held = window m k where
  startup := by
    apply (keeps p sized two).startup.congr
    intro op hop
    rcases List.mem_append.mp hop with he | hb
    · obtain ⟨e, _, rfl⟩ := List.mem_map.mp he
      exact Iff.rfl
    · obtain ⟨b, lt, sid, _, mcnt, _, rfl⟩ := mem_s6MemcpyBenchmark.mp hb
      simp only [RunEffect.Beyond, iff_false, not_and, ne_eq, not_not]
      intro beyond
      cases short with
      | inl fast => exact fast
      | inr only => omega
  initial := (keeps p sized two).initial
  call := by
    intro t held q holds
    apply ((keeps p sized two).call t held q holds).congr
    intro op hop
    simp only [writer, handle] at hop
    split at hop
    · obtain ⟨e, _, rfl⟩ := List.mem_map.mp hop
      exact Iff.rfl
    · exact absurd hop List.not_mem_nil
    · exact absurd hop List.not_mem_nil
  next := (keeps p sized two).next

/-- Startup, up to the benchmark's first write to block 2. -/
theorem benchmark_third (sized : Sized m) (three : 3 ≤ m.nInputBlocks) (mem : Mem)
    (flag : Nat → Flag) (free : flag 0 = .free ∧ flag 1 = .free) :
    ∃ c rest, (writer m p).Reachable c ∧ c.pending = .benchmark 2 0 0 :: rest ∧
      c.flag = flag ∧ (writer m p).held c.trace = {0, 1} := by
  have two : 2 ≤ m.nInputBlocks := Nat.le_of_succ_le three
  have third : RunEffect.benchmark 2 0 0 ∈ s6MemcpyBenchmark m := by
    rw [mem_s6MemcpyBenchmark]
    have pos : 0 < m.nFineChan := nm_pos sized
    have beams : 0 < m.nBeams := by
      unfold Macros.nBeams
      cases m.source <;> decide
    exact ⟨2, three, 0, beams, 0, pos, rfl⟩
  obtain ⟨before, rest, eq⟩ := List.append_of_mem third
  have copies : ∀ op ∈ before, op ∈ s6MemcpyBenchmark m := by
    intro op hop
    rw [eq]
    exact List.mem_append_left _ hop
  have next : (writer m p).startup =
      ((startupEffects m).map .op ++ before) ++ .benchmark 2 0 0 :: rest := by
    rw [List.append_assoc, ← eq]
    rfl
  obtain ⟨c, reach, pending, same, held⟩ :=
    (Lease.Writer.Reachable.start (w := writer m p) mem flag).execAll next (by
      intro op hop
      rcases List.mem_append.mp hop with he | hb
      · simp only [startupEffects, List.map_cons, List.map_nil, List.mem_cons, List.not_mem_nil,
          or_false] at he
        rcases he with rfl | rfl | rfl | rfl
        · exact .inl ⟨0, rfl, free.1⟩
        · exact .inl ⟨1, rfl, free.2⟩
        · exact .inr ⟨_, rfl⟩
        · exact .inr ⟨_, rfl⟩
      · obtain ⟨blocks, role, _⟩ := benchmark_writes p sized two (copies op hb)
        exact .inr ⟨blocks, role⟩)
  refine ⟨c, rest, reach, pending, same, ?_⟩
  have stays := (marks_writes fun op hop => benchmark_writes p sized two (copies op hop)).2
  rw [held, ← window_zero two, heldAfter_append]
  change heldAfter _ (heldAfter _ ∅ _) _ = _
  rw [(acquire_marks p sized two).2, stays]

/-- The thread keeps to the blocks it waited for, whatever the consumer does, if the benchmark
stores nothing or there are no more than two blocks. -/
theorem always_owned_iff (sized : Sized m) (two : 2 ≤ m.nInputBlocks) :
    (∀ c, (writer m p).Reachable c → (writer m p).Owned c.trace) ↔
      m.source = .fast ∨ m.nInputBlocks = 2 := by
  constructor
  · intro always
    by_contra more
    push Not at more
    have three : 3 ≤ m.nInputBlocks := by omega
    obtain ⟨c, rest, reach, next, _⟩ :=
      benchmark_third p sized three (fun _ => 0) (fun _ => .free) ⟨rfl, rfl⟩
    have copied := reach.next (.exec c _ rest next trivial)
    have tame := ((keeps p sized two).owned_iff copied).mp (always _ copied)
    exact tame _ List.mem_cons_self ⟨Nat.le_refl _, more.1⟩
  · intro short c reach
    exact ((keeps_two p sized two short).owned_iff reach).mpr fun _ _ => id

end Startup

end S6Reobs.Net

namespace S6Reobs

/-- In every run, the fake thread breaks the ownership of blocks exactly by generating data in
blocks that it did not wait for, and the other thread by its benchmark's copies to such blocks;
no run does in a ring of one block, and of two (or where the benchmark stores nothing). -/
theorem producers_own_iff {m : Macros} (sized : Sized m) (fake : Nat → Nat) (p : Net.UdpPacket) :
    (∀ c, (FakeNet.writer m fake).Reachable c →
      ((FakeNet.writer m fake).Owned c.trace ↔ ∀ e ∈ c.trace, ¬ e.op.Elsewhere)) ∧
    ((∀ c, (FakeNet.writer m fake).Reachable c → (FakeNet.writer m fake).Owned c.trace) ↔
      m.nInputBlocks = 1) ∧
    (2 ≤ m.nInputBlocks →
      (∀ c, (Net.writer m p).Reachable c →
        ((Net.writer m p).Owned c.trace ↔ ∀ e ∈ c.trace, ¬ e.op.Beyond m)) ∧
      ((∀ c, (Net.writer m p).Reachable c → (Net.writer m p).Owned c.trace) ↔
        m.source = .fast ∨ m.nInputBlocks = 2)) := by
  refine ⟨?_, FakeNet.always_owned_iff fake sized, fun two => ⟨?_, ?_⟩⟩
  · exact fun c reach => (FakeNet.keeps fake sized).owned_iff reach
  · exact fun c reach => (Net.keeps p sized two).owned_iff reach
  · exact Net.always_owned_iff p sized two

/-- The S6 build as it is shipped. -/
def s6Shipped : Macros := ⟨.s6, 128 * 1024, 3⟩

theorem sized_s6Shipped : Sized s6Shipped := ⟨by decide, by decide, by decide, by decide⟩

example : Sized ⟨.dibas, 512 * 1024, 3⟩ := ⟨by decide, by decide, by decide, by decide⟩

example : Sized ⟨.fast, 256, 4⟩ := ⟨by decide, by decide, by decide, by decide⟩

/-- In the S6 build no ring is small enough. -/
theorem producers_own_iff_shipped :
    (¬ ∀ c, (FakeNet.writer s6Shipped fun _ => 0).Reachable c →
      (FakeNet.writer s6Shipped fun _ => 0).Owned c.trace) ∧
    ¬ ∀ c, (Net.writer s6Shipped (.ofWords 0 [])).Reachable c →
      (Net.writer s6Shipped (.ofWords 0 [])).Owned c.trace := by
  obtain ⟨_, fake, net⟩ := producers_own_iff sized_s6Shipped (fun _ => 0) (.ofWords 0 [])
  constructor
  · rw [fake]
    decide
  · rw [(net (by decide)).2]
    decide

/-- With blocks still filled at startup, both threads write to one of them, which neither has
acquired. -/
theorem producers_write_filled :
    (∃ c, (FakeNet.writer s6Shipped fun _ => 0).Reachable c ∧
      ¬ (FakeNet.writer s6Shipped fun _ => 0).Owned c.trace ∧
      ∃ e ∈ c.trace, e.op = .copyFakeData 0 1 ∧ e.flag 1 = .filled) ∧
    ∃ c, (Net.writer s6Shipped (.ofWords 0 [])).Reachable c ∧
      ¬ (Net.writer s6Shipped (.ofWords 0 [])).Owned c.trace ∧
      ∃ e ∈ c.trace, e.op = .benchmark 2 0 0 ∧ e.flag 2 = .filled := by
  constructor
  · obtain ⟨c, rest, reach, next, same, _⟩ := FakeNet.first_pass (m := s6Shipped) (fun _ => 0)
      (by decide) (fun _ => 0) (fun b => if b = 0 then .free else .filled) rfl
    have copied := reach.next (.exec c _ rest next trivial)
    refine ⟨_, copied, ?_, _, List.mem_cons_self, rfl, by rw [same]; rfl⟩
    rw [(FakeNet.keeps _ sized_s6Shipped).owned_iff copied]
    exact fun tame => tame _ List.mem_cons_self Nat.one_ne_zero
  · obtain ⟨c, rest, reach, next, same, _⟩ := Net.benchmark_third (.ofWords 0 []) sized_s6Shipped
      (by decide) (fun _ => 0) (fun b => if b < 2 then .free else .filled) ⟨rfl, rfl⟩
    have copied := reach.next (.exec c _ rest next trivial)
    refine ⟨_, copied, ?_, _, List.mem_cons_self, rfl, by rw [same]; rfl⟩
    rw [(Net.keeps _ sized_s6Shipped (by decide)).owned_iff copied]
    exact fun tame => tame _ List.mem_cons_self ⟨Nat.le_refl _, by decide⟩

end S6Reobs
