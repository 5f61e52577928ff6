import S6Reobs.Contents

/-! Packets that process_packet does not store. Late packets and the first
out-of-sequence packets leave everything but the out-of-seq counter alone. The
source id is looked at only after the window has moved and the packet has been
counted, so a packet of the window is never rejected without a trace. -/

namespace S6Reobs

open Word Window

variable {g : Geometry}

/-- The packet is late, or out of sequence with MAX_OUT_OF_SEQ not yet exceeded,
or its source id is out of range. -/
def Rejected (m : Macros) (s : State) (a : Arrival) : Prop :=
  pktZone m s.thread.binfo.mcntStart (getHeader m a.frame).mcnt = .late ∨
  (pktZone m s.thread.binfo.mcntStart (getHeader m a.frame).mcnt = .outOfSeq ∧
    inc s.thread.binfo.outOfSeqCnt ≤ m.maxOutOfSeq) ∨
  ¬ Known m a.frame

/-- Nothing changed but out_of_seq_cnt. -/
structure Harmless (s s' : State) : Prop where
  thread : s'.thread = { s.thread with
    binfo := { s.thread.binfo with outOfSeqCnt := s'.thread.binfo.outOfSeqCnt } }
  mem : s'.ring.mem = s.ring.mem
  flag : s'.ring.flag = s.ring.flag

theorem execAll_logs (m : Macros) (msgs : List Msg) (r : Ring) :
    (r.execAll m (msgs.map .log)).mem = r.mem ∧ (r.execAll m (msgs.map .log)).flag = r.flag := by
  induction msgs generalizing r with
  | nil => exact ⟨rfl, rfl⟩
  | cons msg msgs ih => exact ih (r.exec m (.log msg))

/-- A packet of the window is counted, whatever its source id. -/
theorem window_counts {t : Thread} {w : Window.State} (h : Tracks g t w) (a : Arrival)
    (open_ : g.verdict w.block (g.header a).mcnt = .current ∨
      g.verdict w.block (g.header a).mcnt = .advance) :
    (processPacket g.toMacros t a).thread.binfo.blockPacketCounter
        (blockForMcnt g.toMacros (g.header a).mcnt) =
      t.binfo.blockPacketCounter (blockForMcnt g.toMacros (g.header a).mcnt) + 1 := by
  rw [processPacket_eq h]
  cases open_ with
  | inl v =>
    obtain ⟨_, _, _, _, eq⟩ := countAndStore_spec g.toMacros ⟨t, [], noMcnt⟩ a.frame
    rw [v]
    simp only [Geometry.header, eq, BlockInfo.count, Function.update_self]
  | inr v =>
    obtain ⟨_, _, _, _, eq⟩ :=
      countAndStore_spec g.toMacros (finishBlock g.toMacros t (g.header a) a.now) a.frame
    have place : blockForMcnt g.toMacros (g.header a).mcnt = (w.block + 1) % g.nInputBlocks := by
      rw [blockForMcnt, advance_block g.even v]
    -- the counter that is reset belongs to the block after the packet's own
    have other : (w.block + 1) % g.nInputBlocks ≠
        ((t.binfo.blockI + 1) % g.nInputBlocks + 1) % g.nInputBlocks := by
      rw [h.blockI, Period.place_succ_succ]
      exact Period.place_ne_succ g.two_le_blocks (w.block + 1)
    simp only [Geometry.header] at place
    rw [v]
    simp only [Geometry.header, eq, BlockInfo.count, Function.update_self]
    simp only [finishBlock, place, Function.update_of_ne other]

/-- A resync never lands on the block the window started from. -/
theorem target_ne {block mcnt : Nat} (v : g.verdict block mcnt = .stray) :
    target g.nm g.nInputBlocks block mcnt ≠ block := by
  intro same
  obtain ⟨lo, hi⟩ := target_bounds g.nm g.nInputBlocks_pos block mcnt
  rw [same] at lo hi
  obtain ⟨start, stop⟩ := Period.bounds_of_div g.nm_pos mcnt
  have nc : ¬ g.verdict block mcnt = .current := by simp [v]
  have na : ¬ g.verdict block mcnt = .advance := by simp [v]
  have nl : ¬ g.verdict block mcnt = .late := by simp [v]
  rw [verdict_current] at nc
  rw [verdict_advance] at na
  rw [verdict_late] at nl
  have ahead : mcnt < g.nm * block + g.nm := by
    have := Nat.mul_le_mul_left g.nm (Nat.add_le_add_right lo 1)
    rw [mul_succ_eq g block] at this
    omega
  have behind : g.nm * block < mcnt + g.nm * g.nInputBlocks := by
    have := Nat.mul_lt_mul_of_pos_left hi g.nm_pos
    rw [Nat.mul_add] at this
    omega
  have scaled : 2 * g.nm * g.nInputBlocks = 2 * (g.nm * g.nInputBlocks) := Nat.mul_assoc _ _ _
  omega

theorem harmless_of_logs {m : Macros} {s : State} {a : Arrival} (msgs : List Msg) {n : Int}
    (thread : (processPacket m s.thread a).thread =
      { s.thread with binfo := { s.thread.binfo with outOfSeqCnt := n } })
    (effects : (processPacket m s.thread a).effects = msgs.map .log) :
    Harmless s (s.call m a) := by
  obtain ⟨mem, flag⟩ := execAll_logs m msgs s.ring
  refine ⟨?_, ?_, ?_⟩
  · simp only [State.call, thread]
  · simp only [State.call, effects, mem]
  · simp only [State.call, effects, flag]

theorem window_not_harmless {s : State} {w : Window.State} (h : Tracks g s.thread w) {a : Arrival}
    (open_ : g.verdict w.block (g.header a).mcnt = .current ∨
      g.verdict w.block (g.header a).mcnt = .advance) : ¬ Harmless s (s.call g.toMacros a) := by
  intro harmless
  have counts := window_counts h a open_
  have same : (processPacket g.toMacros s.thread a).thread = _ := harmless.thread
  rw [same] at counts
  simp at counts

theorem stray_harmless_iff {s : State} {w : Window.State} (h : Tracks g s.thread w) {a : Arrival}
    (v : g.verdict w.block (g.header a).mcnt = .stray) :
    Harmless s (s.call g.toMacros a) ↔ inc s.thread.binfo.outOfSeqCnt ≤ g.maxOutOfSeq := by
  have step := processPacket_eq h a
  simp only [v, outOfSeqPacket] at step
  by_cases many : inc s.thread.binfo.outOfSeqCnt > g.maxOutOfSeq
  · rw [if_pos many] at step
    refine iff_of_false ?_ (by omega)
    intro harmless
    have start := resync_mcntStart h.stray a
    have same : (processPacket g.toMacros s.thread a).thread = _ := harmless.thread
    rw [step] at same
    have moved := congrArg (fun t => t.binfo.mcntStart) same
    dsimp only at moved
    rw [start, h.mcntStart] at moved
    exact target_ne v (Nat.eq_of_mul_eq_mul_left g.nm_pos moved)
  · rw [if_neg many] at step
    refine iff_of_true ?_ (by omega)
    by_cases warn : s.thread.binfo.mcntStart ≠ 0
    · exact harmless_of_logs [_] (by rw [step]) (by rw [step]; exact if_pos warn)
    · exact harmless_of_logs [] (by rw [step]) (by rw [step]; exact if_neg warn)

/-- Nothing else changes exactly when the packet is outside the window and does
not make the thread resync. -/
theorem harmless_iff {s : State} (h : Reachable g.toMacros s) (a : Arrival) :
    Harmless s (s.call g.toMacros a) ↔
      pktZone g.toMacros s.thread.binfo.mcntStart (g.header a).mcnt ≠ .window ∧
      (pktZone g.toMacros s.thread.binfo.mcntStart (g.header a).mcnt = .outOfSeq →
        inc s.thread.binfo.outOfSeqCnt ≤ g.maxOutOfSeq) := by
  obtain ⟨w, tracks⟩ := reachable_tracks h
  rw [show pktZone _ _ (g.header a).mcnt = _ from tracks.zone a]
  cases v : g.verdict w.block (g.header a).mcnt with
  | current => simpa using window_not_harmless tracks (.inl v)
  | advance => simpa using window_not_harmless tracks (.inr v)
  | late =>
    have step := processPacket_eq tracks a
    simp only [v, latePacket] at step
    simp only [ne_eq, reduceCtorEq, not_false_eq_true, false_implies, and_self, iff_true]
    by_cases warn : s.thread.binfo.mcntStart ≥ s.thread.binfo.mcntLogLate
    · exact harmless_of_logs [_] (by rw [step]) (by rw [step]; exact if_pos warn)
    · exact harmless_of_logs [] (by rw [step]) (by rw [step]; exact if_neg warn)
  | stray => simpa using stray_harmless_iff tracks v

/-- A packet that is not stored leaves the state alone, unless its source id is out
of range and it is in the window or makes the thread resync. -/
theorem rejected_harmless_iff {s : State} (h : Reachable g.toMacros s) (a : Arrival) :
    (Rejected g.toMacros s a → Harmless s (s.call g.toMacros a)) ↔
      (¬ Known g.toMacros a.frame →
        pktZone g.toMacros s.thread.binfo.mcntStart (g.header a).mcnt ≠ .window ∧
        (pktZone g.toMacros s.thread.binfo.mcntStart (g.header a).mcnt = .outOfSeq →
          inc s.thread.binfo.outOfSeqCnt ≤ g.maxOutOfSeq)) := by
  have exact_ := harmless_iff h a
  constructor
  · intro claimed unknown
    exact exact_.mp (claimed (.inr (.inr unknown)))
  · rintro known (late | ⟨outOfSeq, few⟩ | unknown)
    · exact exact_.mpr (by simp [Geometry.header, late])
    · exact exact_.mpr (by simp [Geometry.header, outOfSeq, few])
    · exact exact_.mpr (known unknown)

/-- A packet whose source id is out of range, in the last half block of the window,
makes the thread fill block 0, acquire another and move on. -/
theorem bad_sid_not_harmless :
    Reachable fastSmall.toMacros
      (State.start fastSmall.toMacros (fun _ => 0) (fun _ => .free)) ∧
    Rejected fastSmall.toMacros
      (State.start fastSmall.toMacros (fun _ => 0) (fun _ => .free)) (fastPacket 3) ∧
    ¬ Harmless (State.start fastSmall.toMacros (fun _ => 0) (fun _ => .free))
      ((State.start fastSmall.toMacros (fun _ => 0) (fun _ => .free)).call fastSmall.toMacros
        (fastPacket 3)) := by
  refine ⟨.start _ _, .inr (.inr (by decide)), ?_⟩
  intro harmless
  have moved : 2 = 0 := congrArg (fun t => t.binfo.mcntStart) harmless.thread
  omega

theorem rejected_harmless_iff_start :
    (Rejected fastSmall.toMacros (State.start fastSmall.toMacros (fun _ => 0) (fun _ => .free))
        (fastPacket 4) →
      Harmless (State.start fastSmall.toMacros (fun _ => 0) (fun _ => .free))
        ((State.start fastSmall.toMacros (fun _ => 0) (fun _ => .free)).call fastSmall.toMacros
          (fastPacket 4))) ↔
    (¬ Known fastSmall.toMacros (fastPacket 4).frame →
      pktZone fastSmall.toMacros 0 4 ≠ .window ∧
        (pktZone fastSmall.toMacros 0 4 = .outOfSeq → (1 : Int) ≤ fastSmall.maxOutOfSeq)) :=
  rejected_harmless_iff (.start _ _) (fastPacket 4)

end S6Reobs
