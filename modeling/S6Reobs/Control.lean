import Mathlib.Tactic.Ring
import S6Reobs.Assembler
import S6Reobs.Window

/-! The thread state of the assembler follows the window of Window.lean, and the
verdict on a packet fixes, up to messages, what the call does to the ring. -/

namespace S6Reobs

open Word Window

variable (g : Geometry)

abbrev Geometry.verdict (block mcnt : Nat) : Verdict :=
  Window.verdict g.nm g.nInputBlocks block mcnt

abbrev Geometry.step (w : Window.State) (mcnt : Nat) : Window.State :=
  Window.step g.nm g.nInputBlocks g.maxOutOfSeq w mcnt

abbrev Geometry.header (a : Arrival) : PacketHeader := getHeader g.toMacros a.frame

/-- The thread holds window `w`, in 64-bit counters that have not wrapped. -/
structure Tracks (t : Thread) (w : Window.State) : Prop where
  mcntStart : t.binfo.mcntStart = g.nm * w.block
  blockI : t.binfo.blockI = w.block % g.nInputBlocks
  strays : t.binfo.outOfSeqCnt = w.strays
  lastFilled : (t.lastFilled + 1).tmod g.nInputBlocks = (w.block % g.nInputBlocks : Nat)
  bound : g.nm * w.block < 2 ^ 57

theorem tracks_initial : Tracks g (Thread.initial g.toMacros) ⟨0, 0⟩ where
  mcntStart := by simp [Thread.initial, initializeBlockInfo]
  blockI := by simp [Thread.initial, initializeBlockInfo]
  strays := rfl
  lastFilled := by simp [Thread.initial]
  bound := by simp

/-! ## The int64 distance test is the unbounded one -/

variable {g}

theorem pktMcntDist_eq {start mcnt : Nat} (hs : start < 2 ^ 57) (hm : mcnt < 2 ^ 56) :
    pktMcntDist start mcnt = (mcnt : Int) - start := by
  unfold pktMcntDist
  apply i64_of_range <;> omega

theorem pktZone_eq {k mcnt : Nat} (hk : g.nm * k < 2 ^ 57) (hm : mcnt < 2 ^ 56) :
    pktZone g.toMacros (g.nm * k) mcnt = match g.verdict k mcnt with
      | .current | .advance => .window
      | .late => .late
      | .stray => .outOfSeq := by
  have nm := g.nm_lt
  have two := g.half_nm
  have ring := g.ring_lt
  have twoNm : u64 (2 * g.nm) = 2 * g.nm := by
    simpa using u64_of_lt (x := 2 * g.nm) (by omega)
  have late : i64 g.latePktMcntThreshold = (2 * g.nm * g.nInputBlocks : Nat) := by
    rw [g.latePktMcntThreshold_eq]
    apply i64_of_range <;> rw [Nat.mul_assoc] <;> omega
  have dist (nonneg : g.nm * k ≤ mcnt) :
      u64 ((mcnt : Int) - (g.nm * k : Nat)) = mcnt - g.nm * k := by
    have := u64_of_range (x := (mcnt : Int) - (g.nm * k : Nat)) (by omega) (by omega)
    omega
  simp only [pktZone, pktMcntDist_eq hk hm, twoNm, late]
  cases hv : g.verdict k mcnt with
  | current =>
    obtain ⟨lo, hi⟩ := verdict_current.mp hv
    rw [if_pos ⟨by omega, by rw [dist lo]; omega⟩]
  | advance =>
    obtain ⟨lo, hi⟩ := verdict_advance.mp hv
    rw [if_pos ⟨by omega, by rw [dist (by omega)]; omega⟩]
  | late =>
    obtain ⟨behind, near⟩ := verdict_late.mp hv
    rw [if_neg (by omega), if_pos ⟨by omega, by omega⟩]
  | stray =>
    have nc : ¬ g.verdict k mcnt = .current := by simp [hv]
    have na : ¬ g.verdict k mcnt = .advance := by simp [hv]
    have nl : ¬ g.verdict k mcnt = .late := by simp [hv]
    rw [verdict_current] at nc
    rw [verdict_advance] at na
    rw [verdict_late] at nl
    rw [if_neg, if_neg]
    · omega
    · rintro ⟨nonneg, close⟩
      rw [dist (by omega)] at close
      omega

theorem blockDone_iff {k mcnt : Nat} (hk : g.nm * k < 2 ^ 57) (hm : mcnt < 2 ^ 56)
    (open_ : g.verdict k mcnt = .current ∨ g.verdict k mcnt = .advance) :
    BlockDone g.toMacros (g.nm * k) mcnt ↔ g.verdict k mcnt = .advance := by
  have nm := g.nm_lt
  have half : u64 (3 * (g.nm / 2 : Nat)) = 3 * (g.nm / 2) := by
    simpa using u64_of_lt (x := 3 * (g.nm / 2)) (by omega)
  have nonneg : g.nm * k ≤ mcnt := by
    cases open_ with
    | inl h => exact (verdict_current.mp h).1
    | inr h =>
      have := (verdict_advance.mp h).1
      omega
  have dist : u64 ((mcnt : Int) - (g.nm * k : Nat)) = mcnt - g.nm * k := by
    have := u64_of_range (x := (mcnt : Int) - (g.nm * k : Nat)) (by omega) (by omega)
    omega
  have upper : mcnt < g.nm * k + 2 * g.nm := by
    cases open_ with
    | inl h =>
      have := (verdict_current.mp h).2
      omega
    | inr h => exact (verdict_advance.mp h).2
  unfold BlockDone
  rw [pktMcntDist_eq hk hm, dist]
  rw [verdict_advance]
  push_cast at half ⊢
  rw [half]
  omega

/-- The zone of a packet is its verdict, but the window has two. -/
theorem Tracks.zone {t : Thread} {w : Window.State} (h : Tracks g t w) (a : Arrival) :
    pktZone g.toMacros t.binfo.mcntStart (getHeader g.toMacros a.frame).mcnt =
      match g.verdict w.block (g.header a).mcnt with
      | .current | .advance => .window
      | .late => .late
      | .stray => .outOfSeq := by
  rw [h.mcntStart]
  exact pktZone_eq h.bound (getHeader_mcnt_lt g.toMacros a.frame)

/-- The packets that finish a block. -/
theorem Tracks.finishes_iff {t : Thread} {w : Window.State} (h : Tracks g t w) (a : Arrival) :
    (pktZone g.toMacros t.binfo.mcntStart (getHeader g.toMacros a.frame).mcnt = .window ∧
      BlockDone g.toMacros t.binfo.mcntStart (getHeader g.toMacros a.frame).mcnt) ↔
      g.verdict w.block (g.header a).mcnt = .advance := by
  have hm : (g.header a).mcnt < 2 ^ 56 := getHeader_mcnt_lt g.toMacros a.frame
  rw [h.zone, h.mcntStart]
  cases v : g.verdict w.block (g.header a).mcnt with
  | current | advance =>
    have done := blockDone_iff h.bound hm (by simp [v])
    simpa [v] using done
  | late | stray => simp

/-- The counter of strays passes the limit long before it overflows. -/
theorem maxOutOfSeq_lt (m : Macros) : m.maxOutOfSeq < 2 ^ 30 := by
  unfold Macros.maxOutOfSeq Macros.nBors Macros.nBeams Macros.nSubspectraPerSpectrum
  cases m.source <;> decide

/-- A packet out of sequence, before the thread may resync. -/
theorem Tracks.stray {t : Thread} {w : Window.State} (h : Tracks g t w) :
    Tracks g { t with binfo := { t.binfo with outOfSeqCnt := inc t.binfo.outOfSeqCnt } }
      ⟨w.block, inc w.strays⟩ :=
  ⟨h.mcntStart, h.blockI, by simp [h.strays], h.lastFilled, h.bound⟩

/-- process_packet branches on the verdict. -/
theorem processPacket_eq {t : Thread} {w : Window.State} (h : Tracks g t w) (a : Arrival) :
    processPacket g.toMacros t a = match g.verdict w.block (g.header a).mcnt with
      | .current => countAndStore g.toMacros ⟨t, [], noMcnt⟩ (g.header a) a.frame
      | .advance => countAndStore g.toMacros
          (finishBlock g.toMacros t (g.header a) a.now) (g.header a) a.frame
      | .late => latePacket t (g.header a)
      | .stray => outOfSeqPacket g.toMacros t (g.header a) := by
  have hm : (g.header a).mcnt < 2 ^ 56 := getHeader_mcnt_lt g.toMacros a.frame
  simp only [processPacket, h.mcntStart]
  rw [pktZone_eq h.bound hm]
  cases hv : g.verdict w.block (g.header a).mcnt with
  | current =>
    have notDone : ¬ BlockDone g.toMacros (g.nm * w.block) (g.header a).mcnt := by
      rw [blockDone_iff h.bound hm (.inl hv), hv]; simp
    simp only [notDone, ↓reduceIte]
  | advance =>
    have done : BlockDone g.toMacros (g.nm * w.block) (g.header a).mcnt :=
      (blockDone_iff h.bound hm (.inr hv)).mpr hv
    simp only [done, ↓reduceIte]
  | late => rfl
  | stray => rfl

/-! ## What a call does -/

/-- The messages that are about one packet only: neither a warning with which
set_block_filled checks the order of fills, nor the notice of a resync. -/
def Msg.Routine : Msg → Prop
  | .fillOutOfOrder .. | .blockMismatch .. | .resetting .. => False
  | _ => True

/-- The effects of storing a packet, none if its source id is out of range. -/
def storing (m : Macros) (f : Frame) : List Effect :=
  let hdr := getHeader m f
  if hdr.sid < m.nSourceNodes then
    [.decMissedPkts (blockForMcnt m hdr.mcnt) (missedIndex m hdr.sid),
      .copyPayload (blockForMcnt m hdr.mcnt) f]
  else []

/-- Block number `k` is filled and block number `k + 2` acquired for this packet. -/
def filling (m : Macros) (k : Nat) (hdr : PacketHeader) (now : Timespec) : List Effect :=
  [.stamp (k % m.nInputBlocks) now, .setFilled (k % m.nInputBlocks),
    .busywaitFree ((k + 2) % m.nInputBlocks),
    .initializeBlock ((k + 2) % m.nInputBlocks) (m.nm * (k + 2)) hdr.pchan hdr.nchan hdr.sid]

/-- The two held blocks are given the numbers `k` and `k + 1`. -/
def recycling (m : Macros) (k pktMcnt : Nat) (hdr : PacketHeader) : List Effect :=
  [.log (.resetting (m.nm * k) (k % m.nInputBlocks) pktMcnt),
    .initializeBlock (k % m.nInputBlocks) (m.nm * k) hdr.pchan hdr.nchan hdr.sid,
    .initializeBlock ((k + 1) % m.nInputBlocks) (m.nm * (k + 1)) hdr.pchan hdr.nchan hdr.sid]

/-- Everything a call can do, with the window it leaves. -/
inductive Does (g : Geometry) (w : Window.State) (a : Arrival) (o : Outcome) :
    Window.State → Prop
  | current (v : g.verdict w.block (g.header a).mcnt = .current)
      (msgs : List Msg) (routine : ∀ msg ∈ msgs, msg.Routine)
      (effects : o.effects = msgs.map .log ++ storing g.toMacros a.frame)
      (ret : o.ret = noMcnt) : Does g w a o ⟨w.block, 0⟩
  | advance (v : g.verdict w.block (g.header a).mcnt = .advance)
      (msgs : List Msg) (routine : ∀ msg ∈ msgs, msg.Routine)
      (effects : o.effects = filling g.toMacros w.block (g.header a) a.now ++
        (msgs.map .log ++ storing g.toMacros a.frame))
      (ret : o.ret = if (g.header a).sid < g.nSourceNodes then g.nm * w.block else noMcnt) :
      Does g w a o ⟨w.block + 1, 0⟩
  | late (v : g.verdict w.block (g.header a).mcnt = .late)
      (msgs : List Msg) (routine : ∀ msg ∈ msgs, msg.Routine)
      (effects : o.effects = msgs.map .log) (ret : o.ret = noMcnt) : Does g w a o w
  | stray (v : g.verdict w.block (g.header a).mcnt = .stray)
      (few : inc w.strays ≤ g.maxOutOfSeq)
      (msgs : List Msg) (routine : ∀ msg ∈ msgs, msg.Routine)
      (effects : o.effects = msgs.map .log) (ret : o.ret = noMcnt) :
      Does g w a o ⟨w.block, inc w.strays⟩
  | resync (v : g.verdict w.block (g.header a).mcnt = .stray)
      (many : g.maxOutOfSeq < inc w.strays)
      (msgs : List Msg) (routine : ∀ msg ∈ msgs, msg.Routine) (pktMcnt : Nat)
      (effects : o.effects = msgs.map .log ++ recycling g.toMacros
        (target g.nm g.nInputBlocks w.block (g.header a).mcnt) pktMcnt (g.header a))
      (ret : o.ret = noMcnt) :
      Does g w a o ⟨target g.nm g.nInputBlocks w.block (g.header a).mcnt, inc w.strays⟩

/-- Every effect of a call is a message about the packet or belongs to one of the
three groups. -/
theorem Does.effect_cases {g : Geometry} {w w' : Window.State} {a : Arrival} {o : Outcome}
    (does : Does g w a o w') {e : Effect} (he : e ∈ o.effects) :
    (∃ msg : Msg, msg.Routine ∧ e = .log msg) ∨ e ∈ storing g.toMacros a.frame ∨
    e ∈ filling g.toMacros w.block (g.header a) a.now ∨
    ∃ k pktMcnt, e ∈ recycling g.toMacros k pktMcnt (g.header a) := by
  have logged {msgs : List Msg} (routine : ∀ msg ∈ msgs, msg.Routine)
      (he : e ∈ msgs.map Effect.log) : ∃ msg : Msg, msg.Routine ∧ e = .log msg := by
    obtain ⟨msg, hm, rfl⟩ := List.mem_map.mp he
    exact ⟨msg, routine msg hm, rfl⟩
  cases does with
  | current v msgs routine effects =>
    rw [effects] at he
    cases List.mem_append.mp he with
    | inl he => exact .inl (logged routine he)
    | inr he => exact .inr (.inl he)
  | advance v msgs routine effects =>
    rw [effects] at he
    cases List.mem_append.mp he with
    | inl he => exact .inr (.inr (.inl he))
    | inr he =>
      cases List.mem_append.mp he with
      | inl he => exact .inl (logged routine he)
      | inr he => exact .inr (.inl he)
  | late v msgs routine effects | stray v few msgs routine effects =>
    rw [effects] at he
    exact .inl (logged routine he)
  | resync v many msgs routine pktMcnt effects =>
    rw [effects] at he
    cases List.mem_append.mp he with
    | inl he => exact .inl (logged routine he)
    | inr he => exact .inr (.inr (.inr ⟨_, _, he⟩))

theorem mem_storing {m : Macros} {f : Frame} {e : Effect} (he : e ∈ storing m f) :
    (getHeader m f).sid < m.nSourceNodes ∧
    (e = .decMissedPkts (blockForMcnt m (getHeader m f).mcnt)
        (missedIndex m (getHeader m f).sid) ∨
      e = .copyPayload (blockForMcnt m (getHeader m f).mcnt) f) := by
  simp only [storing] at he
  split at he
  · exact ⟨‹_›, by simpa using he⟩
  · simp at he

theorem calcBlockIndexes_routine (m : Macros) (binfo : BlockInfo) (hdr : PacketHeader) :
    ∀ msg ∈ (calcBlockIndexes m binfo hdr).1, msg.Routine := by
  intro msg hm
  unfold calcBlockIndexes at hm
  split at hm
  · simp only [List.mem_singleton] at hm
    subst hm
    trivial
  · cases List.mem_append.mp hm with
    | inl h => split at h <;> simp_all [Msg.Routine]
    | inr h => split at h <;> simp_all [Msg.Routine]

/-- calc_block_indexes only sets the pchan and nchan that are reported. -/
theorem calcBlockIndexes_some {m : Macros} {binfo b : BlockInfo} {hdr : PacketHeader}
    (h : (calcBlockIndexes m binfo hdr).2 = some b) :
    hdr.sid < m.nSourceNodes ∧ b = { binfo with pchan := b.pchan, nchan := b.nchan } := by
  unfold calcBlockIndexes at h
  split at h
  · cases h
  · rename_i valid
    simp only [Option.some.injEq] at h
    refine ⟨by omega, ?_⟩
    subst h
    split <;> rfl

theorem calcBlockIndexes_none {m : Macros} {binfo : BlockInfo} {hdr : PacketHeader}
    (h : (calcBlockIndexes m binfo hdr).2 = none) : ¬ hdr.sid < m.nSourceNodes := by
  unfold calcBlockIndexes at h
  split at h
  · omega
  · cases h

/-- The window branch counts the packet, then stores it if its source is known. -/
theorem countAndStore_spec (m : Macros) (o : Outcome) (f : Frame) :
    ∃ msgs : List Msg, (∀ msg ∈ msgs, msg.Routine) ∧ ∃ pchan nchan,
      countAndStore m o (getHeader m f) f =
        { thread := { o.thread with
            binfo := { o.thread.binfo.count (blockForMcnt m (getHeader m f).mcnt) with
              pchan := pchan, nchan := nchan } }
          effects := o.effects ++ (msgs.map .log ++ storing m f)
          ret := if (getHeader m f).sid < m.nSourceNodes then o.ret else noMcnt } := by
  generalize hb : o.thread.binfo.count (blockForMcnt m (getHeader m f).mcnt) = binfo
  have routine := calcBlockIndexes_routine m binfo (getHeader m f)
  simp only [countAndStore, hb]
  generalize hc : calcBlockIndexes m binfo (getHeader m f) = c at routine
  obtain ⟨msgs, res⟩ := c
  refine ⟨msgs, routine, ?_⟩
  cases res with
  | none =>
    have bad := calcBlockIndexes_none (congrArg Prod.snd hc)
    exact ⟨binfo.pchan, binfo.nchan, by simp [storing, bad]⟩
  | some b =>
    obtain ⟨valid, hb'⟩ := calcBlockIndexes_some (congrArg Prod.snd hc)
    refine ⟨b.pchan, b.nchan, ?_⟩
    simp only [storing, valid, ↓reduceIte, List.append_assoc]
    rw [← hb']

/-- The effects on flags, on headers other than missed_pkts, and the messages. -/
def Effect.Steers : Effect → Prop
  | .stamp .. | .setFilled _ | .busywaitFree _ | .initializeBlock .. | .log _ => True
  | .decMissedPkts .. | .copyPayload .. | .recvFrame | .releaseFrame | .hputNetmcnt _ => False

theorem finishBlock_steers {m : Macros} {t : Thread} {hdr : PacketHeader} {now : Timespec}
    {e : Effect} (he : e ∈ (finishBlock m t hdr now).effects) : e.Steers := by
  simp only [finishBlock, setBlockFilled, initializeBlock, List.mem_append, List.mem_cons,
    List.not_mem_nil, or_false] at he
  rcases he with (rfl | (order | index) | rfl) | rfl | rfl
  · trivial
  · split at order <;> simp_all [Effect.Steers]
  · split at index <;> simp_all [Effect.Steers]
  · trivial
  · trivial
  · trivial

theorem outOfSeqPacket_steers {m : Macros} {t : Thread} {hdr : PacketHeader} {e : Effect}
    (he : e ∈ (outOfSeqPacket m t hdr).effects) : e.Steers := by
  simp only [outOfSeqPacket, resync, initializeBlock] at he
  split at he <;> split at he <;> simp at he <;> rcases he with rfl | rfl | rfl | rfl <;> trivial

/-- A packet of the window: the count of strays starts over, and the packet is stored last. -/
theorem processPacket_window_spec {m : Macros} {t : Thread} {a : Arrival}
    (zone : pktZone m t.binfo.mcntStart (getHeader m a.frame).mcnt = .window) :
    (processPacket m t a).thread.binfo.outOfSeqCnt = 0 ∧
    ∃ es : List Effect, (∀ e ∈ es, e.Steers) ∧
      (processPacket m t a).effects = es ++ storing m a.frame := by
  obtain ⟨msgs, _, _, _, eq⟩ := countAndStore_spec m
    (if BlockDone m t.binfo.mcntStart (getHeader m a.frame).mcnt then
      finishBlock m t (getHeader m a.frame) a.now
    else { thread := t, effects := [], ret := noMcnt }) a.frame
  rw [processPacket_window zone, eq]
  refine ⟨rfl, _, ?_, (List.append_assoc _ _ _).symm⟩
  intro e he
  cases List.mem_append.mp he with
  | inl before =>
    split at before
    · exact finishBlock_steers before
    · cases before
  | inr logged =>
    obtain ⟨msg, _, rfl⟩ := List.mem_map.mp logged
    trivial

/-- Beside the storing of its packet, a call only steers. -/
theorem processPacket_effects {m : Macros} {t : Thread} {a : Arrival} {e : Effect}
    (he : e ∈ (processPacket m t a).effects) : e.Steers ∨ e ∈ storing m a.frame := by
  cases zone : pktZone m t.binfo.mcntStart (getHeader m a.frame).mcnt with
  | window =>
    obtain ⟨_, es, steers, effects⟩ := processPacket_window_spec zone
    rw [effects] at he
    cases List.mem_append.mp he with
    | inl before => exact .inl (steers e before)
    | inr stored => exact .inr stored
  | late =>
    rw [processPacket_late zone, latePacket] at he
    dsimp only at he
    split at he <;> simp at he
    subst he
    exact .inl trivial
  | outOfSeq =>
    rw [processPacket_outOfSeq zone] at he
    exact .inl (outOfSeqPacket_steers he)

/-- What a call copies is its own packet, to the block of the packet's counter. -/
theorem processPacket_copies {m : Macros} {t : Thread} {a : Arrival} {b : Nat} {f : Frame}
    (mem : .copyPayload b f ∈ (processPacket m t a).effects) :
    b = blockForMcnt m (getHeader m a.frame).mcnt ∧ f = a.frame ∧
      (getHeader m a.frame).sid < m.nSourceNodes := by
  cases processPacket_effects mem with
  | inl steers => exact steers.elim
  | inr stored =>
    obtain ⟨known, dec | copy⟩ := mem_storing stored
    · cases dec
    · cases copy
      exact ⟨rfl, rfl, known⟩

theorem setBlockFilled_eq {t : Thread} {w : Window.State} (h : Tracks g t w) :
    (setBlockFilled g.toMacros t).effects = [.setFilled (w.block % g.nInputBlocks)] ∧
    (setBlockFilled g.toMacros t).ret = g.nm * w.block ∧
    (setBlockFilled g.toMacros t).thread.lastFilled = (w.block % g.nInputBlocks : Nat) := by
  have block : blockForMcnt g.toMacros t.binfo.mcntStart = w.block % g.nInputBlocks := by
    rw [h.mcntStart, blockForMcnt_mul]
  refine ⟨?_, h.mcntStart, h.lastFilled⟩
  simp [setBlockFilled, block, h.lastFilled, h.blockI]

/-- The block after the next starts where the packet's mcnt plus Nm rounds down to. -/
theorem initializeBlock_next {k mcnt : Nat} (hm : mcnt < 2 ^ 56) (block : mcnt / g.nm = k + 1)
    (pchan nchan sid : Nat) :
    initializeBlock g.toMacros (u64 (mcnt + g.nm)) pchan nchan sid =
      .initializeBlock ((k + 2) % g.nInputBlocks) (g.nm * (k + 2)) pchan nchan sid := by
  have nm := g.nm_lt
  have sum : u64 (mcnt + g.nm) = mcnt + g.nm := by
    simpa using u64_of_lt (x := mcnt + g.nm) (by omega)
  have next : (mcnt + g.nm) / g.nm = k + 2 := by
    rw [Nat.add_div_right _ g.nm_pos, block]
  rw [initializeBlock, sum, Period.sub_mod_eq, blockForMcnt, next]

theorem initializeBlock_mul (k pchan nchan sid : Nat) :
    initializeBlock g.toMacros (g.nm * k) pchan nchan sid =
      .initializeBlock (k % g.nInputBlocks) (g.nm * k) pchan nchan sid := by
  rw [initializeBlock, blockForMcnt_mul, Nat.mul_mod_right, Nat.sub_zero]

theorem finishBlock_effects {t : Thread} {w : Window.State} (h : Tracks g t w) {a : Arrival}
    (v : g.verdict w.block (g.header a).mcnt = .advance) :
    (finishBlock g.toMacros t (g.header a) a.now).effects =
      filling g.toMacros w.block (g.header a) a.now := by
  have hm : (g.header a).mcnt < 2 ^ 56 := getHeader_mcnt_lt g.toMacros a.frame
  have block := advance_block g.even v
  simp only [finishBlock, (setBlockFilled_eq h).1, initializeBlock_next hm block, h.blockI,
    Period.place_succ_succ]
  rfl

theorem mul_succ_eq (g : Geometry) (k : Nat) : g.nm * (k + 1) = g.nm * k + g.nm := by
  rw [Nat.mul_add, Nat.mul_one]

theorem finishBlock_tracks {t : Thread} {w : Window.State} (h : Tracks g t w) {a : Arrival}
    (v : g.verdict w.block (g.header a).mcnt = .advance) :
    Tracks g (finishBlock g.toMacros t (g.header a) a.now).thread ⟨w.block + 1, w.strays⟩ := by
  have hm : (g.header a).mcnt < 2 ^ 56 := getHeader_mcnt_lt g.toMacros a.frame
  obtain ⟨lo, hi⟩ := verdict_advance.mp v
  have half := g.half_nm
  have small : g.nm * (w.block + 1) < 2 ^ 56 := by rw [mul_succ_eq]; omega
  have start : u64 (t.binfo.mcntStart + g.nm) = g.nm * (w.block + 1) := by
    rw [h.mcntStart, mul_succ_eq]
    rw [mul_succ_eq] at small
    simpa using u64_of_lt (x := g.nm * w.block + g.nm) (by omega)
  refine ⟨start, ?_, h.strays, ?_, by dsimp only; omega⟩
  · simp only [finishBlock, h.blockI, Period.place_succ]
  · have last := (setBlockFilled_eq h).2.2
    simp only [finishBlock, last]
    rw [Int.tmod_eq_emod_of_nonneg (by omega)]
    have := Period.place_succ w.block g.nInputBlocks
    exact_mod_cast this

/-- Both threads go forward to the next mcnt whose block has the given place. -/
theorem advance_eq {n N p b mcnt : Nat} (hp : p < N) (hb : b < N) (small : mcnt + n * N < 2 ^ 64) :
    (if b > p then u64 (mcnt + n * (b - p))
      else if b < p then u64 (mcnt + n * (b + N - p)) else mcnt) =
      mcnt + n * Period.lead N p b := by
  have near : n * Period.lead N p b ≤ n * N :=
    Nat.mul_le_mul_left _ (Nat.le_of_lt (Period.lead_lt hp hb))
  have wrap : ∀ x : Nat, x ≤ n * N → u64 ((mcnt : Int) + x) = mcnt + x := by
    intro x hx
    simpa using u64_of_lt (x := mcnt + x) (by omega)
  unfold Period.lead at near ⊢
  rcases Nat.lt_trichotomy p b with lt | eq | gt
  · rw [if_pos (Nat.le_of_lt lt)] at near
    rw [if_pos lt, if_pos (Nat.le_of_lt lt), ← wrap _ near]
    rw [Nat.cast_mul, Nat.cast_sub (Nat.le_of_lt lt)]
  · rw [if_neg (by omega), if_neg (by omega), if_pos (by omega), eq]
    simp
  · rw [if_neg (by omega)] at near
    rw [if_neg (by omega), if_pos gt, if_neg (by omega), ← wrap _ near]
    rw [Nat.cast_mul, Nat.cast_sub (by omega), Nat.cast_add]

theorem advancedMcnt_eq {w : Window.State} {mcnt : Nat} (hm : mcnt < 2 ^ 56) :
    advancedMcnt g.toMacros (w.block % g.nInputBlocks) mcnt =
      mcnt + g.nm * Period.lead g.nInputBlocks (mcnt / g.nm % g.nInputBlocks)
        (w.block % g.nInputBlocks) := by
  have pos := g.nInputBlocks_pos
  have ring := g.ring_lt
  exact advance_eq (Nat.mod_lt _ pos) (Nat.mod_lt _ pos) (by omega)

/-- The resync lands on the start of the target block. -/
theorem resync_mcntStart {t : Thread} {w : Window.State} (h : Tracks g t w) (a : Arrival) :
    (resync g.toMacros t (g.header a)).thread.binfo.mcntStart =
      g.nm * target g.nm g.nInputBlocks w.block (g.header a).mcnt := by
  have hm : (g.header a).mcnt < 2 ^ 56 := getHeader_mcnt_lt g.toMacros a.frame
  simp only [resync, h.blockI, advancedMcnt_eq hm, Period.sub_mod_eq]
  rw [Nat.add_mul_div_left _ _ g.nm_pos]
  rfl

theorem target_lt {w : Window.State} {mcnt : Nat} (hm : mcnt < 2 ^ 56) :
    g.nm * (target g.nm g.nInputBlocks w.block mcnt + 1) < 2 ^ 57 := by
  have bounds := (target_bounds g.nm g.nInputBlocks_pos w.block mcnt).2
  have packet := (Period.bounds_of_div g.nm_pos mcnt).1
  have ring := g.ring_lt
  calc g.nm * (target g.nm g.nInputBlocks w.block mcnt + 1)
      ≤ g.nm * (mcnt / g.nm + g.nInputBlocks) := Nat.mul_le_mul_left _ bounds
    _ = g.nm * (mcnt / g.nm) + g.nm * g.nInputBlocks := Nat.mul_add _ _ _
    _ < 2 ^ 57 := by omega

theorem resync_effects {t : Thread} {w : Window.State} (h : Tracks g t w) (a : Arrival) :
    ∃ pktMcnt, (resync g.toMacros t (g.header a)).effects = recycling g.toMacros
      (target g.nm g.nInputBlocks w.block (g.header a).mcnt) pktMcnt (g.header a) := by
  have hm : (g.header a).mcnt < 2 ^ 56 := getHeader_mcnt_lt g.toMacros a.frame
  have start := resync_mcntStart h a
  have small := target_lt (g := g) (w := w) hm
  generalize target g.nm g.nInputBlocks w.block (g.header a).mcnt = k at start small ⊢
  refine ⟨advancedMcnt g.toMacros t.binfo.blockI (g.header a).mcnt, ?_⟩
  have next : u64 (g.nm * k + g.nm) = g.nm * (k + 1) := by
    rw [mul_succ_eq] at small ⊢
    simpa using u64_of_lt (x := g.nm * k + g.nm) (by omega)
  simp only [resync] at start ⊢
  rw [start, recycling, blockForMcnt_mul]
  push_cast
  rw [next, initializeBlock_mul, initializeBlock_mul]

theorem resync_tracks {t : Thread} {w : Window.State} (h : Tracks g t w) (a : Arrival) :
    Tracks g (resync g.toMacros t (g.header a)).thread
      ⟨target g.nm g.nInputBlocks w.block (g.header a).mcnt, w.strays⟩ := by
  have hm : (g.header a).mcnt < 2 ^ 56 := getHeader_mcnt_lt g.toMacros a.frame
  have start := resync_mcntStart h a
  have place := target_place g.nm g.nInputBlocks_pos w.block (g.header a).mcnt
  refine ⟨start, ?_, h.strays, ?_, ?_⟩
  · simp only [resync] at start ⊢
    rw [start, blockForMcnt_mul]
  · simp only [resync, h.lastFilled, place]
  · have := target_lt (g := g) (w := w) hm
    rw [mul_succ_eq] at this
    dsimp only
    omega

/-- Counting changes no field of the window but the stray count. -/
theorem Tracks.count {t : Thread} {w : Window.State} (h : Tracks g t w) (b pchan nchan : Nat) :
    Tracks g { t with binfo := { t.binfo.count b with pchan := pchan, nchan := nchan } }
      ⟨w.block, 0⟩ :=
  ⟨h.mcntStart, h.blockI, rfl, h.lastFilled, h.bound⟩

/-- A packet out of sequence, and the resync after too many of them. -/
theorem outOfSeqPacket_does {t : Thread} {w : Window.State} (h : Tracks g t w) {a : Arrival}
    (v : g.verdict w.block (g.header a).mcnt = .stray) :
    Does g w a (outOfSeqPacket g.toMacros t (g.header a)) (g.step w (g.header a).mcnt) ∧
    Tracks g (outOfSeqPacket g.toMacros t (g.header a)).thread (g.step w (g.header a).mcnt) := by
  have warning : ∃ msgs : List Msg, (∀ msg ∈ msgs, msg.Routine) ∧
      (if t.binfo.mcntStart ≠ 0 then [Effect.log (.outOfSeq (g.header a).mcnt
        t.binfo.mcntStart (u64 (t.binfo.mcntStart + 2 * g.nm)))] else []) =
        msgs.map .log := by
    split
    · exact ⟨[.outOfSeq _ _ _], by simp [Msg.Routine], rfl⟩
    · exact ⟨[], by simp, rfl⟩
  obtain ⟨msgs, routine, warn⟩ := warning
  simp only [outOfSeqPacket, warn]
  by_cases many : g.maxOutOfSeq < inc w.strays
  · obtain ⟨pktMcnt, effects⟩ := resync_effects h.stray a
    have next : g.step w (g.header a).mcnt = ⟨_, inc w.strays⟩ := step_resync v many
    rw [next, if_pos (by rw [h.strays]; exact many)]
    exact ⟨.resync v many msgs routine pktMcnt (by rw [effects]) rfl, resync_tracks h.stray a⟩
  · have next : g.step w (g.header a).mcnt = ⟨w.block, inc w.strays⟩ :=
      step_stray v (by omega)
    rw [next, if_neg (by rw [h.strays]; exact many)]
    exact ⟨.stray v (by omega) msgs routine rfl rfl, h.stray⟩

/-- One call, from a thread that holds window `w`. -/
theorem call_does {t : Thread} {w : Window.State} (h : Tracks g t w) (a : Arrival) :
    Does g w a (processPacket g.toMacros t a) (g.step w (g.header a).mcnt) ∧
    Tracks g (processPacket g.toMacros t a).thread (g.step w (g.header a).mcnt) := by
  rw [processPacket_eq h]
  cases v : g.verdict w.block (g.header a).mcnt with
  | current =>
    obtain ⟨msgs, routine, pchan, nchan, eq⟩ :=
      countAndStore_spec g.toMacros ⟨t, [], noMcnt⟩ a.frame
    have next : g.step w (g.header a).mcnt = ⟨w.block, 0⟩ := step_current v
    rw [next]
    simp only [Geometry.header, eq]
    exact ⟨.current v msgs routine (by simp) (by simp), h.count _ _ _⟩
  | advance =>
    obtain ⟨msgs, routine, pchan, nchan, eq⟩ :=
      countAndStore_spec g.toMacros (finishBlock g.toMacros t (g.header a) a.now) a.frame
    have effects := finishBlock_effects h v
    have ret : (finishBlock g.toMacros t (g.header a) a.now).ret = g.nm * w.block :=
      (setBlockFilled_eq h).2.1
    have next : g.step w (g.header a).mcnt = ⟨w.block + 1, 0⟩ := step_advance v
    rw [next]
    simp only [Geometry.header] at effects ret
    simp only [Geometry.header, eq]
    exact ⟨.advance v msgs routine (by rw [effects]) (by rw [ret]),
      (finishBlock_tracks h v).count _ _ _⟩
  | late =>
    have next : g.step w (g.header a).mcnt = w := step_late v
    rw [next]
    refine ⟨?_, h⟩
    simp only [latePacket]
    split
    · exact .late v [.latePacket _] (by simp [Msg.Routine]) rfl rfl
    · exact .late v [] (by simp) rfl rfl
  | stray => exact outOfSeqPacket_does h v

/-- What one call does to the ring. -/
theorem call_ring {s : State} {w : Window.State} (h : Tracks g s.thread w) (a : Arrival) :
    ∃ o w', Does g w a o w' ∧ g.step w (g.header a).mcnt = w' ∧
      (s.call g.toMacros a).ring = s.ring.execAll g.toMacros o.effects :=
  ⟨_, _, (call_does h a).1, rfl, rfl⟩

end S6Reobs
