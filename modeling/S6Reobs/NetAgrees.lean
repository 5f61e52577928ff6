import S6Reobs.NetThread
import S6Reobs.PacketSizes

/-! The two front ends of the S6 build. The thread with the packet socket and the one with the
UDP socket take the same decisions and keep the same headers; the blocks' data agree as long as
the payloads are whole 32-byte words. -/

namespace S6Reobs

open Word

/-- The UDP socket delivers the datagram that the frame holds. -/
structure Carries (p : Net.UdpPacket) (f : Frame) : Prop where
  size : p.packetSize = packetSize f
  word : ∀ w : Nat, ((8 * w + 8 : Nat) : Int) ≤ packetSize f → p.word w = f.udpWord w

/-- The size passes the size tests of both threads. -/
structure PassesBoth (m : Macros) (f : Frame) : Prop where
  lo : 16 ≤ packetSize f
  hi : packetSize f ≤ ((8 + m.nCoarseChan * Net.nBytesPerChan + 8 : Nat) : Int)
  aligned : packetSize f % 8 = 0

/-- The same effect as the other thread has it, with its packet for the frame; it stamps no
times and returns no frames. -/
def Effect.onNet (p : Net.UdpPacket) : Effect → Option Net.Effect
  | .setFilled b => some (.setFilled b)
  | .busywaitFree b => some (.busywaitFree b)
  | .initializeBlock b mcnt pchan nchan _ => some (.initializeBlock b mcnt pchan nchan)
  | .decMissedPkts b i => some (.decMissedPkts b i)
  | .copyPayload b _ => some (.copyPayload b p)
  | .log msg => some (.log msg)
  | .stamp .. | .recvFrame | .releaseFrame | .hputNetmcnt _ => none

/-- What the threads keep alike. -/
structure Thread.Like (t : Thread) (t' : Net.Thread) : Prop where
  binfo : t'.binfo = t.binfo
  lastFilled : t'.lastFilled = t.lastFilled

structure Outcome.Like (p : Net.UdpPacket) (o : Outcome) (o' : Net.Outcome) : Prop where
  thread : o.thread.Like o'.thread
  effects : o'.effects = o.effects.filterMap (Effect.onNet p)
  ret : o'.ret = o.ret

/-! ## The constants -/

section Constants

variable {m : Macros} (s6 : m.source = .s6)
include s6

theorem netNm_eq : Net.nm m = m.nm := by
  simp [Net.nm, Macros.nFineChan, Macros.nm, Macros.nSpectraPerPacket, s6]

theorem netMaxOutOfSeq_eq : Net.maxOutOfSeq m = m.maxOutOfSeq := by
  simp [Net.maxOutOfSeq, Macros.maxOutOfSeq, Macros.nBors, s6]

theorem netLatePktMcntThreshold_eq :
    Net.latePktMcntThreshold m = m.latePktMcntThreshold := by
  rw [Net.latePktMcntThreshold, Macros.latePktMcntThreshold, netNm_eq s6]

theorem netBlockForMcnt_eq : Net.blockForMcnt m = blockForMcnt m := by
  funext mcnt
  rw [Net.blockForMcnt, blockForMcnt, netNm_eq s6]

theorem netPktZone_eq : Net.pktZone m = pktZone m := by
  funext curMcnt pktMcnt
  simp only [Net.pktZone, pktZone, netNm_eq s6, netLatePktMcntThreshold_eq s6]

theorem netBlockDone_eq (curMcnt pktMcnt : Nat) :
    Net.BlockDone m curMcnt pktMcnt ↔ BlockDone m curMcnt pktMcnt := by
  rw [Net.BlockDone, BlockDone, netNm_eq s6]

theorem netCalcBlockIndexes_eq : Net.calcBlockIndexes m = calcBlockIndexes m := by
  have nodes : m.nSourceNodes = m.nBeams := by simp [Macros.nSourceNodes, s6]
  funext binfo hdr
  simp only [Net.calcBlockIndexes, calcBlockIndexes, nodes]

theorem netAdvancedMcnt_eq : Net.advancedMcnt m = advancedMcnt m := by
  funext blockI pktMcnt
  simp only [Net.advancedMcnt, advancedMcnt, netNm_eq s6, netBlockForMcnt_eq s6]

theorem netInitializeBlock_eq (p : Net.UdpPacket) (mcnt pchan nchan sid : Nat) :
    (initializeBlock m mcnt pchan nchan sid).onNet p =
      some (Net.initializeBlock m mcnt pchan nchan) := by
  rw [initializeBlock, Net.initializeBlock, netNm_eq s6, netBlockForMcnt_eq s6]
  rfl

theorem netGetHeader_eq {p : Net.UdpPacket} {f : Frame} (carries : Carries p f)
    (passes : PassesBoth m f) : Net.getHeader p = getHeader m f := by
  have first := carries.word 0 (by have := passes.lo; omega)
  have nchan : u64 ((p.packetSize - 2 * 8).tdiv Net.nBytesPerChan) =
      u32 (f.udpSize - 3 * 8) / 4 / 1 := by
    have lo := passes.lo
    have small := f.udpSize_lt
    rw [carries.size]
    unfold packetSize at lo ⊢
    rw [Int.tdiv_eq_ediv_of_nonneg (by omega)]
    unfold Net.nBytesPerChan u64 u32
    omega
  simp only [Net.getHeader, getHeader, s6, first, nchan, Macros.nBytesPerChan,
    Macros.nSpectraPerPacket]

end Constants

/-! ## One call -/

section Call

variable {m : Macros} (s6 : m.source = .s6) {p : Net.UdpPacket}
include s6

theorem setBlockFilled_like {t : Thread} {t' : Net.Thread} (like : t.Like t') :
    (setBlockFilled m t).Like p (Net.setBlockFilled m t') := by
  obtain ⟨binfo, lastFilled⟩ := like
  simp only [setBlockFilled, Net.setBlockFilled, binfo, lastFilled, netBlockForMcnt_eq s6]
  refine ⟨⟨rfl, rfl⟩, ?_, rfl⟩
  dsimp only
  split <;> split <;> rfl

theorem finishBlock_like {t : Thread} {t' : Net.Thread} (like : t.Like t') (hdr : PacketHeader)
    (now : Timespec) : (finishBlock m t hdr now).Like p (Net.finishBlock m t' hdr) := by
  obtain ⟨⟨_, lastFilled⟩, effects, ret⟩ := setBlockFilled_like s6 (p := p) like
  have binfo := like.binfo
  refine ⟨⟨?_, lastFilled⟩, ?_, ret⟩
  · simp only [finishBlock, Net.finishBlock, binfo, netNm_eq s6]
  · simp only [finishBlock, Net.finishBlock, effects, binfo, netNm_eq s6, List.filterMap_append,
      List.filterMap_cons, List.filterMap_nil, netInitializeBlock_eq s6]
    rfl

omit s6 in
theorem filterMap_logs (msgs : List Msg) :
    (msgs.map Effect.log).filterMap (Effect.onNet p) = msgs.map Net.Effect.log := by
  induction msgs with
  | nil => rfl
  | cons msg msgs ih => simp [Effect.onNet, ih]

theorem countAndStore_like {o : Outcome} {o' : Net.Outcome} (like : o.Like p o')
    (hdr : PacketHeader) (f : Frame) :
    (countAndStore m o hdr f).Like p (Net.countAndStore m o' hdr p) := by
  obtain ⟨⟨binfo, lastFilled⟩, effects, ret⟩ := like
  have index : missedIndex m hdr.sid = hdr.sid := by simp [missedIndex, s6]
  simp only [countAndStore, Net.countAndStore, binfo, netBlockForMcnt_eq s6,
    netCalcBlockIndexes_eq s6, index]
  generalize calcBlockIndexes m _ hdr = c
  obtain ⟨msgs, res⟩ := c
  cases res with
  | none =>
    refine ⟨⟨rfl, lastFilled⟩, ?_, rfl⟩
    simp only [effects, List.filterMap_append, filterMap_logs]
  | some binfo =>
    refine ⟨⟨rfl, lastFilled⟩, ?_, ret⟩
    simp only [effects, List.filterMap_append, filterMap_logs]
    rfl

omit s6 in
theorem latePacket_like {t : Thread} {t' : Net.Thread} (like : t.Like t') (hdr : PacketHeader) :
    (latePacket t hdr).Like p (Net.latePacket t' hdr) := by
  have binfo := like.binfo
  simp only [latePacket, Net.latePacket, binfo]
  refine ⟨like, ?_, rfl⟩
  dsimp only
  split <;> rfl

theorem outOfSeqPacket_like {t : Thread} {t' : Net.Thread} (like : t.Like t')
    (hdr : PacketHeader) : (outOfSeqPacket m t hdr).Like p (Net.outOfSeqPacket m t' hdr) := by
  obtain ⟨binfo, lastFilled⟩ := like
  simp only [outOfSeqPacket, Net.outOfSeqPacket, resync, Net.resync, binfo, netMaxOutOfSeq_eq s6,
    netNm_eq s6, netBlockForMcnt_eq s6, netAdvancedMcnt_eq s6]
  split
  · refine ⟨⟨rfl, lastFilled⟩, ?_, rfl⟩
    simp only [List.filterMap_append, List.filterMap_cons, netInitializeBlock_eq s6]
    split <;> rfl
  · refine ⟨⟨rfl, lastFilled⟩, ?_, rfl⟩
    dsimp only
    split <;> rfl

theorem processPacket_like {t : Thread} {t' : Net.Thread} (like : t.Like t') {a : Arrival}
    (carries : Carries p a.frame) (passes : PassesBoth m a.frame) :
    (processPacket m t a).Like p (Net.processPacket m t' p) := by
  have header := netGetHeader_eq s6 carries passes
  simp only [processPacket, Net.processPacket, header, like.binfo, netPktZone_eq s6]
  cases pktZone m t.binfo.mcntStart (getHeader m a.frame).mcnt with
  | window =>
    apply countAndStore_like s6
    by_cases done : BlockDone m t.binfo.mcntStart (getHeader m a.frame).mcnt
    · rw [if_pos done, if_pos ((netBlockDone_eq s6 _ _).mpr done)]
      exact finishBlock_like s6 like _ _
    · rw [if_neg done, if_neg (mt (netBlockDone_eq s6 _ _).mp done)]
      exact ⟨like, rfl, rfl⟩
  | late => exact latePacket_like like _
  | outOfSeq => exact outOfSeqPacket_like s6 like _

end Call

/-! ## The rings -/

/-- The header fields that both threads keep. -/
def Field.Kept (m : Macros) : Field → Prop
  | .mcnt | .coarseChanId | .numCoarseChan => True
  | .missedPkts i => i < m.nBors
  | .sid | .timeSec | .timeNsec => False

def Net.Entry.mark (e : Net.Entry) : Option Mark :=
  match e.effect with
  | .setFilled b => some (.filled b (e.before (.header b .mcnt)))
  | .log (.resetting ..) => some .reset
  | _ => none

/-- The blocks marked filled, with their header.mcnt, and the resyncs, oldest first. -/
def Net.marks (tr : List Net.Entry) : List Mark := tr.reverse.filterMap Net.Entry.mark

/-- The rings agree in the headers, the flags and the history of fills. -/
structure SameHeaders (m : Macros) (r : Ring) (r' : Net.Ring) : Prop where
  header : ∀ b < m.nInputBlocks, ∀ fld : Field, fld.Kept m →
    r.mem (.header b fld) = r'.mem (.header b fld)
  flag : r.flag = r'.flag
  fills : marks r.trace = Net.marks r'.trace

/-- They agree in every word of the blocks' data. -/
def SameData (m : Macros) (r : Ring) (r' : Net.Ring) : Prop :=
  ∀ b < m.nInputBlocks, ∀ k < m.dataWords, r.mem (.data b k) = r'.mem (.data b k)

section Layout

variable {m : Macros} (s6 : m.source = .s6)
include s6

theorem headerWords_s6 : m.headerWords = 13 ∧ m.paddingWords = 19 := by
  simp [Macros.headerWords, Macros.paddingWords, Macros.nBors, Macros.nBeams, s6]

theorem Field.Kept.word_lt {fld : Field} (kept : fld.Kept m) : fld.word < 13 := by
  cases fld with
  | missedPkts i =>
    simp only [Kept, Macros.nBors, Macros.nBeams, s6] at kept
    simp only [word]
    omega
  | mcnt | coarseChanId | numCoarseChan => decide
  | sid | timeSec | timeNsec => exact kept.elim

/-- A run that starts in the header of a block and ends before its data covers words of that
header only. -/
theorem covers_header {b c off x : Nat} {q : Copy.Piece Nat}
    (dest : q.dest = b * m.blockWords + off) (short : off + q.len ≤ 32) (hx : x < m.blockWords) :
    q.Covers (c * m.blockWords + x) ↔ c = b ∧ off ≤ x ∧ x < off + q.len := by
  have size : 32 ≤ m.blockWords := by
    have := headerWords_s6 s6
    unfold Macros.blockWords
    omega
  rw [Copy.Piece.Covers, dest]
  constructor
  · rintro ⟨lo, hi⟩
    obtain ⟨y, hy⟩ := Nat.exists_eq_add_of_le lo
    obtain ⟨rfl, rfl⟩ := pair_inj hx (show off + y < m.blockWords by omega)
      (show c * m.blockWords + x = b * m.blockWords + (off + y) by omega)
    omega
  · rintro ⟨rfl, lo, hi⟩
    omega

/-- What this thread's initialize_block leaves in a header word. -/
theorem netInit_header (b mcnt pchan nchan sid : Nat) (mem : Mem) (c : Nat) {fld : Field}
    (kept : fld.Kept m) :
    (Net.Effect.initializeBlock b mcnt pchan nchan).apply m mem (.header c fld) =
      if c = b then initField m mcnt pchan nchan sid (mem (.header c fld)) fld
      else mem (.header c fld) := by
  have small := kept.word_lt s6
  have inside : fld.word < m.blockWords := by
    have := headerWords_s6 s6
    unfold Macros.blockWords
    omega
  have slots : m.nBeamSlots = 8 := by simp [Macros.nBeamSlots, s6]
  have missed : (Net.missedPktsPiece m b).Covers (c * m.blockWords + fld.word) ↔
      c = b ∧ 6 ≤ fld.word ∧ fld.word < 6 + m.nBeamSlots :=
    covers_header s6 rfl (by simp [Net.missedPktsPiece, slots]) inside
  have fields : (Net.fieldsPiece m b mcnt pchan nchan).Covers (c * m.blockWords + fld.word) ↔
      c = b ∧ 0 ≤ fld.word ∧ fld.word < 0 + 3 :=
    covers_header s6 rfl (by simp [Net.fieldsPiece]) inside
  have at_ : (Loc.header c fld).addr m = c * m.blockWords + fld.word := rfl
  simp only [Net.Effect.apply, Net.initPieces, Copy.copyAll, List.foldl_cons, List.foldl_nil,
    Copy.Piece.copy, at_, missed, fields]
  by_cases same : c = b
  · subst same
    cases fld with
    | missedPkts i =>
      have hi : i < 7 := by simpa [Field.Kept, Macros.nBors, Macros.nBeams, s6] using kept
      have place : c * m.blockWords + (6 + i) - (c * m.blockWords + 6) = i := by omega
      have fields : ¬ 6 + i < 3 := by omega
      have missed : 6 + i < 14 := by omega
      simp [Field.word, Net.missedPktsPiece, Loc.addr, place, initField, Macros.nBors,
        Macros.nBeams, slots, s6, hi, netNm_eq s6, fields, missed]
    | mcnt | coarseChanId | numCoarseChan =>
      simp [Field.word, Net.fieldsPiece, Loc.addr, initField]
    | sid | timeSec | timeNsec => exact kept.elim
  · simp [same]

/-- It leaves the data alone. -/
theorem netInit_data (b mcnt pchan nchan : Nat) (mem : Mem) (c : Nat) {k : Nat}
    (hk : k < m.dataWords) :
    (Net.Effect.initializeBlock b mcnt pchan nchan).apply m mem (.data c k) = mem (.data c k) := by
  obtain ⟨header, padding⟩ := headerWords_s6 s6
  have inside : 32 + k < m.blockWords := by
    unfold Macros.blockWords
    omega
  have slots : m.nBeamSlots = 8 := by simp [Macros.nBeamSlots, s6]
  have at_ : (Loc.data c k).addr m = c * m.blockWords + (32 + k) := by
    simp only [Loc.addr, Macros.dataAddr, header, padding]
    omega
  apply Copy.copyAll_frame
  intro q hq
  simp only [Net.initPieces, List.mem_cons, List.not_mem_nil, or_false] at hq
  rcases hq with rfl | rfl
  · rw [at_, covers_header s6 (show _ = b * m.blockWords + 6 from rfl)
      (by simp [Net.missedPktsPiece, slots]) inside]
    simp only [Net.missedPktsPiece, slots]
    omega
  · rw [at_, covers_header s6 (show _ = b * m.blockWords + 0 from rfl)
      (by simp [Net.fieldsPiece]) inside]
    simp only [Net.fieldsPiece]
    omega

end Layout

/-! ## The copies -/

theorem s6Memcpy_src {out n a : Nat} {src : Nat → Nat} {q : Copy.Piece Nat}
    (hq : q ∈ Net.s6Memcpy out src n) (covers : q.Covers a) :
    q.src (a - q.dest) = src (a - out) := by
  obtain ⟨i, hi, rfl⟩ := List.mem_map.mp hq
  obtain ⟨lo, hi'⟩ := covers
  dsimp only at lo hi' ⊢
  congr 1
  omega

/-- With a whole number of 32-byte words it does what one memcpy does. -/
theorem s6Memcpy_whole {out n : Nat} {src src' : Nat → Nat} (whole : n % 32 = 0)
    (agree : ∀ w < n / 8, src' w = src w) (m : Macros) {mem mem' : Mem} {l : Loc}
    (here : mem' l = mem l) : Copy.copyAll (Loc.addr m) (Net.s6Memcpy out src' n) mem' l =
      Copy.copyAll (Loc.addr m) [⟨out, n / 8, src⟩] mem l := by
  by_cases covered : out ≤ l.addr m ∧ l.addr m < out + 4 * (n / 32)
  · have vectors := Copy.copyAll_value (Loc.addr m) (Net.s6Memcpy out src' n) mem'
      (fun q hq covers => s6Memcpy_src hq covers) (Net.s6Memcpy_covers.mpr covered)
    have single := Copy.copyAll_value (Loc.addr m) [⟨out, n / 8, src⟩] mem (i := l)
      (v := src (l.addr m - out)) (by simp)
      ⟨_, List.mem_singleton_self _, covered.1, by dsimp only; omega⟩
    rw [vectors, single, agree _ (by omega)]
  · have vectors := Copy.copyAll_frame (Loc.addr m) (Net.s6Memcpy out src' n) mem'
      (fun q hq covers => covered (Net.s6Memcpy_covers.mp ⟨q, hq, covers⟩))
    have single := Copy.copyAll_frame (Loc.addr m) [⟨out, n / 8, src⟩] mem (i := l) (by
      simp only [List.mem_singleton, forall_eq, Copy.Piece.Covers]
      omega)
    rw [vectors, single, here]

section Copies

variable {m : Macros} (s6 : m.source = .s6) {p : Net.UdpPacket} {f : Frame}
  (carries : Carries p f) (passes : PassesBoth m f)
include s6 passes

theorem copyBytes_s6 : (copyBytes m f : Int) = packetSize f - 16 := by
  have lo := passes.lo
  have small := f.udpSize_lt
  unfold packetSize at *
  simp only [copyBytes, s6, u64]
  omega

theorem PassesBoth.fits : Fits m f := by
  have bytes := copyBytes_s6 s6 passes
  have hi := passes.hi
  simp only [Macros.nCoarseChan, Net.nBytesPerChan, s6] at hi
  rw [fits_iff, m.slotWords_s6 s6]
  omega

include carries

theorem netCopyPieces_eq (b : Nat) : Net.copyPieces m p b = Net.s6Memcpy (m.dataAddr b +
    ((getHeader m f).sid * m.nm + (getHeader m f).mcnt % m.nm) * m.slotWords)
    (fun w => p.word (1 + w)) (copyBytes m f) := by
  have bytes : u64 (p.packetSize - 8 - 8) = copyBytes m f := by
    have := copyBytes_s6 s6 passes
    have small := f.udpSize_lt
    rw [carries.size]
    unfold packetSize u64 at *
    omega
  simp only [Net.copyPieces, netGetHeader_eq s6 carries passes, netNm_eq s6, bytes,
    m.slotWords_s6 s6, Macros.nCoarseChan, Net.nBytesPerChan, s6]
  congr 2
  omega

/-- The vector copy stays inside the copy of the other thread. -/
theorem netCopy_writes {b a : Nat} {q : Copy.Piece Nat} (hq : q ∈ Net.copyPieces m p b)
    (covers : q.Covers a) : (Effect.copyPayload b f).Writes m a := by
  rw [netCopyPieces_eq s6 carries passes] at hq
  obtain ⟨lo, hi⟩ := Net.s6Memcpy_covers.mp ⟨q, hq, covers⟩
  refine ⟨_, by rw [copyPieces_s6 s6]; exact List.mem_singleton_self _, lo, ?_⟩
  dsimp only [copyWords]
  omega

theorem netCopy_whole (whole : (packetSize f - 16) % 32 = 0) (b : Nat) {mem mem' : Mem} {l : Loc}
    (here : mem' l = mem l) : (Net.Effect.copyPayload b p).apply m mem' l =
      (Effect.copyPayload b f).apply m mem l := by
  have bytes := copyBytes_s6 s6 passes
  simp only [Net.Effect.apply, Effect.apply, netCopyPieces_eq s6 carries passes, copyPieces_s6 s6]
  apply s6Memcpy_whole (by omega) _ m here
  intro w hw
  apply carries.word
  omega

end Copies

/-! ## Effects -/

/-- The effect is about a block of the ring, and copies no packet but this one. -/
def Effect.Of (m : Macros) (f : Frame) : Effect → Prop
  | .setFilled b => b < m.nInputBlocks
  | .copyPayload b f' => b < m.nInputBlocks ∧ f' = f ∧ Known m f
  | _ => True

theorem Does.of {g : Geometry} {w w' : Window.State} {a : Arrival} {o : Outcome}
    (does : Does g w a o w') : ∀ e ∈ o.effects, e.Of g.toMacros a.frame := by
  intro e he
  have pos := g.nInputBlocks_pos
  rcases does.effect_cases he with ⟨msg, _, rfl⟩ | store | fill | ⟨_, _, recycle⟩
  · trivial
  · obtain ⟨known, rfl | rfl⟩ := mem_storing store
    · trivial
    · exact ⟨Nat.mod_lt _ pos, rfl, known⟩
  · simp only [filling, List.mem_cons, List.not_mem_nil, or_false] at fill
    rcases fill with rfl | rfl | rfl | rfl
    · trivial
    · exact Nat.mod_lt _ pos
    · trivial
    · trivial
  · simp only [recycling, List.mem_cons, List.not_mem_nil, or_false] at recycle
    rcases recycle with rfl | rfl | rfl <;> trivial

/-- Only a packet that is stored is copied. -/
theorem Does.copies {g : Geometry} {w w' : Window.State} {a : Arrival} {o : Outcome}
    (does : Does g w a o w') {b : Nat} {f : Frame} (he : .copyPayload b f ∈ o.effects) :
    w.Holds (g.number a.frame) ∧ Known g.toMacros a.frame := by
  have logged (msgs : List Msg) : .copyPayload b f ∉ msgs.map Effect.log := by simp
  cases does with
  | current v msgs routine effects =>
    rw [effects] at he
    cases List.mem_append.mp he with
    | inl he => exact absurd he (logged msgs)
    | inr he => exact ⟨Window.current_block g.even v, (mem_storing he).1⟩
  | advance v msgs routine effects =>
    rw [effects] at he
    cases List.mem_append.mp he with
    | inl he => simp [filling] at he
    | inr he =>
      cases List.mem_append.mp he with
      | inl he => exact absurd he (logged msgs)
      | inr he => exact ⟨.inr (Window.advance_block g.even v), (mem_storing he).1⟩
  | late v msgs routine effects | stray v few msgs routine effects =>
    rw [effects] at he
    exact absurd he (logged msgs)
  | resync v many msgs routine pktMcnt effects =>
    rw [effects] at he
    simp [recycling] at he

theorem netMarks_cons (e : Net.Entry) (tr : List Net.Entry) :
    Net.marks (e :: tr) = Net.marks tr ++ e.mark.toList := by
  rw [Net.marks, List.reverse_cons, List.filterMap_append]
  cases h : e.mark <;> simp [h, Net.marks]

section Rings

variable {m : Macros} (s6 : m.source = .s6) {p : Net.UdpPacket} {f : Frame}
  (carries : Carries p f) (passes : PassesBoth m f) (pos : 0 < m.nm)
include s6 carries passes pos

/-- An effect that both threads have does the same to the headers. -/
theorem header_apply {e : Effect} {e' : Net.Effect} (on : e.onNet p = some e') (of : e.Of m f)
    {mem mem' : Mem} {b : Nat} (hb : b < m.nInputBlocks) {fld : Field} (kept : fld.Kept m)
    (here : mem (.header b fld) = mem' (.header b fld)) :
    e.apply m mem (.header b fld) = e'.apply m mem' (.header b fld) := by
  have valid : (Loc.header b fld).Valid m := by
    have := headerWords_s6 s6
    exact ⟨hb, by rw [this.1]; exact kept.word_lt s6⟩
  cases e with
  | initializeBlock c mcnt pchan nchan sid =>
    obtain rfl := Option.some.inj on
    rw [netInit_header s6 c mcnt pchan nchan sid mem' b kept, ← here]
    rfl
  | decMissedPkts c i =>
    obtain rfl := Option.some.inj on
    by_cases at_ : Loc.header b fld = .header c (.missedPkts i)
    · rw [at_] at here ⊢
      simp [Effect.apply, Net.Effect.apply, here]
    · simp [Effect.apply, Net.Effect.apply, at_, here]
  | copyPayload c f' =>
    obtain rfl := Option.some.inj on
    obtain ⟨hc, rfl, known⟩ := of
    have stays := (passes.fits s6).staysIn pos known c
    have outside : Net.Effect.apply m mem' (.copyPayload c p) (.header b fld) =
        mem' (.header b fld) := by
      apply Copy.copyAll_frame
      intro q hq covers
      obtain ⟨lo, hi⟩ := stays _ (netCopy_writes s6 carries passes hq covers)
      have data := Loc.eq_data_of_addr hc valid lo hi
      cases data
    rw [stays.frame hc mem valid (by simp), outside, here]
  | setFilled | busywaitFree | log =>
    obtain rfl := Option.some.inj on
    exact here
  | stamp | recvFrame | releaseFrame | hputNetmcnt => cases on

omit pos in
/-- It does the same to the data, if the payload is a whole number of 32-byte words. -/
theorem data_apply {e : Effect} {e' : Net.Effect} (on : e.onNet p = some e') (of : e.Of m f)
    (whole : ∀ c f', e = .copyPayload c f' → (packetSize f - 16) % 32 = 0) {mem mem' : Mem}
    (b : Nat) {k : Nat}
    (hk : k < m.dataWords) (here : mem (.data b k) = mem' (.data b k)) :
    e.apply m mem (.data b k) = e'.apply m mem' (.data b k) := by
  cases e with
  | initializeBlock c mcnt pchan nchan sid =>
    obtain rfl := Option.some.inj on
    rw [netInit_data s6 c mcnt pchan nchan mem' b hk]
    exact here
  | decMissedPkts c i =>
    obtain rfl := Option.some.inj on
    simp [Effect.apply, Net.Effect.apply, here]
  | copyPayload c f' =>
    obtain rfl := Option.some.inj on
    obtain ⟨_, rfl, _⟩ := of
    exact (netCopy_whole s6 carries passes (whole c _ rfl) c here.symm).symm
  | setFilled | busywaitFree | log =>
    obtain rfl := Option.some.inj on
    exact here
  | stamp | recvFrame | releaseFrame | hputNetmcnt => cases on

theorem SameHeaders.exec {r : Ring} {r' : Net.Ring} (same : SameHeaders m r r') {e : Effect}
    {e' : Net.Effect} (on : e.onNet p = some e') (of : e.Of m f) :
    SameHeaders m (r.exec m e) (r'.exec m e') where
  header b hb fld kept :=
    header_apply s6 carries passes pos on of hb kept (same.header b hb fld kept)
  flag := by
    have flag := same.flag
    cases e <;> cases on <;> simp only [Ring.exec, Net.Ring.exec, Effect.setFlag,
      Net.Effect.setFlag, flag]
  fills := by
    have mark : Entry.mark ⟨e, r.mem⟩ = Net.Entry.mark ⟨e', r'.mem⟩ := by
      cases e with
      | setFilled b =>
        cases on
        simp only [Entry.mark, Net.Entry.mark, same.header b of .mcnt trivial]
      | log msg =>
        cases on
        cases msg <;> rfl
      | busywaitFree | initializeBlock | decMissedPkts | copyPayload => cases on; rfl
      | stamp | recvFrame | releaseFrame | hputNetmcnt => cases on
    rw [Ring.exec, Net.Ring.exec, marks_cons, netMarks_cons, same.fills, mark]

omit s6 carries passes pos in
/-- An effect that only the packet socket's thread has leaves the kept words alone. -/
theorem apply_onNet_none {e : Effect} (on : e.onNet p = none) (mem : Mem) {l : Loc}
    (sec : ∀ b, l ≠ .header b .timeSec) (nsec : ∀ b, l ≠ .header b .timeNsec) :
    e.apply m mem l = mem l := by
  cases e with
  | stamp b now => simp [Effect.apply, sec, nsec]
  | recvFrame | releaseFrame | hputNetmcnt => rfl
  | setFilled | busywaitFree | initializeBlock | decMissedPkts | copyPayload | log => cases on

omit s6 carries passes pos in
theorem SameHeaders.skip {r : Ring} {r' : Net.Ring} (same : SameHeaders m r r') {e : Effect}
    (on : e.onNet p = none) : SameHeaders m (r.exec m e) r' where
  header b hb fld kept := by
    have sec : ∀ c, Loc.header b fld ≠ .header c .timeSec := by
      rintro c ⟨⟩
      exact kept
    have nsec : ∀ c, Loc.header b fld ≠ .header c .timeNsec := by
      rintro c ⟨⟩
      exact kept
    exact (apply_onNet_none on r.mem sec nsec).trans (same.header b hb fld kept)
  flag := by
    have flag := same.flag
    cases e <;> first | exact flag | cases on
  fills := by
    have mark : Entry.mark ⟨e, r.mem⟩ = none := by cases e <;> first | rfl | cases on
    rw [Ring.exec, marks_cons, mark, ← same.fills]
    simp

theorem SameHeaders.execAll {r : Ring} {r' : Net.Ring} (same : SameHeaders m r r')
    {es : List Effect} (of : ∀ e ∈ es, e.Of m f) :
    SameHeaders m (r.execAll m es) (r'.execAll m (es.filterMap (Effect.onNet p))) := by
  induction es generalizing r r' with
  | nil => exact same
  | cons e es ih =>
    have head := of e List.mem_cons_self
    have tail := fun e' he => of e' (List.mem_cons_of_mem e he)
    cases on : e.onNet p with
    | none =>
      rw [List.filterMap_cons_none on]
      exact ih (same.skip on) tail
    | some e' =>
      rw [List.filterMap_cons_some on]
      exact ih (same.exec s6 carries passes pos on head) tail

omit pos in
theorem SameData.execAll {r : Ring} {r' : Net.Ring} (same : SameData m r r')
    {es : List Effect} (of : ∀ e ∈ es, e.Of m f)
    (whole : ∀ b f', .copyPayload b f' ∈ es → (packetSize f - 16) % 32 = 0) :
    SameData m (r.execAll m es) (r'.execAll m (es.filterMap (Effect.onNet p))) := by
  induction es generalizing r r' with
  | nil => exact same
  | cons e es ih =>
    have head := of e List.mem_cons_self
    have tail := fun e' he => of e' (List.mem_cons_of_mem e he)
    have rest := fun b f' he => whole b f' (List.mem_cons_of_mem e he)
    cases on : e.onNet p with
    | none =>
      rw [List.filterMap_cons_none on]
      apply ih _ tail rest
      intro b hb k hk
      exact (apply_onNet_none on r.mem (by simp) (by simp)).trans (same b hb k hk)
    | some e' =>
      rw [List.filterMap_cons_some on]
      apply ih _ tail rest
      intro b hb k hk
      apply data_apply s6 carries passes on head _ b hk (same b hb k hk)
      rintro c f' rfl
      exact whole c f' List.mem_cons_self

end Rings

/-! ## Runs -/

/-- The branch that each packet of a run takes, and what its call returns. -/
def State.decisions (m : Macros) : State → List Arrival → List (Zone × Nat)
  | _, [] => []
  | s, a :: l =>
    (pktZone m s.thread.binfo.mcntStart (getHeader m a.frame).mcnt,
      (processPacket m s.thread a).ret) :: State.decisions m (s.call m a) l

def Net.State.decisions (m : Macros) : Net.State → List Net.UdpPacket → List (Zone × Nat)
  | _, [] => []
  | s, p :: l =>
    (Net.pktZone m s.thread.binfo.mcntStart (Net.getHeader p).mcnt,
      (Net.processPacket m s.thread p).ret) :: Net.State.decisions m (s.call m p) l

/-- The packets that are stored hold a whole number of 32-byte words. -/
def WholeWords (m : Macros) (s : State) (l : List Arrival) : Prop :=
  ∀ earlier a later, l = earlier ++ a :: later → Stores m (s.run m earlier) a →
    (packetSize a.frame - 16) % 32 = 0

/-- The threads decided alike and hold the same state, and their rings agree. -/
structure FrontEndsAgree (m : Macros) (s : State) (s' : Net.State) (l : List Arrival)
    (l' : List Net.UdpPacket) : Prop where
  decisions : s'.decisions m l' = s.decisions m l
  thread : (s.run m l).thread.Like (s'.run m l').thread
  headers : SameHeaders m (s.run m l).ring (s'.run m l').ring
  data : SameData m (s.run m l).ring (s'.run m l').ring

section Runs

variable {g : Geometry} (s6 : g.source = .s6)
include s6

/-- One packet, through both threads. -/
theorem call_alike {s : State} {s' : Net.State} {w : Window.State} (h : Tracks g s.thread w)
    (like : s.thread.Like s'.thread) (same : SameHeaders g.toMacros s.ring s'.ring) {a : Arrival}
    {p : Net.UdpPacket} (carries : Carries p a.frame) (passes : PassesBoth g.toMacros a.frame) :
    (s.call g.toMacros a).thread.Like (s'.call g.toMacros p).thread ∧
    SameHeaders g.toMacros (s.call g.toMacros a).ring (s'.call g.toMacros p).ring ∧
    (SameData g.toMacros s.ring s'.ring →
      (Stores g.toMacros s a → (packetSize a.frame - 16) % 32 = 0) →
      SameData g.toMacros (s.call g.toMacros a).ring (s'.call g.toMacros p).ring) := by
  obtain ⟨thread, effects, -⟩ := processPacket_like s6 like carries passes
  have does := (call_does h a).1
  refine ⟨thread, ?_, ?_⟩
  · simp only [State.call, Net.State.call, effects]
    exact same.execAll s6 carries passes g.nm_pos does.of
  · intro data whole
    simp only [State.call, Net.State.call, effects]
    apply data.execAll s6 carries passes does.of
    intro b f he
    exact whole ((stores_iff h a).mpr (does.copies he))

theorem run_alike {s : State} {s' : Net.State} {w : Window.State} (h : Tracks g s.thread w)
    (like : s.thread.Like s'.thread) (same : SameHeaders g.toMacros s.ring s'.ring)
    {l : List Arrival} {l' : List Net.UdpPacket}
    (carried : List.Forall₂ (fun a p => Carries p a.frame ∧ PassesBoth g.toMacros a.frame) l l') :
    s'.decisions g.toMacros l' = s.decisions g.toMacros l ∧
    (s.run g.toMacros l).thread.Like (s'.run g.toMacros l').thread ∧
    SameHeaders g.toMacros (s.run g.toMacros l).ring (s'.run g.toMacros l').ring ∧
    (SameData g.toMacros s.ring s'.ring → WholeWords g.toMacros s l →
      SameData g.toMacros (s.run g.toMacros l).ring (s'.run g.toMacros l').ring) := by
  induction carried generalizing s s' w with
  | nil => exact ⟨rfl, like, same, fun data _ => data⟩
  | cons head tail ih =>
    rename_i a p l l'
    obtain ⟨carries, passes⟩ := head
    obtain ⟨like', same', data'⟩ := call_alike s6 h like same carries passes
    obtain ⟨decisions, final⟩ := ih (call_does h a).2 like' same'
    have now := processPacket_like s6 like carries passes
    refine ⟨?_, final.1, final.2.1, ?_⟩
    · simp only [State.decisions, Net.State.decisions, decisions, now.ret, like.binfo,
        netPktZone_eq s6, netGetHeader_eq s6 carries passes]
    · intro data whole
      apply final.2.2 (data' data (whole [] a l rfl))
      rintro earlier b later rfl
      exact whole (a :: earlier) b later rfl

/-- The threads' startups leave the rings alike. -/
theorem startup_alike (mem : Mem) (flag : Nat → Flag) :
    SameHeaders g.toMacros (State.start g.toMacros mem flag).ring
      (Net.State.start g.toMacros mem flag).ring ∧
    SameData g.toMacros (State.start g.toMacros mem flag).ring
      (Net.State.start g.toMacros mem flag).ring := by
  have carries : Carries (.ofWords 16 []) (.ofWords 24 []) := ⟨by decide, fun _ _ => rfl⟩
  have passes : PassesBoth g.toMacros (.ofWords 24 []) :=
    ⟨by decide, by simp [packetSize, Frame.ofWords, Macros.nCoarseChan, Net.nBytesPerChan, s6],
      by decide⟩
  have effects : Net.startupEffects g.toMacros =
      (startupEffects g.toMacros).filterMap (Effect.onNet (.ofWords 16 [])) := by
    simp only [Net.startupEffects, startupEffects, List.filterMap_cons, List.filterMap_nil,
      netInitializeBlock_eq s6, netNm_eq s6]
    rfl
  have of : ∀ e ∈ startupEffects g.toMacros, e.Of g.toMacros (.ofWords 24 []) := by
    simp [startupEffects, initializeBlock, Effect.Of]
  have headers : SameHeaders g.toMacros ⟨mem, flag, []⟩ ⟨mem, flag, []⟩ :=
    ⟨fun _ _ _ _ => rfl, rfl, rfl⟩
  have data : SameData g.toMacros ⟨mem, flag, []⟩ ⟨mem, flag, []⟩ := fun _ _ _ _ => rfl
  simp only [State.start, Net.State.start, effects]
  constructor
  · exact headers.execAll s6 carries passes g.nm_pos of
  · exact data.execAll s6 carries passes of (by simp [startupEffects, initializeBlock])

/-- From rings that agree after startup, the front ends agree in every run whose stored packets
hold a whole number of 32-byte words. -/
theorem front_ends_agree (mem : Mem) (flag : Nat → Flag) {ring : Net.Ring}
    (headers : SameHeaders g.toMacros (State.start g.toMacros mem flag).ring ring)
    (data : SameData g.toMacros (State.start g.toMacros mem flag).ring ring)
    {l : List Arrival} {l' : List Net.UdpPacket}
    (carried : List.Forall₂ (fun a p => Carries p a.frame ∧ PassesBoth g.toMacros a.frame) l l')
    (whole : WholeWords g.toMacros (State.start g.toMacros mem flag) l) :
    FrontEndsAgree g.toMacros (State.start g.toMacros mem flag)
      ⟨Net.Thread.initial g.toMacros, ring⟩ l l' := by
  have like : (State.start g.toMacros mem flag).thread.Like
      (Net.State.mk (Net.Thread.initial g.toMacros) ring).thread := by
    refine ⟨?_, rfl⟩
    simp only [Net.Thread.initial, Net.initializeBlockInfo, netNm_eq s6]
    rfl
  obtain ⟨decisions, thread, same, final⟩ := run_alike s6 (tracks_initial g) like headers carried
  exact ⟨decisions, thread, same, final data whole⟩

end Runs

/-- A packet with a payload of one word and a CRC word, on both sockets. -/
def oneWord : Arrival := ⟨.ofWords 32 [0, 7], ⟨0, 0⟩⟩

def oneWordUdp : Net.UdpPacket := .ofWords 24 [0, 7]

/-- A full packet, on both sockets. -/
def fullPacket (mcnt : Nat) : Arrival :=
  ⟨.ofWords (8 + 8 + 1280 + 8) [mcnt * 2 ^ 40, 7 + mcnt], ⟨0, 0⟩⟩

def fullPacketUdp (mcnt : Nat) : Net.UdpPacket :=
  .ofWords (8 + 1280 + 8) [mcnt * 2 ^ 40, 7 + mcnt]

theorem fullPacket_size (mcnt : Nat) : packetSize (fullPacket mcnt).frame = 1296 := by
  simp [packetSize, fullPacket, Frame.ofWords]

/-- The packets of mcnt 0 and 1, and that of mcnt 3, which fills their block. -/
theorem front_ends_agree_filled :
    let s := State.start s6Small.toMacros (fun _ => 0) fun _ => .free
    FrontEndsAgree s6Small.toMacros s
        ⟨Net.Thread.initial s6Small.toMacros,
          (Net.State.start s6Small.toMacros (fun _ => 0) fun _ => .free).ring⟩
        ([0, 1, 3].map fullPacket) ([0, 1, 3].map fullPacketUdp) ∧
      s.decisions s6Small.toMacros ([0, 1, 3].map fullPacket) =
        [(.window, noMcnt), (.window, noMcnt), (.window, 0)] := by
  intro s
  have alike := startup_alike (g := s6Small) rfl (fun _ => 0) fun _ => .free
  refine ⟨?_, by decide +kernel⟩
  apply front_ends_agree (g := s6Small) rfl _ _ alike.1 alike.2
  · have both (mcnt : Nat) : Carries (fullPacketUdp mcnt) (fullPacket mcnt).frame ∧
        PassesBoth s6Small.toMacros (fullPacket mcnt).frame := by
      refine ⟨⟨?_, fun _ _ => rfl⟩, ?_, ?_, ?_⟩ <;> rw [fullPacket_size]
      · rfl
      all_goals decide
    exact .cons (both 0) (.cons (both 1) (.cons (both 3) .nil))
  · intro earlier a later split _
    have mem : a ∈ [0, 1, 3].map fullPacket := by rw [split]; simp
    obtain ⟨mcnt, -, rfl⟩ := List.mem_map.mp mem
    rw [fullPacket_size]
    decide

/-- The vector copy leaves out a payload of one word. -/
theorem short_payload_lost :
    PassesBoth s6Small.toMacros oneWord.frame ∧ Carries oneWordUdp oneWord.frame ∧
    ¬ FrontEndsAgree s6Small.toMacros (State.start s6Small.toMacros (fun _ => 0) fun _ => .free)
      ⟨Net.Thread.initial s6Small.toMacros,
        (Net.State.start s6Small.toMacros (fun _ => 0) fun _ => .free).ring⟩
      [oneWord] [oneWordUdp] := by
  refine ⟨⟨by decide, by decide, by decide⟩, ⟨by decide, fun _ _ => rfl⟩, ?_⟩
  intro agree
  have word := agree.data 0 (by decide) 0 (by decide)
  have stored : ((State.start s6Small.toMacros (fun _ => 0) fun _ => .free).run s6Small.toMacros
      [oneWord]).ring.mem (.data 0 0) = 7 := by decide +kernel
  have lost : (Net.State.run s6Small.toMacros ⟨Net.Thread.initial s6Small.toMacros,
      (Net.State.start s6Small.toMacros (fun _ => 0) fun _ => .free).ring⟩
      [oneWordUdp]).ring.mem (.data 0 0) = 0 := by decide +kernel
  rw [stored, lost] at word
  cases word

end S6Reobs
