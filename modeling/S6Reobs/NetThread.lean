import S6Reobs.Assembler

/-! s6_net_thread.cpp: process_packet of the thread that receives through a UDP socket,
and the functions it calls. It is a copy of the packet socket thread's with constants,
header arithmetic and copy routine of its own; what it only shows as a percentage is left out. -/

namespace S6Reobs.Net

open Word

/-- hashpipe_udp_packet. A datagram is received from `data+8` on; `word` are the 64-bit words
there, loaded little-endian. -/
structure UdpPacket where
  packetSize : Int
  word : Nat → Nat
  word_lt : ∀ k, word k < 2 ^ 64

theorem getD_word_lt (words : List Nat) (k : Nat) : words.getD k 0 % 2 ^ 64 < 2 ^ 64 :=
  Nat.mod_lt _ (by decide)

/-- A packet from its first words, zero beyond them. -/
def UdpPacket.ofWords (packetSize : Nat) (words : List Nat) : UdpPacket where
  packetSize := packetSize
  word k := words.getD k 0 % 2 ^ 64
  word_lt k := getD_word_lt words k

variable (m : Macros)

/-- This thread's Nm. -/
def nm : Nat := m.nFineChan

def nPacketsPerBlock : Nat := u32 (nm m * m.nBeams)

def nBytesPerChan : Nat := 4

def maxOutOfSeq : Nat := 2 * m.nBeams

def latePktMcntThreshold : Nat := u64 (2 * nm m * m.nInputBlocks)

def blockForMcnt (mcnt : Nat) : Nat := mcnt / nm m % m.nInputBlocks

/-- get_header, from the word at `data+8`. -/
def getHeader (p : UdpPacket) : PacketHeader :=
  let raw := be64toh (p.word 0)
  { mcnt := raw >>> 16
    pchan := (raw >>> 4) &&& 0x0000000000000FFF
    nchan := u64 ((p.packetSize - 2 * 8).tdiv nBytesPerChan)
    sid := raw &&& 0x000000000000000F }

/-- s6_memcpy: whole 256-bit words are loaded in two halves and streamed out. -/
def s6Memcpy (out : Nat) (src : Nat → Nat) (nBytes : Nat) : List (Copy.Piece Nat) :=
  (List.range (nBytes / 32)).map fun i =>
    { dest := out + 4 * i, len := 4, src := fun j => src (4 * i + j) }

theorem s6Memcpy_covers {out nBytes a : Nat} {src : Nat → Nat} :
    (∃ q ∈ s6Memcpy out src nBytes, q.Covers a) ↔ out ≤ a ∧ a < out + 4 * (nBytes / 32) := by
  simp only [s6Memcpy, List.mem_map, List.mem_range, Copy.Piece.Covers]
  constructor
  · rintro ⟨_, ⟨i, hi, rfl⟩, lo, hi'⟩
    dsimp only at lo hi'
    omega
  · rintro ⟨lo, hi⟩
    exact ⟨_, ⟨(a - out) / 4, by omega, rfl⟩, by dsimp only; omega, by dsimp only; omega⟩

inductive Effect
  | setFilled (b : Nat)
  | busywaitFree (b : Nat)
  /-- The assignments of initialize_block to `block[b].header`. -/
  | initializeBlock (b mcnt pchan nchan : Nat)
  /-- `block[b].header.missed_pkts[i]--`. -/
  | decMissedPkts (b i : Nat)
  /-- The s6_memcpy of a packet's payload into `block[b].data`. -/
  | copyPayload (b : Nat) (p : UdpPacket)
  | log (msg : Msg)

def copyPieces (p : UdpPacket) (b : Nat) : List (Copy.Piece Nat) :=
  let hdr := getHeader p
  s6Memcpy
    (m.dataAddr b + (hdr.sid * nm m + hdr.mcnt % nm m) * m.nCoarseChan * nBytesPerChan / 8)
    (fun w => p.word (1 + w)) (u64 (p.packetSize - 8 - 8))

/-- initialize_block's loop assigns N_BEAM_SLOTS counters, of which the header has N_BORS. -/
def missedPktsPiece (b : Nat) : Copy.Piece Nat where
  dest := (Loc.header b (.missedPkts 0)).addr m
  len := m.nBeamSlots
  src i := if i < m.nBeams then u64 (nm m) else 0

/-- Its assignments to mcnt, coarse_chan_id and num_coarse_chan. -/
def fieldsPiece (b mcnt pchan nchan : Nat) : Copy.Piece Nat where
  dest := (Loc.header b .mcnt).addr m
  len := 3
  src := fun | 0 => mcnt | 1 => pchan | _ => nchan

def initPieces (b mcnt pchan nchan : Nat) : List (Copy.Piece Nat) :=
  [missedPktsPiece m b, fieldsPiece m b mcnt pchan nchan]

def Effect.apply (mem : Mem) : Effect → Mem
  | .initializeBlock b mcnt pchan nchan =>
    Copy.copyAll (Loc.addr m) (initPieces m b mcnt pchan nchan) mem
  | .decMissedPkts b i =>
    Function.update mem (.header b (.missedPkts i))
      (u64 ((mem (.header b (.missedPkts i)) : Int) - 1))
  | .copyPayload b p => Copy.copyAll (Loc.addr m) (copyPieces m p b) mem
  | _ => mem

def Effect.setFlag (flag : Nat → Flag) : Effect → Nat → Flag
  | .setFilled b => Function.update flag b .filled
  | .busywaitFree b => Function.update flag b .free
  | _ => flag

/-- An effect that was run, with the memory it found. -/
structure Entry where
  effect : Effect
  before : Mem

structure Ring where
  mem : Mem
  flag : Nat → Flag
  trace : List Entry

def Ring.exec (r : Ring) (e : Effect) : Ring where
  mem := e.apply m r.mem
  flag := e.setFlag r.flag
  trace := ⟨e, r.mem⟩ :: r.trace

def Ring.execAll (r : Ring) (es : List Effect) : Ring := es.foldl (Ring.exec m) r

/-- The status buffer fields that set_block_filled puts as integers. -/
structure Status where
  netbkout : Nat
  misspktl : Nat
  schan : Nat
  nchan : Nat
  deriving DecidableEq, Repr

/-- The static variables: `binfo`, and `last_filled` and `missed_pkt_cnt` of
set_block_filled; and the status fields. -/
structure Thread where
  binfo : BlockInfo
  lastFilled : Int
  missedPktCnt : Nat
  status : Status

def initializeBlockInfo : BlockInfo where
  pchan := 0
  nchan := 0
  mcntStart := 0
  mcntLogLate := nm m
  outOfSeqCnt := 0
  blockI := 0
  blockPacketCounter := fun _ => 0

def Thread.initial : Thread := ⟨initializeBlockInfo m, -1, 0, ⟨0, 0, 0, 0⟩⟩

/-- What one call did. -/
structure Outcome where
  thread : Thread
  effects : List Effect
  ret : Nat

def initializeBlock (mcnt pchan nchan : Nat) : Effect :=
  .initializeBlock (blockForMcnt m mcnt) (mcnt - mcnt % nm m) pchan nchan

def setBlockFilled (t : Thread) : Outcome :=
  let blockI := blockForMcnt m t.binfo.mcntStart
  let lastFilled := (t.lastFilled + 1).tmod m.nInputBlocks
  let order := if lastFilled ≠ blockI then
    [.log (.fillOutOfOrder blockI lastFilled.toNat)] else []
  let index := if blockI ≠ t.binfo.blockI then
    [.log (.blockMismatch blockI t.binfo.blockI)] else []
  let blockMissedPktCnt := u32 (nPacketsPerBlock m - t.binfo.blockPacketCounter blockI)
  let missedPktCnt := u32 (t.missedPktCnt + blockMissedPktCnt)
  { thread := { t with
      lastFilled := lastFilled
      missedPktCnt := missedPktCnt
      status :=
        { netbkout := blockI
          misspktl := missedPktCnt
          schan := u32 t.binfo.pchan
          nchan := u32 t.binfo.nchan } }
    effects := order ++ index ++ [.setFilled blockI]
    ret := t.binfo.mcntStart }

/-- calc_block_indexes: `none` when it returns -1. -/
def calcBlockIndexes (binfo : BlockInfo) (hdr : PacketHeader) : List Msg × Option BlockInfo :=
  if hdr.sid ≥ m.nBeams then
    ([.sidOutOfRange hdr.sid (m.nBeams - 1)], none)
  else
    let binfo := if binfo.nchan = 0 then
      { binfo with nchan := hdr.nchan, pchan := hdr.pchan } else binfo
    let pchanMsg := if hdr.pchan ≠ binfo.pchan then
      [.unexpectedPchan hdr.pchan binfo.pchan] else []
    let nchanMsg := if hdr.nchan ≠ binfo.nchan then
      [.unexpectedNchan hdr.nchan binfo.nchan] else []
    (pchanMsg ++ nchanMsg, some binfo)

def pktZone (curMcnt pktMcnt : Nat) : Zone :=
  let dist := pktMcntDist curMcnt pktMcnt
  if 0 ≤ dist ∧ u64 dist < u64 (2 * nm m) then .window
  else if dist < 0 ∧ -i64 (latePktMcntThreshold m) < dist then .late
  else .outOfSeq

def BlockDone (curMcnt pktMcnt : Nat) : Prop :=
  u64 (3 * (nm m / 2)) ≤ u64 (pktMcntDist curMcnt pktMcnt)

instance (curMcnt pktMcnt : Nat) : Decidable (BlockDone m curMcnt pktMcnt) :=
  inferInstanceAs (Decidable (_ ≤ _))

def finishBlock (t : Thread) (hdr : PacketHeader) : Outcome :=
  let filled := setBlockFilled m t
  let blockI := (t.binfo.blockI + 1) % m.nInputBlocks
  let newBlockI := (blockI + 1) % m.nInputBlocks
  { thread := { filled.thread with
      binfo := { t.binfo with
        mcntStart := u64 (t.binfo.mcntStart + nm m)
        blockI := blockI
        pchan := 0
        nchan := 0
        blockPacketCounter := Function.update t.binfo.blockPacketCounter newBlockI 0 } }
    effects := filled.effects ++ [.busywaitFree newBlockI,
      initializeBlock m (u64 (hdr.mcnt + nm m)) hdr.pchan hdr.nchan]
    ret := filled.ret }

def countAndStore (o : Outcome) (hdr : PacketHeader) (p : UdpPacket) : Outcome :=
  let pktBlockI := blockForMcnt m hdr.mcnt
  let binfo := o.thread.binfo.count pktBlockI
  match calcBlockIndexes m binfo hdr with
  | (msgs, none) =>
    { thread := { o.thread with binfo := binfo }
      effects := o.effects ++ msgs.map .log
      ret := noMcnt }
  | (msgs, some binfo) =>
    { thread := { o.thread with binfo := binfo }
      effects := o.effects ++ msgs.map .log ++
        [.decMissedPkts pktBlockI hdr.sid, .copyPayload pktBlockI p]
      ret := o.ret }

def advancedMcnt (blockI pktMcnt : Nat) : Nat :=
  let pktBlockI := blockForMcnt m pktMcnt
  if blockI > pktBlockI then u64 (pktMcnt + nm m * (blockI - pktBlockI))
  else if blockI < pktBlockI then u64 (pktMcnt + nm m * (blockI + m.nInputBlocks - pktBlockI))
  else pktMcnt

def resync (t : Thread) (hdr : PacketHeader) : Outcome :=
  let pktMcnt := advancedMcnt m t.binfo.blockI hdr.mcnt
  let mcntStart := pktMcnt - pktMcnt % nm m
  let blockI := blockForMcnt m mcntStart
  { thread := { t with
      binfo := { t.binfo with
        mcntStart := mcntStart
        mcntLogLate := u64 (mcntStart + nm m)
        blockI := blockI
        pchan := 0
        nchan := 0
        blockPacketCounter := Function.update (Function.update t.binfo.blockPacketCounter
          blockI 0) ((blockI + 1) % m.nInputBlocks) 0 } }
    effects := [.log (.resetting mcntStart blockI pktMcnt),
      initializeBlock m mcntStart hdr.pchan hdr.nchan,
      initializeBlock m (u64 (mcntStart + nm m)) hdr.pchan hdr.nchan]
    ret := noMcnt }

def latePacket (t : Thread) (hdr : PacketHeader) : Outcome where
  thread := t
  effects := if t.binfo.mcntStart ≥ t.binfo.mcntLogLate then
    [.log (.latePacket (u64 (t.binfo.mcntStart - hdr.mcnt)))] else []
  ret := noMcnt

def outOfSeqPacket (t : Thread) (hdr : PacketHeader) : Outcome :=
  let warn := if t.binfo.mcntStart ≠ 0 then
    [.log (.outOfSeq hdr.mcnt t.binfo.mcntStart (u64 (t.binfo.mcntStart + 2 * nm m)))] else []
  let counted := { t with binfo := { t.binfo with outOfSeqCnt := inc t.binfo.outOfSeqCnt } }
  if counted.binfo.outOfSeqCnt > (maxOutOfSeq m : Int) then
    let o := resync m counted hdr
    { o with effects := warn ++ o.effects }
  else
    { thread := counted, effects := warn, ret := noMcnt }

def processPacket (t : Thread) (p : UdpPacket) : Outcome :=
  let hdr := getHeader p
  match pktZone m t.binfo.mcntStart hdr.mcnt with
  | .window =>
    let o := if BlockDone m t.binfo.mcntStart hdr.mcnt then finishBlock m t hdr
      else { thread := t, effects := [], ret := noMcnt }
    countAndStore m o hdr p
  | .late => latePacket t hdr
  | .outOfSeq => outOfSeqPacket m t hdr

/-! ## Runs of calls -/

structure State where
  thread : Thread
  ring : Ring

/-- What run() does to the ring before the benchmark. -/
def startupEffects : List Effect :=
  [.busywaitFree 0, .busywaitFree 1, initializeBlock m 0 0 0, initializeBlock m (nm m) 0 0]

def State.start (mem : Mem) (flag : Nat → Flag) : State where
  thread := Thread.initial m
  ring := Ring.execAll m ⟨mem, flag, []⟩ (startupEffects m)

def State.call (s : State) (p : UdpPacket) : State :=
  let o := processPacket m s.thread p
  ⟨o.thread, s.ring.execAll m o.effects⟩

def State.run (s : State) (l : List UdpPacket) : State := l.foldl (State.call m) s

end S6Reobs.Net
