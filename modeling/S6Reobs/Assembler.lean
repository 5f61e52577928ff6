import S6Reobs.Effect

/-! s6_pktsock_thread.cpp: process_packet and the functions it calls. The thread
state is private, so a call is a new thread state, the effects it has on the
ring in order, and the value returned. hashpipe calls are taken to return
HASHPIPE_OK; the exits they guard end the thread.

out_of_seq_cnt counts as the `int` it is: a resync does not clear it, so packets that
are out of sequence can take it as far as they like. -/

namespace S6Reobs

open Word

/-- block_info_t after its lazy initialisation. The packet counters are only read modulo 2^32,
where they are taken away from N_PACKETS_PER_BLOCK. -/
structure BlockInfo where
  pchan : Nat
  nchan : Nat
  mcntStart : Nat
  mcntLogLate : Nat
  outOfSeqCnt : Int
  blockI : Nat
  blockPacketCounter : Nat → Nat

/-- The status buffer fields that set_block_filled puts. -/
structure Status where
  netbkout : Nat
  missedbm : Nat
  missedpk : Nat
  schan : Nat
  nchan : Nat
  deriving DecidableEq, Repr

/-- The thread's static variables: `binfo`, and `last_filled` of
set_block_filled; and its status fields. -/
structure Thread where
  binfo : BlockInfo
  lastFilled : Int
  status : Status

def initializeBlockInfo (m : Macros) : BlockInfo where
  pchan := 0
  nchan := 0
  mcntStart := 0
  mcntLogLate := m.nm
  outOfSeqCnt := 0
  blockI := 0
  blockPacketCounter := fun _ => 0

def Thread.initial (m : Macros) : Thread := ⟨initializeBlockInfo m, -1, ⟨0, 0, 0, 0, 0⟩⟩

/-- What one call did. -/
structure Outcome where
  thread : Thread
  effects : List Effect
  ret : Nat

/-- `(uint64_t)-1`. -/
def noMcnt : Nat := 2 ^ 64 - 1

/-- A received frame, and what CLOCK_REALTIME would read while it is handled. -/
structure Arrival where
  frame : Frame
  now : Timespec

def initializeBlock (m : Macros) (mcnt pchan nchan sid : Nat) : Effect :=
  .initializeBlock (blockForMcnt m mcnt) (mcnt - mcnt % m.nm) pchan nchan sid

def setBlockFilled (m : Macros) (t : Thread) : Outcome :=
  let blockI := blockForMcnt m t.binfo.mcntStart
  let lastFilled := (t.lastFilled + 1).tmod m.nInputBlocks
  let order := if lastFilled ≠ blockI then
    [.log (.fillOutOfOrder blockI lastFilled.toNat)] else []
  let index := if blockI ≠ t.binfo.blockI then
    [.log (.blockMismatch blockI t.binfo.blockI)] else []
  let missedPktCnt := u32 (m.nPacketsPerBlock - t.binfo.blockPacketCounter blockI)
  let missedBeams := u32 (missedPktCnt / m.nm)
  let missedMod := u32 (missedPktCnt % m.nm)
  { thread := { t with
      lastFilled := lastFilled
      status :=
        { netbkout := blockI
          missedbm := missedBeams
          missedpk := if missedMod ≠ 0 then u32 (t.status.missedpk + missedMod)
            else t.status.missedpk
          schan := u32 t.binfo.pchan
          nchan := u32 t.binfo.nchan } }
    effects := order ++ index ++ [.setFilled blockI]
    ret := t.binfo.mcntStart }

/-- calc_block_indexes: `none` when it returns -1. -/
def calcBlockIndexes (m : Macros) (binfo : BlockInfo) (hdr : PacketHeader) :
    List Msg × Option BlockInfo :=
  if hdr.sid ≥ m.nSourceNodes then
    ([.sidOutOfRange hdr.sid (m.nSourceNodes - 1)], none)
  else
    let binfo := if binfo.nchan = 0 then
      { binfo with nchan := hdr.nchan, pchan := hdr.pchan } else binfo
    let pchanMsg := if hdr.pchan ≠ binfo.pchan then
      [.unexpectedPchan hdr.pchan binfo.pchan] else []
    let nchanMsg := if hdr.nchan ≠ binfo.nchan then
      [.unexpectedNchan hdr.nchan binfo.nchan] else []
    (pchanMsg ++ nchanMsg, some binfo)

/-- `pkt_mcnt - cur_mcnt` as an int64_t. -/
def pktMcntDist (curMcnt pktMcnt : Nat) : Int := i64 (pktMcnt - curMcnt)

/-- The three branches of process_packet. -/
inductive Zone
  | window | late | outOfSeq
  deriving DecidableEq, Repr

def pktZone (m : Macros) (curMcnt pktMcnt : Nat) : Zone :=
  let dist := pktMcntDist curMcnt pktMcnt
  if 0 ≤ dist ∧ u64 dist < u64 (2 * m.nm) then .window
  else if dist < 0 ∧ -i64 m.latePktMcntThreshold < dist then .late
  else .outOfSeq

/-- The packet is for the second half of the next block, so the current block is done. -/
def BlockDone (m : Macros) (curMcnt pktMcnt : Nat) : Prop :=
  u64 (3 * (m.nm / 2)) ≤ u64 (pktMcntDist curMcnt pktMcnt)

instance (m : Macros) (curMcnt pktMcnt : Nat) : Decidable (BlockDone m curMcnt pktMcnt) :=
  inferInstanceAs (Decidable (_ ≤ _))

/-- Fill the current block, advance to the next and acquire the one after it. -/
def finishBlock (m : Macros) (t : Thread) (hdr : PacketHeader) (now : Timespec) : Outcome :=
  let filled := setBlockFilled m t
  let blockI := (t.binfo.blockI + 1) % m.nInputBlocks
  let newBlockI := (blockI + 1) % m.nInputBlocks
  { thread := { filled.thread with
      binfo := { t.binfo with
        mcntStart := u64 (t.binfo.mcntStart + m.nm)
        blockI := blockI
        pchan := 0
        nchan := 0
        blockPacketCounter := Function.update t.binfo.blockPacketCounter newBlockI 0 } }
    effects := [.stamp t.binfo.blockI now] ++ filled.effects ++ [.busywaitFree newBlockI,
      initializeBlock m (u64 (hdr.mcnt + m.nm)) hdr.pchan hdr.nchan hdr.sid]
    ret := filled.ret }

/-- The missed_pkts entry a source counts in. -/
def missedIndex (m : Macros) (sid : Nat) : Nat :=
  match m.source with | .fast => 0 | _ => sid

/-- Reset the out-of-seq counter and count a packet for `block[pktBlockI]`. -/
def BlockInfo.count (binfo : BlockInfo) (pktBlockI : Nat) : BlockInfo :=
  { binfo with
    outOfSeqCnt := 0
    blockPacketCounter := Function.update binfo.blockPacketCounter pktBlockI
      (binfo.blockPacketCounter pktBlockI + 1) }

/-- The part of the window branch that every packet goes through. -/
def countAndStore (m : Macros) (o : Outcome) (hdr : PacketHeader) (f : Frame) : Outcome :=
  let pktBlockI := blockForMcnt m hdr.mcnt
  let binfo := o.thread.binfo.count pktBlockI
  match calcBlockIndexes m binfo hdr with
  | (msgs, none) =>
    { thread := { o.thread with binfo := binfo }
      effects := o.effects ++ msgs.map .log
      ret := noMcnt }
  | (msgs, some binfo) =>
    { thread := { o.thread with binfo := binfo }
      effects := o.effects ++ msgs.map .log ++
        [.decMissedPkts pktBlockI (missedIndex m hdr.sid), .copyPayload pktBlockI f]
      ret := o.ret }

/-- `pkt_mcnt` advanced to the next block that has the ring index `blockI`. -/
def advancedMcnt (m : Macros) (blockI pktMcnt : Nat) : Nat :=
  let pktBlockI := blockForMcnt m pktMcnt
  if blockI > pktBlockI then u64 (pktMcnt + m.nm * (blockI - pktBlockI))
  else if blockI < pktBlockI then u64 (pktMcnt + m.nm * (blockI + m.nInputBlocks - pktBlockI))
  else pktMcnt

def resync (m : Macros) (t : Thread) (hdr : PacketHeader) : Outcome :=
  let pktMcnt := advancedMcnt m t.binfo.blockI hdr.mcnt
  let mcntStart := pktMcnt - pktMcnt % m.nm
  let blockI := blockForMcnt m mcntStart
  { thread := { t with
      binfo := { t.binfo with
        mcntStart := mcntStart
        mcntLogLate := u64 (mcntStart + m.nm)
        blockI := blockI
        pchan := 0
        nchan := 0
        blockPacketCounter := Function.update (Function.update t.binfo.blockPacketCounter
          blockI 0) ((blockI + 1) % m.nInputBlocks) 0 } }
    effects := [.log (.resetting mcntStart blockI pktMcnt),
      initializeBlock m mcntStart hdr.pchan hdr.nchan hdr.sid,
      initializeBlock m (u64 (mcntStart + m.nm)) hdr.pchan hdr.nchan hdr.sid]
    ret := noMcnt }

def latePacket (t : Thread) (hdr : PacketHeader) : Outcome where
  thread := t
  effects := if t.binfo.mcntStart ≥ t.binfo.mcntLogLate then
    [.log (.latePacket (u64 (t.binfo.mcntStart - hdr.mcnt)))] else []
  ret := noMcnt

def outOfSeqPacket (m : Macros) (t : Thread) (hdr : PacketHeader) : Outcome :=
  let warn := if t.binfo.mcntStart ≠ 0 then
    [.log (.outOfSeq hdr.mcnt t.binfo.mcntStart (u64 (t.binfo.mcntStart + 2 * m.nm)))] else []
  let counted := { t with binfo := { t.binfo with outOfSeqCnt := inc t.binfo.outOfSeqCnt } }
  if counted.binfo.outOfSeqCnt > (m.maxOutOfSeq : Int) then
    let o := resync m counted hdr
    { o with effects := warn ++ o.effects }
  else
    { thread := counted, effects := warn, ret := noMcnt }

def processPacket (m : Macros) (t : Thread) (a : Arrival) : Outcome :=
  let hdr := getHeader m a.frame
  match pktZone m t.binfo.mcntStart hdr.mcnt with
  | .window =>
    let o := if BlockDone m t.binfo.mcntStart hdr.mcnt then finishBlock m t hdr a.now
      else { thread := t, effects := [], ret := noMcnt }
    countAndStore m o hdr a.frame
  | .late => latePacket t hdr
  | .outOfSeq => outOfSeqPacket m t hdr

section Zones

variable {m : Macros} {t : Thread} {a : Arrival}

theorem processPacket_window
    (zone : pktZone m t.binfo.mcntStart (getHeader m a.frame).mcnt = .window) :
    processPacket m t a = countAndStore m
      (if BlockDone m t.binfo.mcntStart (getHeader m a.frame).mcnt then
        finishBlock m t (getHeader m a.frame) a.now
      else { thread := t, effects := [], ret := noMcnt }) (getHeader m a.frame) a.frame := by
  simp only [processPacket, zone]

theorem processPacket_late
    (zone : pktZone m t.binfo.mcntStart (getHeader m a.frame).mcnt = .late) :
    processPacket m t a = latePacket t (getHeader m a.frame) := by
  simp only [processPacket, zone]

theorem processPacket_outOfSeq
    (zone : pktZone m t.binfo.mcntStart (getHeader m a.frame).mcnt = .outOfSeq) :
    processPacket m t a = outOfSeqPacket m t (getHeader m a.frame) := by
  simp only [processPacket, zone]

end Zones

/-! ## Runs of calls -/

structure State where
  thread : Thread
  ring : Ring

/-- What run() does before its main loop: acquire blocks 0 and 1 and
initialise them with mcnt 0 and Nm. -/
def startupEffects (m : Macros) : List Effect :=
  [.busywaitFree 0, .busywaitFree 1, initializeBlock m 0 0 0 0, initializeBlock m m.nm 0 0 0]

/-- The state in which the main loop starts, on a ring that held anything. -/
def State.start (m : Macros) (mem : Mem) (flag : Nat → Flag) : State where
  thread := Thread.initial m
  ring := Ring.execAll m ⟨mem, flag, []⟩ (startupEffects m)

def State.call (m : Macros) (s : State) (a : Arrival) : State :=
  let o := processPacket m s.thread a
  ⟨o.thread, s.ring.execAll m o.effects⟩

def State.run (m : Macros) (s : State) (l : List Arrival) : State :=
  l.foldl (State.call m) s

/-- Every state the thread can be in between two calls, whatever was received
and whichever blocks the consumer has freed. -/
inductive Reachable (m : Macros) : State → Prop
  | start (mem : Mem) (flag : Nat → Flag) : Reachable m (State.start m mem flag)
  | call {s : State} (a : Arrival) : Reachable m s → Reachable m (s.call m a)
  | consumerFree {s : State} (b : Nat) : Reachable m s →
      Reachable m { s with ring := { s.ring with flag := Function.update s.ring.flag b .free } }

/-- The same state, with the record of effects begun afresh. -/
def State.record (s : State) : State := { s with ring := { s.ring with trace := [] } }

@[simp] theorem State.run_nil (m : Macros) (s : State) : s.run m [] = s := rfl

@[simp] theorem State.run_cons (m : Macros) (s : State) (a : Arrival) (l : List Arrival) :
    s.run m (a :: l) = (s.call m a).run m l := rfl

theorem State.run_append (m : Macros) (s : State) (l k : List Arrival) :
    s.run m (l ++ k) = (s.run m l).run m k :=
  List.foldl_append

/-! ## A small build and its packets, for concrete runs -/

/-- The FAST build with the smallest blocks and ring: two packets a block, two blocks. -/
def fastSmall : Geometry where
  source := .fast
  nTimeSamples := 8192
  nInputBlocks := 2
  even := by decide
  two_le_nm := by decide
  two_le_blocks := by decide
  ring_fits := by decide

/-- The FAST build with four packets a block and two blocks. -/
def fastFour : Geometry where
  source := .fast
  nTimeSamples := 16384
  nInputBlocks := 2
  even := by decide
  two_le_nm := by decide
  two_le_blocks := by decide
  ring_fits := by decide

/-- The S6 and the DIBAS build with the smallest blocks and ring. -/
def s6Small : Geometry where
  source := .s6
  nTimeSamples := 2
  nInputBlocks := 2
  even := by decide
  two_le_nm := by decide
  two_le_blocks := by decide
  ring_fits := by decide

def dibasSmall : Geometry where
  source := .dibas
  nTimeSamples := 8
  nInputBlocks := 2
  even := by decide
  two_le_nm := by decide
  two_le_blocks := by decide
  ring_fits := by decide

/-- A full packet of the FAST build, with nothing but zeros after its header word. -/
def fastPacket (rawHeader : Nat) : Arrival := ⟨.ofWords (16 + 4096) [rawHeader], ⟨0, 0⟩⟩

end S6Reobs
