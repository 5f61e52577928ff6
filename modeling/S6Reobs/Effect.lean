import S6Reobs.Lib.Copy
import S6Reobs.Header

/-! What the receive thread does to the shared ring, one effect at a time. Each
effect is a short piece of the source that runs without looking at a flag, so
interleavings with the consumer are interleavings of effects. -/

namespace S6Reobs

open Word

structure Timespec where
  sec : Nat
  nsec : Nat
  deriving DecidableEq, Repr

/-- The source's printf, hashpipe_warn and hashpipe_error calls. -/
inductive Msg
  /-- "block %d being marked filled, but expected block %d!" -/
  | fillOutOfOrder (blockI expected : Nat)
  /-- "block_i for binfo's mcnt (%d) != binfo's block_i (%d)" -/
  | blockMismatch (blockI binfoBlockI : Nat)
  /-- "current packet SID %u out of range (0-%d)" -/
  | sidOutOfRange (sid last : Nat)
  /-- "unexpected packet PCHAN %d (expected %d)" -/
  | unexpectedPchan (pchan expected : Nat)
  /-- "unexpected packet NCHAN %d (expected %d)" -/
  | unexpectedNchan (nchan expected : Nat)
  /-- "Ignoring late packet (%d mcnts late)" -/
  | latePacket (mcntsLate : Nat)
  /-- "out of seq mcnt %012lx (expected: %012lx <= mcnt < %012x)" -/
  | outOfSeq (mcnt first last : Nat)
  /-- "resetting to mcnt %012lx block %d based on packet mcnt %012lx" -/
  | resetting (mcnt block pktMcnt : Nat)
  deriving DecidableEq

inductive Flag
  | free | filled
  deriving DecidableEq, Repr

inductive Effect
  /-- header.time_sec and header.time_nsec of `block[b]` are assigned. -/
  | stamp (b : Nat) (now : Timespec)
  /-- s6_input_databuf_set_filled, returning HASHPIPE_OK. -/
  | setFilled (b : Nat)
  /-- s6_input_databuf_busywait_free, returning HASHPIPE_OK. -/
  | busywaitFree (b : Nat)
  /-- The assignments of initialize_block to `block[b].header`. -/
  | initializeBlock (b mcnt pchan nchan sid : Nat)
  /-- `block[b].header.missed_pkts[i]--`. -/
  | decMissedPkts (b i : Nat)
  /-- The memcpy calls that place a packet's payload in `block[b].data`. -/
  | copyPayload (b : Nat) (f : Frame)
  | log (msg : Msg)
  /-- hashpipe_pktsock_recv_udp_frame_nonblock handed over a frame. -/
  | recvFrame
  /-- hashpipe_pktsock_release_frame. -/
  | releaseFrame
  /-- NETMCNT is set in the status buffer. -/
  | hputNetmcnt (mcnt : Nat)

/-! ## The placement of a payload -/

/-- The payload bytes that are copied: what S6 and FAST pass to memcpy. -/
def copyBytes (m : Macros) (f : Frame) : Nat :=
  match m.source with
  | .s6 => u64 (f.udpSize - 8 - 8 - 8)
  | .dibas => m.slotBytes
  | .fast => u64 (f.udpSize - 8 - 8)

/-- The DIBAS memcpy for one sub-spectrum of one spectrum. `src_p` has then been
advanced once for every sub-spectrum before it. -/
def subspectrumPiece (m : Macros) (f : Frame) (mcnt b spectrum sub : Nat) : Copy.Piece Nat where
  dest := m.dataAddr b +
    (sub * m.nFineChan + u64 (mcnt * m.nSpectraPerPacket + spectrum) % m.nFineChan) *
      m.nBytesPerSubspectrum / 8
  len := m.nBytesPerSubspectrum / 8
  src j := f.payload
    ((spectrum * m.nSubspectraPerSpectrum + sub) * (m.nBytesPerSubspectrum / 8) + j)

def copyPieces (m : Macros) (f : Frame) (b : Nat) : List (Copy.Piece Nat) :=
  let hdr := getHeader m f
  match m.source with
  | .s6 => [{
      dest := m.dataAddr b +
        (hdr.sid * m.nm + hdr.mcnt % m.nm) * m.nCoarseChan * m.nBytesPerChan / 8
      len := copyBytes m f / 8
      src := f.payload }]
  | .dibas =>
    (List.range m.nSpectraPerPacket).flatMap fun spectrum =>
      (List.range m.nSubspectraPerSpectrum).map fun sub =>
        subspectrumPiece m f hdr.mcnt b spectrum sub
  | .fast => [{
      dest := m.dataAddr b + hdr.mcnt % m.nm * m.nSpectraPerPacket / 8
      len := copyBytes m f / 8
      src := f.payload }]

/-! ## Running effects -/

/-- The header words initialize_block assigns. -/
def initField (m : Macros) (mcnt pchan nchan sid old : Nat) : Field → Nat
  | .mcnt => mcnt
  | .coarseChanId => pchan
  | .numCoarseChan => nchan
  | .sid => sid
  | .missedPkts i => if i < m.nBors then u64 m.nm else old
  | .timeSec | .timeNsec => old

def Effect.apply (m : Macros) (mem : Mem) : Effect → Mem
  | .stamp b now =>
    Function.update (Function.update mem (.header b .timeSec) now.sec)
      (.header b .timeNsec) now.nsec
  | .initializeBlock b mcnt pchan nchan sid => fun l => match l with
    | .header c fld => if c = b then initField m mcnt pchan nchan sid (mem l) fld else mem l
    | _ => mem l
  | .decMissedPkts b i =>
    Function.update mem (.header b (.missedPkts i))
      (u64 ((mem (.header b (.missedPkts i)) : Int) - 1))
  | .copyPayload b f => Copy.copyAll (Loc.addr m) (copyPieces m f b) mem
  | _ => mem

/-- The word addresses an effect assigns. -/
def Effect.Writes (m : Macros) (a : Nat) : Effect → Prop
  | .stamp b _ => a = (Loc.header b .timeSec).addr m ∨ a = (Loc.header b .timeNsec).addr m
  | .initializeBlock b .. => ∃ fld : Field, fld ≠ .timeSec ∧ fld ≠ .timeNsec ∧
      fld.word < m.headerWords ∧ a = (Loc.header b fld).addr m
  | .decMissedPkts b i => a = (Loc.header b (.missedPkts i)).addr m
  | .copyPayload b f => ∃ p ∈ copyPieces m f b, p.Covers a
  | _ => False

/-- An effect that was run, with the memory it found. -/
structure Entry where
  effect : Effect
  before : Mem

/-- The ring as the receive thread sees it; `trace` records what was done to
it, the latest first. -/
structure Ring where
  mem : Mem
  flag : Nat → Flag
  trace : List Entry

/-- A wait that returned HASHPIPE_OK found its block free; the others leave or
set the flag they name. -/
def Effect.setFlag (flag : Nat → Flag) : Effect → Nat → Flag
  | .setFilled b => Function.update flag b .filled
  | .busywaitFree b => Function.update flag b .free
  | _ => flag

def Ring.exec (m : Macros) (r : Ring) (e : Effect) : Ring where
  mem := e.apply m r.mem
  flag := e.setFlag r.flag
  trace := ⟨e, r.mem⟩ :: r.trace

def Ring.execAll (m : Macros) (r : Ring) (es : List Effect) : Ring :=
  es.foldl (Ring.exec m) r

@[simp] theorem Ring.execAll_nil (m : Macros) (r : Ring) : r.execAll m [] = r := rfl

@[simp] theorem Ring.execAll_cons (m : Macros) (r : Ring) (e : Effect) (es : List Effect) :
    r.execAll m (e :: es) = (r.exec m e).execAll m es := rfl

theorem Ring.execAll_append (m : Macros) (r : Ring) (es fs : List Effect) :
    r.execAll m (es ++ fs) = (r.execAll m es).execAll m fs :=
  List.foldl_append

/-- A location whose address an effect does not assign keeps its word. -/
theorem Effect.apply_frame (m : Macros) (mem : Mem) (e : Effect) {l : Loc} (valid : l.Valid m)
    (out : ¬ e.Writes m (l.addr m)) : e.apply m mem l = mem l := by
  cases e with
  | stamp b now =>
    simp only [Writes, not_or] at out
    have sec : l ≠ .header b .timeSec := fun h => out.1 (by rw [h])
    have nsec : l ≠ .header b .timeNsec := fun h => out.2 (by rw [h])
    simp [apply, sec, nsec]
  | initializeBlock b mcnt pchan nchan sid =>
    cases l with
    | header c fld =>
      by_cases hc : c = b
      · subst hc
        by_cases time : fld = .timeSec ∨ fld = .timeNsec
        · rcases time with rfl | rfl <;> simp [apply, initField]
        · exact absurd ⟨fld, fun h => time (.inl h), fun h => time (.inr h), valid.2, rfl⟩ out
      · simp [apply, hc]
    | padding | data | past => rfl
  | decMissedPkts b i =>
    have ne : l ≠ .header b (.missedPkts i) := fun h => out (by rw [h]; rfl)
    simp [apply, ne]
  | copyPayload b f =>
    apply Copy.copyAll_frame
    intro p hp hc
    exact out ⟨p, hp, hc⟩
  | setFilled | busywaitFree | log | recvFrame | releaseFrame | hputNetmcnt => rfl

end S6Reobs
