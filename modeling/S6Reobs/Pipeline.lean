import S6Reobs.Lib.Handoff
import S6Reobs.Effect

/-! The FAST pipeline: a producer, s6_gpu_thread and s6_output_thread on the two
databufs between them. Each step is one access to a flag or to one word of a
block; private assignments go with the access before them. The threads' calls of
hashpipe_databuf_wait_* return HASHPIPE_OK, so a thread that waits has no step. -/

namespace S6Reobs

/-- A word of a block that some thread reads. -/
inductive Cell
  | header (f : Field)
  | data (k : Nat)
  deriving DecidableEq

abbrev Block := Cell → Nat

structure Databuf where
  flag : Nat → Flag
  block : Nat → Block

def Databuf.set (d : Databuf) (b : Nat) (f : Flag) : Databuf :=
  { d with flag := Function.update d.flag b f }

def Databuf.write (d : Databuf) (b : Nat) (c : Cell) (v : Nat) : Databuf :=
  { d with block := Function.update d.block b (Function.update (d.block b) c v) }

/-- What a block says. -/
structure Tuple where
  mcnt : Nat
  sid : Nat
  coarseChanId : Nat
  numCoarseChan : Nat
  timeSec : Nat
  timeNsec : Nat
  missedPkts : List Nat
  data : List Nat
  deriving DecidableEq

def Block.tuple (m : Macros) (block : Block) : Tuple where
  mcnt := block (.header .mcnt)
  sid := block (.header .sid)
  coarseChanId := block (.header .coarseChanId)
  numCoarseChan := block (.header .numCoarseChan)
  timeSec := block (.header .timeSec)
  timeNsec := block (.header .timeNsec)
  missedPkts := (List.range m.nBors).map fun i => block (.header (.missedPkts i))
  data := (List.range m.dataWords).map fun k => block (.data k)

/-- etf.primary_hdr.beam, the int that `floor(sid / 2)` leaves: a double from 2^31 on is out
of its range and leaves INT_MIN. -/
def Tuple.beam (t : Tuple) : Int := if t.sid / 2 < 2 ^ 31 then (t.sid / 2 : Nat) else -2 ^ 31

theorem Tuple.beam_eq {t : Tuple} (small : t.sid < 2 ^ 32) : t.beam = (t.sid / 2 : Nat) := by
  unfold Tuple.beam
  rw [if_pos (by omega)]

/-- etf.primary_hdr.pol. -/
def Tuple.pol (t : Tuple) : Nat := t.sid % 2

/-- The words s6_gpu_thread copies, in order: the metadata, then the data if there
are any channels, once for every bors. -/
def gpuCells (m : Macros) : List Cell :=
  [.header .mcnt, .header .coarseChanId, .header .numCoarseChan, .header .timeSec,
    .header .timeNsec] ++
  (List.range m.nBeamSlots).map (fun i => .header (.missedPkts i)) ++
  [.header .sid] ++
  if m.nCoarseChan ≠ 0 then
    (List.range m.nBors).flatMap fun _ => (List.range m.dataWords).map .data
  else []

/-- The words of an output block that are read, and that memset zeroes. -/
def outputCells (m : Macros) : List Cell :=
  [.header .mcnt, .header .coarseChanId, .header .numCoarseChan, .header .sid, .header .timeSec,
    .header .timeNsec] ++
  (List.range m.nBors).map (fun i => .header (.missedPkts i)) ++
  (List.range m.dataWords).map .data

/-- Where s6_gpu_thread is; `copying` holds what is still to be copied. -/
inductive GpuPc
  | waitFilled | checkMcnt | waitFree
  | copying (rest : List Cell)
  | setFree
  deriving DecidableEq

/-- Where s6_output_thread is: `processing` holds what is still to be read and what has
been, `clearing` what is still to be zeroed. -/
inductive OutputPc
  | waitFilled
  | processing (rest : List Cell) (got : Block)
  | clearing (rest : List Cell)

/-- `last_mcount`, which is never assigned again. -/
def lastMcount : Nat := 0

/-- `held` are the producer's blocks, the oldest first, and `next` the one it acquires
next. `published` and `seen` record what the producer marked filled and what
s6_output_thread found in the blocks it processed. -/
structure Pipeline where
  dbIn : Databuf
  dbOut : Databuf
  held : List Nat
  next : Nat
  gpu : GpuPc
  curblockIn : Nat
  curblockOut : Nat
  output : OutputPc
  blockIdx : Nat
  published : List Tuple
  seen : List Tuple

/-- Both databufs as hashpipe_databuf_create leaves their flags, on any memory. -/
def Pipeline.start (blockIn blockOut : Nat → Block) : Pipeline where
  dbIn := ⟨fun _ => .free, blockIn⟩
  dbOut := ⟨fun _ => .free, blockOut⟩
  held := []
  next := 0
  gpu := .waitFilled
  curblockIn := 0
  curblockOut := 0
  output := .waitFilled
  blockIdx := 0
  published := []
  seen := []

namespace Pipeline

/-- One step of one thread, with `nIn` and `nOut` blocks in the databufs. -/
inductive Step (m : Macros) (nIn nOut : Nat) : Pipeline → Pipeline → Prop
  | acquire (s : Pipeline) (few : s.held.length < 2) (free : s.dbIn.flag s.next = .free) :
      Step m nIn nOut s { s with held := s.held ++ [s.next], next := (s.next + 1) % nIn }
  | fill (s : Pipeline) (b : Nat) (held : b ∈ s.held) (c : Cell) (v : Nat) :
      Step m nIn nOut s { s with dbIn := s.dbIn.write b c v }
  | publish (s : Pipeline) (b : Nat) (rest : List Nat) (oldest : s.held = b :: rest) :
      Step m nIn nOut s { s with
        dbIn := s.dbIn.set b .filled
        held := rest
        published := s.published ++ [(s.dbIn.block b).tuple m] }
  | gpuWaitFilled (s : Pipeline) (pc : s.gpu = .waitFilled)
      (filled : s.dbIn.flag s.curblockIn = .filled) :
      Step m nIn nOut s { s with gpu := .checkMcnt }
  | gpuCheckMcnt (s : Pipeline) (pc : s.gpu = .checkMcnt) :
      Step m nIn nOut s { s with
        gpu := if s.dbIn.block s.curblockIn (.header .mcnt) ≥ lastMcount then .waitFree
          else .copying (gpuCells m) }
  | gpuWaitFree (s : Pipeline) (pc : s.gpu = .waitFree)
      (free : s.dbOut.flag s.curblockOut = .free) :
      Step m nIn nOut s { s with gpu := .copying (gpuCells m) }
  | gpuCopy (s : Pipeline) (c : Cell) (rest : List Cell) (pc : s.gpu = .copying (c :: rest)) :
      Step m nIn nOut s { s with
        dbOut := s.dbOut.write s.curblockOut c (s.dbIn.block s.curblockIn c)
        gpu := .copying rest }
  | gpuSetFilled (s : Pipeline) (pc : s.gpu = .copying []) :
      Step m nIn nOut s { s with
        dbOut := s.dbOut.set s.curblockOut .filled
        curblockOut := (s.curblockOut + 1) % nOut
        gpu := .setFree }
  | gpuSetFree (s : Pipeline) (pc : s.gpu = .setFree) :
      Step m nIn nOut s { s with
        dbIn := s.dbIn.set s.curblockIn .free
        curblockIn := (s.curblockIn + 1) % nIn
        gpu := .waitFilled }
  | outputWaitFilled (s : Pipeline) (pc : s.output = .waitFilled)
      (filled : s.dbOut.flag s.blockIdx = .filled) :
      Step m nIn nOut s { s with output := .processing (outputCells m) fun _ => 0 }
  | outputRead (s : Pipeline) (c : Cell) (rest : List Cell) (got : Block)
      (pc : s.output = .processing (c :: rest) got) :
      Step m nIn nOut s { s with
        output := .processing rest (Function.update got c (s.dbOut.block s.blockIdx c)) }
  | outputSee (s : Pipeline) (got : Block) (pc : s.output = .processing [] got) :
      Step m nIn nOut s { s with
        seen := s.seen ++ [got.tuple m]
        output := .clearing (outputCells m) }
  | outputClear (s : Pipeline) (c : Cell) (rest : List Cell)
      (pc : s.output = .clearing (c :: rest)) :
      Step m nIn nOut s { s with
        dbOut := s.dbOut.write s.blockIdx c 0
        output := .clearing rest }
  | outputSetFree (s : Pipeline) (pc : s.output = .clearing []) :
      Step m nIn nOut s { s with
        dbOut := s.dbOut.set s.blockIdx .free
        blockIdx := (s.blockIdx + 1) % nOut
        output := .waitFilled }

inductive Reachable (m : Macros) (nIn nOut : Nat) : Pipeline → Prop
  | start (blockIn blockOut : Nat → Block) : Reachable m nIn nOut (.start blockIn blockOut)
  | next {s t : Pipeline} : Reachable m nIn nOut s → Step m nIn nOut s t → Reachable m nIn nOut t

end Pipeline

/-! ## What two blocks have in common -/

theorem tuple_congr {m : Macros} {block block' : Block}
    (same : ∀ c ∈ outputCells m, block c = block' c) : block.tuple m = block'.tuple m := by
  have missed : (List.range m.nBors).map (fun i => block (.header (.missedPkts i))) =
      (List.range m.nBors).map (fun i => block' (.header (.missedPkts i))) :=
    List.map_congr_left fun i hi => same _ (by simp [outputCells, List.mem_range.mp hi])
  have data : (List.range m.dataWords).map (fun k => block (.data k)) =
      (List.range m.dataWords).map (fun k => block' (.data k)) :=
    List.map_congr_left fun k hk => same _ (by simp [outputCells, List.mem_range.mp hk])
  have header (f : Field) (hf : .header f ∈ outputCells m) := same _ hf
  simp only [Block.tuple, missed, data]
  rw [header .mcnt (by simp [outputCells]), header .sid (by simp [outputCells]),
    header .coarseChanId (by simp [outputCells]), header .numCoarseChan (by simp [outputCells]),
    header .timeSec (by simp [outputCells]), header .timeNsec (by simp [outputCells])]

/-- In the FAST build every word that is read is copied. -/
theorem outputCells_copied {m : Macros} (fast : m.source = .fast) :
    ∀ c ∈ outputCells m, c ∈ gpuCells m := by
  have bors : m.nBors = 1 := by simp [Macros.nBors, Macros.nSubspectraPerSpectrum, fast]
  have slots : m.nBeamSlots = 1 := by simp [Macros.nBeamSlots, fast]
  have channels : m.nCoarseChan = 1 := by simp [Macros.nCoarseChan, fast]
  intro c hc
  cases List.mem_append.mp hc with
  | inl hc =>
    cases List.mem_append.mp hc with
    | inl hc =>
      simp only [List.mem_cons, List.not_mem_nil, or_false] at hc
      rcases hc with rfl | rfl | rfl | rfl | rfl | rfl <;> simp [gpuCells]
    | inr hc =>
      obtain ⟨i, hi, rfl⟩ := List.mem_map.mp hc
      simpa [gpuCells, slots, bors] using hi
  | inr hc =>
    obtain ⟨k, hk, rfl⟩ := List.mem_map.mp hc
    simpa [gpuCells, channels, bors] using hk

end S6Reobs
