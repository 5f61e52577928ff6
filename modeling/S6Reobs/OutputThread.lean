import Mathlib.Data.List.Destutter
import Mathlib.Data.List.Induction
import S6Reobs.Pipeline
import S6Reobs.Lib.Latch

/-! s6_output_thread on one block after the other, in the three builds; of these only the FAST
build compiles, since `faststatus_p->TIME` stands outside every `#ifdef`. hgeti4 leaves its
variable alone when the status buffer does not have the key, and the thread's own wait for
a filled block returns HASHPIPE_OK. -/

namespace S6Reobs

/-- A receiver is an index in the S6 build and a name in the others. -/
inductive Receiver
  | index (n : Int)
  | name (s : String)
  deriving DecidableEq, Repr

/-- What the thread reads of scram_t, gbtstatus_t or faststatus_t: `receiver` is
scram.receiver, gbtstatus.IFV1TNCI or faststatus.RECEIVER. -/
structure ObsStatus where
  receiver : Receiver
  ifv1bw : String
  webcntrl : Int
  dumpvolt : Int
  deriving DecidableEq, Repr

/-- What the thread meets on its way through one block: the keys that are in the status
buffer, what get_obs_*_from_redis stores and returns, what writing the block returns and
leaves in etf.filename_working, and what put_obs_gbt_info_to_redis returns. -/
structure Around where
  runAlways : Option Int
  idle : Option Int
  testmode : Option Int
  obs : ObsStatus
  obsRv : Int
  writeRv : Int
  filename : String
  putRv : Int
  deriving DecidableEq, Repr

/-- What the thread logs. -/
inductive Notice
  | added (bitIndex : Nat)
  | removed (bitIndex : Nat)
  | idled
  | deidled
  | initializing (numCoarseChan : Nat) (receiver : Receiver)
  | writeError
  | newFile (name : String)
  | putError
  deriving DecidableEq, Repr

/-- The thread's variables between two blocks; `testDat` is what test.dat holds. -/
structure OutputThread where
  runAlways : Int
  priorRunAlways : Int
  idle : Int
  idleFlag : BitVec 32
  testmode : Int
  numCoarseChan : Nat
  obs : ObsStatus
  priorReceiver : Receiver
  fileNum : Int
  testDat : Option (List Nat)
  currentFilename : String

/-- What one block was met with, and what was done with it. -/
structure Done where
  around : Around
  block : Tuple
  runAlways : Int
  testmode : Int
  obs : ObsStatus
  dumpvolt : Option Int
  idle : Int
  newFile : Bool
  written : Bool
  announced : Option String
  notices : List Notice
  exits : Bool

namespace OutputThread

def idleRedisError : Nat := 1
def idleZeroIFV1BW : Nat := 2

def setBit (val : BitVec 32) (bitIndex : Nat) : BitVec 32 := val ||| 1#32 <<< bitIndex
def clearBit (val : BitVec 32) (bitIndex : Nat) : BitVec 32 := val &&& ~~~(1#32 <<< bitIndex)
def bitIsSet (val : BitVec 32) (bitIndex : Nat) : Bool := (val &&& 1#32 <<< bitIndex) ≠ 0

def hgeti4 (key : Option Int) (val : Int) : Int := key.getD val

def isspace (c : Char) : Bool := c = ' ' || ('\t' ≤ c && c ≤ '\r')

/-- The digits a string starts with, in base 10. -/
def digits (s : List Char) : Nat :=
  (s.takeWhile Char.isDigit).foldl (fun n c => n * 10 + (c.toNat - '0'.toNat)) 0

def atoi (s : String) : Int :=
  match s.toList.dropWhile isspace with
  | '-' :: rest => -(digits rest : Int)
  | '+' :: rest => digits rest
  | rest => digits rest

/-- The receiver before the first file change. -/
def noReceiver : Source → Receiver
  | .s6 => .index 0
  | .dibas | .fast => .name ""

/-- The observatory status in test mode. -/
def testStatus : Source → ObsStatus
  | .s6 => ⟨.index 0, "", 0, 0⟩
  | .dibas => ⟨.name "", "", 1, 0⟩
  | .fast => ⟨.name "S6TEST", "", 0, 0⟩

/-- The thread at its main loop; run_always, the observatory status and etf.file_num are
not initialised. -/
def start (source : Source) (runAlways : Int) (obs : ObsStatus) (fileNum : Int)
    (testDat : Option (List Nat)) : OutputThread where
  runAlways := runAlways
  priorRunAlways := 0
  idle := 0
  idleFlag := 0
  testmode := 1
  numCoarseChan := 0
  obs := obs
  priorReceiver := noReceiver source
  fileNum := fileNum
  testDat := testDat
  currentFilename := ""

/-- The observatory status for this block, and rv. -/
def getObs (source : Source) (testmode : Int) (a : Around) (old : ObsStatus) : ObsStatus × Int :=
  if testmode = 0 then
    match source with
    | .s6 | .dibas => (a.obs, a.obsRv)
    | .fast => (old, 0)
  else (testStatus source, 0)

/-- An idle condition, and its bit. -/
def checkBit (flag : BitVec 32) (bitIndex : Nat) (cond : Bool) : BitVec 32 × List Notice :=
  if cond then
    if !bitIsSet flag bitIndex then (setBit flag bitIndex, [.added bitIndex]) else (flag, [])
  else
    if bitIsSet flag bitIndex then (clearBit flag bitIndex, [.removed bitIndex]) else (flag, [])

def checkRedis (flag : BitVec 32) (rv : Int) : BitVec 32 × List Notice :=
  checkBit flag idleRedisError (rv ≠ 0)

def checkReceiver (source : Source) (flag : BitVec 32) (obs : ObsStatus) :
    BitVec 32 × List Notice :=
  match source with
  | .dibas => checkBit flag idleZeroIFV1BW (atoi obs.ifv1bw = 0)
  | .s6 | .fast => (flag, [])

def checkIdle (flag : BitVec 32) (idle : Int) : Int × List Notice :=
  if flag ≠ 0 then
    if idle = 0 then (1, [.idled]) else (idle, [])
  else
    if idle ≠ 0 then (0, [.deidled]) else (idle, [])

/-- Does the block start a new file? -/
def changesFile (source : Source) (s : OutputThread) (testmode runAlways : Int) (obs : ObsStatus)
    (block : Tuple) : Bool :=
  testmode = 0 && (obs.receiver ≠ s.priorReceiver || (source = .dibas && obs.webcntrl = 0) ||
    runAlways ≠ s.priorRunAlways || s.numCoarseChan ≠ block.numCoarseChan)

/-- Is the block written? -/
def writes (source : Source) (testmode runAlways : Int) (obs : ObsStatus) : Bool :=
  match source with
  | .s6 => testmode ≠ 0 || obs.receiver ≠ .index 0 || runAlways ≠ 0
  | .dibas => testmode ≠ 0 || (runAlways ≠ 0 && obs.webcntrl ≠ 0)
  | .fast => testmode ≠ 0 || runAlways ≠ 0

/-- The file name that is logged and put to redis. -/
def announce (source : Source) (s : OutputThread) (a : Around) : Option String :=
  if source = .dibas ∧ a.filename ≠ s.currentFilename then some a.filename else none

/-- What is logged about the files; the number of channels is the previous one. -/
def fileNotices (s : OutputThread) (obs : ObsStatus) (newFile failed : Bool)
    (announced : Option String) (unannounced : Bool) : List Notice :=
  (if newFile then [.initializing s.numCoarseChan obs.receiver] else []) ++
  (if failed then [.writeError] else []) ++
  (announced.toList.map .newFile) ++
  (if unannounced then [.putError] else [])

def processBlock (source : Source) (s : OutputThread) (a : Around) (block : Tuple) :
    OutputThread × Done :=
  let runAlways := hgeti4 a.runAlways s.runAlways
  let testmode := hgeti4 a.testmode s.testmode
  let (obs, rv) := getObs source testmode a s.obs
  let (redisFlag, redisNotices) := checkRedis s.idleFlag rv
  let (idleFlag, receiverNotices) := checkReceiver source redisFlag obs
  let (idle, idleNotices) := checkIdle idleFlag (hgeti4 a.idle s.idle)
  let newFile := changesFile source s testmode runAlways obs block
  let written := writes source testmode runAlways obs
  let failed := written && a.writeRv ≠ 0
  -- a thread that could not write exits before it looks at the name
  let announced := if failed then none else announce source s a
  let unannounced := announced.isSome && a.putRv ≠ 0
  ({ runAlways := runAlways
     priorRunAlways := if newFile then runAlways else s.priorRunAlways
     idle := idle
     idleFlag := idleFlag
     testmode := testmode
     numCoarseChan := if newFile then block.numCoarseChan else s.numCoarseChan
     obs := obs
     priorReceiver := if newFile then obs.receiver else s.priorReceiver
     fileNum := if source = .fast ∧ written then s.fileNum + 1 else s.fileNum
     testDat := if source = .fast ∧ written ∧ ¬ failed then some block.data else s.testDat
     currentFilename := announced.getD s.currentFilename },
   { around := a
     block := block
     runAlways := runAlways
     testmode := testmode
     obs := obs
     dumpvolt := if source = .fast ∧ testmode = 0 then some obs.dumpvolt else none
     idle := idle
     newFile := newFile
     written := written
     announced := announced
     notices := redisNotices ++ receiverNotices ++ idleNotices ++
       fileNotices s obs newFile failed announced unannounced
     exits := failed || unannounced })

/-- The main loop, until the thread exits. -/
def run (source : Source) (s : OutputThread) : List (Around × Tuple) → OutputThread × List Done
  | [] => (s, [])
  | (a, block) :: rest =>
    let (t, done) := s.processBlock source a block
    if done.exits then (t, [done])
    else ((t.run source rest).1, done :: (t.run source rest).2)

/-! ## The idle bits -/

/-- The bit field with these two bits. -/
def idleBits (redis bandwidth : Bool) : BitVec 32 :=
  (if redis then 2 else 0) ||| (if bandwidth then 4 else 0)

theorem idleBits_ne_zero (redis bandwidth : Bool) :
    idleBits redis bandwidth ≠ 0 ↔ redis = true ∨ bandwidth = true := by
  cases redis <;> cases bandwidth <;> decide

theorem checkBit_snd (flag : BitVec 32) (i : Nat) (cond : Bool) : (checkBit flag i cond).2 =
    (Latch.step (.added i) (.removed i) (bitIsSet flag i) cond).2 := by
  cases cond <;> cases set : bitIsSet flag i <;> simp [checkBit, Latch.step, set]

theorem checkBit_redis (redis bandwidth cond : Bool) :
    checkBit (idleBits redis bandwidth) idleRedisError cond = (idleBits cond bandwidth,
      (Latch.step (.added idleRedisError) (.removed idleRedisError) redis cond).2) := by
  have set : bitIsSet (idleBits redis bandwidth) idleRedisError = redis := by
    cases redis <;> cases bandwidth <;> decide
  have flag : (checkBit (idleBits redis bandwidth) idleRedisError cond).1 =
      idleBits cond bandwidth := by
    cases redis <;> cases bandwidth <;> cases cond <;> decide
  have notices := checkBit_snd (idleBits redis bandwidth) idleRedisError cond
  rw [set] at notices
  exact Prod.ext flag notices

theorem checkBit_bandwidth (redis bandwidth cond : Bool) :
    checkBit (idleBits redis bandwidth) idleZeroIFV1BW cond = (idleBits redis cond,
      (Latch.step (.added idleZeroIFV1BW) (.removed idleZeroIFV1BW) bandwidth cond).2) := by
  have set : bitIsSet (idleBits redis bandwidth) idleZeroIFV1BW = bandwidth := by
    cases redis <;> cases bandwidth <;> decide
  have flag : (checkBit (idleBits redis bandwidth) idleZeroIFV1BW cond).1 =
      idleBits redis cond := by
    cases redis <;> cases bandwidth <;> cases cond <;> decide
  have notices := checkBit_snd (idleBits redis bandwidth) idleZeroIFV1BW cond
  rw [set] at notices
  exact Prod.ext flag notices

theorem checkIdle_fst (flag : BitVec 32) (idle : Int) :
    (checkIdle flag idle).1 ≠ 0 ↔ flag ≠ 0 := by
  unfold checkIdle
  by_cases live : flag ≠ 0
  · rw [if_pos live]
    by_cases zero : idle = 0
    · rw [if_pos zero]
      exact iff_of_true one_ne_zero live
    · rw [if_neg zero]
      exact iff_of_true zero live
  · rw [if_neg live]
    by_cases zero : idle = 0
    · rw [if_neg (not_not.mpr zero)]
      exact iff_of_false (not_not.mpr zero) live
    · rw [if_pos zero]
      exact iff_of_false (not_not.mpr rfl) live

/-! ## One block -/

end OutputThread

/-- Could the observatory status not be had? -/
def Done.redisError (source : Source) (d : Done) : Bool :=
  d.testmode = 0 && source ≠ .fast && d.around.obsRv ≠ 0

/-- Is the receiver without a bandwidth? In test mode the status is all zero. -/
def Done.noBandwidth (source : Source) (d : Done) : Bool :=
  source = .dibas && (d.testmode ≠ 0 || OutputThread.atoi d.around.obs.ifv1bw = 0)

/-- Is it about this bit? -/
def Notice.about (bitIndex : Nat) (n : Notice) : Bool :=
  n = .added bitIndex || n = .removed bitIndex

/-- What was logged about one of the bits. -/
def aboutBit (bitIndex : Nat) (dones : List Done) : List Notice :=
  (dones.flatMap Done.notices).filter (Notice.about bitIndex)

/-- What decides on a file. -/
structure Config where
  receiver : Receiver
  runAlways : Int
  numCoarseChan : Nat
  deriving DecidableEq

def Done.config (d : Done) : Config := ⟨d.obs.receiver, d.runAlways, d.block.numCoarseChan⟩

/-- The last block's that came outside test mode. -/
def lastConfig (source : Source) (dones : List Done) : Config :=
  ((dones.filter fun d => d.testmode = 0).map Done.config).getLastD
    ⟨OutputThread.noReceiver source, 0, 0⟩

namespace OutputThread

def config (s : OutputThread) : Config := ⟨s.priorReceiver, s.priorRunAlways, s.numCoarseChan⟩

section Block

variable (source : Source) (s : OutputThread) (a : Around) (block : Tuple)

theorem getObs_rv (testmode : Int) (old : ObsStatus) : (getObs source testmode a old).2 ≠ 0 ↔
    testmode = 0 ∧ source ≠ .fast ∧ a.obsRv ≠ 0 := by
  unfold getObs
  split
  · cases source <;> simp [*]
  · simp [*]

theorem checkRedis_eq (redis bandwidth : Bool) (rv : Int) :
    checkRedis (idleBits redis bandwidth) rv = (idleBits (rv ≠ 0) bandwidth,
      (Latch.step (.added idleRedisError) (.removed idleRedisError) redis (rv ≠ 0)).2) :=
  checkBit_redis ..

/-- Outside the DIBAS build the receiver's bit stays off. -/
theorem checkReceiver_eq (redis bandwidth : Bool) (testmode : Int) (old : ObsStatus)
    (off : source ≠ .dibas → bandwidth = false) :
    checkReceiver source (idleBits redis bandwidth) (getObs source testmode a old).1 =
      (idleBits redis (source = .dibas && (testmode ≠ 0 || atoi a.obs.ifv1bw = 0)),
        (Latch.step (.added idleZeroIFV1BW) (.removed idleZeroIFV1BW) bandwidth
          (source = .dibas && (testmode ≠ 0 || atoi a.obs.ifv1bw = 0))).2) := by
  cases source with
  | dibas =>
    have zero : atoi "" = 0 := by decide
    by_cases test : testmode = 0
    · simp only [checkReceiver, checkBit_bandwidth]
      simp [getObs, test]
    · simp only [checkReceiver, checkBit_bandwidth]
      simp [getObs, test, testStatus, zero]
  | s6 | fast =>
    rw [off (by decide)]
    simp [checkReceiver, Latch.step]

theorem filter_about (i j : Nat) (bit cond : Bool) :
    (Latch.step (.added i) (.removed i) bit cond).2.filter (Notice.about j) =
      if i = j then (Latch.step (.added i) (.removed i) bit cond).2 else [] := by
  by_cases same : i = j
  · cases bit <;> cases cond <;> simp [Latch.step, Notice.about, same]
  · cases bit <;> cases cond <;> simp [Latch.step, Notice.about, same]

theorem checkIdle_about (i : Nat) (flag : BitVec 32) (idle : Int) :
    (checkIdle flag idle).2.filter (Notice.about i) = [] := by
  unfold checkIdle
  split <;> split <;> rfl

theorem fileNotices_about (i : Nat) (obs : ObsStatus) (newFile failed : Bool)
    (announced : Option String) (unannounced : Bool) :
    (fileNotices s obs newFile failed announced unannounced).filter (Notice.about i) = [] := by
  cases newFile <;> cases failed <;> cases announced <;> cases unannounced <;> rfl

variable {source s a block}

/-- What a block does to the idle bits, and what it says of them. -/
theorem processBlock_bits {redis bandwidth : Bool} (bits : s.idleFlag = idleBits redis bandwidth)
    (off : source ≠ .dibas → bandwidth = false) {t : OutputThread} {d : Done}
    (did : s.processBlock source a block = (t, d)) :
    t.idleFlag = idleBits (d.redisError source) (d.noBandwidth source) ∧
    (d.idle ≠ 0 ↔ d.redisError source = true ∨ d.noBandwidth source = true) ∧
    aboutBit idleRedisError [d] = (Latch.step (.added idleRedisError)
      (.removed idleRedisError) redis (d.redisError source)).2 ∧
    aboutBit idleZeroIFV1BW [d] = (Latch.step (.added idleZeroIFV1BW)
      (.removed idleZeroIFV1BW) bandwidth (d.noBandwidth source)).2 := by
  have around : d.around = a := (congrArg (fun p => p.2.around) did).symm
  have testmode : d.testmode = hgeti4 a.testmode s.testmode :=
    (congrArg (fun p => p.2.testmode) did).symm
  have error := getObs_rv source a (hgeti4 a.testmode s.testmode) s.obs
  have receiver := checkReceiver_eq source a (d.redisError source) bandwidth
    (hgeti4 a.testmode s.testmode) s.obs off
  have noBandwidth : d.noBandwidth source =
      (source = .dibas && (hgeti4 a.testmode s.testmode ≠ 0 || atoi a.obs.ifv1bw = 0)) := by
    rw [Done.noBandwidth, testmode, around]
  rw [← noBandwidth] at receiver
  cases got : getObs source (hgeti4 a.testmode s.testmode) a s.obs with
  | mk obs rv =>
    rw [got] at error receiver
    have redisError : d.redisError source = decide (rv ≠ 0) := by
      simp only [Done.redisError, testmode, around, error, Bool.decide_and, Bool.and_assoc]
    have redisEq := checkRedis_eq redis bandwidth rv
    rw [← redisError, ← bits] at redisEq
    cases live : checkIdle (idleBits (d.redisError source) (d.noBandwidth source))
      (hgeti4 a.idle s.idle) with
    | mk idle idleNotices =>
      have idle_ := checkIdle_fst (idleBits (d.redisError source) (d.noBandwidth source))
        (hgeti4 a.idle s.idle)
      have silent (i : Nat) := checkIdle_about i
        (idleBits (d.redisError source) (d.noBandwidth source)) (hgeti4 a.idle s.idle)
      rw [live] at idle_ silent
      simp only [processBlock, got, redisEq, receiver, live, Prod.mk.injEq] at did
      obtain ⟨rfl, same⟩ := did
      have notices := congrArg Done.notices same
      refine ⟨rfl, ?_, ?_, ?_⟩
      · rw [← idleBits_ne_zero, ← congrArg Done.idle same]
        exact idle_
      · simp only [aboutBit, List.flatMap_cons, List.flatMap_nil, List.append_nil, ← notices,
          List.filter_append, filter_about, silent, fileNotices_about, ↓reduceIte,
          if_neg (show idleZeroIFV1BW ≠ idleRedisError by decide)]
      · simp only [aboutBit, List.flatMap_cons, List.flatMap_nil, List.append_nil, ← notices,
          List.filter_append, filter_about, silent, fileNotices_about, ↓reduceIte,
          if_neg (show idleRedisError ≠ idleZeroIFV1BW by decide), List.nil_append]

/-- The file changes with what decides on it, and in the DIBAS build without WEBCNTRL. -/
theorem changesFile_iff (testmode runAlways : Int) (obs : ObsStatus) :
    changesFile source s testmode runAlways obs block = true ↔
      testmode = 0 ∧ (source = .dibas ∧ obs.webcntrl = 0 ∨
        (⟨obs.receiver, runAlways, block.numCoarseChan⟩ : Config) ≠ s.config) := by
  have channels : s.numCoarseChan ≠ block.numCoarseChan ↔ block.numCoarseChan ≠ s.numCoarseChan :=
    ne_comm
  simp only [changesFile, config, ne_eq, Config.mk.injEq, Bool.and_eq_true, Bool.or_eq_true,
    decide_eq_true_eq] at channels ⊢
  tauto

theorem processBlock_config {t : OutputThread} {d : Done}
    (did : s.processBlock source a block = (t, d)) :
    (d.newFile = true ↔
      d.testmode = 0 ∧ (source = .dibas ∧ d.obs.webcntrl = 0 ∨ d.config ≠ s.config)) ∧
    t.config = if d.testmode = 0 then d.config else s.config := by
  have changes : d.newFile = true ↔
      d.testmode = 0 ∧ (source = .dibas ∧ d.obs.webcntrl = 0 ∨ d.config ≠ s.config) := by
    obtain ⟨rfl, rfl⟩ := Prod.mk.inj did
    exact changesFile_iff ..
  have taken : t.config = if d.newFile then d.config else s.config := by
    obtain ⟨receiver, runAlways, channels⟩ :
        t.priorReceiver = (if d.newFile then d.obs.receiver else s.priorReceiver) ∧
        t.priorRunAlways = (if d.newFile then d.runAlways else s.priorRunAlways) ∧
        t.numCoarseChan = if d.newFile then d.block.numCoarseChan else s.numCoarseChan := by
      obtain ⟨rfl, rfl⟩ := Prod.mk.inj did
      exact ⟨rfl, rfl, rfl⟩
    rw [config, receiver, runAlways, channels]
    split <;> rfl
  refine ⟨changes, ?_⟩
  rw [taken]
  by_cases new : d.newFile = true
  · rw [if_pos new, if_pos (changes.mp new).1]
  · by_cases live : d.testmode = 0
    · have same : d.config = s.config := by
        by_contra other
        exact new (changes.mpr ⟨live, .inr other⟩)
      rw [if_neg new, if_pos live, same]
    · rw [if_neg new, if_neg live]

end Block

/-! ## A run -/

section Run

variable {source : Source}

/-- What holds of the blocks done so far and is kept by the next holds in a run. -/
theorem run_history {I : List Done → OutputThread → Prop} {E : List Done → Done → Prop}
    (keeps : ∀ {dones s a block t d}, I dones s → s.processBlock source a block = (t, d) →
      I (dones ++ [d]) t ∧ E dones d)
    {dones : List Done} {s : OutputThread} (inv : I dones s) (l : List (Around × Tuple)) :
    I (dones ++ (s.run source l).2) (s.run source l).1 ∧
    ∀ earlier d later, (s.run source l).2 = earlier ++ d :: later → E (dones ++ earlier) d := by
  induction l generalizing dones s with
  | nil =>
    refine ⟨by rwa [run, List.append_nil], ?_⟩
    intro earlier d later split
    simp [run] at split
  | cons p rest ih =>
    obtain ⟨a, block⟩ := p
    cases did : s.processBlock source a block with
    | mk t d =>
      obtain ⟨inv', each⟩ := keeps inv did
      obtain ⟨after, eachAfter⟩ := ih inv'
      rw [List.append_assoc, List.singleton_append] at after
      by_cases exits : d.exits = true
      · simp only [run, did, if_pos exits]
        refine ⟨inv', ?_⟩
        rintro earlier d' later split
        obtain ⟨rfl, rfl⟩ : earlier = [] ∧ d' = d := by
          cases earlier with
          | nil => exact ⟨rfl, (List.cons.inj split).1.symm⟩
          | cons e earlier => simp at split
        rwa [List.append_nil]
      · simp only [run, did, if_neg exits]
        refine ⟨after, ?_⟩
        rintro (_ | ⟨e, earlier⟩) d' later split
        · obtain ⟨rfl, _⟩ := List.cons.inj split
          rwa [List.append_nil]
        · obtain ⟨rfl, tail⟩ := List.cons.inj split
          have each' := eachAfter earlier d' later tail
          rwa [List.append_assoc, List.singleton_append] at each'

/-! ## The idle conditions -/

theorem aboutBit_append (i : Nat) (dones : List Done) (d : Done) :
    aboutBit i (dones ++ [d]) = aboutBit i dones ++ aboutBit i [d] := by
  simp only [aboutBit, List.flatMap_append, List.filter_append]

/-- A bit is what its condition was at the last block, and its reports are a latch's. -/
structure IdleKept (source : Source) (dones : List Done) (s : OutputThread) : Prop where
  bits : s.idleFlag = idleBits ((dones.map (Done.redisError source)).getLastD false)
    ((dones.map (Done.noBandwidth source)).getLastD false)
  redis : aboutBit idleRedisError dones = Latch.reports (.added idleRedisError)
    (.removed idleRedisError) false (dones.map (Done.redisError source))
  bandwidth : aboutBit idleZeroIFV1BW dones = Latch.reports (.added idleZeroIFV1BW)
    (.removed idleZeroIFV1BW) false (dones.map (Done.noBandwidth source))

theorem IdleKept.next {dones : List Done} {s t : OutputThread} {a : Around} {block : Tuple}
    {d : Done} (kept : IdleKept source dones s) (did : s.processBlock source a block = (t, d)) :
    IdleKept source (dones ++ [d]) t ∧
      (d.idle ≠ 0 ↔ d.redisError source = true ∨ d.noBandwidth source = true) := by
  have off (other : source ≠ .dibas) :
      (dones.map (Done.noBandwidth source)).getLastD false = false := by
    cases dones using List.reverseRecOn with
    | nil => rfl
    | append_singleton dones d => simp [Done.noBandwidth, other]
  obtain ⟨bits, idle, redis, bandwidth⟩ := processBlock_bits kept.bits off did
  refine ⟨⟨?_, ?_, ?_⟩, idle⟩
  · simpa only [List.map_append, List.map_cons, List.map_nil, List.getLastD_concat] using bits
  · rw [aboutBit_append, kept.redis, redis, List.map_append, List.map_singleton,
      Latch.reports_concat]
  · rw [aboutBit_append, kept.bandwidth, bandwidth, List.map_append, List.map_singleton,
      Latch.reports_concat]

/-- In every run IDLE is on after a block just when that block itself is a reason: the
status could not be had, or the DIBAS receiver has no bandwidth, as it never has in test
mode. Of either reason it is logged in turn that it came and that it went. -/
theorem idle_live (source : Source) (runAlways : Int) (obs : ObsStatus) (fileNum : Int)
    (testDat : Option (List Nat)) (l : List (Around × Tuple)) (dones : List Done)
    (ran : ((start source runAlways obs fileNum testDat).run source l).2 = dones) :
    (∀ d ∈ dones, d.idle ≠ 0 ↔ d.redisError source = true ∨ d.noBandwidth source = true) ∧
    aboutBit idleRedisError dones = Latch.inTurn (.added idleRedisError)
      (.removed idleRedisError) false (Latch.moves false (dones.map (Done.redisError source))) ∧
    aboutBit idleZeroIFV1BW dones = Latch.inTurn (.added idleZeroIFV1BW)
      (.removed idleZeroIFV1BW) false
      (Latch.moves false (dones.map (Done.noBandwidth source))) := by
  have begun : IdleKept source [] (start source runAlways obs fileNum testDat) :=
    ⟨show (0 : BitVec 32) = idleBits false false by decide, rfl, rfl⟩
  obtain ⟨kept, each⟩ := run_history IdleKept.next begun l
  rw [List.nil_append, ran] at kept
  refine ⟨?_, ?_, ?_⟩
  · intro d hd
    obtain ⟨earlier, later, split⟩ := List.append_of_mem hd
    exact each earlier d later (ran.trans split)
  · rw [kept.redis, Latch.reports_inTurn]
  · rw [kept.bandwidth, Latch.reports_inTurn]

theorem idle_live_three : ∃ dones,
    ((start .dibas 1 (testStatus .dibas) 0 none).run .dibas [
      (⟨none, none, none, testStatus .dibas, 0, 0, "", 0⟩, ⟨0, 0, 0, 1, 0, 0, [], []⟩),
      (⟨none, none, some 0, ⟨.name "Rcvr8_10", "800", 1, 0⟩, 0, 0, "", 0⟩,
        ⟨0, 0, 0, 1, 0, 0, [], []⟩),
      (⟨none, none, some 0, ⟨.name "Rcvr8_10", "800", 1, 0⟩, -1, 0, "", 0⟩,
        ⟨0, 0, 0, 1, 0, 0, [], []⟩)]).2 = dones ∧
    dones.map Done.idle = [1, 0, 1] ∧
    aboutBit idleZeroIFV1BW dones = [.added idleZeroIFV1BW, .removed idleZeroIFV1BW] := by
  obtain ⟨_, _, bandwidth⟩ := idle_live .dibas 1 (testStatus .dibas) 0 none _ _ rfl
  refine ⟨_, rfl, by decide +kernel, bandwidth.trans (by decide +kernel)⟩

/-! ## The files -/

theorem lastConfig_live {dones : List Done} {d : Done} (live : d.testmode = 0) :
    lastConfig source (dones ++ [d]) = d.config := by
  simp [lastConfig, List.filter_append, live]

theorem lastConfig_test {dones : List Done} {d : Done} (test : d.testmode ≠ 0) :
    lastConfig source (dones ++ [d]) = lastConfig source dones := by
  simp [lastConfig, List.filter_append, test]

/-- The thread remembers what decided on the file at the last block outside test mode. -/
theorem config_kept {dones : List Done} {s t : OutputThread} {a : Around} {block : Tuple}
    {d : Done} (kept : s.config = lastConfig source dones)
    (did : s.processBlock source a block = (t, d)) :
    t.config = lastConfig source (dones ++ [d]) ∧
      (d.newFile = true ↔ d.testmode = 0 ∧
        (source = .dibas ∧ d.obs.webcntrl = 0 ∨ d.config ≠ lastConfig source dones)) := by
  obtain ⟨changes, taken⟩ := processBlock_config did
  rw [kept] at changes taken
  refine ⟨?_, changes⟩
  rw [taken]
  by_cases live : d.testmode = 0
  · rw [if_pos live, lastConfig_live live]
  · rw [if_neg live, lastConfig_test live]

/-- Blocks that start no file have the same to decide on it as the last one before. -/
theorem lastConfig_between {dones : List Done}
    (each : ∀ earlier d later, dones = earlier ++ d :: later → (d.newFile = true ↔
      d.testmode = 0 ∧
        (source = .dibas ∧ d.obs.webcntrl = 0 ∨ d.config ≠ lastConfig source earlier)))
    (before between after : List Done) (split : dones = before ++ between ++ after)
    (none : ∀ d ∈ between, d.newFile = false) :
    lastConfig source (before ++ between) = lastConfig source before := by
  induction between using List.reverseRecOn generalizing after with
  | nil => rw [List.append_nil]
  | append_singleton between d ih =>
    have earlier := ih (d :: after) (by simp [split])
      fun e he => none e (List.mem_append_left _ he)
    have here := each (before ++ between) d after (by simp [split])
    rw [← List.append_assoc, ← earlier]
    by_cases live : d.testmode = 0
    · have same : d.config = lastConfig source (before ++ between) := by
        by_contra other
        have new := here.mpr ⟨live, .inr other⟩
        rw [none d (by simp)] at new
        exact absurd new (by decide)
      rw [← same, lastConfig_live live]
    · rw [lastConfig_test live]

/-- In every run outside test mode a block starts a new file just when its receiver, RUNALWYS
or its number of channels is not what it was at the last such block, or when the DIBAS
build has no WEBCNTRL; so these are one and the same for what goes into one file. -/
theorem files_uniform (source : Source) (runAlways : Int) (obs : ObsStatus) (fileNum : Int)
    (testDat : Option (List Nat)) (l : List (Around × Tuple)) (earlier later : List Done) (d : Done)
    (ran : ((start source runAlways obs fileNum testDat).run source l).2 = earlier ++ d :: later) :
    (d.newFile = true ↔ d.testmode = 0 ∧
      (source = .dibas ∧ d.obs.webcntrl = 0 ∨ d.config ≠ lastConfig source earlier)) ∧
    ∀ before first between, earlier = before ++ first :: between →
      first.testmode = 0 → d.testmode = 0 → (∀ e ∈ between ++ [d], e.newFile = false) →
      d.config = first.config := by
  have begun : (start source runAlways obs fileNum testDat).config = lastConfig source [] := rfl
  obtain ⟨_, each⟩ := run_history (I := fun dones s => s.config = lastConfig source dones)
    config_kept begun l
  rw [ran] at each
  refine ⟨each earlier d later rfl, ?_⟩
  rintro before first between rfl live live' none
  have same := lastConfig_between each (before ++ [first]) (between ++ [d]) later (by simp) none
  rwa [← List.append_assoc, lastConfig_live live', lastConfig_live live] at same

theorem files_uniform_two : ∃ first second,
    ((start .fast 1 (testStatus .fast) 0 none).run .fast [
      (⟨none, none, some 0, testStatus .fast, 0, 0, "", 0⟩, ⟨0, 0, 0, 1, 0, 0, [], []⟩),
      (⟨none, none, some 0, testStatus .fast, 0, 0, "", 0⟩, ⟨8, 3, 0, 1, 0, 0, [], []⟩)]).2 =
        [first, second] ∧
    first.newFile = true ∧ second.newFile = false ∧ second.config = first.config := by
  obtain ⟨_, same⟩ := files_uniform .fast 1 (testStatus .fast) 0 none [
    (⟨none, none, some 0, testStatus .fast, 0, 0, "", 0⟩, ⟨0, 0, 0, 1, 0, 0, [], []⟩),
    (⟨none, none, some 0, testStatus .fast, 0, 0, "", 0⟩, ⟨8, 3, 0, 1, 0, 0, [], []⟩)]
    [_] [] _ rfl
  exact ⟨_, _, rfl, by decide +kernel, by decide +kernel,
    same [] _ [] rfl (by decide) (by decide) (by decide +kernel)⟩

/-! ## The file names -/

/-- The file name that is logged. -/
def Notice.fileName : Notice → Option String
  | .newFile name => some name
  | _ => none

/-- etf.filename_working after each block but one that could not be written. -/
def workingNames (dones : List Done) : List String :=
  (dones.filter fun d => !(d.written && d.around.writeRv ≠ 0)).map (·.around.filename)

theorem checkBit_fileName (flag : BitVec 32) (bitIndex : Nat) (cond : Bool) :
    (checkBit flag bitIndex cond).2.filterMap Notice.fileName = [] := by
  unfold checkBit
  split <;> split <;> rfl

theorem checkReceiver_fileName (flag : BitVec 32) (obs : ObsStatus) :
    (checkReceiver source flag obs).2.filterMap Notice.fileName = [] := by
  cases source with
  | dibas => exact checkBit_fileName ..
  | s6 | fast => rfl

theorem checkIdle_fileName (flag : BitVec 32) (idle : Int) :
    (checkIdle flag idle).2.filterMap Notice.fileName = [] := by
  unfold checkIdle
  split <;> split <;> rfl

theorem fileNotices_fileName (s : OutputThread) (obs : ObsStatus) (newFile failed : Bool)
    (announced : Option String) (unannounced : Bool) :
    (fileNotices s obs newFile failed announced unannounced).filterMap Notice.fileName =
      announced.toList := by
  cases newFile <;> cases failed <;> cases announced <;> cases unannounced <;> rfl

theorem notices_fileName (s : OutputThread) (flag flag' live : BitVec 32) (rv idle : Int)
    (obs obs' : ObsStatus) (newFile failed : Bool) (announced : Option String)
    (unannounced : Bool) :
    ((checkRedis flag rv).2 ++ (checkReceiver source flag' obs).2 ++ (checkIdle live idle).2 ++
      fileNotices s obs' newFile failed announced unannounced).filterMap Notice.fileName =
      announced.toList := by
  simp only [List.filterMap_append, checkRedis, checkBit_fileName, checkReceiver_fileName,
    checkIdle_fileName, fileNotices_fileName, List.nil_append]

/-- What a block says of its file name, and whether the thread goes on. -/
theorem processBlock_announced {s t : OutputThread} {a : Around} {block : Tuple} {d : Done}
    (did : s.processBlock source a block = (t, d)) :
    d.announced = (if d.written && d.around.writeRv ≠ 0 then none
      else if source = .dibas ∧ d.around.filename ≠ s.currentFilename then
        some d.around.filename else none) ∧
    t.currentFilename = d.announced.getD s.currentFilename ∧
    d.exits = ((d.written && d.around.writeRv ≠ 0) ||
      (d.announced.isSome && d.around.putRv ≠ 0)) ∧
    d.notices.filterMap Notice.fileName = d.announced.toList := by
  obtain ⟨rfl, rfl⟩ := Prod.mk.inj did
  refine ⟨rfl, rfl, rfl, ?_⟩
  exact notices_fileName ..

theorem workingNames_cons (d : Done) (dones : List Done) : workingNames (d :: dones) =
    if d.written && d.around.writeRv ≠ 0 then workingNames dones
    else d.around.filename :: workingNames dones := by
  rw [workingNames, List.filter_cons]
  cases d.written && decide (d.around.writeRv ≠ 0) <;> rfl

theorem tail_destutter'_cons (c name : String) (names : List String) :
    ((name :: names).destutter' (· ≠ ·) c).tail =
      if c ≠ name then name :: (names.destutter' (· ≠ ·) name).tail
      else (names.destutter' (· ≠ ·) c).tail := by
  have head (a : String) (l : List String) :
      l.destutter' (· ≠ ·) a = a :: (l.destutter' (· ≠ ·) a).tail := by
    induction l generalizing a with
    | nil => rfl
    | cons b l ih =>
      rw [List.destutter'_cons]
      split
      · rfl
      · exact ih a
  rw [List.destutter'_cons]
  split
  · exact head name names
  · rfl

/-- The names announced in a run are those that differ from the one before. -/
theorem run_announced {s : OutputThread} (l : List (Around × Tuple)) :
    (s.run source l).2.filterMap Done.announced = if source = .dibas then
      ((workingNames (s.run source l).2).destutter' (· ≠ ·) s.currentFilename).tail else [] := by
  induction l generalizing s with
  | nil => simp [run, workingNames]
  | cons p rest ih =>
    obtain ⟨a, block⟩ := p
    cases did : s.processBlock source a block with
    | mk t d =>
      obtain ⟨announced, current, _, _⟩ := processBlock_announced did
      -- after an exit there are no more blocks
      obtain ⟨dones, split, after⟩ : ∃ dones, (s.run source ((a, block) :: rest)).2 = d :: dones ∧
          dones.filterMap Done.announced = if source = .dibas then
            ((workingNames dones).destutter' (· ≠ ·) t.currentFilename).tail else [] := by
        by_cases stops : d.exits = true
        · exact ⟨[], by simp only [run, did, if_pos stops], by simp [workingNames]⟩
        · exact ⟨_, by simp only [run, did, if_neg stops], ih⟩
      rw [split, workingNames_cons]
      by_cases failed : (d.written && d.around.writeRv ≠ 0) = true
      · rw [if_pos failed] at announced
        rw [announced, Option.getD_none] at current
        rw [List.filterMap_cons_none announced, after, current, if_pos failed]
      · rw [if_neg failed] at announced
        rw [if_neg failed, tail_destutter'_cons]
        by_cases new : source = .dibas ∧ d.around.filename ≠ s.currentFilename
        · rw [if_pos new] at announced
          rw [announced, Option.getD_some] at current
          rw [List.filterMap_cons_some announced, after, current, if_pos new.1, if_pos new.1,
            if_pos new.2.symm]
        · rw [if_neg new] at announced
          rw [announced, Option.getD_none] at current
          rw [List.filterMap_cons_none announced, after, current]
          split
          · rename_i dibas
            rw [if_neg fun other => new ⟨dibas, Ne.symm other⟩]
          · rfl

/-- Only the last block of a run can make the thread exit. -/
theorem run_goes_on {s : OutputThread} (l : List (Around × Tuple)) (earlier later : List Done)
    (d : Done) (split : (s.run source l).2 = earlier ++ d :: later) (more : later ≠ []) :
    d.exits = false := by
  induction l generalizing s earlier with
  | nil => simp [run] at split
  | cons p rest ih =>
    obtain ⟨a, block⟩ := p
    cases did : s.processBlock source a block with
    | mk t first =>
      by_cases stops : first.exits = true
      · simp only [run, did, if_pos stops] at split
        cases earlier with
        | nil => exact absurd (List.cons.inj split).2.symm more
        | cons e earlier => simp at split
      · simp only [run, did, if_neg stops] at split
        cases earlier with
        | nil =>
          rw [← (List.cons.inj split).1]
          exact Bool.eq_false_of_not_eq_true stops
        | cons e earlier => exact ih earlier (List.cons.inj split).2

/-- In every run of the DIBAS thread each file name is logged and put to redis once when it
first shows up, and again only after another; the other builds never do. A thread exits at
the first block that it cannot write or whose new name it cannot put. -/
theorem files_announced (source : Source) (runAlways : Int) (obs : ObsStatus) (fileNum : Int)
    (testDat : Option (List Nat)) (l : List (Around × Tuple)) (dones : List Done)
    (ran : ((start source runAlways obs fileNum testDat).run source l).2 = dones) :
    dones.filterMap Done.announced = (if source = .dibas then
      ((workingNames dones).destutter' (· ≠ ·) "").tail else []) ∧
    (dones.flatMap Done.notices).filterMap Notice.fileName = dones.filterMap Done.announced ∧
    ∀ earlier d later, dones = earlier ++ d :: later →
      (d.exits = true ↔ d.written = true ∧ d.around.writeRv ≠ 0 ∨
        d.announced ≠ none ∧ d.around.putRv ≠ 0) ∧
      (later ≠ [] → d.exits = false) := by
  obtain ⟨_, each⟩ := @run_history source (fun _ _ => True)
    (fun _ d => d.notices.filterMap Notice.fileName = d.announced.toList ∧
      d.exits = ((d.written && d.around.writeRv ≠ 0) ||
        (d.announced.isSome && d.around.putRv ≠ 0)))
    (fun _ did => ⟨trivial, (processBlock_announced did).2.2.symm⟩) []
    (start source runAlways obs fileNum testDat) trivial l
  rw [ran] at each
  refine ⟨?_, ?_, ?_⟩
  · have announced := @run_announced source (start source runAlways obs fileNum testDat) l
    rwa [ran] at announced
  · have logged : ∀ d ∈ dones, d.notices.filterMap Notice.fileName = d.announced.toList := by
      intro d hd
      obtain ⟨earlier, later, split⟩ := List.append_of_mem hd
      exact (each earlier d later split).1
    rw [List.filterMap_flatMap, List.filterMap_eq_flatMap_toList]
    exact List.flatMap_congr logged
  · intro earlier d later split
    refine ⟨?_, run_goes_on l earlier later d (ran.trans split)⟩
    rw [(each earlier d later split).2]
    simp [Option.isSome_iff_ne_none]

theorem files_announced_three : ∃ dones,
    ((start .dibas 1 (testStatus .dibas) 0 none).run .dibas [
      (⟨none, none, none, testStatus .dibas, 0, 0, "a.fits", 0⟩, ⟨0, 0, 0, 1, 0, 0, [], []⟩),
      (⟨none, none, none, testStatus .dibas, 0, 0, "a.fits", 0⟩, ⟨8, 0, 0, 1, 0, 0, [], []⟩),
      (⟨none, none, none, testStatus .dibas, 0, 0, "b.fits", -1⟩,
        ⟨16, 0, 0, 1, 0, 0, [], []⟩)]).2 = dones ∧
    dones.filterMap Done.announced = ["a.fits", "b.fits"] ∧
    dones.map Done.exits = [false, false, true] := by
  obtain ⟨announced, _, _⟩ := files_announced .dibas 1 (testStatus .dibas) 0 none _ _ rfl
  exact ⟨_, rfl, announced.trans (by decide +kernel), by decide +kernel⟩

/-! ## What is written -/

end Run

end OutputThread

end S6Reobs
