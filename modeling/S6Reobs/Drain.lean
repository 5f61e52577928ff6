import S6Reobs.System

/-! With no more packets the system comes to rest, and then everything the receive thread
has filled is recorded. No thread ever waits for good for another. -/

namespace S6Reobs

open Relation Word Window

/-! ## What the consumers still have to do -/

/-- The steps of s6_gpu_thread for a whole block. -/
def gpuSteps (m : Macros) : Nat := 5 + (gpuCells m).length

/-- Those left of its current pass through the loop. -/
def GpuPc.left (m : Macros) : GpuPc → Nat
  | .waitFilled => gpuSteps m
  | .checkMcnt => 4 + (gpuCells m).length
  | .waitFree => 3 + (gpuCells m).length
  | .copying rest => 2 + rest.length
  | .setFree => 1

/-- The steps of s6_output_thread for a whole block. -/
def outputSteps (m : Macros) : Nat := 3 + 2 * (outputCells m).length

def OutputPc.left (m : Macros) : OutputPc → Nat
  | .waitFilled => outputSteps m
  | .processing rest _ => 2 + (outputCells m).length + rest.length
  | .clearing rest => 1 + rest.length

/-- What is left of `filled` blocks, when `done` are done and this much is left of a pass. -/
def work (steps filled done left : Nat) : Nat := steps * (filled - done) + left

theorem work_lt {steps filled done left left' : Nat} (less : left' < left) :
    work steps filled done left' < work steps filled done left :=
  Nat.add_lt_add_left less _

/-- The last step of a pass. -/
theorem work_pass {steps filled done : Nat} (more : done < filled) :
    work steps filled (done + 1) steps < work steps filled done 1 := by
  obtain ⟨n, eq⟩ : ∃ n, filled - done = n + 1 :=
    Nat.exists_eq_succ_of_ne_zero (Nat.sub_ne_zero_of_lt more)
  have rest : filled - (done + 1) = n := by omega
  rw [work, work, eq, rest, Nat.mul_succ]
  exact Nat.lt_succ_self _

namespace Pipeline

/-- The consumers have `n` steps to go until they have passed on `filled` blocks. -/
def Owes (m : Macros) (nIn nOut filled : Nat) (s : Pipeline) (n : Nat) : Prop :=
  ∃ copied claimed freed opened read cleared,
    Agrees m nIn nOut s copied claimed freed opened read cleared ∧
    s.published.length ≤ filled ∧
    n = work (gpuSteps m) filled freed (s.gpu.left m) +
      work (outputSteps m) filled cleared (s.output.left m)

section Steps

variable {m : Macros} {nIn nOut filled : Nat} {s t : Pipeline} {n : Nat}

/-- The producer's steps leave it to the consumers. -/
theorem Owes.produces (twoIn : 2 ≤ nIn) (owes : Owes m nIn nOut filled s n)
    (step : Produces m nIn nOut s t) (fits : t.published.length ≤ filled) :
    Owes m nIn nOut filled t n := by
  obtain ⟨copied, claimed, freed, opened, read, cleared, inv, _, eq⟩ := owes
  obtain ⟨step, gpu, output⟩ := step
  cases step with
  | acquire few free => exact ⟨_, _, _, _, _, _, inv.acquire twoIn few free, fits, eq⟩
  | fill b held c v => exact ⟨_, _, _, _, _, _, inv.fill held c v, fits, eq⟩
  | publish b rest oldest => exact ⟨_, _, _, _, _, _, inv.publish oldest, fits, eq⟩
  | gpuWaitFilled pc | gpuWaitFree pc | gpuCopy c rest pc | gpuSetFilled pc | gpuSetFree pc =>
    simp [pc] at gpu
  | gpuCheckMcnt pc =>
    rw [pc] at gpu
    dsimp only at gpu
    split at gpu <;> cases gpu
  | outputWaitFilled pc | outputRead c rest got pc | outputSee got pc | outputClear c rest pc
  | outputSetFree pc => simp [pc] at output

theorem Step.published_le (step : Step m nIn nOut s t) :
    s.published.length ≤ t.published.length := by
  cases step with
  | publish b rest oldest => simp
  | _ => exact Nat.le_refl _

theorem Owes.produced (twoIn : 2 ≤ nIn) (owes : Owes m nIn nOut filled s n)
    (run : ReflTransGen (Produces m nIn nOut) s t) (fits : t.published.length ≤ filled) :
    Owes m nIn nOut filled t n := by
  induction run with
  | refl => exact owes
  | tail _ step ih =>
    have before := ih (Nat.le_trans step.1.published_le fits)
    exact before.produces twoIn step fits

/-- Each step of the consumers is one step less to go. -/
theorem Owes.consumes (fast : m.source = .fast) (twoIn : 2 ≤ nIn) (posOut : 0 < nOut)
    (owes : Owes m nIn nOut filled s n) (moves : Consumes m nIn nOut s t) :
    ∃ k < n, Owes m nIn nOut filled t k := by
  obtain ⟨copied, claimed, freed, opened, read, cleared, inv, fits, rfl⟩ := owes
  obtain ⟨step, moved⟩ := moves
  cases step with
  | acquire | fill | publish => exact absurd ⟨rfl, rfl⟩ moved
  | gpuWaitFilled pc full =>
    refine ⟨_, ?_, _, _, _, _, _, _, inv.gpuWaitFilled twoIn pc full, fits, rfl⟩
    refine Nat.add_lt_add_right (work_lt ?_) _
    simp only [pc, GpuPc.left, gpuSteps]
    omega
  | gpuCheckMcnt pc =>
    refine ⟨_, ?_, _, _, _, _, _, _, inv.gpuCheckMcnt pc, fits, rfl⟩
    refine Nat.add_lt_add_right (work_lt ?_) _
    have ready : s.dbIn.block s.curblockIn (.header .mcnt) ≥ lastMcount := Nat.zero_le _
    simp only [pc, if_pos ready, GpuPc.left]
    omega
  | gpuWaitFree pc free =>
    refine ⟨_, ?_, _, _, _, _, _, _, inv.gpuWaitFree posOut pc free, fits, rfl⟩
    refine Nat.add_lt_add_right (work_lt ?_) _
    simp only [pc, GpuPc.left]
    omega
  | gpuCopy c rest pc =>
    refine ⟨_, ?_, _, _, _, _, _, _, inv.gpuCopy pc, fits, rfl⟩
    refine Nat.add_lt_add_right (work_lt ?_) _
    simp only [pc, GpuPc.left, List.length_cons]
    omega
  | gpuSetFilled pc =>
    refine ⟨_, ?_, _, _, _, _, _, _, inv.gpuSetFilled fast pc, fits, rfl⟩
    refine Nat.add_lt_add_right (work_lt ?_) _
    simp only [pc, GpuPc.left, List.length_nil]
    omega
  | gpuSetFree pc =>
    have at_ := inv.gpuAt
    simp only [GpuAt, pc] at at_
    have short := inv.passed.length_le
    refine ⟨_, ?_, _, _, _, _, _, _, inv.gpuSetFree pc, fits, rfl⟩
    refine Nat.add_lt_add_right ?_ _
    simp only [pc, GpuPc.left]
    exact work_pass (by omega)
  | outputWaitFilled pc full =>
    refine ⟨_, ?_, _, _, _, _, _, _, inv.outputWaitFilled posOut pc full, fits, rfl⟩
    refine Nat.add_lt_add_left (work_lt ?_) _
    simp only [pc, OutputPc.left, outputSteps]
    omega
  | outputRead c rest got pc =>
    refine ⟨_, ?_, _, _, _, _, _, _, inv.outputRead pc, fits, rfl⟩
    refine Nat.add_lt_add_left (work_lt ?_) _
    simp only [pc, OutputPc.left, List.length_cons]
    omega
  | outputSee got pc =>
    refine ⟨_, ?_, _, _, _, _, _, _, inv.outputSee pc, fits, rfl⟩
    refine Nat.add_lt_add_left (work_lt ?_) _
    simp only [pc, OutputPc.left, List.length_nil]
    omega
  | outputClear c rest pc =>
    refine ⟨_, ?_, _, _, _, _, _, _, inv.outputClear pc, fits, rfl⟩
    refine Nat.add_lt_add_left (work_lt ?_) _
    simp only [pc, OutputPc.left, List.length_cons]
    omega
  | outputSetFree pc =>
    have at_ := inv.outputAt
    simp only [OutputAt, pc] at at_
    have short := inv.passed.length_le
    have read_le := inv.output.read_le
    refine ⟨_, ?_, _, _, _, _, _, _, inv.outputSetFree pc, fits, rfl⟩
    refine Nat.add_lt_add_left ?_ _
    simp only [pc, OutputPc.left]
    exact work_pass (by omega)

/-! ## When the consumers are at rest -/

variable {copied : List Tuple} {claimed freed opened read cleared : Nat}
  (inv : Agrees m nIn nOut s copied claimed freed opened read cleared)
  (rest : ∀ t, ¬ Consumes m nIn nOut s t)
include inv rest

/-- s6_output_thread has passed on every block that s6_gpu_thread has filled. -/
theorem Agrees.output_rest : s.output = .waitFilled ∧ cleared = copied.length := by
  have moves {t : Pipeline} (step : Step m nIn nOut s t) : t.output = s.output := by
    by_contra moved
    exact rest t ⟨step, fun same => moved same.2⟩
  have waits : s.output = .waitFilled := by
    cases pc : s.output with
    | waitFilled => rfl
    | processing left got =>
      cases left with
      | nil => simpa [pc] using moves (.outputSee s got pc)
      | cons c left => simpa [pc] using moves (.outputRead s c left got pc)
    | clearing left =>
      cases left with
      | nil => simpa [pc] using moves (.outputSetFree s pc)
      | cons c left => simpa [pc] using moves (.outputClear s c left pc)
  refine ⟨waits, ?_⟩
  have at_ := inv.outputAt
  simp only [OutputAt, waits] at at_
  have read_le := inv.output.read_le
  by_contra more
  have full := inv.output.isFull cleared (Nat.le_refl _) (by omega)
  rw [← inv.blockIdx] at full
  simpa [waits] using moves (.outputWaitFilled s waits full)

/-- s6_gpu_thread has passed on every block that was published. -/
theorem Agrees.gpu_rest (posOut : 0 < nOut) :
    freed = s.published.length ∧ copied.length = s.published.length := by
  have moves {t : Pipeline} (step : Step m nIn nOut s t) : t.gpu = s.gpu := by
    by_contra moved
    exact rest t ⟨step, fun same => moved same.1⟩
  have short := inv.passed.length_le
  have at_ := inv.gpuAt
  unfold GpuAt at at_
  cases pc : s.gpu with
  | waitFilled =>
    simp only [pc] at at_
    have all : freed = s.published.length := by
      by_contra more
      have full := inv.input.isFull freed (Nat.le_refl _) (by omega)
      rw [← inv.curblockIn] at full
      simpa [pc] using moves (.gpuWaitFilled s pc full)
    exact ⟨all, by omega⟩
  | checkMcnt =>
    have ready : s.dbIn.block s.curblockIn (.header .mcnt) ≥ lastMcount := Nat.zero_le _
    simpa [pc, ready] using moves (.gpuCheckMcnt s pc)
  | waitFree =>
    -- s6_output_thread has left no output block filled
    simp only [pc] at at_
    have cleared_ := (inv.output_rest rest).2
    have free := inv.output.isFree copied.length (Nat.le_refl _) (by omega)
    rw [← inv.curblockOut] at free
    simpa [pc] using moves (.gpuWaitFree s pc free)
  | copying left =>
    cases left with
    | nil => simpa [pc] using moves (.gpuSetFilled s pc)
    | cons c left => simpa [pc] using moves (.gpuCopy s c left pc)
  | setFree => simpa [pc] using moves (.gpuSetFree s pc)

/-- Then all is recorded and every input block is free. -/
theorem Agrees.at_rest (posOut : 0 < nOut) :
    s.seen = s.published ∧ ∀ b < nIn, s.dbIn.flag b = .free := by
  obtain ⟨waits, cleared_⟩ := inv.output_rest rest
  obtain ⟨freed_, all⟩ := inv.gpu_rest rest posOut
  have at_ := inv.outputAt
  simp only [OutputAt, waits] at at_
  constructor
  · have whole : copied = s.published := inv.passed.eq_of_length all
    rw [inv.seen, ← whole]
    exact List.take_of_length_le (by omega)
  · intro b hb
    -- one of the next `nIn` blocks has this place
    obtain ⟨i, lo, hi, rfl⟩ : ∃ i, s.published.length ≤ i ∧ i < s.published.length + nIn ∧
        i % nIn = b := by
      have lead := Period.lead_lt (Nat.mod_lt s.published.length (by omega : 0 < nIn)) hb
      refine ⟨s.published.length + Period.lead nIn (s.published.length % nIn) b,
        Nat.le_add_right _ _, Nat.add_lt_add_left lead _, ?_⟩
      exact Period.add_lead_place hb _
    exact inv.input.isFree i lo (by omega)

end Steps

end Pipeline

/-! ## The whole system -/

namespace System

/-- A step that is not the arrival of a packet. -/
def Quiet (m : Macros) (nOut : Nat) (s t : System) : Prop :=
  Step m nOut s t ∧ t.heard = s.heard

/-- How many blocks the frames heard so far fill. -/
def due (m : Macros) (mem : Mem) (s : System) : Nat :=
  (filledTuples m (alone m mem s.heard).ring.trace).length

/-- The system, with frames that fit their slots, has at most `n` quiet steps to go. -/
def Rank (m : Macros) (nOut : Nat) (mem : Mem) (s : System) (n : Nat) : Prop :=
  Follows m mem s ∧ (∀ a ∈ s.heard, Fits m a.frame) ∧ ∃ k, n = s.producer.pending.length + k ∧
    Pipeline.Owes m m.nInputBlocks nOut (s.due m mem) (s.view m) k

variable {g : Geometry} {nOut : Nat} {mem : Mem} {s t : System}

theorem Follows.published_le (h : Follows g.toMacros mem s) :
    (s.view g.toMacros).published.length ≤ s.due g.toMacros mem :=
  h.published.length_le

theorem Reachable.rank (fast : g.source = .fast) (posOut : 0 < nOut)
    (reach : Reachable g.toMacros nOut mem s)
    (fits : ∀ a ∈ s.heard, Fits g.toMacros a.frame) : ∃ n, Rank g.toMacros nOut mem s n := by
  obtain ⟨copied, claimed, freed, opened, read, cleared, inv⟩ :=
    (reach.view fits).consistent fast g.two_le_blocks posOut
  exact ⟨_, reach.follows, fits, _, rfl, copied, claimed, freed, opened, read, cleared, inv,
    reach.follows.published_le, rfl⟩

theorem Quiet.rank (fast : g.source = .fast) (posOut : 0 < nOut) ⦃s t : System⦄ ⦃n : Nat⦄
    (rank : Rank g.toMacros nOut mem s n) (quiet : Quiet g.toMacros nOut s t) :
    ∃ k < n, Rank g.toMacros nOut mem t k := by
  obtain ⟨follows, fits, k, rfl, owes⟩ := rank
  obtain ⟨step, heard⟩ := quiet
  have follows' := follows.step step
  rw [← heard] at fits
  have due_ : t.due g.toMacros mem = s.due g.toMacros mem := by rw [due, due, heard]
  cases step with
  | call idle a => simp at heard
  | exec e es next ready =>
    obtain ⟨allowed, turn, ordered⟩ := follows.next fits next
    have few := follows'.published_le
    rw [due_] at few
    have produced := @view_exec _ nOut s e es g.nInputBlocks_pos allowed turn ordered ready
    refine ⟨es.length + k, ?_, follows', fits, k, rfl, ?_⟩
    · rw [next, List.length_cons]
      omega
    · rw [due_]
      exact owes.produced g.two_le_blocks produced few
  | consume q moves =>
    obtain ⟨k', less, owes'⟩ := owes.consumes fast g.two_le_blocks posOut moves
    refine ⟨s.producer.pending.length + k', Nat.add_lt_add_left less _, follows', fits, k', rfl, ?_⟩
    rw [due_, view_adopt moves]
    exact owes'

/-- At rest the thread has no effects left, and what it filled is recorded. -/
theorem Reachable.at_rest (fast : g.source = .fast) (posOut : 0 < nOut)
    (reach : Reachable g.toMacros nOut mem s)
    (fits : ∀ a ∈ s.heard, Fits g.toMacros a.frame)
    (rest : ∀ t, ¬ Quiet g.toMacros nOut s t) :
    s.producer.pending = [] ∧
    s.consumers.seen = filledTuples g.toMacros (alone g.toMacros mem s.heard).ring.trace ∧
    ∀ b < g.nInputBlocks, s.producer.ring.flag b = .free := by
  obtain ⟨copied, claimed, freed, opened, read, cleared, inv⟩ :=
    (reach.view fits).consistent fast g.two_le_blocks posOut
  have consumers : ∀ q, ¬ Pipeline.Consumes g.toMacros g.nInputBlocks nOut (s.view g.toMacros) q :=
    fun q moves => rest _ ⟨.consume s q moves, rfl⟩
  obtain ⟨seen, free⟩ := inv.at_rest consumers posOut
  have done : s.producer.pending = [] := by
    cases pending : s.producer.pending with
    | nil => rfl
    | cons e es =>
      have ready : e.Ready s.producer.ring.flag := by
        obtain ⟨_, turn, _⟩ := reach.follows.next fits pending
        cases e with
        | busywaitFree b =>
          refine free b ?_
          rw [turn.2]
          exact Nat.mod_lt _ g.nInputBlocks_pos
        | stamp | setFilled | initializeBlock | decMissedPkts | copyPayload | log | recvFrame
        | releaseFrame | hputNetmcnt => trivial
      exact absurd ⟨.exec s e es pending ready, rfl⟩ (rest _)
  refine ⟨done, ?_, free⟩
  have settled : s.producer.settled g.toMacros = s.producer.ring := by
    rw [Producer.settled, done]
    rfl
  rw [← reach.follows.trace, settled]
  exact seen

theorem Reachable.quiet (reach : Reachable g.toMacros nOut mem s)
    (run : ReflTransGen (Quiet g.toMacros nOut) s t) :
    Reachable g.toMacros nOut mem t ∧ t.heard = s.heard := by
  obtain ⟨blockOut, before⟩ := reach
  constructor
  · exact ⟨blockOut, before.trans (ReflTransGen.mono (fun _ _ quiet => quiet.1) _ _ run)⟩
  · exact invariant_run (P := fun t : System => t.heard = s.heard)
      (fun _ _ same quiet => quiet.2.trans same) rfl run

/-- The system can take in any frames and come to rest. -/
theorem takes_all (g : Geometry) (fast : g.source = .fast) {nOut : Nat} (posOut : 0 < nOut)
    (mem : Mem) (l : List Arrival) (fits : ∀ a ∈ l, Fits g.toMacros a.frame) :
    ∃ s, Reachable g.toMacros nOut mem s ∧ s.heard = l ∧ ∀ t, ¬ Quiet g.toMacros nOut s t := by
  -- from any state that was reached
  have settle {s : System} (reach : Reachable g.toMacros nOut mem s)
      (fits : ∀ a ∈ s.heard, Fits g.toMacros a.frame) : ∃ t,
      Reachable g.toMacros nOut mem t ∧ t.heard = s.heard ∧
        ∀ u, ¬ Quiet g.toMacros nOut t u := by
    obtain ⟨n, rank⟩ := reach.rank fast posOut fits
    obtain ⟨t, run, rest⟩ := stops_of_rank (Quiet.rank fast posOut) rank
    obtain ⟨there, heard⟩ := reach.quiet run
    exact ⟨t, there, heard, rest⟩
  induction l using List.reverseRecOn with
  | nil => exact settle ⟨fun _ _ => 0, .refl⟩ fits
  | append_singleton l a ih =>
    obtain ⟨s, reach, heard, rest⟩ := ih fun b hb => fits b (List.mem_append_left _ hb)
    have before : ∀ b ∈ s.heard, Fits g.toMacros b.frame :=
      fun b hb => fits b (List.mem_append_left _ (heard ▸ hb))
    have idle := (reach.at_rest fast posOut before rest).1
    obtain ⟨blockOut, run⟩ := reach
    have called := run.tail (.call s idle a)
    obtain ⟨t, there, heard', rest'⟩ := settle ⟨blockOut, called⟩ (by rw [heard]; exact fits)
    refine ⟨t, there, ?_, rest'⟩
    rw [heard', ← heard]

theorem records_all (g : Geometry) (fast : g.source = .fast) {nOut : Nat} (posOut : 0 < nOut)
    (mem : Mem) (l : List Arrival) (fits : ∀ a ∈ l, Fits g.toMacros a.frame) :
    ∃ s, Reachable g.toMacros nOut mem s ∧ s.heard = l ∧
      s.consumers.seen = filledTuples g.toMacros (alone g.toMacros mem l).ring.trace := by
  obtain ⟨s, reach, heard, rest⟩ := takes_all g fast posOut mem l fits
  have seen := (reach.at_rest fast posOut (by rwa [heard]) rest).2.1
  rw [heard] at seen
  exact ⟨s, reach, heard, seen⟩

/-! ## Every interleaving -/

end System

end S6Reobs
