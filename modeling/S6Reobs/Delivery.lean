import S6Reobs.Pipeline

/-! No block is lost, duplicated, reordered or changed on its way through the
pipeline, whatever the order of the threads' steps. -/

namespace S6Reobs

def Databuf.tuples (m : Macros) (d : Databuf) (b : Nat) : Tuple := (d.block b).tuple m

namespace Pipeline

/-- Where s6_gpu_thread is in its loop, when it has marked `copied` output blocks
filled, opened `opened` and set `freed` input blocks free. -/
def GpuAt (m : Macros) (s : Pipeline) (copied opened freed : Nat) : Prop :=
  match s.gpu with
  | .waitFilled => freed = copied ∧ opened = copied
  | .checkMcnt | .waitFree => freed = copied ∧ opened = copied ∧ freed < s.published.length
  | .copying rest => freed = copied ∧ opened = copied + 1 ∧ freed < s.published.length ∧
      ∀ c ∈ gpuCells m, c ∈ rest ∨
        s.dbOut.block s.curblockOut c = s.dbIn.block s.curblockIn c
  | .setFree => copied = freed + 1 ∧ opened = copied

/-- Where s6_output_thread is, when it has processed `read` blocks and set `cleared` free. -/
def OutputAt (m : Macros) (s : Pipeline) (copied read cleared : Nat) : Prop :=
  match s.output with
  | .waitFilled => read = cleared
  | .processing rest got => read = cleared ∧ read < copied ∧
      ∀ c ∈ outputCells m, c ∈ rest ∨ got c = s.dbOut.block s.blockIdx c
  | .clearing _ => read = cleared + 1

/-- The two rings, and the threads' own indices and places in their loops, agree. `copied`
is what s6_gpu_thread has published. -/
structure Agrees (m : Macros) (nIn nOut : Nat) (s : Pipeline) (copied : List Tuple)
    (claimed freed opened read cleared : Nat) : Prop where
  input : Handoff .free .filled nIn s.dbIn.flag (s.dbIn.tuples m) s.published claimed freed freed
  output : Handoff .free .filled nOut s.dbOut.flag (s.dbOut.tuples m) copied opened read cleared
  held : s.held =
    (List.range' s.published.length (claimed - s.published.length)).map (· % nIn)
  next : s.next = claimed % nIn
  curblockIn : s.curblockIn = freed % nIn
  curblockOut : s.curblockOut = copied.length % nOut
  blockIdx : s.blockIdx = cleared % nOut
  passed : copied <+: s.published
  seen : s.seen = copied.take read
  gpuAt : GpuAt m s copied.length opened freed
  outputAt : OutputAt m s copied.length read cleared

def Consistent (m : Macros) (nIn nOut : Nat) (s : Pipeline) : Prop :=
  ∃ copied claimed freed opened read cleared,
    Agrees m nIn nOut s copied claimed freed opened read cleared

end Pipeline

/-! ## Accesses to a databuf -/

theorem Databuf.block_write_self (d : Databuf) (b : Nat) (c : Cell) (v : Nat) :
    (d.write b c v).block b = Function.update (d.block b) c v := Function.update_self ..

theorem Databuf.block_write_ne (d : Databuf) {b b' : Nat} (ne : b' ≠ b) (c : Cell) (v : Nat) :
    (d.write b c v).block b' = d.block b' := Function.update_of_ne ne ..

theorem Databuf.tuples_write (m : Macros) (d : Databuf) (b : Nat) (c : Cell) (v : Nat) :
    (d.write b c v).tuples m =
      Function.update (d.tuples m) b (((d.write b c v).block b).tuple m) := by
  funext b'
  by_cases eq : b' = b
  · subst eq
    rw [Function.update_self]
    rfl
  · rw [Function.update_of_ne eq, Databuf.tuples, d.block_write_ne eq]
    rfl

namespace Pipeline

/-- A word that was copied or is still to be, after one more. -/
theorem copied_step {cells rest : List Cell} {src dst : Block} {c : Cell}
    (h : ∀ x ∈ cells, x ∈ c :: rest ∨ dst x = src x) :
    ∀ x ∈ cells, x ∈ rest ∨ Function.update dst c (src c) x = src x := by
  intro x hx
  by_cases eq : x = c
  · subst eq
    exact .inr (Function.update_self ..)
  · rw [Function.update_of_ne eq]
    cases h x hx with
    | inl left => exact .inl ((List.mem_cons.mp left).resolve_left eq)
    | inr done => exact .inr done

theorem prefix_concat {l k : List Tuple} (h : l <+: k) (more : l.length < k.length) :
    l ++ [k[l.length]] <+: k := by
  obtain ⟨later, rfl⟩ := h
  cases later with
  | nil => simp at more
  | cons t later =>
    refine ⟨later, ?_⟩
    simp

section Steps

variable {m : Macros} {nIn nOut : Nat} (twoIn : 2 ≤ nIn) (posOut : 0 < nOut) {s : Pipeline}
  {copied : List Tuple} {claimed freed opened read cleared : Nat}
  (inv : Agrees m nIn nOut s copied claimed freed opened read cleared)
include inv

/-! ## The producer -/

include twoIn in
theorem Agrees.acquire (few : s.held.length < 2) (free : s.dbIn.flag s.next = .free) :
    Agrees m nIn nOut { s with held := s.held ++ [s.next], next := (s.next + 1) % nIn }
      copied (claimed + 1) freed opened read cleared := by
  have published_le := inv.input.published_le
  rw [inv.held, List.length_map, List.length_range'] at few
  rw [inv.next] at free
  have input := inv.input.claim (by simp) free (by omega)
  refine { inv with input := input, held := ?_, next := ?_ }
  · obtain ⟨n, rfl⟩ := Nat.exists_eq_add_of_le published_le
    have one : s.published.length + n + 1 - s.published.length = n + 1 := by omega
    simp only [inv.held, inv.next, one, Nat.add_sub_cancel_left, List.range'_concat,
      List.map_append, List.map_cons, List.map_nil, Nat.one_mul]
  · rw [inv.next, Period.place_succ]

theorem Agrees.mem_held {b : Nat} (held : b ∈ s.held) :
    ∃ i, s.published.length ≤ i ∧ i < claimed ∧ b = i % nIn := by
  rw [inv.held] at held
  obtain ⟨i, hi, rfl⟩ := List.mem_map.mp held
  rw [List.mem_range'_1] at hi
  exact ⟨i, by omega, by omega, rfl⟩

theorem Agrees.fill {b : Nat} (held : b ∈ s.held) (c : Cell) (v : Nat) :
    Agrees m nIn nOut { s with dbIn := s.dbIn.write b c v }
      copied claimed freed opened read cleared := by
  obtain ⟨i, lo, hi, rfl⟩ := inv.mem_held held
  refine { inv with input := ?_, gpuAt := ?_ }
  · rw [Databuf.tuples_write]
    exact inv.input.fill lo hi _
  · -- the block that s6_gpu_thread copies is published, so not held
    have room := inv.input.room
    have other (more : freed < s.published.length) :
        (s.dbIn.write (i % nIn) c v).block s.curblockIn = s.dbIn.block s.curblockIn := by
      rw [inv.curblockIn]
      exact s.dbIn.block_write_ne (Handoff.place_ne nIn (by omega) (by omega)).symm c v
    have at_ := inv.gpuAt
    unfold GpuAt at at_ ⊢
    cases pc : s.gpu with
    | copying rest =>
      simp only [pc] at at_ ⊢
      rwa [other at_.2.2.1]
    | waitFilled | checkMcnt | waitFree | setFree => simpa only [pc] using at_

theorem Agrees.publish {b : Nat} {rest : List Nat} (oldest : s.held = b :: rest) :
    Agrees m nIn nOut { s with
        dbIn := s.dbIn.set b .filled
        held := rest
        published := s.published ++ [(s.dbIn.block b).tuple m] }
      copied claimed freed opened read cleared := by
  have held := inv.held
  rw [oldest] at held
  obtain ⟨n, left⟩ : ∃ n, claimed - s.published.length = n + 1 :=
    Nat.exists_eq_succ_of_ne_zero fun none => by simp [none] at held
  rw [left, List.range'_succ, List.map_cons, List.cons.injEq] at held
  obtain ⟨rfl, rest_eq⟩ := held
  have longer : (s.published ++ [s.dbIn.tuples m (s.published.length % nIn)]).length =
      s.published.length + 1 := by simp
  refine { inv with input := inv.input.publish (by omega), held := ?_, passed := ?_, gpuAt := ?_ }
  · dsimp only
    rw [rest_eq, List.length_append, List.length_singleton]
    congr 2
    omega
  · exact inv.passed.trans (List.prefix_append _ _)
  · have at_ := inv.gpuAt
    unfold GpuAt at at_ ⊢
    cases pc : s.gpu with
    | copying rest =>
      simp only [pc] at at_ ⊢
      exact ⟨at_.1, at_.2.1, by rw [List.length_append]; omega, at_.2.2.2⟩
    | checkMcnt | waitFree =>
      simp only [pc] at at_ ⊢
      exact ⟨at_.1, at_.2.1, by rw [List.length_append]; omega⟩
    | waitFilled | setFree => simpa only [pc] using at_

/-! ## s6_gpu_thread -/

include twoIn in
theorem Agrees.gpuWaitFilled (pc : s.gpu = .waitFilled)
    (filled : s.dbIn.flag s.curblockIn = .filled) :
    Agrees m nIn nOut { s with gpu := .checkMcnt } copied claimed freed opened read cleared := by
  have at_ := inv.gpuAt
  simp only [GpuAt, pc] at at_
  rw [inv.curblockIn] at filled
  exact { inv with
    gpuAt := ⟨at_.1, at_.2, inv.input.arrived (by simp) (by omega) filled⟩ }

/-- `mcnt >= last_mcount` never fails. -/
theorem Agrees.gpuCheckMcnt (pc : s.gpu = .checkMcnt) :
    Agrees m nIn nOut { s with
        gpu := if s.dbIn.block s.curblockIn (.header .mcnt) ≥ lastMcount then .waitFree
          else .copying (gpuCells m) }
      copied claimed freed opened read cleared := by
  have at_ := inv.gpuAt
  simp only [GpuAt, pc] at at_
  have ready : s.dbIn.block s.curblockIn (.header .mcnt) ≥ lastMcount := Nat.zero_le _
  rw [if_pos ready]
  exact { inv with gpuAt := at_ }

include posOut in
theorem Agrees.gpuWaitFree (pc : s.gpu = .waitFree)
    (free : s.dbOut.flag s.curblockOut = .free) :
    Agrees m nIn nOut { s with gpu := .copying (gpuCells m) }
      copied claimed freed (opened + 1) read cleared := by
  have at_ := inv.gpuAt
  simp only [GpuAt, pc] at at_
  obtain ⟨same, open_, more⟩ := at_
  rw [inv.curblockOut, ← open_] at free
  exact { inv with
    output := inv.output.claim (by simp) free (by omega)
    gpuAt := ⟨same, by omega, more, fun _ hc => .inl hc⟩ }

theorem Agrees.gpuCopy {c : Cell} {rest : List Cell} (pc : s.gpu = .copying (c :: rest)) :
    Agrees m nIn nOut { s with
        dbOut := s.dbOut.write s.curblockOut c (s.dbIn.block s.curblockIn c)
        gpu := .copying rest }
      copied claimed freed opened read cleared := by
  have at_ := inv.gpuAt
  simp only [GpuAt, pc] at at_
  obtain ⟨same, open_, more, words⟩ := at_
  refine { inv with output := ?_, gpuAt := ⟨same, open_, more, ?_⟩, outputAt := ?_ }
  · rw [Databuf.tuples_write, inv.curblockOut]
    exact inv.output.fill (Nat.le_refl _) (by omega) _
  · dsimp only
    rw [Databuf.block_write_self]
    exact copied_step words
  · -- the block that s6_output_thread reads is published
    have room := inv.output.room
    have at_ := inv.outputAt
    unfold OutputAt at at_ ⊢
    cases pc' : s.output with
    | processing rest' got =>
      simp only [pc'] at at_ ⊢
      have other : s.blockIdx ≠ s.curblockOut := by
        rw [inv.blockIdx, inv.curblockOut]
        exact (Handoff.place_ne nOut (by omega) (by omega)).symm
      rwa [s.dbOut.block_write_ne other]
    | waitFilled | clearing => simpa only [pc'] using at_

/-- What has been copied whole is the tuple that the input block was published with. -/
theorem Agrees.gpuSetFilled (fast : m.source = .fast) (pc : s.gpu = .copying []) :
    Agrees m nIn nOut { s with
        dbOut := s.dbOut.set s.curblockOut .filled
        curblockOut := (s.curblockOut + 1) % nOut
        gpu := .setFree }
      (copied ++ [s.dbOut.tuples m (copied.length % nOut)]) claimed freed opened read cleared := by
  have at_ := inv.gpuAt
  simp only [GpuAt, pc] at at_
  obtain ⟨same, open_, more, words⟩ := at_
  have tuple : s.dbOut.tuples m (copied.length % nOut) = s.published[copied.length] := by
    have kept := inv.input.kept copied.length (by omega) (by omega)
    rw [← kept, ← inv.curblockOut, ← same, ← inv.curblockIn]
    refine tuple_congr fun c hc => ?_
    exact (words c (outputCells_copied fast c hc)).resolve_left (by simp)
  refine { inv with output := ?_, curblockOut := ?_, passed := ?_, seen := ?_, gpuAt := ?_,
                    outputAt := ?_ }
  · have output := inv.output.publish (by omega)
    rwa [← inv.curblockOut] at output ⊢
  · dsimp only
    rw [inv.curblockOut, Period.place_succ, List.length_append, List.length_singleton]
  · rw [tuple]
    exact prefix_concat inv.passed (by omega)
  · have read_le := inv.output.read_le
    rw [inv.seen, List.take_append_of_le_length read_le]
  · exact ⟨by rw [List.length_append, same]; rfl, by rw [List.length_append, open_]; rfl⟩
  · have at_ := inv.outputAt
    unfold OutputAt at at_ ⊢
    cases pc' : s.output with
    | processing rest' got =>
      simp only [pc'] at at_ ⊢
      exact ⟨at_.1, by rw [List.length_append]; omega, at_.2.2⟩
    | waitFilled | clearing => simpa only [pc'] using at_

theorem Agrees.gpuSetFree (pc : s.gpu = .setFree) :
    Agrees m nIn nOut { s with
        dbIn := s.dbIn.set s.curblockIn .free
        curblockIn := (s.curblockIn + 1) % nIn
        gpu := .waitFilled }
      copied claimed (freed + 1) opened read cleared := by
  have at_ := inv.gpuAt
  simp only [GpuAt, pc] at at_
  have short := inv.passed.length_le
  refine { inv with input := ?_, curblockIn := ?_, gpuAt := ⟨at_.1.symm, at_.2⟩ }
  · have input := (inv.input.take (by omega)).release (Nat.lt_succ_self freed)
    rwa [← inv.curblockIn] at input
  · dsimp only
    rw [inv.curblockIn, Period.place_succ]

/-! ## s6_output_thread -/

include posOut in
theorem Agrees.outputWaitFilled (pc : s.output = .waitFilled)
    (filled : s.dbOut.flag s.blockIdx = .filled) :
    Agrees m nIn nOut { s with output := .processing (outputCells m) fun _ => 0 }
      copied claimed freed opened read cleared := by
  have at_ := inv.outputAt
  simp only [OutputAt, pc] at at_
  rw [inv.blockIdx] at filled
  have more := inv.output.arrived (by simp) posOut filled
  exact { inv with outputAt := ⟨at_, by omega, fun _ hc => .inl hc⟩ }

theorem Agrees.outputRead {c : Cell} {rest : List Cell} {got : Block}
    (pc : s.output = .processing (c :: rest) got) :
    Agrees m nIn nOut { s with
        output := .processing rest (Function.update got c (s.dbOut.block s.blockIdx c)) }
      copied claimed freed opened read cleared := by
  have at_ := inv.outputAt
  simp only [OutputAt, pc] at at_
  exact { inv with outputAt := ⟨at_.1, at_.2.1, copied_step at_.2.2⟩ }

theorem Agrees.outputSee {got : Block} (pc : s.output = .processing [] got) :
    Agrees m nIn nOut { s with
        seen := s.seen ++ [got.tuple m]
        output := .clearing (outputCells m) }
      copied claimed freed opened (read + 1) cleared := by
  have at_ := inv.outputAt
  simp only [OutputAt, pc] at at_
  obtain ⟨same, more, words⟩ := at_
  have tuple : got.tuple m = copied[read] := by
    rw [← inv.output.kept read more (Nat.le_refl _), same, ← inv.blockIdx]
    exact tuple_congr fun c hc => (words c hc).resolve_left (by simp)
  refine { inv with output := inv.output.take more, seen := ?_, outputAt := ?_ }
  · dsimp only
    rw [inv.seen, tuple, List.take_append_getElem more]
  · exact congrArg (· + 1) same

theorem Agrees.outputClear {c : Cell} {rest : List Cell} (pc : s.output = .clearing (c :: rest)) :
    Agrees m nIn nOut { s with
        dbOut := s.dbOut.write s.blockIdx c 0
        output := .clearing rest }
      copied claimed freed opened read cleared := by
  have at_ := inv.outputAt
  simp only [OutputAt, pc] at at_
  refine { inv with output := ?_, gpuAt := ?_, outputAt := at_ }
  · rw [Databuf.tuples_write, inv.blockIdx]
    exact inv.output.scrub (by omega) _
  · -- the block that s6_gpu_thread fills is not yet published
    have room := inv.output.room
    have read_le := inv.output.read_le
    have at_ := inv.gpuAt
    unfold GpuAt at at_ ⊢
    cases pc' : s.gpu with
    | copying rest' =>
      simp only [pc'] at at_ ⊢
      have other : s.curblockOut ≠ s.blockIdx := by
        rw [inv.blockIdx, inv.curblockOut]
        exact Handoff.place_ne nOut (by omega) (by omega)
      rwa [s.dbOut.block_write_ne other]
    | waitFilled | checkMcnt | waitFree | setFree => simpa only [pc'] using at_

theorem Agrees.outputSetFree (pc : s.output = .clearing []) :
    Agrees m nIn nOut { s with
        dbOut := s.dbOut.set s.blockIdx .free
        blockIdx := (s.blockIdx + 1) % nOut
        output := .waitFilled }
      copied claimed freed opened read (cleared + 1) := by
  have at_ := inv.outputAt
  simp only [OutputAt, pc] at at_
  refine { inv with output := ?_, blockIdx := ?_, outputAt := at_ }
  · have output := inv.output.release (by omega)
    rwa [← inv.blockIdx] at output
  · dsimp only
    rw [inv.blockIdx, Period.place_succ]

end Steps

/-! ## Every interleaving -/

theorem start_agrees (m : Macros) (nIn nOut : Nat) (blockIn blockOut : Nat → Block) :
    Agrees m nIn nOut (.start blockIn blockOut) [] 0 0 0 0 0 where
  input := .initial fun _ => rfl
  output := .initial fun _ => rfl
  held := rfl
  next := (Nat.zero_mod nIn).symm
  curblockIn := (Nat.zero_mod nIn).symm
  curblockOut := (Nat.zero_mod nOut).symm
  blockIdx := (Nat.zero_mod nOut).symm
  passed := List.nil_prefix
  seen := rfl
  gpuAt := ⟨rfl, rfl⟩
  outputAt := rfl

theorem Step.consistent {m : Macros} (fast : m.source = .fast) {nIn nOut : Nat} (twoIn : 2 ≤ nIn)
    (posOut : 0 < nOut) {s t : Pipeline} (step : Step m nIn nOut s t)
    (h : Consistent m nIn nOut s) : Consistent m nIn nOut t := by
  obtain ⟨copied, claimed, freed, opened, read, cleared, inv⟩ := h
  cases step with
  | acquire few free => exact ⟨_, _, _, _, _, _, inv.acquire twoIn few free⟩
  | fill b held c v => exact ⟨_, _, _, _, _, _, inv.fill held c v⟩
  | publish b rest oldest => exact ⟨_, _, _, _, _, _, inv.publish oldest⟩
  | gpuWaitFilled pc filled => exact ⟨_, _, _, _, _, _, inv.gpuWaitFilled twoIn pc filled⟩
  | gpuCheckMcnt pc => exact ⟨_, _, _, _, _, _, inv.gpuCheckMcnt pc⟩
  | gpuWaitFree pc free => exact ⟨_, _, _, _, _, _, inv.gpuWaitFree posOut pc free⟩
  | gpuCopy c rest pc => exact ⟨_, _, _, _, _, _, inv.gpuCopy pc⟩
  | gpuSetFilled pc => exact ⟨_, _, _, _, _, _, inv.gpuSetFilled fast pc⟩
  | gpuSetFree pc => exact ⟨_, _, _, _, _, _, inv.gpuSetFree pc⟩
  | outputWaitFilled pc filled => exact ⟨_, _, _, _, _, _, inv.outputWaitFilled posOut pc filled⟩
  | outputRead c rest got pc => exact ⟨_, _, _, _, _, _, inv.outputRead pc⟩
  | outputSee got pc => exact ⟨_, _, _, _, _, _, inv.outputSee pc⟩
  | outputClear c rest pc => exact ⟨_, _, _, _, _, _, inv.outputClear pc⟩
  | outputSetFree pc => exact ⟨_, _, _, _, _, _, inv.outputSetFree pc⟩

theorem Reachable.consistent {m : Macros} (fast : m.source = .fast) {nIn nOut : Nat}
    (twoIn : 2 ≤ nIn) (posOut : 0 < nOut) {s : Pipeline} (reach : Reachable m nIn nOut s) :
    Consistent m nIn nOut s := by
  induction reach with
  | start blockIn blockOut => exact ⟨_, _, _, _, _, _, start_agrees m nIn nOut blockIn blockOut⟩
  | next _ step ih => exact step.consistent fast twoIn posOut ih

/-- What s6_output_thread has seen is what the producer published first. -/
theorem seen_prefix (m : Macros) (fast : m.source = .fast) {nIn nOut : Nat} (twoIn : 2 ≤ nIn)
    (twoOut : 2 ≤ nOut) {s : Pipeline} (reach : Reachable m nIn nOut s) :
    s.seen <+: s.published := by
  obtain ⟨copied, _, _, _, read, _, inv⟩ := reach.consistent fast twoIn (by omega)
  rw [inv.seen]
  exact (List.take_prefix read copied).trans inv.passed

/-- A block of one data word on its way through. -/
theorem seen_prefix_one : ∃ s, Reachable ⟨.fast, 8, 2⟩ 2 2 s ∧ s.seen.map Tuple.data = [[7]] ∧
    s.seen <+: s.published := by
  have r : Reachable ⟨.fast, 8, 2⟩ 2 2 (.start (fun _ _ => 0) fun _ _ => 0) := .start _ _
  have r := r.next (.acquire _ (by decide) rfl)
  have r := r.next (.fill _ 0 (List.mem_singleton_self 0) (.data 0) 7)
  have r := r.next (.publish _ 0 [] rfl)
  have r := r.next (.gpuWaitFilled _ rfl rfl)
  have r := r.next (.gpuCheckMcnt _ rfl)
  have r := r.next (.gpuWaitFree _ rfl rfl)
  have r := r.next (.gpuCopy _ _ _ rfl)
  have r := r.next (.gpuCopy _ _ _ rfl)
  have r := r.next (.gpuCopy _ _ _ rfl)
  have r := r.next (.gpuCopy _ _ _ rfl)
  have r := r.next (.gpuCopy _ _ _ rfl)
  have r := r.next (.gpuCopy _ _ _ rfl)
  have r := r.next (.gpuCopy _ _ _ rfl)
  have r := r.next (.gpuCopy _ _ _ rfl)
  have r := r.next (.gpuSetFilled _ rfl)
  have r := r.next (.outputWaitFilled _ rfl rfl)
  have r := r.next (.outputRead _ _ _ _ rfl)
  have r := r.next (.outputRead _ _ _ _ rfl)
  have r := r.next (.outputRead _ _ _ _ rfl)
  have r := r.next (.outputRead _ _ _ _ rfl)
  have r := r.next (.outputRead _ _ _ _ rfl)
  have r := r.next (.outputRead _ _ _ _ rfl)
  have r := r.next (.outputRead _ _ _ _ rfl)
  have r := r.next (.outputRead _ _ _ _ rfl)
  have r := r.next (.outputSee _ _ rfl)
  exact ⟨_, r, by decide, seen_prefix _ rfl (by decide) (by decide) r⟩

end Pipeline

end S6Reobs
