import S6Reobs.Recorded

/-! From the wire to the file: a stream from start-up whose packets all come, with bounded
reordering, is recorded block by block, whatever the order of the threads' steps. -/

namespace S6Reobs

open Relation Word Window

variable {g : Geometry}

/-- The tuple is that of block `i` of a stream: it misses no packet of source `id`, and its
data are the payloads of packets of `l`, each in its slot. -/
structure Tuple.Whole (m : Macros) (id : Nat) (l : List Arrival) (i : Nat) (t : Tuple) :
    Prop where
  mcnt : t.mcnt = m.nm * i
  missed : t.missedPkts = [0]
  slots : ∀ k < m.nm, ∃ a ∈ l, (getHeader m a.frame).sid = id ∧
    (getHeader m a.frame).mcnt = m.nm * i + k ∧
    ∀ v < m.slotWords, t.data[k * m.slotWords + v]? = some (a.frame.payload v)

theorem Tuple.Whole.mono {m : Macros} {id i : Nat} {l k : List Arrival} {t : Tuple}
    (h : t.Whole m id l i) (sub : ∀ a ∈ l, a ∈ k) : t.Whole m id k i := by
  refine ⟨h.mcnt, h.missed, ?_⟩
  intro n hn
  obtain ⟨a, ha, rest⟩ := h.slots n hn
  exact ⟨a, sub a ha, rest⟩

/-- In the FAST build a complete block says so. -/
theorem Complete.whole (fast : g.source = .fast) {id i b : Nat} {l : List Arrival} {mem : Mem}
    (valid : id < g.nSourceNodes) (mcnt : mem (.header b .mcnt) = g.nm * i)
    (h : Complete g.toMacros [id] l b mem) :
    ((blockAt mem b).tuple g.toMacros).Whole g.toMacros id l i := by
  refine ⟨mcnt, ?_, ?_⟩
  · have bors : g.nBors = 1 := by simp [Macros.nBors, Macros.nSubspectraPerSpectrum, fast]
    have index : missedIndex g.toMacros id = 0 := by simp [missedIndex, fast]
    have none := h.missed id (List.mem_singleton_self id)
    rw [index] at none
    simp [Block.tuple, bors, blockAt, none]
  · intro k hk
    obtain ⟨a, ha, sid, at_, words⟩ := h.slots id (List.mem_singleton_self id) k hk
    rw [mcnt] at at_
    refine ⟨a, ha, sid, at_, ?_⟩
    intro v hv
    have slot : place g.toMacros (getHeader g.toMacros a.frame) v = k * g.slotWords + v := by
      simp only [place, fast, at_, Nat.mul_add_mod, Nat.mod_eq_of_lt hk]
    have inside : k * g.slotWords + v < g.dataWords := by
      rw [← slot]
      exact place_lt g.nm_pos (by rw [sid]; exact valid) hv
    have word := words v hv
    rw [slot] at word
    simp [Block.tuple, inside, blockAt, word]

/-! ## From start-up -/

theorem stored_start (m : Macros) (mem : Mem) (flag : Nat → Flag) (b : Nat) :
    stored b (State.start m mem flag).ring.trace = [] := by
  simp [State.start, startupEffects, initializeBlock, Ring.exec, stored]

theorem start_justInitialised (g : Geometry) (mem : Mem) (flag : Nat → Flag) :
    JustInitialised g.toMacros (State.start g.toMacros mem flag) := by
  have booked := start_booked g mem flag
  have whole : u64 g.nm = g.nm := u64_of_lt (by have := g.nm_lt; omega)
  have untouched {j : Nat} (hj : Window.State.Holds ⟨0, 0⟩ j) : Untouched g.toMacros
      (State.start g.toMacros mem flag).ring.mem (j % g.nInputBlocks) (g.nm * j) := by
    refine ⟨(booked j hj).mcnt, ?_⟩
    intro i hi
    have missed := (booked j hj).missed i hi
    rw [stored_start] at missed
    simpa [whole] using missed
  have current := untouched (.inl rfl)
  have next := untouched (.inr rfl)
  simp only [Nat.zero_mod, Nat.mul_zero, Nat.zero_add, Nat.mul_one] at current next
  exact ⟨current, by simpa [State.start, Thread.initial, initializeBlockInfo] using next⟩

/-- What a run fills does not depend on what was recorded before. -/
theorem filledTuples_congr {m : Macros} {es : List Effect} {r r' : Ring} (mem : r.mem = r'.mem)
    (tuples : filledTuples m r.trace = filledTuples m r'.trace) :
    filledTuples m (r.execAll m es).trace = filledTuples m (r'.execAll m es).trace := by
  induction es generalizing r r' with
  | nil => exact tuples
  | cons e es ih =>
    refine ih (by simp only [Ring.exec, mem]) ?_
    cases e <;> simp [Ring.exec, filledTuples, mem, tuples]

theorem run_congr {m : Macros} {s s' : State} (thread : s.thread = s'.thread)
    (mem : s.ring.mem = s'.ring.mem)
    (tuples : filledTuples m s.ring.trace = filledTuples m s'.ring.trace) (l : List Arrival) :
    filledTuples m (s.run m l).ring.trace = filledTuples m (s'.run m l).ring.trace := by
  induction l generalizing s s' with
  | nil => exact tuples
  | cons a l ih =>
    apply ih
    · simp only [State.call, thread]
    · simp only [State.call, thread]
      exact mem_execAll_congr _ _ mem
    · simp only [State.call, thread]
      exact filledTuples_congr mem tuples

/-- The block that a call fills, when everything before it was stored. -/
theorem Gathered.fills {id : Nat} (valid : id < g.nSourceNodes) {seq : Nat → Nat × Nat}
    (sources : Interleaved g.nm 0 [id] seq)
    (single : g.source ≠ .s6 → ∀ i ∈ [id], ∀ i' ∈ [id], i = i') {l : List Arrival} {s : State}
    {w : Window.State} (gathered : Gathered g 0 l s w)
    (caught : Caught g.nm 0 [id] seq l.length w) (feeds : Feeds g.toMacros l seq)
    (size : ∀ a ∈ l, FullSize g.toMacros a.frame) {a : Arrival}
    (packet : ((g.header a).sid, (g.header a).mcnt) = seq l.length)
    (v : g.verdict w.block (g.header a).mcnt = .advance) :
    Complete g.toMacros [id] l (w.block % g.nInputBlocks)
      (stamped g.toMacros s.ring w.block a.now).mem := by
  have come := caught.finished g.nInputBlocks g.even sources (by rw [← packet]; exact v)
  refine gathered.complete (Nat.zero_le _) a.now ?_ size (feeds.apart sources single) ?_
  · intro i hi
    rw [List.mem_singleton.mp hi]
    exact valid
  · intro i hi mcnt number
    have upto := (Period.bounds_of_div g.nm_pos mcnt).2
    rw [number] at upto
    obtain ⟨n, hn, eq⟩ := come i hi mcnt (Nat.zero_le _) upto
    have at_ := feeds n hn
    rw [eq] at at_
    exact ⟨l[n], List.getElem_mem hn, congrArg Prod.fst at_, congrArg Prod.snd at_⟩

theorem start_stream (g : Geometry) (fast : g.source = .fast) (mem : Mem) (flag : Nat → Flag)
    {id : Nat} (valid : id < g.nSourceNodes) {seq : Nat → Nat × Nat}
    (sources : Interleaved g.nm 0 [id] seq) {l : List Arrival} (feeds : Feeds g.toMacros l seq)
    (size : ∀ a ∈ l, FullSize g.toMacros a.frame) :
    (filledTuples g.toMacros ((State.start g.toMacros mem flag).record.run
      g.toMacros l).ring.trace).length = (g.window ⟨0, 0⟩ l).block ∧
    ∀ (i : Nat) (t : Tuple), (filledTuples g.toMacros ((State.start g.toMacros mem flag).record.run
      g.toMacros l).ring.trace)[i]? = some t → t.Whole g.toMacros id l i := by
  have valid' : ∀ i ∈ [id], i < g.nSourceNodes := by simpa using valid
  have single : g.source ≠ .s6 → ∀ i ∈ [id], ∀ i' ∈ [id], i = i' := by simp
  induction l using List.reverseRecOn with
  | nil =>
    refine ⟨rfl, ?_⟩
    intro i t h
    cases h
  | append_singleton l a ih =>
    have size' : ∀ b ∈ l, FullSize g.toMacros b.frame := fun b hb => size b (by simp [hb])
    have packet : ((g.header a).sid, (g.header a).mcnt) = seq l.length := feeds.last
    obtain ⟨length, each⟩ := ih feeds.left size'
    obtain ⟨caught, gathered⟩ := lossless_run (start_tracks g mem flag)
      (start_justInitialised g mem flag) sources valid' single l feeds.left size'
    rw [State.run_append, window_append]
    have grown := filledTuples_call gathered.tracks a
    simp only [State.run_cons, State.run_nil, grown]
    generalize g.window ⟨0, 0⟩ l = w at *
    generalize ((State.start g.toMacros mem flag).record.run g.toMacros l) = s at *
    by_cases v : g.verdict w.block (g.header a).mcnt = .advance
    · have next : g.step w (g.header a).mcnt = ⟨w.block + 1, 0⟩ := step_advance v
      have header := (gathered.accounted _ (.inl rfl) (Nat.zero_le _)).1.mcnt
      have complete := gathered.fills valid sources single caught feeds.left size' packet v
      have whole := complete.whole fast valid
        ((stamped_mcnt g.toMacros _ w.block _ a.now).trans header)
      rw [if_pos v, next, List.length_append, List.length_singleton, length]
      refine ⟨rfl, ?_⟩
      intro i t ht
      rcases getElem?_concat ht with old | ⟨here, rfl⟩
      · exact (each i t old).mono fun b hb => List.mem_append_left _ hb
      · rw [here, length]
        exact whole.mono fun b hb => List.mem_append_left _ hb
    · have same : (g.step w (g.header a).mcnt).block = w.block := by
        cases caught.next_in_window g.nInputBlocks g.nm_pos g.even sources with
        | inl current =>
          have next : g.step w (g.header a).mcnt = ⟨w.block, 0⟩ :=
            step_current (by rw [← packet] at current; exact current)
          rw [next]
        | inr advance => exact absurd (by rw [← packet] at advance; exact advance) v
      rw [if_neg v, List.append_nil, same]
      refine ⟨length, ?_⟩
      intro i t ht
      exact (each i t ht).mono fun b hb => List.mem_append_left _ hb

/-! ## Every interleaving -/

/-- Full packets of one source from mcnt 0 on, none of them overtaken by half a block or more:
the `i`th block recorded is the `i`th of the stream, with every payload in its place. -/
theorem System.stream (g : Geometry) (fast : g.source = .fast) {nOut : Nat} (posOut : 0 < nOut)
    {mem : Mem} {s : System} (reach : Reachable g.toMacros nOut mem s) {id : Nat}
    (valid : id < g.nSourceNodes) {seq : Nat → Nat × Nat}
    (sources : Interleaved g.nm 0 [id] seq) (feeds : Feeds g.toMacros s.heard seq)
    (size : ∀ a ∈ s.heard, FullSize g.toMacros a.frame) {i : Nat}
    (hi : i < s.consumers.seen.length) :
    s.consumers.seen[i].Whole g.toMacros id s.heard i := by
  have at_ := reach.getElem_seen (fun a ha => (size a ha).fits) fast posOut hi
  have same : filledTuples g.toMacros (alone g.toMacros mem s.heard).ring.trace =
      filledTuples g.toMacros ((State.start g.toMacros mem fun _ => .free).record.run
        g.toMacros s.heard).ring.trace := by
    apply run_congr <;> rfl
  rw [same] at at_
  exact (start_stream g fast mem _ valid sources feeds size).2 i _ at_

/-- Of twelve packets that come in swapped pairs the first eight make the two blocks recorded. -/
theorem System.stream_swapped : ∃ s, Reachable fastFour.toMacros 2 (fun _ => 0) s ∧
    s.heard = ((List.range 12).map fun i => fastPacket (2 ^ 57 + swap i)) ∧
    ∃ h : s.consumers.seen.length = 2,
      s.consumers.seen[0].Whole fastFour.toMacros 0 s.heard 0 ∧
      s.consumers.seen[1].Whole fastFour.toMacros 0 s.heard 1 := by
  obtain ⟨s, reach, heard, seen⟩ := records_all fastFour rfl Nat.two_pos (fun _ => 0)
    ((List.range 12).map fun i => fastPacket (2 ^ 57 + swap i)) (by decide +kernel)
  have two : s.consumers.seen.length = 2 := by
    rw [seen]
    decide +kernel
  have feeds : Feeds fastFour.toMacros s.heard fun i => (0, 0 + swap i) := by
    rw [heard]
    unfold Feeds
    decide +kernel
  have size : ∀ a ∈ s.heard, FullSize fastFour.toMacros a.frame := by
    rw [heard]
    decide +kernel
  have whole {i : Nat} (hi : i < s.consumers.seen.length) :=
    stream fastFour rfl Nat.two_pos reach (by decide) (interleaved_swapped (by decide) 0 0)
      feeds size hi
  exact ⟨s, reach, heard, two, whole _, whole _⟩

end S6Reobs
