import S6Reobs.Contents

/-! The order in which blocks are marked filled, over runs of any packets whose
payloads are no longer than one slot. -/

namespace S6Reobs

open Word Window

variable {g : Geometry}

/-- The two warnings with which set_block_filled checks the order of fills. -/
def Effect.FillWarning : Effect → Prop
  | .log (.fillOutOfOrder ..) | .log (.blockMismatch ..) => True
  | _ => False

/-- Two fills with no resync between them are for neighbouring blocks. -/
def Mark.Follows (nm : Nat) : Mark → Mark → Prop
  | .filled _ mcnt, .filled _ mcnt' => mcnt' = mcnt + nm
  | _, _ => True

/-- The thread's current block and the headers of the two held blocks agree. -/
structure Aligned (m : Macros) (s : State) : Prop where
  multiple : m.nm ∣ s.thread.binfo.mcntStart
  blockI : s.thread.binfo.blockI = blockForMcnt m s.thread.binfo.mcntStart
  current : s.ring.mem (.header s.thread.binfo.blockI .mcnt) = s.thread.binfo.mcntStart
  next : s.ring.mem (.header ((s.thread.binfo.blockI + 1) % m.nInputBlocks) .mcnt) =
    s.thread.binfo.mcntStart + m.nm

/-- The blocks were marked filled in ring order, each with its own mcnt. -/
structure FilledInOrder (m : Macros) (tr : List Entry) : Prop where
  cyclic : ∃ n, filledBlocks tr = (List.range n).map (· % m.nInputBlocks)
  own : ∀ b mcnt, .filled b mcnt ∈ marks tr → mcnt / m.nm % m.nInputBlocks = b
  consecutive : (marks tr).IsChain (Mark.Follows m.nm)
  unwarned : ∀ e ∈ tr, ¬ e.effect.FillWarning

/-- The fills so far end where window `w` begins. -/
structure FilledUpTo (g : Geometry) (tr : List Entry) (w : Window.State) : Prop where
  count : ∃ n, filledBlocks tr = (List.range n).map (· % g.nInputBlocks) ∧
    n % g.nInputBlocks = w.block % g.nInputBlocks
  own : ∀ b mcnt, .filled b mcnt ∈ marks tr → mcnt / g.nm % g.nInputBlocks = b
  consecutive : (marks tr).IsChain (Mark.Follows g.nm)
  last : ∀ b mcnt, .filled b mcnt ∈ (marks tr).getLast? → mcnt + g.nm = g.nm * w.block
  unwarned : ∀ e ∈ tr, ¬ e.effect.FillWarning

theorem Tracks.aligned {s : State} {w : Window.State} (h : Tracks g s.thread w)
    (both : Both (Booked g) s.ring w) : Aligned g.toMacros s where
  multiple := by rw [h.mcntStart]; exact Nat.dvd_mul_right _ _
  blockI := by rw [h.mcntStart, blockForMcnt_mul, h.blockI]
  current := by rw [h.blockI, h.mcntStart]; exact (both _ (.inl rfl)).mcnt
  next := by
    rw [h.blockI, h.mcntStart, Period.place_succ, ← mul_succ_eq]
    exact (both _ (.inr rfl)).mcnt

/-! ## One call -/

/-- What a trace grows by are the effects that were run. -/
theorem effects_execAll (m : Macros) (es : List Effect) (r : Ring) :
    (r.execAll m es).trace.map Entry.effect = es.reverse ++ r.trace.map Entry.effect := by
  induction es generalizing r with
  | nil => rfl
  | cons e es ih =>
    rw [Ring.execAll_cons, ih]
    simp [Ring.exec]

theorem Does.unwarned {w w' : Window.State} {a : Arrival} {o : Outcome} (does : Does g w a o w') :
    ∀ e ∈ o.effects, ¬ e.FillWarning := by
  intro e he
  rcases does.effect_cases he with ⟨msg, routine, rfl⟩ | store | fill | ⟨_, _, recycle⟩
  · cases msg <;> simp_all [Effect.FillWarning, Msg.Routine]
  · rcases (mem_storing store).2 with rfl | rfl <;> exact id
  · simp only [filling, List.mem_cons, List.not_mem_nil, or_false] at fill
    rcases fill with rfl | rfl | rfl | rfl <;> exact id
  · simp only [recycling, List.mem_cons, List.not_mem_nil, or_false] at recycle
    rcases recycle with rfl | rfl | rfl <;> exact id

theorem filledBlocks_of_marks {tr tr' : List Entry} {ms : List Mark}
    (h : marks tr' = marks tr ++ ms) : filledBlocks tr' = filledBlocks tr ++
      ms.filterMap (fun | .filled b _ => some b | .reset => none) := by
  rw [filledBlocks, h, List.filterMap_append]
  rfl

/-- A call that leaves the window's block and marks nothing. -/
theorem FilledUpTo.unmarked {tr tr' : List Entry} {w w' : Window.State} (up : FilledUpTo g tr w)
    (h : marks tr' = marks tr) (block : w'.block = w.block)
    (unwarned : ∀ e ∈ tr', ¬ e.effect.FillWarning) : FilledUpTo g tr' w' := by
  refine ⟨?_, by rw [h]; exact up.own, by rw [h]; exact up.consecutive,
    by rw [h, block]; exact up.last, unwarned⟩
  rw [filledBlocks, h, block]
  exact up.count

theorem FilledUpTo.fill {tr tr' : List Entry} {w : Window.State} {strays : Int}
    (up : FilledUpTo g tr w)
    (h : marks tr' = marks tr ++ [.filled (w.block % g.nInputBlocks) (g.nm * w.block)])
    (unwarned : ∀ e ∈ tr', ¬ e.effect.FillWarning) :
    FilledUpTo g tr' ⟨w.block + 1, strays⟩ := by
  have next := mul_succ_eq g w.block
  refine ⟨?_, ?_, ?_, ?_, unwarned⟩
  · obtain ⟨n, blocks, place⟩ := up.count
    refine ⟨n + 1, ?_, ?_⟩
    · rw [filledBlocks_of_marks h, blocks, List.range_succ, List.map_append]
      simp [place]
    · rw [← Period.place_succ n, place, Period.place_succ]
  · intro b mcnt hm
    rw [h] at hm
    cases List.mem_append.mp hm with
    | inl hm => exact up.own b mcnt hm
    | inr hm =>
      obtain ⟨rfl, rfl⟩ := Mark.filled.inj (List.mem_singleton.mp hm)
      exact blockForMcnt_mul g w.block
  · rw [h, List.isChain_append]
    refine ⟨up.consecutive, List.isChain_singleton _, ?_⟩
    intro x hx y hy
    cases x with
    | filled b mcnt =>
      have last := up.last b mcnt hx
      simp only [List.head?_cons, Option.mem_def, Option.some.injEq] at hy
      subst hy
      exact last.symm
    | reset => trivial
  · intro b mcnt hm
    rw [h] at hm
    simp only [List.getLast?_append, List.getLast?_singleton, Option.some_or, Option.mem_def,
      Option.some.injEq] at hm
    obtain ⟨_, rfl⟩ := Mark.filled.inj hm
    exact next.symm

theorem FilledUpTo.reset {tr tr' : List Entry} {w w' : Window.State} (up : FilledUpTo g tr w)
    (h : marks tr' = marks tr ++ [.reset])
    (place : w'.block % g.nInputBlocks = w.block % g.nInputBlocks)
    (unwarned : ∀ e ∈ tr', ¬ e.effect.FillWarning) : FilledUpTo g tr' w' := by
  refine ⟨?_, ?_, ?_, ?_, unwarned⟩
  · rw [filledBlocks_of_marks h, place]
    simpa using up.count
  · intro b mcnt hm
    rw [h] at hm
    exact up.own b mcnt (by simpa using hm)
  · rw [h, List.isChain_append]
    refine ⟨up.consecutive, List.isChain_singleton _, ?_⟩
    intro x _ y hy
    simp only [List.head?_cons, Option.mem_def, Option.some.injEq] at hy
    subst hy
    cases x <;> trivial
  · intro b mcnt hm
    rw [h] at hm
    simp at hm

theorem FilledUpTo.call {s : State} {w : Window.State} (h : Tracks g s.thread w) (a : Arrival)
    (both : Both (Booked g) s.ring w) (up : FilledUpTo g s.ring.trace w) :
    FilledUpTo g (s.call g.toMacros a).ring.trace (g.step w (g.header a).mcnt) := by
  have unwarned : ∀ e ∈ (s.call g.toMacros a).ring.trace, ¬ e.effect.FillWarning := by
    intro e he
    have hm := List.mem_map_of_mem (f := Entry.effect) he
    rw [State.call, effects_execAll] at hm
    cases List.mem_append.mp hm with
    | inl new => exact (call_does h a).1.unwarned _ (List.mem_reverse.mp new)
    | inr old =>
      obtain ⟨e', he', eq⟩ := List.mem_map.mp old
      rw [← eq]
      exact up.unwarned e' he'
  have grown := marks_call h a
  cases v : g.verdict w.block (g.header a).mcnt with
  | current =>
    have next : g.step w (g.header a).mcnt = ⟨w.block, 0⟩ := step_current v
    exact up.unmarked (by simpa [v] using grown) (by rw [next]) unwarned
  | advance =>
    have next : g.step w (g.header a).mcnt = ⟨w.block + 1, 0⟩ := step_advance v
    rw [next]
    have header := (both _ (.inl rfl)).mcnt
    exact up.fill (by simpa [v, header] using grown) unwarned
  | late =>
    have next : g.step w (g.header a).mcnt = w := step_late v
    exact up.unmarked (by simpa [v] using grown) (by rw [next]) unwarned
  | stray =>
    by_cases many : g.maxOutOfSeq < inc w.strays
    · have next : g.step w (g.header a).mcnt = ⟨_, inc w.strays⟩ := step_resync v many
      refine up.reset (by simpa [v, many] using grown) ?_ unwarned
      rw [next]
      exact target_place g.nm g.nInputBlocks_pos _ _
    · have next : g.step w (g.header a).mcnt = ⟨w.block, inc w.strays⟩ := step_stray v (by omega)
      exact up.unmarked (by simpa [v, many] using grown) (by rw [next]) unwarned

/-! ## Runs -/

theorem run_filledUpTo {s : State} {w : Window.State} (h : Tracks g s.thread w)
    (both : Both (Booked g) s.ring w) (up : FilledUpTo g s.ring.trace w) (l : List Arrival)
    (fits : ∀ a ∈ l, Fits g.toMacros a.frame) :
    Both (Booked g) (s.run g.toMacros l).ring (g.window w l) ∧
    FilledUpTo g (s.run g.toMacros l).ring.trace (g.window w l) := by
  induction l generalizing s w with
  | nil => exact ⟨both, up⟩
  | cons a l ih =>
    have stored := (booked_rule g).call_both h (a := a)
      (fun stores => (fits a List.mem_cons_self).staysIn g.nm_pos stores.2 _) trivial both
    exact ih (call_does h a).2 stored (up.call h a both)
      (fun a' h => fits a' (List.mem_cons_of_mem a h))

theorem start_filledUpTo (g : Geometry) (mem : Mem) (flag : Nat → Flag) :
    FilledUpTo g (State.start g.toMacros mem flag).ring.trace ⟨0, 0⟩ := by
  have none : marks (State.start g.toMacros mem flag).ring.trace = [] := rfl
  refine ⟨⟨0, rfl, rfl⟩, by simp [none], by simp [none], by simp [none], ?_⟩
  intro e he
  simp only [State.start, startupEffects, Ring.execAll_cons, Ring.execAll_nil, Ring.exec,
    List.mem_cons, List.not_mem_nil, or_false] at he
  rcases he with rfl | rfl | rfl | rfl <;> exact id

/-- After every call the held blocks carry the thread's mcnts, and blocks have
been filled in ring order, over any resyncs. -/
theorem run_in_order (g : Geometry) (mem : Mem) (flag : Nat → Flag) (l : List Arrival)
    (fits : ∀ a ∈ l, Fits g.toMacros a.frame) :
    Aligned g.toMacros ((State.start g.toMacros mem flag).run g.toMacros l) ∧
    FilledInOrder g.toMacros ((State.start g.toMacros mem flag).run g.toMacros l).ring.trace := by
  have start := start_tracks g mem flag
  obtain ⟨both, up⟩ := run_filledUpTo start (start_booked g mem flag)
    (start_filledUpTo g mem flag) l fits
  obtain ⟨n, blocks, _⟩ := up.count
  exact ⟨(run_tracks start l).aligned both, ⟨n, blocks⟩, up.own, up.consecutive, up.unwarned⟩

theorem run_in_order_fastSmall :
    Aligned fastSmall.toMacros ((State.start fastSmall.toMacros (fun _ => 0)
      (fun _ => .free)).run fastSmall.toMacros [fastPacket 0, fastPacket 3]) ∧
    FilledInOrder fastSmall.toMacros ((State.start fastSmall.toMacros (fun _ => 0)
      (fun _ => .free)).run fastSmall.toMacros [fastPacket 0, fastPacket 3]).ring.trace :=
  run_in_order fastSmall _ _ _ (by decide)

end S6Reobs
