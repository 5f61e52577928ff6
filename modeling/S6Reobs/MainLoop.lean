import S6Reobs.Contents

/-! run()'s main loop: the size test, the call of process_packet, and the report
of the block that the call filled. -/

namespace S6Reobs

open Word Window

/-- `packet_size`, an int. -/
def packetSize (f : Frame) : Int := (f.udpSize : Int) - 8

def maxPacketSize (m : Macros) : Nat :=
  8 + m.nCoarseChan * m.nBytesPerChan * m.nSpectraPerPacket + 8 + 16

/-- The frame is not wrongly sized. -/
def Accepted (m : Macros) (f : Frame) : Prop :=
  ¬ (packetSize f < 16 ∨ maxPacketSize m < u64 (packetSize f) ∨ (packetSize f).tmod 8 ≠ 0)

instance (m : Macros) (f : Frame) : Decidable (Accepted m f) :=
  inferInstanceAs (Decidable (¬ _))

/-- The main loop from one received frame to the next. -/
def State.loop (m : Macros) (s : State) (a : Arrival) : State :=
  let received := { s with ring := s.ring.exec m .recvFrame }
  if Accepted m a.frame then
    let called := received.call m a
    let released := called.ring.exec m .releaseFrame
    let mcnt := (processPacket m s.thread a).ret
    ⟨called.thread, if mcnt ≠ noMcnt then released.exec m (.hputNetmcnt mcnt) else released⟩
  else received

def State.loops (m : Macros) (s : State) (l : List Arrival) : State := l.foldl (State.loop m) s

/-- The NETMCNT updates, oldest first. -/
def netmcnts (tr : List Entry) : List Nat :=
  tr.reverse.filterMap fun e => match e.effect with | .hputNetmcnt mcnt => some mcnt | _ => none

/-- The call returns an mcnt exactly if it marks a block filled, and then the
block's header.mcnt. -/
def ReportsFill (m : Macros) (s : State) (a : Arrival) : Prop :=
  ((processPacket m s.thread a).ret ≠ noMcnt ↔
    ∃ b mcnt, marks (s.call m a).ring.trace = marks s.ring.trace ++ [.filled b mcnt]) ∧
  ∀ b mcnt, marks (s.call m a).ring.trace = marks s.ring.trace ++ [.filled b mcnt] →
    (processPacket m s.thread a).ret = mcnt

/-- If the packet finishes the current block, its source id is in range and the
block's header.mcnt is what it was initialised with. -/
def FillReported (m : Macros) (s : State) (a : Arrival) : Prop :=
  pktZone m s.thread.binfo.mcntStart (getHeader m a.frame).mcnt = .window →
  BlockDone m s.thread.binfo.mcntStart (getHeader m a.frame).mcnt →
  Known m a.frame ∧
    s.ring.mem (.header s.thread.binfo.blockI .mcnt) = s.thread.binfo.mcntStart

instance (m : Macros) (s : State) (a : Arrival) : Decidable (FillReported m s a) :=
  inferInstanceAs (Decidable (_ → _ → _))

variable {g : Geometry}

/-- The condition, in terms of the window. -/
theorem fillReported_iff {s : State} {w : Window.State} (h : Tracks g s.thread w) (a : Arrival) :
    FillReported g.toMacros s a ↔
      (g.verdict w.block (g.header a).mcnt = .advance → Known g.toMacros a.frame ∧
        s.ring.mem (.header (w.block % g.nInputBlocks) .mcnt) = g.nm * w.block) := by
  rw [← h.finishes_iff, FillReported, ← h.mcntStart, ← h.blockI]
  exact and_imp.symm

/-- What one call adds to the fills, and what it returns. -/
theorem call_report {s : State} {w : Window.State} (h : Tracks g s.thread w) (a : Arrival) :
    if g.verdict w.block (g.header a).mcnt = .advance then
      marks (s.call g.toMacros a).ring.trace = marks s.ring.trace ++
        [.filled (w.block % g.nInputBlocks)
          (s.ring.mem (.header (w.block % g.nInputBlocks) .mcnt))] ∧
      (processPacket g.toMacros s.thread a).ret =
        if Known g.toMacros a.frame then g.nm * w.block else noMcnt
    else
      (∃ ms : List Mark, (∀ b mcnt, .filled b mcnt ∉ ms) ∧
        marks (s.call g.toMacros a).ring.trace = marks s.ring.trace ++ ms) ∧
      (processPacket g.toMacros s.thread a).ret = noMcnt := by
  have grown := marks_call h a
  have does := (call_does h a).1
  generalize processPacket g.toMacros s.thread a = o at does ⊢
  generalize g.step w (g.header a).mcnt = w' at does
  cases does with
  | current v msgs routine effects ret =>
    simp only [v] at grown ⊢
    exact ⟨⟨_, by simp, grown⟩, ret⟩
  | advance v msgs routine effects ret =>
    simp only [v, ↓reduceIte] at grown ⊢
    exact ⟨grown, ret⟩
  | late v msgs routine effects ret =>
    simp only [v] at grown ⊢
    exact ⟨⟨_, by simp, grown⟩, ret⟩
  | stray v few msgs routine effects ret =>
    simp only [v, not_lt.mpr few] at grown ⊢
    exact ⟨⟨_, by simp, grown⟩, ret⟩
  | resync v many msgs routine pktMcnt effects ret =>
    simp only [v, many] at grown ⊢
    exact ⟨⟨_, by simp, grown⟩, ret⟩

theorem reportsFill_iff {s : State} {w : Window.State} (h : Tracks g s.thread w) (a : Arrival) :
    ReportsFill g.toMacros s a ↔ FillReported g.toMacros s a := by
  have report := call_report h a
  have small := h.bound
  rw [fillReported_iff h a, ReportsFill]
  split at report
  · rename_i v
    obtain ⟨grown, ret⟩ := report
    have filled : ∃ b mcnt, marks (s.call g.toMacros a).ring.trace =
        marks s.ring.trace ++ [.filled b mcnt] := ⟨_, _, grown⟩
    simp only [filled, iff_true, v, forall_const]
    rw [ret, grown]
    by_cases known : Known g.toMacros a.frame
    · have : g.nm * w.block ≠ noMcnt := by unfold noMcnt; omega
      simp [known, this, eq_comm]
    · simp [known]
  · rename_i v
    obtain ⟨⟨ms, none, grown⟩, ret⟩ := report
    have unfilled (b mcnt : Nat) : marks (s.call g.toMacros a).ring.trace ≠
        marks s.ring.trace ++ [.filled b mcnt] := by
      intro same
      rw [grown] at same
      exact none b mcnt (by rw [List.append_cancel_left same]; exact List.mem_singleton_self _)
    simp [ret, unfilled, v]

/-! ## Runs of the main loop -/

theorem netmcnts_exec (m : Macros) (r : Ring) (e : Effect) :
    netmcnts (r.exec m e).trace = netmcnts r.trace ++
      match e with | .hputNetmcnt mcnt => [mcnt] | _ => [] := by
  rw [netmcnts, Ring.exec, List.reverse_cons, List.filterMap_append]
  congr 1
  cases e <;> simp

theorem netmcnts_execAll {m : Macros} {es : List Effect}
    (quiet : ∀ e ∈ es, ∀ mcnt, e ≠ .hputNetmcnt mcnt) (r : Ring) :
    netmcnts (r.execAll m es).trace = netmcnts r.trace := by
  induction es generalizing r with
  | nil => rfl
  | cons e es ih =>
    have head := quiet e List.mem_cons_self
    rw [Ring.execAll_cons, ih (fun e' h => quiet e' (List.mem_cons_of_mem e h))]
    rw [netmcnts_exec]
    cases e <;> simp at head ⊢

theorem Does.quiet {w w' : Window.State} {a : Arrival} {o : Outcome} (does : Does g w a o w') :
    ∀ e ∈ o.effects, ∀ mcnt, e ≠ .hputNetmcnt mcnt := by
  intro e he mcnt
  rcases does.effect_cases he with ⟨msg, _, rfl⟩ | store | fill | ⟨_, _, recycle⟩
  · simp
  · rcases (mem_storing store).2 with rfl | rfl <;> simp
  · simp only [filling, List.mem_cons, List.not_mem_nil, or_false] at fill
    rcases fill with rfl | rfl | rfl | rfl <;> simp
  · simp only [recycling, List.mem_cons, List.not_mem_nil, or_false] at recycle
    rcases recycle with rfl | rfl | rfl <;> simp

theorem filledMcnts_of_marks {tr tr' : List Entry} {ms : List Mark}
    (h : marks tr' = marks tr ++ ms) : filledMcnts tr' = filledMcnts tr ++
      ms.filterMap (fun | .filled _ mcnt => some mcnt | .reset => none) := by
  rw [filledMcnts, h, List.filterMap_append]
  rfl

theorem filledMcnts_exec (m : Macros) (r : Ring) {e : Effect} (he : e.Unmarked) :
    filledMcnts (r.exec m e).trace = filledMcnts r.trace := by
  have same : marks (r.exec m e).trace = marks r.trace := by
    rw [Ring.exec, marks_cons, mark_unmarked he]
    exact List.append_nil _
  rw [filledMcnts, same, filledMcnts]

/-- The window after one pass of the main loop. -/
theorem loop_tracks {s : State} {w : Window.State} (h : Tracks g s.thread w) (a : Arrival) :
    ∃ w', Tracks g (s.loop g.toMacros a).thread w' := by
  unfold State.loop
  split
  · exact ⟨_, (call_does h a).2⟩
  · exact ⟨w, h⟩

/-- A call adds to the fills what it returns, when the condition is met. -/
theorem call_reports {s : State} {w : Window.State} (h : Tracks g s.thread w) (a : Arrival)
    (reported : FillReported g.toMacros s a) :
    filledMcnts (s.call g.toMacros a).ring.trace = filledMcnts s.ring.trace ++
      if (processPacket g.toMacros s.thread a).ret ≠ noMcnt then
        [(processPacket g.toMacros s.thread a).ret] else [] := by
  have report := call_report h a
  have small := h.bound
  rw [fillReported_iff h a] at reported
  split at report
  · rename_i v
    obtain ⟨grown, ret⟩ := report
    obtain ⟨known, header⟩ := reported v
    have valid : g.nm * w.block ≠ noMcnt := by unfold noMcnt; omega
    rw [filledMcnts_of_marks grown, ret, if_pos known, if_pos valid, header]
    rfl
  · obtain ⟨⟨ms, none, grown⟩, ret⟩ := report
    rw [filledMcnts_of_marks grown, ret, if_neg (by simp)]
    congr 1
    rw [List.filterMap_eq_nil_iff]
    intro x hx
    cases x with
    | filled b mcnt => exact absurd hx (none b mcnt)
    | reset => rfl

/-- One pass of the main loop reports what it fills. -/
theorem loop_reports {s : State} {w : Window.State} (h : Tracks g s.thread w) (a : Arrival)
    (reported : Accepted g.toMacros a.frame → FillReported g.toMacros s a)
    (before : netmcnts s.ring.trace = filledMcnts s.ring.trace) :
    netmcnts (s.loop g.toMacros a).ring.trace = filledMcnts (s.loop g.toMacros a).ring.trace := by
  have quiet := (call_does h a).1.quiet
  let received : State := { s with ring := s.ring.exec g.toMacros .recvFrame }
  have net : netmcnts received.ring.trace = netmcnts s.ring.trace := by
    simp [received, netmcnts_exec]
  have filled : filledMcnts received.ring.trace = filledMcnts s.ring.trace :=
    filledMcnts_exec _ _ trivial
  by_cases accepted : Accepted g.toMacros a.frame
  · have fills := call_reports (s := received) h a (reported accepted)
    have nets : netmcnts (received.call g.toMacros a).ring.trace = netmcnts s.ring.trace :=
      (netmcnts_execAll quiet _).trans net
    rw [filled, ← before] at fills
    simp only [State.loop, accepted, ↓reduceIte]
    by_cases ret : (processPacket g.toMacros s.thread a).ret ≠ noMcnt
    · rw [if_pos ret] at fills ⊢
      rw [netmcnts_exec, netmcnts_exec, filledMcnts_exec _ _ (by trivial),
        filledMcnts_exec _ _ (by trivial)]
      simpa [received, fills] using nets
    · rw [if_neg ret] at fills ⊢
      rw [netmcnts_exec, filledMcnts_exec _ _ (by trivial)]
      simpa [received, fills] using nets
  · simp only [State.loop, accepted, ↓reduceIte]
    exact (net.trans before).trans filled.symm

/-- The exact condition for a call, and what it gives for a run of the main loop. -/
theorem fills_reported_iff (g : Geometry) :
    (∀ s, Reachable g.toMacros s → ∀ a,
      (ReportsFill g.toMacros s a ↔ FillReported g.toMacros s a)) ∧
    ∀ mem flag (l : List Arrival),
      (∀ earlier a later, l = earlier ++ a :: later → Accepted g.toMacros a.frame →
        FillReported g.toMacros ((State.start g.toMacros mem flag).loops g.toMacros earlier) a) →
      netmcnts ((State.start g.toMacros mem flag).loops g.toMacros l).ring.trace =
        filledMcnts ((State.start g.toMacros mem flag).loops g.toMacros l).ring.trace := by
  constructor
  · intro s reach a
    obtain ⟨w, tracks⟩ := reachable_tracks reach
    exact reportsFill_iff tracks a
  · intro mem flag l
    have run {s : State} {w : Window.State} (h : Tracks g s.thread w)
        (before : netmcnts s.ring.trace = filledMcnts s.ring.trace)
        (reported : ∀ earlier a later, l = earlier ++ a :: later →
          Accepted g.toMacros a.frame →
          FillReported g.toMacros (s.loops g.toMacros earlier) a) :
        netmcnts (s.loops g.toMacros l).ring.trace =
          filledMcnts (s.loops g.toMacros l).ring.trace := by
      induction l generalizing s w with
      | nil => exact before
      | cons a l ih =>
        obtain ⟨w', next⟩ := loop_tracks h a
        refine ih next (loop_reports h a (reported [] a l rfl) before) ?_
        rintro earlier a' later rfl
        exact reported (a :: earlier) a' later rfl
    exact run (start_tracks g mem flag) rfl

theorem fills_reported_two :
    (ReportsFill fastSmall.toMacros
        (State.start fastSmall.toMacros (fun _ => 0) fun _ => .free) (fastPacket (2 ^ 57 + 3)) ↔
      FillReported fastSmall.toMacros
        (State.start fastSmall.toMacros (fun _ => 0) fun _ => .free) (fastPacket (2 ^ 57 + 3))) ∧
    netmcnts ((State.start fastSmall.toMacros (fun _ => 0) fun _ => .free).loops
        fastSmall.toMacros [fastPacket (2 ^ 57), fastPacket (2 ^ 57 + 3)]).ring.trace =
      filledMcnts ((State.start fastSmall.toMacros (fun _ => 0) fun _ => .free).loops
        fastSmall.toMacros [fastPacket (2 ^ 57), fastPacket (2 ^ 57 + 3)]).ring.trace := by
  obtain ⟨call, run⟩ := fills_reported_iff fastSmall
  refine ⟨call _ (.start _ _) _, run _ _ _ ?_⟩
  rintro (_ | ⟨b, _ | ⟨c, earlier⟩⟩) a later split _
  · obtain ⟨rfl, _⟩ := List.cons.inj split
    decide +kernel
  · obtain ⟨rfl, rest⟩ := List.cons.inj split
    obtain ⟨rfl, _⟩ := List.cons.inj rest
    decide +kernel
  · simp at split

/-- A packet that finishes block 0 and whose source id is out of range: block 0 is
filled, and nothing is reported. -/
theorem bad_sid_not_reported :
    ¬ ReportsFill fastSmall.toMacros
      (State.start fastSmall.toMacros (fun _ => 0) fun _ => .free) (fastPacket 3) ∧
    filledMcnts ((State.start fastSmall.toMacros (fun _ => 0) fun _ => .free).loops
      fastSmall.toMacros [fastPacket 3]).ring.trace = [0] ∧
    netmcnts ((State.start fastSmall.toMacros (fun _ => 0) fun _ => .free).loops
      fastSmall.toMacros [fastPacket 3]).ring.trace = [] := by
  refine ⟨?_, by decide +kernel, by decide +kernel⟩
  rw [reportsFill_iff (start_tracks fastSmall (fun _ => 0) fun _ => .free)]
  decide +kernel

end S6Reobs
