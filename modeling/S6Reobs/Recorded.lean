import S6Reobs.Drain
import S6Reobs.Fills
import S6Reobs.Reorder

/-! What the recorded blocks say of the packets, whatever the order of the threads' steps.
What held of every block that process_packet filled holds of every block recorded. -/

namespace S6Reobs

open Relation Word Window

variable {g : Geometry}

/-- The seconds and nanoseconds of a block. -/
def Tuple.time (t : Tuple) : Timespec := ⟨t.timeSec, t.timeNsec⟩

/-! ## The tuples of a trace -/

theorem filledTuples_cons {m : Macros} {e : Effect} (other : ∀ b, e ≠ .setFilled b) (mem : Mem)
    (tr : List Entry) : filledTuples m (⟨e, mem⟩ :: tr) = filledTuples m tr := by
  cases e with
  | setFilled b => exact absurd rfl (other b)
  | _ => rfl

theorem filledTuples_execAll {m : Macros} {es : List Effect}
    (other : ∀ e ∈ es, ∀ b, e ≠ .setFilled b) (r : Ring) :
    filledTuples m (r.execAll m es).trace = filledTuples m r.trace := by
  induction es generalizing r with
  | nil => rfl
  | cons e es ih =>
    rw [Ring.execAll_cons, ih (fun e' h => other e' (List.mem_cons_of_mem e h))]
    exact filledTuples_cons (other e List.mem_cons_self) r.mem r.trace

/-- Each filled tuple is that of a block when it was set filled. -/
theorem AtFills.tuple {m : Macros} {P : Nat → Mem → List Entry → Prop} {tr : List Entry}
    (h : AtFills P tr) {t : Tuple} (ht : t ∈ filledTuples m tr) :
    ∃ b mem earlier, P b mem earlier ∧ t = (blockAt mem b).tuple m := by
  induction tr with
  | nil => exact absurd ht List.not_mem_nil
  | cons e tr ih =>
    obtain ⟨e, mem⟩ := e
    cases e with
    | setFilled b =>
      obtain ⟨now, before⟩ := atFills_setFilled.mp h
      rcases List.mem_append.mp ht with ht | ht
      · exact ih before ht
      · exact ⟨b, mem, tr, now, List.mem_singleton.mp ht⟩
    | stamp | busywaitFree | initializeBlock | decMissedPkts | copyPayload | log | recvFrame
    | releaseFrame | hputNetmcnt => exact ih ((atFills_cons (by simp)).mp h) ht

/-- A call fills one block, if the packet is for the second half of the next. -/
theorem filledTuples_call {s : State} {w : Window.State} (h : Tracks g s.thread w)
    (a : Arrival) : filledTuples g.toMacros (s.call g.toMacros a).ring.trace =
      filledTuples g.toMacros s.ring.trace ++
        if g.verdict w.block (g.header a).mcnt = .advance then
          [(blockAt (stamped g.toMacros s.ring w.block a.now).mem
            (w.block % g.nInputBlocks)).tuple g.toMacros]
        else [] := by
  have store := ne_setFilled_of_unmarked (unmarked_storing g.toMacros a.frame)
  have logs (msgs : List Msg) (routine : ∀ msg ∈ msgs, msg.Routine) :=
    ne_setFilled_of_unmarked (unmarked_logs routine)
  obtain ⟨o, w', does, -, ring⟩ := call_ring h a
  rw [ring]
  cases does with
  | current v msgs routine effects =>
    rw [effects, Ring.execAll_append, filledTuples_execAll store,
      filledTuples_execAll (logs msgs routine)]
    simp [v]
  | advance v msgs routine effects =>
    rw [effects, Ring.execAll_append, Ring.execAll_append, filledTuples_execAll store,
      filledTuples_execAll (logs msgs routine), if_pos v]
    rfl
  | late v msgs routine effects =>
    rw [effects, filledTuples_execAll (logs msgs routine)]
    simp [v]
  | stray v few msgs routine effects =>
    rw [effects, filledTuples_execAll (logs msgs routine)]
    simp [v]
  | resync v many msgs routine pktMcnt effects =>
    rw [effects, Ring.execAll_append, filledTuples_execAll (by simp [recycling]),
      filledTuples_execAll (logs msgs routine)]
    simp [v]

/-- What is found in a list with one more element. -/
theorem getElem?_concat {α : Type} {l : List α} {x t : α} {i : Nat}
    (h : (l ++ [x])[i]? = some t) : l[i]? = some t ∨ i = l.length ∧ x = t := by
  by_cases old : i < l.length
  · rw [List.getElem?_append_left old] at h
    exact .inl h
  · rw [List.getElem?_append_right (Nat.le_of_not_lt old), List.getElem?_singleton] at h
    split at h
    · exact .inr ⟨by omega, Option.some.inj h⟩
    · cases h

namespace System

variable {mem : Mem} {nOut : Nat} {s : System}

theorem alone_append (m : Macros) (mem : Mem) (l : List Arrival) (a : Arrival) :
    alone m mem (l ++ [a]) = (alone m mem l).call m a := by
  rw [alone, State.run_append]
  rfl

theorem alone_tracks (g : Geometry) (mem : Mem) (l : List Arrival) :
    Tracks g (alone g.toMacros mem l).thread (g.window ⟨0, 0⟩ l) :=
  run_tracks (start_tracks g mem _) l

theorem alone_booked (g : Geometry) (mem : Mem) {l : List Arrival}
    (fits : ∀ a ∈ l, Fits g.toMacros a.frame) :
    Both (Booked g) (alone g.toMacros mem l).ring (g.window ⟨0, 0⟩ l) :=
  (run_filledUpTo (start_tracks g mem _) (start_booked g mem _) (start_filledUpTo g mem _) l
    fits).1

/-- s6_output_thread records the blocks that process_packet alone would have filled from
the same frames, in order and unchanged, whatever the order of the three threads' steps.
What held of each of those when it was filled holds of each that is recorded. -/
theorem recorded (g : Geometry) (fast : g.source = .fast) {nOut : Nat} (posOut : 0 < nOut)
    {mem : Mem} {s : System} (reach : Reachable g.toMacros nOut mem s)
    (fits : ∀ a ∈ s.heard, Fits g.toMacros a.frame) :
    s.consumers.seen <+: filledTuples g.toMacros (alone g.toMacros mem s.heard).ring.trace ∧
    ∀ P, AtFills P (alone g.toMacros mem s.heard).ring.trace → ∀ t ∈ s.consumers.seen,
      ∃ b mem' earlier, P b mem' earlier ∧ t = (blockAt mem' b).tuple g.toMacros := by
  have seen := reach.seen_filled fast posOut fits
  exact ⟨seen, fun P each t ht => each.tuple (seen.subset ht)⟩

/-- One packet fills block 0, and that is recorded. -/
theorem recorded_one : ∃ s, Reachable fastSmall.toMacros 2 (fun _ => 0) s ∧
    s.consumers.seen.length = 1 ∧ s.consumers.seen <+: filledTuples fastSmall.toMacros
      (alone fastSmall.toMacros (fun _ => 0) s.heard).ring.trace ∧
    ∀ P, AtFills P (alone fastSmall.toMacros (fun _ => 0) s.heard).ring.trace →
      ∀ t ∈ s.consumers.seen, ∃ b mem earlier, P b mem earlier ∧
        t = (blockAt mem b).tuple fastSmall.toMacros := by
  obtain ⟨s, reach, heard, seen⟩ := records_all fastSmall rfl Nat.two_pos (fun _ => 0)
    [fastPacket (2 ^ 57 + 3)] (by decide)
  exact ⟨s, reach, by rw [seen]; decide +kernel, recorded fastSmall rfl Nat.two_pos reach
    (by rw [heard]; decide)⟩

/-! ## Times -/

/-- A block gets the time of the packet that ends it. -/
theorem alone_times (g : Geometry) (mem : Mem) (l : List Arrival) :
    ((filledTuples g.toMacros (alone g.toMacros mem l).ring.trace).map Tuple.time).Sublist
      (l.map Arrival.now) := by
  induction l using List.reverseRecOn with
  | nil => exact List.Sublist.refl []
  | append_singleton l a ih =>
    rw [alone_append, filledTuples_call (alone_tracks g mem l) a, List.map_append,
      List.map_append]
    apply ih.append
    by_cases v : g.verdict (g.window ⟨0, 0⟩ l).block (g.header a).mcnt = .advance
    · rw [if_pos v]
      have time : Tuple.time ((blockAt (stamped g.toMacros (alone g.toMacros mem l).ring
          (g.window ⟨0, 0⟩ l).block a.now).mem
          ((g.window ⟨0, 0⟩ l).block % g.nInputBlocks)).tuple g.toMacros) = a.now := by
        simp [Tuple.time, Block.tuple, blockAt, stamped, Ring.exec, Effect.apply]
      rw [List.map_cons, List.map_nil, List.map_cons, List.map_nil, time]
    · rw [if_neg v]
      exact List.nil_sublist _

/-- Blocks are recorded with the time of the packet that ended them, each with that of
another packet and in the order in which the packets came. -/
theorem recorded_times (g : Geometry) (fast : g.source = .fast) {nOut : Nat} (posOut : 0 < nOut)
    {mem : Mem} {s : System} (reach : Reachable g.toMacros nOut mem s)
    (fits : ∀ a ∈ s.heard, Fits g.toMacros a.frame) :
    (s.consumers.seen.map Tuple.time).Sublist (s.heard.map Arrival.now) :=
  ((reach.seen_filled fast posOut fits).sublist.map _).trans (alone_times g mem s.heard)

theorem recorded_times_one : ∃ s, Reachable fastSmall.toMacros 2 (fun _ => 0) s ∧
    s.consumers.seen.length = 1 ∧
    (s.consumers.seen.map Tuple.time).Sublist (s.heard.map Arrival.now) := by
  obtain ⟨s, reach, heard, seen⟩ := records_all fastSmall rfl Nat.two_pos (fun _ => 0)
    [⟨(fastPacket (2 ^ 57 + 3)).frame, ⟨7, 5⟩⟩] (by decide)
  exact ⟨s, reach, by rw [seen]; decide +kernel,
    recorded_times fastSmall rfl Nat.two_pos reach (by rw [heard]; decide)⟩

/-! ## Packet counters -/

/-- The window moves to another place of the ring only when it advances. -/
theorem step_place {w : Window.State} {mcnt : Nat} (v : g.verdict w.block mcnt ≠ .advance) :
    (g.step w mcnt).block % g.nInputBlocks = w.block % g.nInputBlocks := by
  cases other : g.verdict w.block mcnt with
  | advance => exact absurd other v
  | current =>
    have next : g.step w mcnt = ⟨w.block, 0⟩ := step_current other
    rw [next]
  | late =>
    have next : g.step w mcnt = w := step_late other
    rw [next]
  | stray =>
    by_cases many : g.maxOutOfSeq < inc w.strays
    · have next : g.step w mcnt = ⟨_, inc w.strays⟩ := step_resync other many
      rw [next]
      exact target_place g.nm g.nInputBlocks_pos _ _
    · have next : g.step w mcnt = ⟨w.block, inc w.strays⟩ := step_stray other (by omega)
      rw [next]

/-- The `i`th block filled starts at a multiple of Nm and sits at place `i`, over resyncs. -/
theorem alone_places (g : Geometry) (mem : Mem) (l : List Arrival)
    (fits : ∀ a ∈ l, Fits g.toMacros a.frame) :
    (filledTuples g.toMacros (alone g.toMacros mem l).ring.trace).length % g.nInputBlocks =
      (g.window ⟨0, 0⟩ l).block % g.nInputBlocks ∧
    ∀ i t, (filledTuples g.toMacros (alone g.toMacros mem l).ring.trace)[i]? = some t →
      ∃ q, t.mcnt = g.nm * q ∧ q % g.nInputBlocks = i % g.nInputBlocks := by
  induction l using List.reverseRecOn with
  | nil =>
    refine ⟨rfl, ?_⟩
    intro i t h
    cases h
  | append_singleton l a ih =>
    have before : ∀ b ∈ l, Fits g.toMacros b.frame := fun b hb => fits b (List.mem_append_left _ hb)
    obtain ⟨place, each⟩ := ih before
    have booked := alone_booked g mem before _ (.inl rfl)
    rw [alone_append, filledTuples_call (alone_tracks g mem l) a, window_append]
    generalize g.window ⟨0, 0⟩ l = w at *
    by_cases v : g.verdict w.block (g.header a).mcnt = .advance
    · have next : g.step w (g.header a).mcnt = ⟨w.block + 1, 0⟩ := step_advance v
      rw [if_pos v, next, List.length_append, List.length_singleton]
      refine ⟨by rw [← Period.place_succ, place, Period.place_succ], ?_⟩
      intro i t ht
      rcases getElem?_concat ht with old | ⟨rfl, rfl⟩
      · exact each i t old
      · exact ⟨w.block, (stamped_mcnt g.toMacros _ w.block _ a.now).trans booked.mcnt,
          place.symm⟩
    · have same := step_place (g := g) (w := w) v
      rw [if_neg v, List.append_nil, same]
      exact ⟨place, each⟩

theorem Reachable.getElem_seen (reach : Reachable g.toMacros nOut mem s)
    (fits : ∀ a ∈ s.heard, Fits g.toMacros a.frame) (fast : g.source = .fast)
    (posOut : 0 < nOut) {i : Nat} (hi : i < s.consumers.seen.length) :
    (filledTuples g.toMacros (alone g.toMacros mem s.heard).ring.trace)[i]? =
      some s.consumers.seen[i] := by
  obtain ⟨later, eq⟩ := reach.seen_filled fast posOut fits
  rw [← eq, List.getElem?_append_left hi, List.getElem?_eq_getElem hi]

/-- Whatever was received, the `i`th block recorded starts at a multiple of Nm, and its number
is `i` modulo N_INPUT_BLOCKS: a resync skips whole laps of the ring. -/
theorem recorded_places (g : Geometry) (fast : g.source = .fast) {nOut : Nat} (posOut : 0 < nOut)
    {mem : Mem} {s : System} (reach : Reachable g.toMacros nOut mem s)
    (fits : ∀ a ∈ s.heard, Fits g.toMacros a.frame) {i : Nat}
    (hi : i < s.consumers.seen.length) :
    ∃ q, s.consumers.seen[i].mcnt = g.nm * q ∧ q % g.nInputBlocks = i % g.nInputBlocks :=
  (alone_places g mem s.heard fits).2 i _ (reach.getElem_seen fits fast posOut hi)

/-- The first block recorded has an even number, the ring having two blocks. -/
theorem recorded_places_one : ∃ s, Reachable fastSmall.toMacros 2 (fun _ => 0) s ∧
    ∃ h : 0 < s.consumers.seen.length,
      ∃ q, s.consumers.seen[0].mcnt = fastSmall.nm * q ∧ q % 2 = 0 % 2 := by
  obtain ⟨s, reach, heard, seen⟩ := records_all fastSmall rfl Nat.two_pos (fun _ => 0)
    [fastPacket (2 ^ 57 + 3)] (by decide)
  have one : 0 < s.consumers.seen.length := by
    rw [seen]
    decide +kernel
  exact ⟨s, reach, one, recorded_places fastSmall rfl Nat.two_pos reach (by rw [heard]; decide) one⟩

end System

/-! ## Labels -/

def Tuple.labels (t : Tuple) : Labels := ⟨t.sid, t.coarseChanId, t.numCoarseChan⟩

/-- A block has the packets' labels, or still those of run(). -/
theorem labels_or_zero_rule (g : Geometry) (c : Labels) : BlockRule g
    (fun f => (getHeader g.toMacros f).labels = c)
    (fun _ f => StaysIn g.toMacros (blockForMcnt g.toMacros (getHeader g.toMacros f).mcnt) f)
    (fun j r => labelsAt r.mem (j % g.nInputBlocks) = c ∨
      labelsAt r.mem (j % g.nInputBlocks) = .zero) where
  stays _ _ stays _ := stays
  apart apart q := q.imp ((labels_rule g c).apart apart) ((labels_rule g .zero).apart apart)
  store known number stays q :=
    q.imp ((labels_rule g c).store known number stays)
      ((labels_rule g .zero).store known number stays)
  opens j r labels := .inl ((labels_rule g c).opens j r labels)

/-- After `n` fills only blocks 0 and 1 can have the labels of run(). -/
structure LabelsKept (g : Geometry) (c : Labels) (n : Nat) (w : Window.State) (r : Ring) :
    Prop where
  either : Both (fun j r => labelsAt r.mem (j % g.nInputBlocks) = c ∨
    labelsAt r.mem (j % g.nInputBlocks) = .zero) r w
  current : 2 ≤ n → labelsAt r.mem (w.block % g.nInputBlocks) = c
  next : 1 ≤ n → labelsAt r.mem ((w.block + 1) % g.nInputBlocks) = c

theorem start_labelsKept (g : Geometry) (c : Labels) (mem : Mem) (flag : Nat → Flag) :
    LabelsKept g c 0 ⟨0, 0⟩ (State.start g.toMacros mem flag).ring := by
  have zero := (labels_rule g .zero).start_both (fun j r => by
    simp [labelsAt, Ring.exec, Effect.apply, initField, Labels.zero]) mem flag
  exact ⟨fun j hj => .inr (zero j hj), fun few => by omega, fun few => by omega⟩

theorem LabelsKept.call {c : Labels} {n : Nat} {s : State} {w : Window.State}
    (kept : LabelsKept g c n w s.ring) (tracks : Tracks g s.thread w) {a : Arrival}
    (labels : (g.header a).labels = c) (fits : Fits g.toMacros a.frame) :
    LabelsKept g c (if g.verdict w.block (g.header a).mcnt = .advance then n + 1 else n)
      (g.step w (g.header a).mcnt) (s.call g.toMacros a).ring := by
  have joins (stores : Stores g.toMacros s a) : StaysIn g.toMacros
      (blockForMcnt g.toMacros (getHeader g.toMacros a.frame).mcnt) a.frame :=
    fits.staysIn g.nm_pos stores.2 _
  have held {j : Nat} (still : (g.step w (g.header a).mcnt).Holds j)
      (before : w.Holds j → labelsAt s.ring.mem (j % g.nInputBlocks) = c) :
      labelsAt (s.call g.toMacros a).ring.mem (j % g.nInputBlocks) = c :=
    (labels_rule g c).call_held tracks joins labels still before
  have either := (labels_or_zero_rule g c).call_both tracks joins labels kept.either
  by_cases v : g.verdict w.block (g.header a).mcnt = .advance
  · have next : g.step w (g.header a).mcnt = ⟨w.block + 1, 0⟩ := step_advance v
    rw [if_pos v]
    rw [next] at held either ⊢
    refine ⟨either, fun few => held (.inl rfl) ?_, fun _ => held (.inr rfl) ?_⟩
    · exact fun _ => kept.next (by omega)
    · intro before
      simp only [Window.State.Holds] at before
      omega
  · have place := System.step_place (g := g) (w := w) v
    rw [if_neg v]
    refine ⟨either, fun few => held (.inl rfl) ?_, fun few => held (.inr rfl) ?_⟩
    · rintro (same | same)
      · rw [same]
        exact kept.current few
      · rw [same]
        exact kept.next (by omega)
    · rintro (same | same)
      · have apart := Period.place_ne_succ g.two_le_blocks (g.step w (g.header a).mcnt).block
        rw [same, place] at apart
        exact absurd rfl apart
      · rw [same]
        exact kept.next few

namespace System

theorem alone_labels (g : Geometry) (mem : Mem) {c : Labels} (l : List Arrival)
    (fits : ∀ a ∈ l, Fits g.toMacros a.frame) (uniform : ∀ a ∈ l, (g.header a).labels = c) :
    LabelsKept g c (filledTuples g.toMacros (alone g.toMacros mem l).ring.trace).length
      (g.window ⟨0, 0⟩ l) (alone g.toMacros mem l).ring ∧
    ∀ i t, (filledTuples g.toMacros (alone g.toMacros mem l).ring.trace)[i]? = some t →
      t.labels = c ∨ i < 2 ∧ t.labels = .zero := by
  induction l using List.reverseRecOn with
  | nil =>
    refine ⟨start_labelsKept g c mem _, ?_⟩
    intro i t h
    cases h
  | append_singleton l a ih =>
    obtain ⟨kept, each⟩ := ih (fun b hb => fits b (List.mem_append_left _ hb))
      fun b hb => uniform b (List.mem_append_left _ hb)
    have tracks := alone_tracks g mem l
    have called := kept.call tracks (uniform a (by simp)) (fits a (by simp))
    rw [alone_append, filledTuples_call tracks a, window_append]
    by_cases v : g.verdict (g.window ⟨0, 0⟩ l).block (g.header a).mcnt = .advance
    · rw [if_pos v] at called ⊢
      refine ⟨by rwa [List.length_append], ?_⟩
      intro i t ht
      rcases getElem?_concat ht with old | ⟨rfl, rfl⟩
      · exact each i t old
      · -- the time stamp leaves the labels alone
        have same (b : Nat) : Tuple.labels ((blockAt (stamped g.toMacros
            (alone g.toMacros mem l).ring (g.window ⟨0, 0⟩ l).block a.now).mem b).tuple
            g.toMacros) = labelsAt (alone g.toMacros mem l).ring.mem b := by
          simp [Tuple.labels, Block.tuple, blockAt, stamped, Ring.exec, Effect.apply, labelsAt]
        rw [same]
        by_cases few : (filledTuples g.toMacros (alone g.toMacros mem l).ring.trace).length < 2
        · exact (kept.either _ (.inl rfl)).imp id fun zero => ⟨few, zero⟩
        · exact .inl (kept.current (Nat.le_of_not_lt few))
    · rw [if_neg v] at called ⊢
      rw [List.append_nil]
      exact ⟨called, each⟩

/-- If all packets have the same labels, every block recorded has them, except that the first
two may have zeros; so from the third on beam and pol are those of the packets. -/
theorem recorded_labels (g : Geometry) (fast : g.source = .fast) {nOut : Nat} (posOut : 0 < nOut)
    {mem : Mem} {s : System} (reach : Reachable g.toMacros nOut mem s)
    (fits : ∀ a ∈ s.heard, Fits g.toMacros a.frame) {c : Labels}
    (uniform : ∀ a ∈ s.heard, (g.header a).labels = c) {i : Nat}
    (hi : i < s.consumers.seen.length) :
    (s.consumers.seen[i].labels = c ∨ i < 2 ∧ s.consumers.seen[i].labels = .zero) ∧
    ∀ beam pol, 1 ≤ beam → (∀ a ∈ s.heard, rawBeam a.frame = beam ∧ rawPol a.frame = pol) →
      2 ≤ i → s.consumers.seen[i].beam = beam - 1 ∧ s.consumers.seen[i].pol = pol := by
  have at_ := reach.getElem_seen fits fast posOut hi
  have labels := (alone_labels g mem s.heard fits uniform).2 i _ at_
  refine ⟨labels, ?_⟩
  intro beam pol one raw late
  obtain ⟨a, ha⟩ : ∃ a, a ∈ s.heard := by
    apply List.exists_mem_of_ne_nil
    intro none
    rw [none] at at_
    cases at_
  obtain ⟨hb, hq⟩ := raw a ha
  have sid : s.consumers.seen[i].sid = 2 * (beam - 1) + pol := by
    have same := labels.resolve_right fun few => by omega
    rw [← fast_sid fast hb hq one, uniform a ha, ← same]
    rfl
  have bit : pol ≤ 1 := hq ▸ Nat.and_le_right
  have width : beam ≤ 31 := hb ▸ beamBits_le _
  rw [Tuple.beam_eq (by omega), Tuple.pol, sid]
  omega

/-- Three blocks of beam 2. -/
theorem recorded_labels_three : ∃ s, Reachable fastSmall.toMacros 2 (fun _ => 0) s ∧
    ∃ h : 2 < s.consumers.seen.length, s.consumers.seen[2].labels = ⟨2, 0, 0⟩ ∧
      s.consumers.seen[2].beam = 2 - 1 ∧ s.consumers.seen[2].pol = 0 := by
  obtain ⟨s, reach, heard, seen⟩ := records_all fastSmall rfl Nat.two_pos (fun _ => 0)
    [fastPacket (2 ^ 58 + 3), fastPacket (2 ^ 58 + 5), fastPacket (2 ^ 58 + 7)] (by decide)
  have three : 2 < s.consumers.seen.length := by
    rw [seen]
    decide +kernel
  have uniform : ∀ a ∈ s.heard, (fastSmall.header a).labels = ⟨2, 0, 0⟩ := by
    rw [heard]
    decide
  have raw : ∀ a ∈ s.heard, rawBeam a.frame = 2 ∧ rawPol a.frame = 0 := by
    rw [heard]
    decide
  obtain ⟨labels, raws⟩ :=
    recorded_labels fastSmall rfl Nat.two_pos reach (by rw [heard]; decide) uniform three
  exact ⟨s, reach, three, labels.resolve_right fun few => Nat.lt_irrefl 2 few.1,
    raws 2 0 (by decide) raw (Nat.le_refl 2)⟩

end System

end S6Reobs
