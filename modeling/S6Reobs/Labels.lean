import S6Reobs.Contents
import S6Reobs.Pipeline

/-! The labels of a block. initialize_block writes them from the packet that caused a
block to be acquired or recycled, and run() writes zeros into the first two blocks,
whatever is stored in them later. -/

namespace S6Reobs

open Word Window

/-- The header fields that say whose packets a block holds. -/
structure Labels where
  sid : Nat
  coarseChanId : Nat
  numCoarseChan : Nat
  deriving DecidableEq

def PacketHeader.labels (hdr : PacketHeader) : Labels := ⟨hdr.sid, hdr.pchan, hdr.nchan⟩

def labelsAt (mem : Mem) (b : Nat) : Labels :=
  ⟨mem (.header b .sid), mem (.header b .coarseChanId), mem (.header b .numCoarseChan)⟩

/-- The labels that run() gives the first two blocks. -/
def Labels.zero : Labels := ⟨0, 0, 0⟩

/-- `block[b]` was initialised in the course of `tr`. -/
def Initialised (b : Nat) (tr : List Entry) : Prop :=
  ∃ e ∈ tr, ∃ mcnt pchan nchan sid, e.effect = .initializeBlock b mcnt pchan nchan sid

/-- The words of `block[b]`. -/
def blockAt (mem : Mem) (b : Nat) : Block
  | .header f => mem (.header b f)
  | .data k => mem (.data b k)

/-- Beam and pol as the FAST raw header has them, the beam counted from 1. -/
def rawBeam (f : Frame) : Nat := (f.udpWord 0 >>> 56 &&& 0x3e) >>> 1
def rawPol (f : Frame) : Nat := f.udpWord 0 >>> 56 &&& 0x01

variable {g : Geometry}

theorem labels_ext {mem mem' : Mem} {b : Nat}
    (same : ∀ fld ∈ [Field.sid, .coarseChanId, .numCoarseChan],
      mem (.header b fld) = mem' (.header b fld)) : labelsAt mem b = labelsAt mem' b := by
  rw [labelsAt, labelsAt, same .sid (by simp), same .coarseChanId (by simp),
    same .numCoarseChan (by simp)]

/-- Storing packets leaves labels alone; a block opened by a packet has the packet's. -/
theorem labels_rule (g : Geometry) (c : Labels) : BlockRule g
    (fun f => (getHeader g.toMacros f).labels = c)
    (fun _ f => StaysIn g.toMacros (blockForMcnt g.toMacros (getHeader g.toMacros f).mcnt) f)
    (fun j r => labelsAt r.mem (j % g.nInputBlocks) = c) where
  stays _ _ stays _ := stays
  apart {j r e} apart q := by
    rw [← q]
    apply labels_ext
    intro fld hfld
    have word : fld.word < 4 ∧ fld ≠ .timeSec ∧ fld ≠ .timeNsec := by
      simp only [List.mem_cons, List.not_mem_nil, or_false] at hfld
      rcases hfld with rfl | rfl | rfl <;> simp [Field.word]
    exact apart.header r.mem (header_valid g j (by omega)) word.2.1 word.2.2
  store {j r f} known number stays q := by
    rw [← q]
    apply labels_ext
    intro fld hfld
    have word : fld.word < 4 ∧ ∀ i, fld ≠ .missedPkts i := by
      simp only [List.mem_cons, List.not_mem_nil, or_false] at hfld
      rcases hfld with rfl | rfl | rfl <;> simp [Field.word]
    rw [store_header stays r (by omega)]
    simp [Ring.exec, decFor, Effect.apply, word.2]
  opens {f} j r labels := by
    rw [← labels]
    simp [labelsAt, Ring.exec, openFor, Effect.apply, initField, PacketHeader.labels]

/-- The block has labels `c` if it was initialised, and zeros if not. -/
structure Labelled (g : Geometry) (c : Labels) (j : Nat) (r : Ring) : Prop where
  initialised : Initialised (j % g.nInputBlocks) r.trace →
    labelsAt r.mem (j % g.nInputBlocks) = c
  startup : ¬ Initialised (j % g.nInputBlocks) r.trace →
    labelsAt r.mem (j % g.nInputBlocks) = Labels.zero

theorem initialised_exec {m : Macros} {b : Nat} {e : Effect}
    (other : ∀ mcnt pchan nchan sid, e ≠ .initializeBlock b mcnt pchan nchan sid) (r : Ring) :
    Initialised b (r.exec m e).trace ↔ Initialised b r.trace := by
  constructor
  · rintro ⟨e', he', mcnt, pchan, nchan, sid, eq⟩
    rcases List.mem_cons.mp he' with rfl | he'
    · exact absurd eq (other mcnt pchan nchan sid)
    · exact ⟨e', he', mcnt, pchan, nchan, sid, eq⟩
  · rintro ⟨e', he', rest⟩
    exact ⟨e', List.mem_cons_of_mem _ he', rest⟩

theorem Effect.Apart.not_init {m : Macros} {b : Nat} {e : Effect} (apart : e.Apart m b)
    (mcnt pchan nchan sid : Nat) : e ≠ .initializeBlock b mcnt pchan nchan sid := by
  rintro rfl
  exact apart rfl

theorem labelled_rule (g : Geometry) (c : Labels) : BlockRule g
    (fun f => (getHeader g.toMacros f).labels = c)
    (fun _ f => StaysIn g.toMacros (blockForMcnt g.toMacros (getHeader g.toMacros f).mcnt) f)
    (Labelled g c) where
  stays _ _ stays _ := stays
  apart {j r e} apart q := by
    have same := initialised_exec (m := g.toMacros) apart.not_init r
    exact ⟨fun h => (labels_rule g c).apart apart (q.initialised (same.mp h)),
      fun h => (labels_rule g .zero).apart apart (q.startup (same.not.mp h))⟩
  store {j r f} known number stays q := by
    have same : Initialised (j % g.nInputBlocks) ((r.exec g.toMacros (decFor g.toMacros f)).exec
        g.toMacros (copyFor g.toMacros f)).trace ↔ Initialised (j % g.nInputBlocks) r.trace :=
      (initialised_exec (by simp [copyFor]) _).trans (initialised_exec (by simp [decFor]) r)
    exact ⟨fun h => (labels_rule g c).store known number stays (q.initialised (same.mp h)),
      fun h => (labels_rule g .zero).store known number stays (q.startup (same.not.mp h))⟩
  opens {f} j r labels :=
    ⟨fun _ => (labels_rule g c).opens j r labels,
      fun none => absurd ⟨_, List.mem_cons_self, _, _, _, _, rfl⟩ none⟩

theorem start_labelled (g : Geometry) (c : Labels) (mem : Mem) (flag : Nat → Flag) :
    Both (Labelled g c) (State.start g.toMacros mem flag).record.ring ⟨0, 0⟩ := by
  have zero := (labels_rule g .zero).start_both (fun j r => by
    simp [labelsAt, Ring.exec, Effect.apply, initField, Labels.zero]) mem flag
  intro j hj
  refine ⟨?_, fun _ => zero j hj⟩
  rintro ⟨e, he, _⟩
  simp [State.record] at he

/-- The sid of a FAST packet, from its raw beam and pol. -/
theorem fast_sid (fast : g.source = .fast) {f : Frame} {beam pol : Nat} (hb : rawBeam f = beam)
    (hq : rawPol f = pol) (one : 1 ≤ beam) :
    (getHeader g.toMacros f).labels.sid = 2 * (beam - 1) + pol := by
  rw [← fastSid_eq hb hq one]
  simp [PacketHeader.labels, getHeader, fast]

/-- A block of a run with labels `c` has them from process_packet, or those of run(). -/
theorem run_labelled (mem : Mem) (flag : Nat → Flag) {c : Labels} {l : List Arrival}
    (uniform : ∀ a ∈ l, (g.header a).labels = c)
    (contained : ∀ earlier a later, l = earlier ++ a :: later →
      Stores g.toMacros ((State.start g.toMacros mem flag).record.run g.toMacros earlier) a →
      StaysIn g.toMacros (blockForMcnt g.toMacros (g.header a).mcnt) a.frame) :
    AtFills (fun b mem tr => (Initialised b tr → labelsAt mem b = c) ∧
        (¬ Initialised b tr → labelsAt mem b = Labels.zero))
      ((State.start g.toMacros mem flag).record.run g.toMacros l).ring.trace := by
  have tracks : Tracks g (State.start g.toMacros mem flag).record.thread ⟨0, 0⟩ :=
    start_tracks g mem flag
  exact ((labelled_rule g c).run_keeps (fun _ _ q => ⟨q.initialised, q.startup⟩) tracks uniform
    contained (start_labelled g c mem flag) atFills_nil).2

/-- In a run whose packets all have labels `c`, and whose copies stay inside their
blocks, a filled block has labels `c` exactly if process_packet initialised it or `c`
is what run() initialises with. What s6_output_thread then makes of the sid is the
packets' beam and pol under the same condition. -/
theorem labels_match_iff (g : Geometry) (mem : Mem) (flag : Nat → Flag) {c : Labels}
    (l : List Arrival) (uniform : ∀ a ∈ l, (g.header a).labels = c)
    (contained : ∀ earlier a later, l = earlier ++ a :: later →
      Stores g.toMacros ((State.start g.toMacros mem flag).record.run g.toMacros earlier) a →
      StaysIn g.toMacros (blockForMcnt g.toMacros (g.header a).mcnt) a.frame) :
    AtFills (fun b mem tr => stored b tr ≠ [] →
        (labelsAt mem b = c ↔ Initialised b tr ∨ c = Labels.zero))
      ((State.start g.toMacros mem flag).record.run g.toMacros l).ring.trace ∧
    ∀ beam pol, g.source = .fast → 1 ≤ beam →
      (∀ a ∈ l, rawBeam a.frame = beam ∧ rawPol a.frame = pol) →
      AtFills (fun b mem tr => stored b tr ≠ [] →
          (((blockAt mem b).tuple g.toMacros).beam = beam - 1 ∧
              ((blockAt mem b).tuple g.toMacros).pol = pol ↔
            Initialised b tr ∨ (beam = 1 ∧ pol = 0)))
        ((State.start g.toMacros mem flag).record.run g.toMacros l).ring.trace := by
  have labelled := run_labelled mem flag uniform contained
  constructor
  · intro later b mem earlier split _
    obtain ⟨init, startup⟩ := labelled later b mem earlier split
    by_cases h : Initialised b earlier
    · simp [h, init h]
    · simp [h, startup h, eq_comm]
  · intro beam pol fast one raw later b mem earlier split _
    obtain ⟨init, startup⟩ := labelled later b mem earlier split
    have sid : c.sid = 2 * (beam - 1) + pol ∧ pol ≤ 1 ∧ beam ≤ 31 := by
      cases l with
      | nil => simp [State.record] at split
      | cons a l =>
        obtain ⟨hb, hq⟩ := raw a List.mem_cons_self
        rw [← uniform a List.mem_cons_self]
        exact ⟨fast_sid fast hb hq one, hq ▸ Nat.and_le_right, hb ▸ beamBits_le _⟩
    have published : ((blockAt mem b).tuple g.toMacros).sid = (labelsAt mem b).sid := rfl
    by_cases h : Initialised b earlier
    · rw [init h] at published
      rw [Tuple.beam_eq (by omega), Tuple.pol, published]
      simp only [h, true_or, iff_true]
      omega
    · rw [startup h] at published
      simp only [Labels.zero] at published
      rw [Tuple.beam_eq (by omega), Tuple.pol, published]
      simp only [h, false_or]
      omega

theorem labels_match_iff_beam_two : AtFills (fun b mem tr => stored b tr ≠ [] →
      (labelsAt mem b = ⟨2, 0, 0⟩ ↔ Initialised b tr ∨ (⟨2, 0, 0⟩ : Labels) = Labels.zero))
    ((State.start fastSmall.toMacros (fun _ => 0) fun _ => .free).record.run fastSmall.toMacros
      [fastPacket (2 ^ 58), fastPacket (2 ^ 58 + 3), fastPacket (2 ^ 58 + 5),
        fastPacket (2 ^ 58 + 7)]).ring.trace := by
  have fits : ∀ a ∈ [fastPacket (2 ^ 58), fastPacket (2 ^ 58 + 3), fastPacket (2 ^ 58 + 5),
      fastPacket (2 ^ 58 + 7)], Fits fastSmall.toMacros a.frame := by decide
  refine (labels_match_iff fastSmall _ _ _ (by decide) ?_).1
  intro earlier a later split stores
  have mem : a ∈ earlier ++ a :: later := List.mem_append_right _ List.mem_cons_self
  exact (fits a (split ▸ mem)).staysIn fastSmall.nm_pos stores.2 _

/-- Two full packets of beam 2, pol 0, inside the start-up window: the block that the
second one fills holds the first and says beam 0. -/
theorem startup_labels_wrong :
    (∀ a ∈ [fastPacket (2 ^ 58), fastPacket (2 ^ 58 + 3)],
      (fastSmall.header a).labels = ⟨2, 0, 0⟩ ∧ rawBeam a.frame = 2 ∧ rawPol a.frame = 0) ∧
    ¬ AtFills (fun b mem tr => stored b tr ≠ [] → labelsAt mem b = ⟨2, 0, 0⟩)
      ((State.start fastSmall.toMacros (fun _ => 0) fun _ => .free).record.run fastSmall.toMacros
        [fastPacket (2 ^ 58), fastPacket (2 ^ 58 + 3)]).ring.trace ∧
    ¬ AtFills (fun b mem tr => stored b tr ≠ [] →
        ((blockAt mem b).tuple fastSmall.toMacros).beam = 1)
      ((State.start fastSmall.toMacros (fun _ => 0) fun _ => .free).record.run fastSmall.toMacros
        [fastPacket (2 ^ 58), fastPacket (2 ^ 58 + 3)]).ring.trace := by
  have start : Tracks fastSmall (State.start fastSmall.toMacros (fun _ => 0)
      fun _ => .free).record.thread ⟨0, 0⟩ := start_tracks fastSmall (fun _ => 0) fun _ => .free
  have tracks := run_tracks start [fastPacket (2 ^ 58)]
  refine ⟨by decide +kernel, ?_, ?_⟩ <;> intro h <;>
    have wrong := ((atFills_call tracks (fastPacket (2 ^ 58 + 3)) _).mp h).2 (by decide +kernel)
      (List.cons_ne_nil _ _) <;>
    revert wrong <;>
    decide +kernel

end S6Reobs
