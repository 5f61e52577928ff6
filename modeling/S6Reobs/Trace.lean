import Mathlib.Data.List.Chain
import S6Reobs.Control
import S6Reobs.Slots

/-! What the trace of a ring says about its blocks: the packets stored since a
block was last initialised, the blocks marked filled, and what held when they were. -/

namespace S6Reobs

open Word Window

/-- The packets stored in `block[b]` since its last initialize_block, the latest first. -/
def stored (b : Nat) : List Entry → List Frame
  | [] => []
  | e :: tr => match e.effect with
    | .copyPayload c f => if c = b then f :: stored b tr else stored b tr
    | .initializeBlock c .. => if c = b then [] else stored b tr
    | _ => stored b tr

/-- `P` held of every block when it was marked filled, of the memory and the
trace up to then. -/
def AtFills (P : Nat → Mem → List Entry → Prop) (tr : List Entry) : Prop :=
  ∀ later b mem earlier, tr = later ++ ⟨.setFilled b, mem⟩ :: earlier → P b mem earlier

section AtFills

variable {P : Nat → Mem → List Entry → Prop} {tr : List Entry}

theorem atFills_nil : AtFills P [] := by
  intro later b mem earlier h
  simp at h

theorem atFills_setFilled {b : Nat} {mem : Mem} :
    AtFills P (⟨.setFilled b, mem⟩ :: tr) ↔ P b mem tr ∧ AtFills P tr := by
  constructor
  · intro h
    refine ⟨h [] b mem tr rfl, ?_⟩
    rintro later c mem' earlier rfl
    exact h (⟨.setFilled b, mem⟩ :: later) c mem' earlier rfl
  · rintro ⟨now, before⟩ later c mem' earlier h
    cases later with
    | nil =>
      simp only [List.nil_append, List.cons.injEq, Entry.mk.injEq, Effect.setFilled.injEq] at h
      obtain ⟨⟨rfl, rfl⟩, rfl⟩ := h
      exact now
    | cons e later =>
      exact before later c mem' earlier (List.cons.inj h).2

theorem atFills_cons {e : Effect} (he : ∀ b, e ≠ .setFilled b) {mem : Mem} :
    AtFills P (⟨e, mem⟩ :: tr) ↔ AtFills P tr := by
  constructor
  · rintro h later b mem' earlier rfl
    exact h (⟨e, mem⟩ :: later) b mem' earlier rfl
  · intro h later b mem' earlier eq
    cases later with
    | nil =>
      simp only [List.nil_append, List.cons.injEq, Entry.mk.injEq] at eq
      exact absurd eq.1.1 (he b)
    | cons e' later => exact h later b mem' earlier (List.cons.inj eq).2

theorem atFills_execAll {m : Macros} {es : List Effect} (he : ∀ e ∈ es, ∀ b, e ≠ .setFilled b)
    (r : Ring) : AtFills P (r.execAll m es).trace ↔ AtFills P r.trace := by
  induction es generalizing r with
  | nil => rfl
  | cons e es ih =>
    rw [Ring.execAll_cons, ih (fun e' h => he e' (List.mem_cons_of_mem e h))]
    exact atFills_cons (he e List.mem_cons_self)

end AtFills

theorem trace_execAll (m : Macros) (es : List Effect) (r : Ring) :
    ∃ later, (r.execAll m es).trace = later ++ r.trace := by
  induction es generalizing r with
  | nil => exact ⟨[], rfl⟩
  | cons e es ih =>
    obtain ⟨later, eq⟩ := ih (r.exec m e)
    exact ⟨later ++ [⟨e, r.mem⟩], by rw [Ring.execAll_cons, eq, List.append_assoc]; rfl⟩

theorem trace_run (m : Macros) (l : List Arrival) (s : State) :
    ∃ later, (s.run m l).ring.trace = later ++ s.ring.trace := by
  induction l generalizing s with
  | nil => exact ⟨[], rfl⟩
  | cons a l ih =>
    obtain ⟨later, eq⟩ := ih (s.call m a)
    obtain ⟨now, eq'⟩ := trace_execAll m (processPacket m s.thread a).effects s.ring
    refine ⟨later ++ now, ?_⟩
    rw [State.run_cons, eq, List.append_assoc, ← eq']
    rfl

theorem trace_run_extends (m : Macros) (s : State) {l k : List Arrival} (pre : k <+: l) :
    ∃ later, (s.run m l).ring.trace = later ++ (s.run m k).ring.trace := by
  obtain ⟨more, rfl⟩ := pre
  rw [State.run_append]
  exact trace_run m more _

/-! ## Fills and resyncs in order -/

inductive Mark
  | filled (b mcnt : Nat)
  | reset
  deriving DecidableEq

def Entry.mark (e : Entry) : Option Mark :=
  match e.effect with
  | .setFilled b => some (.filled b (e.before (.header b .mcnt)))
  | .log (.resetting ..) => some .reset
  | _ => none

/-- The blocks marked filled, with their header.mcnt, and the resyncs, oldest first. -/
def marks (tr : List Entry) : List Mark := tr.reverse.filterMap Entry.mark

def filledBlocks (tr : List Entry) : List Nat :=
  (marks tr).filterMap fun | .filled b _ => some b | .reset => none

def filledMcnts (tr : List Entry) : List Nat :=
  (marks tr).filterMap fun | .filled _ mcnt => some mcnt | .reset => none

/-- The effect is neither a fill nor the notice of a resync. -/
def Effect.Unmarked : Effect → Prop
  | .setFilled _ => False
  | .log msg => msg.Routine
  | _ => True

theorem Effect.Unmarked.ne {e : Effect} (he : e.Unmarked) (b : Nat) : e ≠ .setFilled b := by
  rintro rfl
  exact he

theorem marks_cons (e : Entry) (tr : List Entry) :
    marks (e :: tr) = marks tr ++ e.mark.toList := by
  rw [marks, List.reverse_cons, List.filterMap_append]
  cases h : e.mark <;> simp [h, marks]

theorem mark_unmarked {e : Effect} (he : e.Unmarked) (mem : Mem) : Entry.mark ⟨e, mem⟩ = none := by
  cases e with
  | setFilled b => exact he.elim
  | log msg => cases msg <;> first | rfl | exact he.elim
  | _ => rfl

theorem marks_execAll {m : Macros} {es : List Effect} (un : ∀ e ∈ es, e.Unmarked) (r : Ring) :
    marks (r.execAll m es).trace = marks r.trace := by
  induction es generalizing r with
  | nil => rfl
  | cons e es ih =>
    have head := un e List.mem_cons_self
    rw [Ring.execAll_cons, ih (fun e' he => un e' (List.mem_cons_of_mem e he))]
    simp [Ring.exec, marks_cons, mark_unmarked head]

theorem unmarked_logs {msgs : List Msg} (routine : ∀ msg ∈ msgs, msg.Routine) :
    ∀ e ∈ msgs.map Effect.log, e.Unmarked := by
  intro e he
  obtain ⟨msg, hm, rfl⟩ := List.mem_map.mp he
  exact routine msg hm

theorem unmarked_storing (m : Macros) (f : Frame) : ∀ e ∈ storing m f, e.Unmarked := by
  intro e he
  rcases (mem_storing he).2 with rfl | rfl <;> trivial

/-! ## One call -/

variable {g : Geometry}

/-- The ring when the current block is marked filled in a call for `a`. -/
def stamped (m : Macros) (r : Ring) (k : Nat) (now : Timespec) : Ring :=
  r.exec m (.stamp (k % m.nInputBlocks) now)

/-- The memory in which the fill of a call finds the ring. -/
theorem stamped_mcnt (m : Macros) (r : Ring) (k b : Nat) (now : Timespec) :
    (stamped m r k now).mem (.header b .mcnt) = r.mem (.header b .mcnt) := by
  simp [stamped, Ring.exec, Effect.apply]

theorem ne_setFilled_of_unmarked {es : List Effect} (he : ∀ e ∈ es, e.Unmarked) :
    ∀ e ∈ es, ∀ b, e ≠ .setFilled b :=
  fun e h b => (he e h).ne b

section Call

variable {s : State} {w : Window.State} (h : Tracks g s.thread w) (a : Arrival)
include h

theorem atFills_call (P : Nat → Mem → List Entry → Prop) :
    AtFills P (s.call g.toMacros a).ring.trace ↔ AtFills P s.ring.trace ∧
      (g.verdict w.block (g.header a).mcnt = .advance →
        P (w.block % g.nInputBlocks) (stamped g.toMacros s.ring w.block a.now).mem
          (stamped g.toMacros s.ring w.block a.now).trace) := by
  have store := ne_setFilled_of_unmarked (unmarked_storing g.toMacros a.frame)
  have logs (msgs : List Msg) (routine : ∀ msg ∈ msgs, msg.Routine) :=
    ne_setFilled_of_unmarked (unmarked_logs routine)
  obtain ⟨o, w', does, -, ring⟩ := call_ring h a
  rw [ring]
  cases does with
  | current v msgs routine effects =>
    rw [effects, Ring.execAll_append, atFills_execAll store, atFills_execAll (logs msgs routine)]
    simp [v]
  | advance v msgs routine effects =>
    rw [effects, Ring.execAll_append, Ring.execAll_append, atFills_execAll store,
      atFills_execAll (logs msgs routine)]
    simp only [filling, Ring.execAll_cons, Ring.execAll_nil, v, forall_const]
    rw [Ring.exec, atFills_cons (by simp), Ring.exec, atFills_cons (by simp), Ring.exec,
      atFills_setFilled, And.comm]
    exact and_congr_left' (atFills_cons (by simp))
  | late v msgs routine effects =>
    rw [effects, atFills_execAll (logs msgs routine)]
    simp [v]
  | stray v few msgs routine effects =>
    rw [effects, atFills_execAll (logs msgs routine)]
    simp [v]
  | resync v many msgs routine pktMcnt effects =>
    rw [effects, Ring.execAll_append, atFills_execAll (by simp [recycling]),
      atFills_execAll (logs msgs routine)]
    simp [v]

/-- The fill of an advancing call. -/
theorem trace_call_fill (v : g.verdict w.block (g.header a).mcnt = .advance) :
    ∃ later, (s.call g.toMacros a).ring.trace = later ++ ⟨.setFilled (w.block % g.nInputBlocks),
      (stamped g.toMacros s.ring w.block a.now).mem⟩ ::
        (stamped g.toMacros s.ring w.block a.now).trace := by
  obtain ⟨o, w', does, -, ring⟩ := call_ring h a
  rw [ring]
  cases does with
  | advance _ msgs routine effects =>
    rw [effects, filling]
    exact trace_execAll g.toMacros _
      ((stamped g.toMacros s.ring w.block a.now).exec g.toMacros (.setFilled _))
  | current v' | late v' | stray v' | resync v' => simp [v] at v'

theorem marks_call : marks (s.call g.toMacros a).ring.trace = marks s.ring.trace ++
    match g.verdict w.block (g.header a).mcnt with
    | .advance => [.filled (w.block % g.nInputBlocks)
        (s.ring.mem (.header (w.block % g.nInputBlocks) .mcnt))]
    | .stray => if g.maxOutOfSeq < inc w.strays then [.reset] else []
    | _ => [] := by
  obtain ⟨o, w', does, -, ring⟩ := call_ring h a
  rw [ring]
  cases does with
  | current v msgs routine effects =>
    rw [effects, Ring.execAll_append, marks_execAll (unmarked_storing _ _),
      marks_execAll (unmarked_logs routine)]
    simp [v]
  | advance v msgs routine effects =>
    rw [effects, Ring.execAll_append, Ring.execAll_append, marks_execAll (unmarked_storing _ _),
      marks_execAll (unmarked_logs routine)]
    simp [filling, Ring.exec, marks_cons, Entry.mark, Effect.apply, v]
  | late v msgs routine effects =>
    rw [effects, marks_execAll (unmarked_logs routine)]
    simp [v]
  | stray v few msgs routine effects =>
    rw [effects, marks_execAll (unmarked_logs routine)]
    simp [v, not_lt.mpr few]
  | resync v many msgs routine pktMcnt effects =>
    rw [effects, Ring.execAll_append]
    simp [recycling, Ring.exec, marks_cons, Entry.mark, v, many,
      marks_execAll (unmarked_logs routine)]

end Call

end S6Reobs
