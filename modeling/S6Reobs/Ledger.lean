import S6Reobs.Trace

/-! What a run keeps about one block. A `BlockRule` asks for a property of block
number `j` three things only: that effects on other blocks keep it, that storing
a packet of the block keeps it, and that initialising the block establishes it. -/

namespace S6Reobs

open Word Window

/-- calc_block_indexes accepts the source id. -/
def Known (m : Macros) (f : Frame) : Prop := (getHeader m f).sid < m.nSourceNodes

instance (m : Macros) (f : Frame) : Decidable (Known m f) := inferInstanceAs (Decidable (_ < _))

theorem missedIndex_lt {m : Macros} {sid : Nat} (valid : sid < m.nSourceNodes) :
    missedIndex m sid < m.nBors := by
  cases h : m.source <;>
    simp only [missedIndex, Macros.nBors, Macros.nSourceNodes, Macros.nBeams,
      Macros.nSubspectraPerSpectrum, h] at valid ⊢ <;>
    omega

/-- The number of the block that a packet belongs to. -/
abbrev Geometry.number (g : Geometry) (f : Frame) : Nat := (getHeader g.toMacros f).mcnt / g.nm

/-- The effect leaves `block[b]`'s data, and its header except for the times, alone. -/
def Effect.Apart (m : Macros) (b : Nat) : Effect → Prop
  | .initializeBlock c .. => c ≠ b
  | .decMissedPkts c _ => c ≠ b
  | .copyPayload c f => c ≠ b ∧ c < m.nInputBlocks ∧ StaysIn m c f
  | _ => True

namespace Effect.Apart

variable {m : Macros} {b : Nat} {e : Effect} (apart : e.Apart m b)
include apart

theorem header (mem : Mem) {fld : Field} (valid : (Loc.header b fld).Valid m)
    (sec : fld ≠ .timeSec) (nsec : fld ≠ .timeNsec) :
    e.apply m mem (.header b fld) = mem (.header b fld) := by
  cases e with
  | stamp c now => simp [Effect.apply, sec, nsec]
  | initializeBlock c mcnt pchan nchan sid =>
    have ne : ¬ b = c := fun h => apart h.symm
    simp [Effect.apply, ne]
  | decMissedPkts c i =>
    have ne : ¬ b = c := fun h => apart h.symm
    simp [Effect.apply, ne]
  | copyPayload c f => exact apart.2.2.frame apart.2.1 mem valid (by simp)
  | setFilled | busywaitFree | log | recvFrame | releaseFrame | hputNetmcnt => rfl

theorem data (mem : Mem) {k : Nat} (valid : (Loc.data b k).Valid m) :
    e.apply m mem (.data b k) = mem (.data b k) := by
  cases e with
  | copyPayload c f =>
    refine apart.2.2.frame apart.2.1 mem valid ?_
    intro k' h
    cases h
    exact apart.1 rfl
  | stamp | decMissedPkts => simp [Effect.apply]
  | initializeBlock | setFilled | busywaitFree | log | recvFrame | releaseFrame
  | hputNetmcnt => rfl

theorem stored_exec (r : Ring) : stored b (r.exec m e).trace = stored b r.trace := by
  cases e with
  | initializeBlock c => exact if_neg apart
  | copyPayload c f => exact if_neg apart.1
  | stamp | setFilled | busywaitFree | decMissedPkts | log | recvFrame | releaseFrame
  | hputNetmcnt => rfl

end Effect.Apart

theorem stored_execAll {m : Macros} {b : Nat} {es : List Effect}
    (apart : ∀ e ∈ es, e.Apart m b) (r : Ring) :
    stored b (r.execAll m es).trace = stored b r.trace := by
  induction es generalizing r with
  | nil => rfl
  | cons e es ih =>
    rw [Ring.execAll_cons, ih (fun e' h => apart e' (List.mem_cons_of_mem e h))]
    exact (apart e List.mem_cons_self).stored_exec r

/-- The first effect on the ring of storing `f`. -/
def decFor (m : Macros) (f : Frame) : Effect :=
  .decMissedPkts (blockForMcnt m (getHeader m f).mcnt) (missedIndex m (getHeader m f).sid)

def copyFor (m : Macros) (f : Frame) : Effect :=
  .copyPayload (blockForMcnt m (getHeader m f).mcnt) f

/-- Block number `j` is initialised from the header of `f`. -/
def openFor (m : Macros) (j : Nat) (f : Frame) : Effect :=
  .initializeBlock (j % m.nInputBlocks) (m.nm * j) (getHeader m f).pchan (getHeader m f).nchan
    (getHeader m f).sid

/-- process_packet copies the packet into the ring. -/
def Stores (m : Macros) (s : State) (a : Arrival) : Prop :=
  pktZone m s.thread.binfo.mcntStart (getHeader m a.frame).mcnt = .window ∧ Known m a.frame

instance (m : Macros) (s : State) (a : Arrival) : Decidable (Stores m s a) :=
  inferInstanceAs (Decidable (_ ∧ _))

/-- `Q j` is a property of block number `j` that calls keep, as long as the packets
that open a block satisfy `Opener`, and those that are stored `Joins` with respect
to the packets their block stores already. -/
structure BlockRule (g : Geometry) (Opener : Frame → Prop) (Joins : List Frame → Frame → Prop)
    (Q : Nat → Ring → Prop) : Prop where
  stays (fs : List Frame) {f : Frame} : Joins fs f → Known g.toMacros f →
    StaysIn g.toMacros (blockForMcnt g.toMacros (getHeader g.toMacros f).mcnt) f
  apart {j : Nat} {r : Ring} {e : Effect} : e.Apart g.toMacros (j % g.nInputBlocks) →
    Q j r → Q j (r.exec g.toMacros e)
  store {j : Nat} {r : Ring} {f : Frame} : Known g.toMacros f → g.number f = j →
    Joins (stored (j % g.nInputBlocks) r.trace) f → Q j r →
    Q j ((r.exec g.toMacros (decFor g.toMacros f)).exec g.toMacros (copyFor g.toMacros f))
  opens {f : Frame} (j : Nat) (r : Ring) : Opener f →
    Q j (r.exec g.toMacros (openFor g.toMacros j f))

/-- `j` is the number of one of the two blocks held. -/
def Window.State.Holds (w : Window.State) (j : Nat) : Prop := j = w.block ∨ j = w.block + 1

def Both (Q : Nat → Ring → Prop) (r : Ring) (w : Window.State) : Prop := ∀ j, w.Holds j → Q j r

section Walk

variable {g : Geometry}

/-- The two held blocks have different places. -/
theorem holds_place_ne {w : Window.State} {i j : Nat} (hi : w.Holds i) (hj : w.Holds j)
    (ne : i ≠ j) : i % g.nInputBlocks ≠ j % g.nInputBlocks := by
  have := Period.place_ne_succ g.two_le_blocks w.block
  rcases hi with rfl | rfl <;> rcases hj with rfl | rfl
  · exact absurd rfl ne
  · exact this
  · exact this.symm
  · exact absurd rfl ne

theorem apart_logs (m : Macros) (b : Nat) (msgs : List Msg) :
    ∀ e ∈ msgs.map Effect.log, e.Apart m b := by
  intro e he
  obtain ⟨msg, _, rfl⟩ := List.mem_map.mp he
  trivial

theorem storing_known {m : Macros} {f : Frame} (known : Known m f) :
    storing m f = [decFor m f, copyFor m f] := if_pos known

theorem storing_unknown {m : Macros} {f : Frame} (unknown : ¬ Known m f) : storing m f = [] :=
  if_neg unknown

theorem number_bounds (f : Frame) : g.nm * g.number f ≤ (getHeader g.toMacros f).mcnt ∧
    (getHeader g.toMacros f).mcnt < g.nm * g.number f + g.nm := by
  have := Period.bounds_of_div g.nm_pos (getHeader g.toMacros f).mcnt
  rwa [mul_succ_eq] at this

/-- The packets that are stored are those of the held blocks. -/
theorem stores_iff {s : State} {w : Window.State} (h : Tracks g s.thread w) (a : Arrival) :
    Stores g.toMacros s a ↔ w.Holds (g.number a.frame) ∧ Known g.toMacros a.frame := by
  refine and_congr_left' ?_
  rw [h.zone]
  cases v : g.verdict w.block (g.header a).mcnt with
  | current => exact iff_of_true rfl (current_block g.even v)
  | advance => exact iff_of_true rfl (.inr (advance_block g.even v))
  | late | stray =>
    refine iff_of_false (by simp) ?_
    intro held
    obtain ⟨lo, hi⟩ := number_bounds (g := g) a.frame
    have half := g.half_nm
    have nc : ¬ g.verdict w.block (g.header a).mcnt = .current := by simp [v]
    have na : ¬ g.verdict w.block (g.header a).mcnt = .advance := by simp [v]
    rw [verdict_current] at nc
    rw [verdict_advance] at na
    rcases held with eq | eq <;> rw [eq] at lo hi
    · simp only [Geometry.header] at nc na
      omega
    · rw [mul_succ_eq] at lo hi
      simp only [Geometry.header] at nc na
      omega

variable {Opener : Frame → Prop} {Joins : List Frame → Frame → Prop} {Q : Nat → Ring → Prop}
  (rule : BlockRule g Opener Joins Q)
include rule

theorem BlockRule.execAll {j : Nat} {es : List Effect}
    (apart : ∀ e ∈ es, e.Apart g.toMacros (j % g.nInputBlocks)) {r : Ring} (q : Q j r) :
    Q j (r.execAll g.toMacros es) := by
  induction es generalizing r with
  | nil => exact q
  | cons e es ih =>
    have head := rule.apart (apart e List.mem_cons_self) q
    exact ih (fun e' h => apart e' (List.mem_cons_of_mem e h)) head

theorem BlockRule.apart_storing {f : Frame} {fs : List Frame}
    (joins : Known g.toMacros f → Joins fs f) {b : Nat}
    (ne : blockForMcnt g.toMacros (getHeader g.toMacros f).mcnt ≠ b) :
    ∀ e ∈ storing g.toMacros f, e.Apart g.toMacros b := by
  intro e he
  by_cases known : Known g.toMacros f
  · rw [storing_known known] at he
    rcases List.mem_cons.mp he with rfl | he
    · exact ne
    · rw [List.mem_singleton.mp he]
      exact ⟨ne, Nat.mod_lt _ g.nInputBlocks_pos, rule.stays fs (joins known) known⟩
  · rw [storing_unknown known] at he
    simp at he

/-- Storing a packet of a held block keeps what is known of the held blocks. -/
theorem BlockRule.storing {w : Window.State} {f : Frame} (held : w.Holds (g.number f))
    {j : Nat} (hj : w.Holds j) {r : Ring}
    (joins : Known g.toMacros f → Joins (stored (g.number f % g.nInputBlocks) r.trace) f)
    (q : Q j r) : Q j (r.execAll g.toMacros (storing g.toMacros f)) := by
  by_cases same : g.number f = j
  · subst same
    by_cases known : Known g.toMacros f
    · rw [storing_known known]
      exact rule.store known rfl (joins known) q
    · rw [storing_unknown known]
      exact q
  · exact rule.execAll (rule.apart_storing joins (holds_place_ne held hj same)) q

section Call

variable {s : State} {w : Window.State} (h : Tracks g s.thread w) {a : Arrival}
  (joins : Stores g.toMacros s a →
    Joins (stored (g.number a.frame % g.nInputBlocks) s.ring.trace) a.frame)
include h

include joins in
/-- A block that is held before and after the call, and not recycled. -/
theorem BlockRule.call_keeps {j : Nat} (held : w.Holds j)
    (kept : g.verdict w.block (g.header a).mcnt = .advance → j = w.block + 1)
    (calm : g.verdict w.block (g.header a).mcnt = .stray → inc w.strays ≤ g.maxOutOfSeq)
    (q : Q j s.ring) : Q j (s.call g.toMacros a).ring := by
  have stores := stores_iff h a
  obtain ⟨o, w', does, -, ring⟩ := call_ring h a
  rw [ring]
  have logs := apart_logs g.toMacros
  cases does with
  | current v msgs routine effects =>
    have own := current_block g.even v
    rw [effects, Ring.execAll_append]
    refine rule.storing own held ?_ (rule.execAll (logs _ msgs) q)
    rw [stored_execAll (logs _ msgs)]
    exact fun known => joins (stores.mpr ⟨own, known⟩)
  | advance v msgs routine effects =>
    have own : g.number a.frame = w.block + 1 := advance_block g.even v
    have hj := kept v
    subst hj
    have apart : ∀ e ∈ filling g.toMacros w.block (g.header a) a.now ++ msgs.map Effect.log,
        e.Apart g.toMacros ((w.block + 1) % g.nInputBlocks) := by
      intro e he
      cases List.mem_append.mp he with
      | inl he =>
        simp only [filling, List.mem_cons, List.not_mem_nil, or_false] at he
        rcases he with rfl | rfl | rfl | rfl
        · trivial
        · trivial
        · trivial
        · exact (Period.place_ne_succ g.two_le_blocks (w.block + 1)).symm
      | inr he => exact logs _ msgs e he
    rw [effects, ← List.append_assoc, Ring.execAll_append]
    refine rule.storing (.inr own) held ?_ (rule.execAll apart q)
    rw [own, stored_execAll apart, ← own]
    exact fun known => joins (stores.mpr ⟨.inr own, known⟩)
  | late v msgs routine effects =>
    rw [effects]
    exact rule.execAll (logs _ msgs) q
  | stray v few msgs routine effects =>
    rw [effects]
    exact rule.execAll (logs _ msgs) q
  | resync v many =>
    have := calm v
    omega

include joins in
/-- The block that an advancing call acquires. -/
theorem BlockRule.call_opens (opener : Opener a.frame)
    (v : g.verdict w.block (g.header a).mcnt = .advance) :
    Q (w.block + 2) (s.call g.toMacros a).ring := by
  have stores := stores_iff h a
  obtain ⟨o, w', does, -, ring⟩ := call_ring h a
  rw [ring]
  cases does with
  | advance _ msgs routine effects =>
    have own : g.number a.frame = w.block + 1 := advance_block g.even v
    have opened (r : Ring) : Q (w.block + 2) (r.execAll g.toMacros
        (filling g.toMacros w.block (g.header a) a.now)) :=
      rule.opens (w.block + 2) (((r.exec g.toMacros _).exec g.toMacros _).exec g.toMacros _) opener
    have apart : ∀ e ∈ msgs.map Effect.log ++ S6Reobs.storing g.toMacros a.frame,
        e.Apart g.toMacros ((w.block + 2) % g.nInputBlocks) := by
      intro e he
      cases List.mem_append.mp he with
      | inl he => exact apart_logs g.toMacros _ msgs e he
      | inr he =>
        refine rule.apart_storing (fun known => joins (stores.mpr ⟨.inr own, known⟩)) ?_ e he
        rw [blockForMcnt, advance_block g.even v]
        exact Period.place_ne_succ g.two_le_blocks (w.block + 1)
    rw [effects, Ring.execAll_append]
    exact rule.execAll apart (opened s.ring)
  | current v' | late v' | stray v' | resync v' => simp [v] at v'

/-- The two blocks that a resync recycles. -/
theorem BlockRule.call_recycles (opener : Opener a.frame)
    (v : g.verdict w.block (g.header a).mcnt = .stray) (many : g.maxOutOfSeq < inc w.strays) :
    Both Q (s.call g.toMacros a).ring (g.step w (g.header a).mcnt) := by
  obtain ⟨o, w', does, next, ring⟩ := call_ring h a
  rw [ring, next]
  cases does with
  | resync _ _ msgs routine pktMcnt effects =>
    rw [effects, Ring.execAll_append]
    rintro j (rfl | rfl)
    · refine rule.apart ?_ (rule.opens _ _ opener)
      exact (Period.place_ne_succ g.two_le_blocks _).symm
    · exact rule.opens _ _ opener
  | current v' | advance v' | late v' => simp [v] at v'
  | stray _ few => omega

include joins in
/-- A block held after the call was held before it, or was just acquired. -/
theorem BlockRule.call_held (opener : Opener a.frame) {j : Nat}
    (still : (g.step w (g.header a).mcnt).Holds j) (q : w.Holds j → Q j s.ring) :
    Q j (s.call g.toMacros a).ring := by
  cases v : g.verdict w.block (g.header a).mcnt with
  | current =>
    have next : g.step w (g.header a).mcnt = ⟨w.block, 0⟩ := step_current v
    rw [next] at still
    exact rule.call_keeps h joins still (by simp [v]) (by simp [v]) (q still)
  | advance =>
    have next : g.step w (g.header a).mcnt = ⟨w.block + 1, 0⟩ := step_advance v
    rw [next] at still
    rcases still with rfl | rfl
    · exact rule.call_keeps h joins (.inr rfl) (by simp) (by simp [v]) (q (.inr rfl))
    · exact rule.call_opens h joins opener v
  | late =>
    have next : g.step w (g.header a).mcnt = w := step_late v
    rw [next] at still
    exact rule.call_keeps h joins still (by simp [v]) (by simp [v]) (q still)
  | stray =>
    by_cases many : g.maxOutOfSeq < inc w.strays
    · exact rule.call_recycles h opener v many j still
    · have next : g.step w (g.header a).mcnt = ⟨w.block, inc w.strays⟩ :=
        step_stray v (by omega)
      rw [next] at still
      exact rule.call_keeps h joins still (by simp [v]) (fun _ => by omega) (q still)

include joins in
theorem BlockRule.call_both (opener : Opener a.frame) (both : Both Q s.ring w) :
    Both Q (s.call g.toMacros a).ring (g.step w (g.header a).mcnt) :=
  fun j still => rule.call_held h joins opener still (both j)

end Call

end Walk

end S6Reobs
