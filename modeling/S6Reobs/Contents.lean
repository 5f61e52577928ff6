import S6Reobs.Ledger

/-! What the header and the data of a held block say about the packets stored in it. -/

namespace S6Reobs

open Word Window

variable {g : Geometry}

/-- The header of block number `j` as its stored packets account for it. -/
structure Booked (g : Geometry) (j : Nat) (r : Ring) : Prop where
  mcnt : r.mem (.header (j % g.nInputBlocks) .mcnt) = g.nm * j
  number : ∀ f ∈ stored (j % g.nInputBlocks) r.trace, g.number f = j ∧ Known g.toMacros f
  missed : ∀ i < g.nBors, r.mem (.header (j % g.nInputBlocks) (.missedPkts i)) =
    u64 (g.nm - (stored (j % g.nInputBlocks) r.trace).countP
      (fun f => missedIndex g.toMacros (getHeader g.toMacros f).sid = i))

/-- The header field lies inside the header of a block of the ring. -/
theorem header_valid (g : Geometry) (j : Nat) {fld : Field} (h : fld.word < 6 + g.nBors) :
    (Loc.header (j % g.nInputBlocks) fld).Valid g.toMacros :=
  ⟨Nat.mod_lt _ g.nInputBlocks_pos, h⟩

theorem blockForMcnt_number {f : Frame} {j : Nat} (h : g.number f = j) :
    blockForMcnt g.toMacros (getHeader g.toMacros f).mcnt = j % g.nInputBlocks := by
  rw [← h]
  rfl

theorem stored_init (j pchan nchan sid : Nat) (r : Ring) :
    stored (j % g.nInputBlocks) (r.exec g.toMacros (.initializeBlock (j % g.nInputBlocks)
      (g.nm * j) pchan nchan sid)).trace = [] :=
  if_pos rfl

theorem stored_open (j : Nat) (f : Frame) (r : Ring) :
    stored (j % g.nInputBlocks) (r.exec g.toMacros (openFor g.toMacros j f)).trace = [] :=
  stored_init j _ _ _ r

/-- A block that was just initialised has missed every packet. -/
theorem booked_init (j pchan nchan sid : Nat) (r : Ring) : Booked g j
    (r.exec g.toMacros (.initializeBlock (j % g.nInputBlocks) (g.nm * j) pchan nchan sid)) := by
  refine ⟨?_, ?_, ?_⟩
  · simp [Ring.exec, Effect.apply, initField]
  · simp [stored_init]
  · intro i hi
    rw [stored_init]
    simp [Ring.exec, Effect.apply, initField, hi]

theorem stored_store {f : Frame} {j : Nat} (h : g.number f = j) (r : Ring) :
    stored (j % g.nInputBlocks)
      ((r.exec g.toMacros (decFor g.toMacros f)).exec g.toMacros (copyFor g.toMacros f)).trace =
    f :: stored (j % g.nInputBlocks) r.trace :=
  if_pos (blockForMcnt_number h)

/-- Storing a packet changes no header word but one missed_pkts. -/
theorem store_header {f : Frame} {j : Nat}
    (stays : StaysIn g.toMacros (blockForMcnt g.toMacros (getHeader g.toMacros f).mcnt) f)
    (r : Ring) {fld : Field} (valid : fld.word < 6 + g.nBors) :
    ((r.exec g.toMacros (decFor g.toMacros f)).exec g.toMacros (copyFor g.toMacros f)).mem
      (.header (j % g.nInputBlocks) fld) =
    (r.exec g.toMacros (decFor g.toMacros f)).mem (.header (j % g.nInputBlocks) fld) :=
  stays.frame (Nat.mod_lt _ g.nInputBlocks_pos) _ (header_valid g j valid) (by simp)

theorem booked_rule (g : Geometry) : BlockRule g (fun _ => True)
    (fun _ f => StaysIn g.toMacros (blockForMcnt g.toMacros (getHeader g.toMacros f).mcnt) f)
    (Booked g) where
  stays _ _ stays _ := stays
  apart {j r e} apart q := by
    refine ⟨?_, ?_, ?_⟩
    · exact (apart.header r.mem (header_valid g j (by simp [Field.word])) (by simp)
        (by simp)).trans q.mcnt
    · rw [apart.stored_exec]
      exact q.number
    · intro i hi
      rw [apart.stored_exec]
      exact (apart.header r.mem (header_valid g j (by simp [Field.word, hi])) (by simp)
        (by simp)).trans (q.missed i hi)
  store {j r f} known number stays q := by
    have block := blockForMcnt_number number
    refine ⟨?_, ?_, ?_⟩
    · rw [store_header stays r (by simp [Field.word])]
      simpa [Ring.exec, decFor, Effect.apply] using q.mcnt
    · rw [stored_store number]
      intro f' hf'
      rcases List.mem_cons.mp hf' with rfl | hf'
      · exact ⟨number, known⟩
      · exact q.number f' hf'
    · intro i hi
      have missed := q.missed i hi
      rw [store_header stays r (by simp [Field.word, hi]), stored_store number,
        List.countP_cons]
      by_cases hit : missedIndex g.toMacros (getHeader g.toMacros f).sid = i
      · simp only [Ring.exec, decFor, Effect.apply, block, hit, Function.update_self, missed,
          decide_true, ↓reduceIte]
        rw [u64_sub_wrap]
        push_cast
        congr 1
        omega
      · have other : ¬ i = missedIndex g.toMacros (getHeader g.toMacros f).sid :=
          fun h => hit h.symm
        simp [Ring.exec, decFor, Effect.apply, other, missed, hit]
  opens j r _ := booked_init j _ _ _ r

/-! ## Payloads -/

/-- Two packets of one block that are copied to the same slot. -/
def SameSlot (m : Macros) (f f' : Frame) : Prop :=
  (getHeader m f).mcnt = (getHeader m f').mcnt ∧
  (m.source = .s6 → (getHeader m f).sid = (getHeader m f').sid)

/-- As long as no slot is stored twice, block number `j` holds every stored payload. -/
structure Placed (g : Geometry) (j : Nat) (r : Ring) : Prop where
  number : ∀ f ∈ stored (j % g.nInputBlocks) r.trace, g.number f = j ∧
    Known g.toMacros f ∧ Fits g.toMacros f
  payload : (stored (j % g.nInputBlocks) r.trace).Pairwise (¬ SameSlot g.toMacros · ·) →
    ∀ f ∈ stored (j % g.nInputBlocks) r.trace, ∀ w < copyWords g.toMacros f,
      r.mem (.data (j % g.nInputBlocks) (place g.toMacros (getHeader g.toMacros f) w)) =
        f.payload w

theorem place_valid (g : Geometry) (j : Nat) {f : Frame} (known : Known g.toMacros f)
    (fits : Fits g.toMacros f) {w : Nat} (hw : w < copyWords g.toMacros f) :
    (Loc.data (j % g.nInputBlocks) (place g.toMacros (getHeader g.toMacros f) w)).Valid
      g.toMacros :=
  ⟨Nat.mod_lt _ g.nInputBlocks_pos,
    place_lt g.nm_pos known (Nat.lt_of_lt_of_le hw (copyWords_le fits))⟩

theorem placed_rule (g : Geometry) :
    BlockRule g (fun _ => True) (fun _ => Fits g.toMacros) (Placed g) where
  stays _ _ fits known := fits.staysIn g.nm_pos known _
  apart {j r e} apart q := by
    refine ⟨by rw [apart.stored_exec]; exact q.number, ?_⟩
    rw [apart.stored_exec]
    intro distinct f hf w hw
    obtain ⟨_, known, fits⟩ := q.number f hf
    exact (apart.data r.mem (place_valid g j known fits hw)).trans (q.payload distinct f hf w hw)
  store {j r f} known number fits q := by
    have block := blockForMcnt_number number
    constructor
    · rw [stored_store number]
      intro f' hf'
      rcases List.mem_cons.mp hf' with rfl | hf'
      · exact ⟨number, known, fits⟩
      · exact q.number f' hf'
    · rw [stored_store number]
      intro distinct f' hf' w hw
      obtain ⟨apart, distinct⟩ := List.pairwise_cons.mp distinct
      rcases List.mem_cons.mp hf' with rfl | hf'
      · simp only [Ring.exec, copyFor, block]
        exact copyPayload_slot g.nm_pos _ _ f' hw
      · obtain ⟨number', known', fits'⟩ := q.number f' hf'
        -- the new copy misses the words of the other slots of the block
        have out : ∀ v < g.slotWords,
            Loc.data (j % g.nInputBlocks) (place g.toMacros (getHeader g.toMacros f') w) ≠
            .data (j % g.nInputBlocks) (place g.toMacros (getHeader g.toMacros f) v) := by
          intro v hv h
          have hw' := Nat.lt_of_lt_of_le hw (copyWords_le fits')
          obtain ⟨mcnt, sid, _⟩ := place_inj g.nm_pos (number.trans number'.symm) hv hw'
            (Loc.data.inj h).2.symm
          exact apart f' hf' ⟨mcnt, sid⟩
        have kept := q.payload distinct f' hf' w hw
        simp only [Ring.exec, copyFor, block]
        rw [copyPayload_frame g.nm_pos _ (Nat.mod_lt _ g.nInputBlocks_pos) fits known
          (place_valid g j known' fits' hw) out]
        simpa [decFor, Effect.apply] using kept
  opens {f} j r _ := by
    refine ⟨by simp [stored_open], ?_⟩
    rw [stored_open]
    simp

/-! ## Runs -/

/-- The window after packets that arrive in window `w`. -/
def Geometry.window (g : Geometry) (w : Window.State) (l : List Arrival) : Window.State :=
  l.foldl (fun w a => g.step w (g.header a).mcnt) w

theorem start_tracks (g : Geometry) (mem : Mem) (flag : Nat → Flag) :
    Tracks g (State.start g.toMacros mem flag).thread ⟨0, 0⟩ := tracks_initial g

theorem run_tracks {s : State} {w : Window.State} (h : Tracks g s.thread w) (l : List Arrival) :
    Tracks g (s.run g.toMacros l).thread (g.window w l) := by
  induction l generalizing s w with
  | nil => exact h
  | cons a l ih => exact ih (call_does h a).2

theorem reachable_tracks {s : State} (h : Reachable g.toMacros s) :
    ∃ w, Tracks g s.thread w := by
  induction h with
  | start mem flag => exact ⟨_, start_tracks g mem flag⟩
  | call a _ ih =>
    obtain ⟨w, hw⟩ := ih
    exact ⟨_, (call_does hw a).2⟩
  | consumerFree b _ ih => exact ih

theorem start_atFills (m : Macros) (P : Nat → Mem → List Entry → Prop) (mem : Mem)
    (flag : Nat → Flag) : AtFills P (State.start m mem flag).ring.trace :=
  (atFills_execAll (by simp [startupEffects, initializeBlock]) ⟨mem, flag, []⟩).mpr atFills_nil

section Run

variable {Opener : Frame → Prop} {Joins : List Frame → Frame → Prop} {Q : Nat → Ring → Prop}
  (rule : BlockRule g Opener Joins Q)
include rule

/-- The start-up blocks, numbers 0 and 1. -/
theorem BlockRule.start_both
    (zero : ∀ j r, Q j (Ring.exec g.toMacros r
      (.initializeBlock (j % g.nInputBlocks) (g.nm * j) 0 0 0)))
    (mem : Mem) (flag : Nat → Flag) :
    Both Q (State.start g.toMacros mem flag).ring ⟨0, 0⟩ := by
  have h0 : initializeBlock g.toMacros 0 0 0 0 =
      .initializeBlock (0 % g.nInputBlocks) (g.nm * 0) 0 0 0 := initializeBlock_mul 0 0 0 0
  have h1 : initializeBlock g.toMacros g.nm 0 0 0 =
      .initializeBlock (1 % g.nInputBlocks) (g.nm * 1) 0 0 0 := by
    simpa using initializeBlock_mul (g := g) 1 0 0 0
  have apart := (Period.place_ne_succ g.two_le_blocks 0).symm
  simp only [State.start, startupEffects, Ring.execAll_cons, Ring.execAll_nil, h0, h1]
  rintro j (rfl | rfl)
  · exact rule.apart apart (zero 0 _)
  · exact zero 1 _

/-- What a rule says of block number `j` held of every block when it was filled. -/
theorem BlockRule.run_keeps {P : Nat → Mem → List Entry → Prop}
    (implied : ∀ j r, Q j r → P (j % g.nInputBlocks) r.mem r.trace)
    {s : State} {w : Window.State} (h : Tracks g s.thread w) {l : List Arrival}
    (opener : ∀ a ∈ l, Opener a.frame)
    (joins : ∀ earlier a later, l = earlier ++ a :: later →
      Stores g.toMacros (s.run g.toMacros earlier) a →
      Joins (stored (g.number a.frame % g.nInputBlocks)
        (s.run g.toMacros earlier).ring.trace) a.frame)
    (both : Both Q s.ring w) (fills : AtFills P s.ring.trace) :
    Both Q (s.run g.toMacros l).ring (g.window w l) ∧
    AtFills P (s.run g.toMacros l).ring.trace := by
  induction l generalizing s w with
  | nil => exact ⟨both, fills⟩
  | cons a l ih =>
    have stamp := rule.apart (e := .stamp (w.block % g.nInputBlocks) a.now) trivial
      (both w.block (.inl rfl))
    refine ih (call_does h a).2 (fun a' h => opener a' (List.mem_cons_of_mem a h)) ?_
      (rule.call_both h (joins [] a l rfl) (opener a List.mem_cons_self) both)
      ((atFills_call h a P).mpr ⟨fills, fun _ => implied _ _ stamp⟩)
    rintro earlier a' later rfl
    exact joins (a :: earlier) a' later rfl

end Run

theorem start_booked (g : Geometry) (mem : Mem) (flag : Nat → Flag) :
    Both (Booked g) (State.start g.toMacros mem flag).ring ⟨0, 0⟩ :=
  (booked_rule g).start_both (fun j r => booked_init j 0 0 0 r) mem flag

end S6Reobs
