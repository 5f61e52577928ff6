import Mathlib.Algebra.BigOperators.Group.Finset.Piecewise
import Mathlib.Algebra.Order.BigOperators.Group.Finset
import S6Reobs.Loss
import S6Reobs.PacketSizes
import S6Reobs.Rejected

/-! The two tallies of what a block misses. block_packet_counter goes up for a packet of the
window before its source id is looked at, and set_block_filled takes it off N_PACKETS_PER_BLOCK;
header.missed_pkts[i] goes down from Nm for a packet that is stored. -/

namespace S6Reobs

open Word Window

/-- block_missed_pkt_cnt of set_block_filled. -/
def blockMissedPktCnt (m : Macros) (t : Thread) : Nat :=
  u32 (m.nPacketsPerBlock - t.binfo.blockPacketCounter (blockForMcnt m t.binfo.mcntStart))

/-- The packets that the header of `block[b]` says are missed, over all entries. -/
def missedSum (m : Macros) (mem : Mem) (b : Nat) : Nat :=
  ∑ i ∈ Finset.range m.nBors, mem (.header b (.missedPkts i))

/-- process_packet calls set_block_filled. -/
def Fills (m : Macros) (s : State) (a : Arrival) : Prop :=
  pktZone m s.thread.binfo.mcntStart (getHeader m a.frame).mcnt = .window ∧
    BlockDone m s.thread.binfo.mcntStart (getHeader m a.frame).mcnt

instance (m : Macros) (s : State) (a : Arrival) : Decidable (Fills m s a) :=
  inferInstanceAs (Decidable (_ ∧ _))

/-- The sum over the filled block's header.missed_pkts when it is marked filled. -/
def missedAtFill (m : Macros) (s : State) (a : Arrival) : Nat :=
  missedSum m ((Effect.stamp s.thread.binfo.blockI a.now).apply m s.ring.mem)
    (blockForMcnt m s.thread.binfo.mcntStart)

/-- block_missed_pkt_cnt has not wrapped and is what the header says, and so are the two status
fields that it is split into. -/
structure TalliesAgree (m : Macros) (s : State) (a : Arrival) : Prop where
  unwrapped : (blockMissedPktCnt m s.thread : Int) = (m.nm * m.nBeams : Nat) -
    s.thread.binfo.blockPacketCounter (blockForMcnt m s.thread.binfo.mcntStart)
  sum : blockMissedPktCnt m s.thread = missedAtFill m s a
  missedbm : (s.call m a).thread.status.missedbm = missedAtFill m s a / m.nm
  missedpk : (s.call m a).thread.status.missedpk =
    if missedAtFill m s a % m.nm = 0 then s.thread.status.missedpk
    else u32 (s.thread.status.missedpk + (missedAtFill m s a % m.nm : Nat))

/-! ## The packets counted for each place of the ring -/

variable (g : Geometry)

/-- `f` is counted for its block, the latest first. -/
def Geometry.joined (counted : Nat → List Frame) (f : Frame) : Nat → List Frame :=
  Function.update counted (g.number f % g.nInputBlocks)
    (f :: counted (g.number f % g.nInputBlocks))

/-- Block number `j` is initialised. -/
def Geometry.opened (counted : Nat → List Frame) (j : Nat) : Nat → List Frame :=
  Function.update counted (j % g.nInputBlocks) []

/-- What packets were counted for each place since its block was initialised, after one more
packet that arrives in window `w`. -/
def Geometry.counted (w : Window.State) (counted : Nat → List Frame) (a : Arrival) :
    Nat → List Frame :=
  match g.verdict w.block (g.header a).mcnt with
  | .current => g.joined counted a.frame
  | .advance => g.joined (g.opened counted (w.block + 2)) a.frame
  | .late => counted
  | .stray =>
    let k := target g.nm g.nInputBlocks w.block (g.header a).mcnt
    if inc w.strays > g.maxOutOfSeq then g.opened (g.opened counted k) (k + 1) else counted

/-- The same, after a run. -/
def Geometry.countedAll (w : Window.State) (counted : Nat → List Frame) :
    List Arrival → Nat → List Frame
  | [] => counted
  | a :: l => Geometry.countedAll (g.step w (g.header a).mcnt) (g.counted w counted a) l

/-- No entry has more packets than Nm, the packets of unknown sources are as many as
N_PACKETS_PER_BLOCK has too many, and it has not wrapped. -/
structure Balanced (m : Macros) (fs : List Frame) : Prop where
  entries : ∀ i < m.nBors, (fs.filter (Known m ·)).countP (countedIn m · = i) ≤ m.nm
  rejected : m.nm * m.nBeams = m.nm * m.nBors + fs.countP (¬ Known m ·)
  fits : m.nm * m.nBeams < 2 ^ 32 + fs.length

variable {g}

/-! ## What an admitted packet can overwrite -/

/-- The copy of `f` writes no missed_pkts entry. -/
def SparesMissed (m : Macros) (f : Frame) : Prop :=
  ∀ b c i, i < m.nBors →
    ¬ (Effect.copyPayload b f).Writes m ((Loc.header c (.missedPkts i)).addr m)

/-- The longest copy ends three words behind the data of its block. -/
theorem copy_reach {m : Macros} (pos : 0 < m.nm) {f : Frame} (accepted : Accepted m f)
    (known : Known m f) {b a : Nat} (writes : (Effect.copyPayload b f).Writes m a) :
    m.dataAddr b ≤ a ∧ a < m.dataAddr b + m.dataWords + 3 := by
  have slots (layout : m.source = .s6 ∨ m.source = .fast) (words : 0 < m.slotWords) :
      m.dataAddr b ≤ a ∧ a < m.dataAddr b + m.dataWords + 3 := by
    obtain ⟨_, size⟩ := copyBytes_accepted layout accepted
    have most := accepted.bounds.2.1
    have slot := m.slotBytes_eq
    have overhead : 8 ≤ copyOverhead m := by
      rcases layout with h | h <;> simp [copyOverhead, h]
    have last := place_lt pos known (Nat.sub_lt words Nat.one_pos)
    have first_eq := place_eq layout (getHeader m f) 0
    have last_eq := place_eq layout (getHeader m f) (m.slotWords - 1)
    obtain ⟨p, hp, covers⟩ := writes
    rw [copyPieces_slot layout, List.mem_singleton] at hp
    subst hp
    simp only [Copy.Piece.Covers] at covers
    unfold packetSize at size
    omega
  cases source : m.source with
  | s6 => exact slots (.inl source) (by rw [m.slotWords_s6 source]; decide)
  | fast => exact slots (.inr source) (by rw [m.slotWords_fast source]; decide)
  | dibas =>
    have fits : Fits m f := by simp only [Fits, copyBytes, source, Nat.le_refl]
    have stays := fits.staysIn pos known b a writes
    omega

/-- Those words are fields of the next header that stand before missed_pkts. -/
theorem sparesMissed {m : Macros} (pos : 0 < m.nm) {f : Frame} (accepted : Accepted m f)
    (known : Known m f) : SparesMissed m f := by
  intro b c i hi writes
  obtain ⟨lo, hi'⟩ := copy_reach pos accepted known writes
  have size : m.blockWords = m.headerWords + m.paddingWords + m.dataWords := rfl
  have header : m.headerWords = 6 + m.nBors := rfl
  simp only [Loc.addr, Field.word, Macros.dataAddr] at lo hi'
  by_cases before : c ≤ b
  · have : c * m.blockWords ≤ b * m.blockWords := Nat.mul_le_mul_right _ before
    omega
  · have : (b + 1) * m.blockWords ≤ c * m.blockWords := Nat.mul_le_mul_right _ (by omega)
    rw [Nat.add_mul] at this
    omega

/-! ## The header of one block -/

/-- `block[b]`'s missed_pkts, with `fs` counted for the block. -/
def Tallied (m : Macros) (fs : List Frame) (b : Nat) (mem : Mem) : Prop :=
  ∀ i < m.nBors, mem (.header b (.missedPkts i)) =
    u64 ((m.nm : Int) - (fs.filter (Known m ·)).countP (countedIn m · = i))

theorem Tallied.logs {m : Macros} {fs : List Frame} {b : Nat} {r : Ring}
    (tallied : Tallied m fs b r.mem) (msgs : List Msg) :
    Tallied m fs b (r.execAll m (msgs.map .log)).mem := by
  rwa [(execAll_logs m msgs r).1]

/-- Storing changes the entry of the packet's source, in the packet's block. -/
theorem Tallied.storing {fs : List Frame} {b : Nat} (hb : b < g.nInputBlocks) {r : Ring}
    (tallied : Tallied g.toMacros fs b r.mem) {f : Frame}
    (spares : Known g.toMacros f → SparesMissed g.toMacros f) :
    Tallied g.toMacros (if g.number f % g.nInputBlocks = b then f :: fs else fs) b
      (r.execAll g.toMacros (storing g.toMacros f)).mem := by
  intro i hi
  have old := tallied i hi
  have valid : (Loc.header b (.missedPkts i)).Valid g.toMacros :=
    ⟨hb, by simp [Field.word, Macros.headerWords, hi]⟩
  by_cases known : Known g.toMacros f
  · have kept : ((r.exec g.toMacros (decFor g.toMacros f)).exec g.toMacros
        (copyFor g.toMacros f)).mem (.header b (.missedPkts i)) =
        (r.exec g.toMacros (decFor g.toMacros f)).mem (.header b (.missedPkts i)) :=
      Effect.apply_frame _ _ _ valid (spares known _ b i hi)
    have place : blockForMcnt g.toMacros (getHeader g.toMacros f).mcnt =
        g.number f % g.nInputBlocks := rfl
    rw [storing_known known]
    simp only [Ring.execAll_cons, Ring.execAll_nil, kept]
    simp only [Ring.exec, decFor, Effect.apply, place]
    by_cases own : g.number f % g.nInputBlocks = b
    · by_cases hit : countedIn g.toMacros f = i
      · simp only [own, hit, Function.update_self, old, known, decide_true, ↓reduceIte,
          List.filter_cons_of_pos, List.countP_cons_of_pos]
        rw [u64_sub_wrap]
        push_cast
        congr 1
        omega
      · have other : ¬ i = countedIn g.toMacros f := fun h => hit h.symm
        simp [own, other, hit, old, known]
    · have other : ¬ b = g.number f % g.nInputBlocks := fun h => own h.symm
      simp [own, other, old]
  · rw [storing_unknown known, Ring.execAll_nil, old]
    by_cases own : g.number f % g.nInputBlocks = b
    · simp [own, known]
    · simp [own]

theorem tallied_init (m : Macros) (b mcnt pchan nchan sid : Nat) (r : Ring) :
    Tallied m [] b (r.exec m (.initializeBlock b mcnt pchan nchan sid)).mem := by
  intro i hi
  simp [Ring.exec, Effect.apply, initField, hi]

theorem Tallied.init_other {m : Macros} {fs : List Frame} {b c : Nat} (ne : b ≠ c) {r : Ring}
    (tallied : Tallied m fs b r.mem) (mcnt pchan nchan sid : Nat) :
    Tallied m fs b (r.exec m (.initializeBlock c mcnt pchan nchan sid)).mem := by
  intro i hi
  simpa [Ring.exec, Effect.apply, ne] using tallied i hi

theorem Tallied.stamp {m : Macros} {fs : List Frame} {b : Nat} {r : Ring}
    (tallied : Tallied m fs b r.mem) (c : Nat) (now : Timespec) :
    Tallied m fs b (r.exec m (.stamp c now)).mem := by
  intro i hi
  simpa [Ring.exec, Effect.apply] using tallied i hi

/-! ## One call -/

theorem counter_countAndStore (m : Macros) (o : Outcome) (f : Frame) :
    (countAndStore m o (getHeader m f) f).thread.binfo.blockPacketCounter =
      Function.update o.thread.binfo.blockPacketCounter (blockForMcnt m (getHeader m f).mcnt)
        (o.thread.binfo.blockPacketCounter (blockForMcnt m (getHeader m f).mcnt) + 1) := by
  obtain ⟨msgs, _, pchan, nchan, eq⟩ := countAndStore_spec m o f
  rw [eq]
  rfl

theorem joined_length (counted : Nat → List Frame) (f : Frame) (b : Nat) :
    (g.joined counted f b).length =
      Function.update (fun b => (counted b).length) (g.number f % g.nInputBlocks)
        ((counted (g.number f % g.nInputBlocks)).length + 1) b := by
  by_cases own : b = g.number f % g.nInputBlocks
  · simp [Geometry.joined, own]
  · simp [Geometry.joined, own]

theorem opened_length (counted : Nat → List Frame) (j b : Nat) :
    (g.opened counted j b).length =
      Function.update (fun b => (counted b).length) (j % g.nInputBlocks) 0 b := by
  by_cases own : b = j % g.nInputBlocks
  · simp [Geometry.opened, own]
  · simp [Geometry.opened, own]

theorem counter_finishBlock {t : Thread} {w : Window.State} {counted : Nat → List Frame}
    (h : Tracks g t w) (counter : t.binfo.blockPacketCounter = fun b => (counted b).length)
    (a : Arrival) :
    (finishBlock g.toMacros t (g.header a) a.now).thread.binfo.blockPacketCounter =
      fun b => (g.opened counted (w.block + 2) b).length := by
  simp only [finishBlock, counter, h.blockI, Period.place_succ_succ, opened_length]

theorem counter_resync {t : Thread} {w : Window.State} {counted : Nat → List Frame}
    (h : Tracks g t w) (counter : t.binfo.blockPacketCounter = fun b => (counted b).length)
    (a : Arrival) :
    let k := target g.nm g.nInputBlocks w.block (g.header a).mcnt
    (resync g.toMacros t (g.header a)).thread.binfo.blockPacketCounter =
      fun b => (g.opened (g.opened counted k) (k + 1) b).length := by
  have start := resync_mcntStart h a
  simp only [resync] at start ⊢
  rw [start, blockForMcnt_mul, Period.place_succ, counter]
  simp only [opened_length]

theorem joined_at (counted : Nat → List Frame) (f : Frame) (b : Nat) :
    g.joined counted f b =
      if g.number f % g.nInputBlocks = b then f :: counted b else counted b := by
  by_cases own : g.number f % g.nInputBlocks = b
  · simp [Geometry.joined, own]
  · have other : ¬ b = g.number f % g.nInputBlocks := fun h => own h.symm
    simp [Geometry.joined, own, other]

theorem opened_self (counted : Nat → List Frame) (j : Nat) :
    g.opened counted j (j % g.nInputBlocks) = [] :=
  Function.update_self _ _ _

theorem opened_other (counted : Nat → List Frame) {j b : Nat} (ne : b ≠ j % g.nInputBlocks) :
    g.opened counted j b = counted b :=
  Function.update_of_ne ne _ _

/-- Block `j` is initialised: its place starts over, and the other places keep their entries. -/
theorem tallied_opened {counted : Nat → List Frame} {j b : Nat} {r : Ring}
    (before : b ≠ j % g.nInputBlocks → Tallied g.toMacros (counted b) b r.mem)
    (mcnt pchan nchan sid : Nat) :
    Tallied g.toMacros (g.opened counted j b) b
      (r.exec g.toMacros (.initializeBlock (j % g.nInputBlocks) mcnt pchan nchan sid)).mem := by
  by_cases own : b = j % g.nInputBlocks
  · subst own
    rw [opened_self]
    exact tallied_init g.toMacros _ _ _ _ _ _
  · rw [opened_other counted own]
    exact (before own).init_other own _ _ _ _

/-- block_packet_counter counts all of them, and missed_pkts of the two held blocks those that
are stored. -/
structure Recorded (g : Geometry) (s : State) (w : Window.State) (counted : Nat → List Frame) :
    Prop where
  counter : s.thread.binfo.blockPacketCounter = fun b => (counted b).length
  header : ∀ j, w.Holds j →
    Tallied g.toMacros (counted (j % g.nInputBlocks)) (j % g.nInputBlocks) s.ring.mem

theorem recorded_counter {s : State} {w : Window.State} {counted : Nat → List Frame}
    (h : Tracks g s.thread w) (recorded : Recorded g s w counted) (a : Arrival) :
    (s.call g.toMacros a).thread.binfo.blockPacketCounter =
      fun b => (g.counted w counted a b).length := by
  rw [State.call]
  simp only [processPacket_eq h, Geometry.counted]
  cases v : g.verdict w.block (g.header a).mcnt with
  | current =>
    simp only [counter_countAndStore, joined_length, recorded.counter]
    rfl
  | advance =>
    simp only [counter_countAndStore, joined_length, counter_finishBlock h recorded.counter]
    rfl
  | late => exact recorded.counter
  | stray =>
    by_cases many : inc w.strays > g.maxOutOfSeq
    · simp only [outOfSeqPacket, h.strays, many, ↓reduceIte]
      exact counter_resync h.stray recorded.counter a
    · simp only [outOfSeqPacket, h.strays, many, ↓reduceIte]
      exact recorded.counter

theorem recorded_header {s : State} {w : Window.State} {counted : Nat → List Frame}
    (h : Tracks g s.thread w) (recorded : Recorded g s w counted) {a : Arrival}
    (spares : Known g.toMacros a.frame → SparesMissed g.toMacros a.frame) (j : Nat)
    (held : (g.step w (g.header a).mcnt).Holds j) :
    Tallied g.toMacros (g.counted w counted a (j % g.nInputBlocks)) (j % g.nInputBlocks)
      (s.call g.toMacros a).ring.mem := by
  have hj : j % g.nInputBlocks < g.nInputBlocks := Nat.mod_lt _ g.nInputBlocks_pos
  obtain ⟨o, w', does, next, ring⟩ := call_ring h a
  rw [ring]
  rw [next] at held
  cases does with
  | current v msgs routine effects =>
    have before := recorded.header j held
    rw [effects, Ring.execAll_append]
    simp only [Geometry.counted, v, joined_at]
    exact (before.logs msgs).storing hj spares
  | advance v msgs routine effects =>
    have filled : Tallied g.toMacros (g.opened counted (w.block + 2) (j % g.nInputBlocks))
        (j % g.nInputBlocks)
        (s.ring.execAll g.toMacros (filling g.toMacros w.block (g.header a) a.now)).mem := by
      refine tallied_opened (fun other => ?_) _ _ _ _
      have kept : j = w.block + 1 := held.resolve_right fun new => other (by rw [new])
      exact (recorded.header j (.inr kept)).stamp _ _
    rw [effects, Ring.execAll_append, Ring.execAll_append]
    simp only [Geometry.counted, v, joined_at]
    exact (filled.logs msgs).storing hj spares
  | late v msgs routine effects =>
    rw [effects]
    simp only [Geometry.counted, v]
    exact (recorded.header j held).logs msgs
  | stray v few msgs routine effects =>
    rw [effects]
    simp only [Geometry.counted, v, not_lt.mpr few, ↓reduceIte]
    exact (recorded.header j held).logs msgs
  | resync v many msgs routine pktMcnt effects =>
    rw [effects, Ring.execAll_append]
    simp only [Geometry.counted, v, many, ↓reduceIte]
    refine tallied_opened (fun notNext => tallied_opened (fun notFirst => ?_) _ _ _ _) _ _ _ _
    rcases held with rfl | rfl
    · exact absurd rfl notFirst
    · exact absurd rfl notNext

theorem Recorded.call {s : State} {w : Window.State} {counted : Nat → List Frame}
    (h : Tracks g s.thread w) (recorded : Recorded g s w counted) {a : Arrival}
    (spares : Known g.toMacros a.frame → SparesMissed g.toMacros a.frame) :
    Recorded g (s.call g.toMacros a) (g.step w (g.header a).mcnt) (g.counted w counted a) where
  counter := recorded_counter h recorded a
  header := recorded_header h recorded spares

/-! ## Runs of the main loop -/

/-- The packets that the size test lets through. -/
def admitted (m : Macros) (l : List Arrival) : List Arrival := l.filter (Accepted m ·.frame)

theorem Recorded.congr {s s' : State} {w : Window.State} {counted : Nat → List Frame}
    (recorded : Recorded g s w counted) (thread : s'.thread = s.thread)
    (mem : s'.ring.mem = s.ring.mem) : Recorded g s' w counted := by
  constructor
  · rw [thread]
    exact recorded.counter
  · rw [mem]
    exact recorded.header

theorem recorded_loops {s : State} {w : Window.State} {counted : Nat → List Frame}
    (h : Tracks g s.thread w) (recorded : Recorded g s w counted) (l : List Arrival) :
    Tracks g (s.loops g.toMacros l).thread (g.window w (admitted g.toMacros l)) ∧
    Recorded g (s.loops g.toMacros l) (g.window w (admitted g.toMacros l))
      (g.countedAll w counted (admitted g.toMacros l)) := by
  induction l generalizing s w counted with
  | nil => exact ⟨h, recorded⟩
  | cons a l ih =>
    let received : State := { s with ring := s.ring.exec g.toMacros .recvFrame }
    have before : Recorded g received w counted := recorded.congr rfl rfl
    by_cases accepted : Accepted g.toMacros a.frame
    · have thread : (s.loop g.toMacros a).thread = (received.call g.toMacros a).thread := by
        simp only [State.loop, accepted, ↓reduceIte, received]
      have mem : (s.loop g.toMacros a).ring.mem = (received.call g.toMacros a).ring.mem := by
        simp only [State.loop, accepted, ↓reduceIte, received]
        split <;> rfl
      have called := Recorded.call (s := received) h before fun known =>
        sparesMissed g.nm_pos accepted known
      have tracks : Tracks g (s.loop g.toMacros a).thread (g.step w (g.header a).mcnt) := by
        rw [thread]
        exact (call_does (t := received.thread) h a).2
      rw [admitted, List.filter_cons_of_pos (by simpa using accepted)]
      exact ih tracks (called.congr thread mem)
    · have same : s.loop g.toMacros a = received := by
        simp only [State.loop, accepted, ↓reduceIte, received]
      rw [admitted, List.filter_cons_of_neg (by simpa using accepted)]
      exact ih (by rw [same]; exact h) (by rw [same]; exact before)

theorem start_recorded (g : Geometry) (mem : Mem) (flag : Nat → Flag) :
    Recorded g (State.start g.toMacros mem flag) ⟨0, 0⟩ fun _ => [] := by
  constructor
  · rfl
  · intro j held
    have booked := start_booked g mem flag j held
    have empty : stored (j % g.nInputBlocks) (State.start g.toMacros mem flag).ring.trace = [] := by
      simp [State.start, startupEffects, initializeBlock, stored, Ring.exec]
    intro i hi
    rw [booked.missed i hi, empty]
    rfl

/-! ## The sums -/

/-- Counting a list class by class. -/
theorem sum_countP {α : Type} {n : Nat} (cls : α → Nat) {fs : List α}
    (lt : ∀ f ∈ fs, cls f < n) :
    ∑ i ∈ Finset.range n, fs.countP (cls · = i) = fs.length := by
  induction fs with
  | nil => simp
  | cons f fs ih =>
    have head : cls f ∈ Finset.range n := Finset.mem_range.mpr (lt f List.mem_cons_self)
    have rest := ih fun f' h => lt f' (List.mem_cons_of_mem f h)
    simp only [List.countP_cons, Finset.sum_add_distrib, rest, decide_eq_true_eq,
      Finset.sum_ite_eq, head, ↓reduceIte, List.length_cons]

theorem sum_sub_add {n nm : Nat} {c : Nat → Nat} (le : ∀ i < n, c i ≤ nm) :
    ∑ i ∈ Finset.range n, (nm - c i) + ∑ i ∈ Finset.range n, c i = nm * n := by
  rw [← Finset.sum_add_distrib]
  calc ∑ i ∈ Finset.range n, (nm - c i + c i)
      = ∑ i ∈ Finset.range n, nm :=
        Finset.sum_congr rfl fun i hi => Nat.sub_add_cancel (le i (Finset.mem_range.mp hi))
    _ = nm * n := by
        rw [Finset.sum_const_nat fun _ _ => rfl, Finset.card_range, Nat.mul_comm]

/-- The sum over counters that have not wrapped. -/
theorem sum_u64_sub {n nm : Nat} {c : Nat → Nat} (small : nm < 2 ^ 53) (le : ∀ i < n, c i ≤ nm) :
    ∑ i ∈ Finset.range n, u64 ((nm : Int) - c i) + ∑ i ∈ Finset.range n, c i = nm * n := by
  rw [← sum_sub_add le]
  congr 1
  apply Finset.sum_congr rfl
  intro i hi
  have bound := le i (Finset.mem_range.mp hi)
  unfold u64
  omega

/-- One tally goes down from `full` at every packet, the others from `nm` at every packet of
theirs: `c i` for entry `i`, and `rejected` for none. -/
theorem balance_iff {nm full n total rejected : Nat} {c : Nat → Nat} (small : nm < 2 ^ 53)
    (short : full < 2 ^ 58) (split : total = ∑ i ∈ Finset.range n, c i + rejected) :
    ((u32 ((u32 full : Int) - total) : Int) = (full : Int) - total ∧
      u32 ((u32 full : Int) - total) = ∑ i ∈ Finset.range n, u64 ((nm : Int) - c i)) ↔
    (∀ i < n, c i ≤ nm) ∧ full = nm * n + rejected ∧ full < 2 ^ 32 + total := by
  have word : u32 ((u32 full : Int) - total) < 2 ^ 32 := by
    unfold u32
    omega
  constructor
  · rintro ⟨unwrapped, sum⟩
    have entries : ∀ i < n, c i ≤ nm := by
      intro i hi
      by_contra wraps
      have mem := Finset.mem_range.mpr hi
      have counted : c i ≤ ∑ i ∈ Finset.range n, c i :=
        Finset.single_le_sum (fun _ _ => Nat.zero_le _) mem
      have summed : u64 ((nm : Int) - c i) ≤ ∑ i ∈ Finset.range n, u64 ((nm : Int) - c i) :=
        Finset.single_le_sum (f := fun i => u64 ((nm : Int) - c i)) (fun _ _ => Nat.zero_le _) mem
      have wrapped : 2 ^ 63 ≤ u64 ((nm : Int) - c i) := by
        unfold u64
        omega
      omega
    have sums := sum_u64_sub small entries
    constructor
    · exact entries
    · omega
  · rintro ⟨entries, rejects, fits⟩
    have sums := sum_u64_sub small entries
    have value : u32 ((u32 full : Int) - total) =
        ∑ i ∈ Finset.range n, u64 ((nm : Int) - c i) := by
      unfold u32
      omega
    constructor
    · rw [value]
      omega
    · exact value

/-! ## The fill -/

/-- What set_block_filled puts in the status buffer, process_packet leaves there. -/
theorem status_fill {s : State} {w : Window.State} (h : Tracks g s.thread w) {a : Arrival}
    (v : g.verdict w.block (g.header a).mcnt = .advance) :
    (s.call g.toMacros a).thread.status = (setBlockFilled g.toMacros s.thread).thread.status := by
  obtain ⟨msgs, _, pchan, nchan, eq⟩ :=
    countAndStore_spec g.toMacros (finishBlock g.toMacros s.thread (g.header a) a.now) a.frame
  simp only [Geometry.header] at eq
  simp only [State.call, processPacket_eq h, v, Geometry.header, eq]
  rfl

/-- The status fields are made of block_missed_pkt_cnt. -/
theorem status_missed (m : Macros) (t : Thread) :
    (setBlockFilled m t).thread.status.missedbm = blockMissedPktCnt m t / m.nm ∧
    (setBlockFilled m t).thread.status.missedpk =
      if blockMissedPktCnt m t % m.nm = 0 then t.status.missedpk
      else u32 (t.status.missedpk + (blockMissedPktCnt m t % m.nm : Nat)) := by
  have word : blockMissedPktCnt m t < 2 ^ 32 := by
    unfold blockMissedPktCnt u32
    omega
  have beams : u32 ((blockMissedPktCnt m t : Int) / m.nm) = blockMissedPktCnt m t / m.nm := by
    rw [← Int.natCast_ediv]
    exact u32_of_lt (Nat.lt_of_le_of_lt (Nat.div_le_self _ _) word)
  have rest : u32 ((blockMissedPktCnt m t : Int) % m.nm) = blockMissedPktCnt m t % m.nm := by
    rw [← Int.natCast_emod]
    exact u32_of_lt (Nat.lt_of_le_of_lt (Nat.mod_le _ _) word)
  have missedpk : (setBlockFilled m t).thread.status.missedpk =
      if u32 ((blockMissedPktCnt m t : Int) % m.nm) ≠ 0 then
        u32 (t.status.missedpk + u32 ((blockMissedPktCnt m t : Int) % m.nm))
      else t.status.missedpk := rfl
  constructor
  · exact beams
  · rw [missedpk, rest, ite_not]

theorem packets_lt (g : Geometry) : g.nm * g.nBeams < 2 ^ 58 := by
  have nm := g.nm_lt
  have beams : g.nBeams ≤ 19 := by
    unfold Macros.nBeams
    cases g.source <;> decide
  have scaled : g.nm * g.nBeams ≤ g.nm * 19 := Nat.mul_le_mul_left _ beams
  omega

/-- The header of the block as its counted packets account for it. -/
theorem missedAtFill_eq {s : State} {w : Window.State} {counted : Nat → List Frame}
    (h : Tracks g s.thread w) (recorded : Recorded g s w counted) (a : Arrival) :
    missedAtFill g.toMacros s a = ∑ i ∈ Finset.range g.nBors, u64 ((g.nm : Int) -
      ((counted (w.block % g.nInputBlocks)).filter (Known g.toMacros ·)).countP
        (countedIn g.toMacros · = i)) := by
  rw [missedAtFill, missedSum, h.mcntStart, blockForMcnt_mul]
  apply Finset.sum_congr rfl
  intro i hi
  rw [← recorded.header w.block (.inl rfl) i (Finset.mem_range.mp hi)]
  simp [Effect.apply]

theorem counted_split (m : Macros) (fs : List Frame) :
    fs.length = ∑ i ∈ Finset.range m.nBors,
      (fs.filter (Known m ·)).countP (countedIn m · = i) + fs.countP (¬ Known m ·) := by
  have entries : ∀ f ∈ fs.filter (Known m ·), countedIn m f < m.nBors := by
    intro f mem
    exact missedIndex_lt (of_decide_eq_true (List.mem_filter.mp mem).2)
  rw [sum_countP (countedIn m) entries, ← List.countP_eq_length_filter,
    List.length_eq_countP_add_countP (Known m ·)]
  simp

/-- A fill, from any state in which the block is accounted for. -/
theorem fill_agrees_iff {s : State} {w : Window.State} {counted : Nat → List Frame}
    (h : Tracks g s.thread w) (recorded : Recorded g s w counted) {a : Arrival}
    (v : g.verdict w.block (g.header a).mcnt = .advance) :
    TalliesAgree g.toMacros s a ↔ Balanced g.toMacros (counted (w.block % g.nInputBlocks)) := by
  have header := missedAtFill_eq h recorded a
  have counter : s.thread.binfo.blockPacketCounter
      (blockForMcnt g.toMacros s.thread.binfo.mcntStart) =
        (counted (w.block % g.nInputBlocks)).length := by
    rw [recorded.counter, h.mcntStart, blockForMcnt_mul]
  have cnt : blockMissedPktCnt g.toMacros s.thread =
      u32 ((u32 (g.nm * g.nBeams : Nat) : Int) -
        (counted (w.block % g.nInputBlocks)).length) := by
    rw [blockMissedPktCnt, counter]
    simp only [Macros.nPacketsPerBlock, Nat.cast_mul]
  have balance := balance_iff g.nm_lt (packets_lt g)
    (counted_split g.toMacros (counted (w.block % g.nInputBlocks)))
  rw [← header, ← cnt] at balance
  constructor
  · intro agree
    have unwrapped := agree.unwrapped
    rw [counter] at unwrapped
    obtain ⟨entries, rejected, fits⟩ := balance.mp ⟨unwrapped, agree.sum⟩
    exact ⟨entries, rejected, fits⟩
  · rintro ⟨entries, rejected, fits⟩
    obtain ⟨unwrapped, sum⟩ := balance.mpr ⟨entries, rejected, fits⟩
    obtain ⟨missedbm, missedpk⟩ := status_missed g.toMacros s.thread
    rw [sum] at missedbm missedpk
    constructor
    · rw [counter, unwrapped]
    · exact sum
    · rw [status_fill h v, missedbm]
    · rw [status_fill h v, missedpk]

theorem fills_iff {s : State} {w : Window.State} (h : Tracks g s.thread w) (a : Arrival) :
    Fills g.toMacros s a ↔ g.verdict w.block (g.header a).mcnt = .advance :=
  h.finishes_iff a

/-- A block that misses nothing, in no entry, shows no loss. -/
theorem TalliesAgree.complete {m : Macros} {s : State} {a : Arrival} (agree : TalliesAgree m s a)
    (none : missedAtFill m s a = 0) : (s.call m a).thread.status.missedbm = 0 ∧
      (s.call m a).thread.status.missedpk = s.thread.status.missedpk := by
  have missedbm := agree.missedbm
  have missedpk := agree.missedpk
  rw [none] at missedbm missedpk
  constructor
  · rw [missedbm, Nat.zero_div]
  · rw [missedpk, Nat.zero_mod, if_pos rfl]

/-- A balanced block of the S6 build has no packets of unknown sources, one of the FAST build
18 Nm of them; in the DIBAS build, whose header counts for eight subspectra, none is balanced. -/
theorem balanced_rejected {fs : List Frame} (balanced : Balanced g.toMacros fs) :
    match g.source with
    | .s6 => fs.countP (¬ Known g.toMacros ·) = 0
    | .dibas => False
    | .fast => fs.countP (¬ Known g.toMacros ·) = 18 * g.nm := by
  have rejected := balanced.rejected
  have pos := g.nm_pos
  cases source : g.source <;>
    simp only [Macros.nBeams, Macros.nBors, Macros.nSubspectraPerSpectrum, source] at rejected ⊢ <;>
    omega

/-- In every run of the main loop, the fills after which the two tallies agree are those of
balanced blocks. So they agree in the S6 build only if no packet counted was of an unknown
source, in the DIBAS build never, and in the FAST build only with 18 Nm such packets. Where they
agree, a block that misses nothing shows no loss. -/
theorem tallies_agree_iff (g : Geometry) (mem : Mem) (flag : Nat → Flag) (l : List Arrival)
    (a : Arrival)
    (fills : Fills g.toMacros ((State.start g.toMacros mem flag).loops g.toMacros l) a) :
    (TalliesAgree g.toMacros ((State.start g.toMacros mem flag).loops g.toMacros l) a ↔
      Balanced g.toMacros (g.countedAll ⟨0, 0⟩ (fun _ => []) (admitted g.toMacros l)
        ((g.window ⟨0, 0⟩ (admitted g.toMacros l)).block % g.nInputBlocks))) ∧
    (∀ fs, Balanced g.toMacros fs → match g.source with
      | .s6 => fs.countP (¬ Known g.toMacros ·) = 0
      | .dibas => False
      | .fast => fs.countP (¬ Known g.toMacros ·) = 18 * g.nm) ∧
    (TalliesAgree g.toMacros ((State.start g.toMacros mem flag).loops g.toMacros l) a →
      missedAtFill g.toMacros ((State.start g.toMacros mem flag).loops g.toMacros l) a = 0 →
      (((State.start g.toMacros mem flag).loops g.toMacros l).call
          g.toMacros a).thread.status.missedbm = 0 ∧
        (((State.start g.toMacros mem flag).loops g.toMacros l).call
          g.toMacros a).thread.status.missedpk =
        ((State.start g.toMacros mem flag).loops g.toMacros l).thread.status.missedpk) := by
  obtain ⟨tracks, recorded⟩ :=
    recorded_loops (start_tracks g mem flag) (start_recorded g mem flag) l
  exact ⟨fill_agrees_iff tracks recorded ((fills_iff tracks a).mp fills),
    fun _ => balanced_rejected, TalliesAgree.complete⟩

/-- The packet of a source of the S6 build. -/
def s6Packet (mcnt sid : Nat) : Arrival := ⟨.ofWords 1304 [mcnt * 2 ^ 40 + sid * 2 ^ 56], ⟨0, 0⟩⟩

/-- The S6 build, with all packets received of block 0. -/
def s6Complete : State :=
  (State.start s6Small.toMacros (fun _ => 0) fun _ => .free).loops s6Small.toMacros
    ((List.range 2).flatMap fun mcnt => (List.range 7).map (s6Packet mcnt))

theorem tallies_agree_iff_complete :
    TalliesAgree s6Small.toMacros s6Complete (s6Packet 3 0) ∧
    missedAtFill s6Small.toMacros s6Complete (s6Packet 3 0) = 0 ∧
    (s6Complete.call s6Small.toMacros (s6Packet 3 0)).thread.status.missedbm = 0 ∧
    (s6Complete.call s6Small.toMacros (s6Packet 3 0)).thread.status.missedpk =
      s6Complete.thread.status.missedpk := by
  have fills : Fills s6Small.toMacros s6Complete (s6Packet 3 0) := by decide +kernel
  have none : missedAtFill s6Small.toMacros s6Complete (s6Packet 3 0) = 0 := by decide +kernel
  unfold s6Complete at *
  obtain ⟨agree, -, complete⟩ := tallies_agree_iff s6Small _ _ _ _ fills
  have agrees := agree.mpr (by constructor <;> decide +kernel)
  exact ⟨agrees, none, complete agrees none⟩

/-- Block 0 has received both its packets and misses none, and set_block_filled finds 36 packets
of 18 beams missing. -/
theorem complete_block_reports_loss :
    let s := (State.start fastSmall.toMacros (fun _ => 0) fun _ => .free).loops fastSmall.toMacros
      [fastPacket (2 ^ 57), fastPacket (2 ^ 57 + 1)]
    let a := fastPacket (2 ^ 57 + 3)
    Fills fastSmall.toMacros s a ∧ missedAtFill fastSmall.toMacros s a = 0 ∧
    blockMissedPktCnt fastSmall.toMacros s.thread = 36 ∧
    (s.call fastSmall.toMacros a).thread.status.missedbm = 18 ∧
    ¬ TalliesAgree fastSmall.toMacros s a := by
  intro s a
  have header : missedAtFill fastSmall.toMacros s a = 0 := by decide +kernel
  have count : blockMissedPktCnt fastSmall.toMacros s.thread = 36 := by decide +kernel
  refine ⟨by decide +kernel, header, count, by decide +kernel, ?_⟩
  intro agree
  have sum := agree.sum
  rw [header, count] at sum
  contradiction

end S6Reobs
