import S6Reobs.Gather

/-! Lossless assembly under bounded reordering. Packets of a set of sources come in
any order in which none is overtaken by a packet half a block or more ahead of it. -/

namespace S6Reobs

open Word Window

namespace Window

/-- An endless sequence of packets, given by source id and mcnt: every pair with a
source of `ids` and an mcnt from `start` on, once, and no packet precedes one that
is `per / 2` or more behind it. -/
structure Interleaved (per start : Nat) (ids : List Nat) (seq : Nat → Nat × Nat) : Prop where
  nonempty : ids ≠ []
  source : ∀ i, (seq i).1 ∈ ids
  least : ∀ i, start ≤ (seq i).2
  present : ∀ id ∈ ids, ∀ mcnt, start ≤ mcnt → ∃ i, seq i = (id, mcnt)
  once : ∀ i k, seq i = seq k → i = k
  near : ∀ i k, i < k → (seq i).2 < (seq k).2 + per / 2

/-- After `n` packets: everything before the window has come, and nothing from the
end of its third half block on. -/
structure Caught (per start : Nat) (ids : List Nat) (seq : Nat → Nat × Nat) (n : Nat)
    (w : State) : Prop where
  start_le : start ≤ per * w.block
  passed : ∀ id ∈ ids, ∀ mcnt, start ≤ mcnt → mcnt < per * w.block → ∃ i < n, seq i = (id, mcnt)
  ahead : ∀ i < n, (seq i).2 < per * w.block + 3 * (per / 2)

section Caught

variable {per start n : Nat} {ids : List Nat} {seq : Nat → Nat × Nat} {w : State}

theorem Caught.initial (w : State) : Caught per (per * w.block) ids seq 0 w :=
  ⟨Nat.le_refl _, fun _ _ _ lo hi => absurd hi (Nat.not_lt.mpr lo), fun _ hi => by omega⟩

variable (ring limit : Nat) (pos : 0 < per) (even : 2 ∣ per)
  (I : Interleaved per start ids seq) (c : Caught per start ids seq n w)
include even I c

include pos in
/-- The next packet is in the window. -/
theorem Caught.next_in_window :
    verdict per ring w.block (seq n).2 = .current ∨
      verdict per ring w.block (seq n).2 = .advance := by
  have half := Nat.mul_div_cancel' even
  have lo : per * w.block ≤ (seq n).2 := by
    by_contra late
    obtain ⟨i, hi, eq⟩ := c.passed _ (I.source n) _ (I.least n) (by omega)
    have := I.once i n eq
    omega
  have hi : (seq n).2 < per * w.block + 2 * per := by
    by_contra far
    -- a packet of the third half block has not come, and may not come later
    obtain ⟨id, hid⟩ := List.exists_mem_of_ne_nil ids I.nonempty
    have from_ := c.start_le
    obtain ⟨i, eq⟩ := I.present id hid (per * w.block + 3 * (per / 2)) (by omega)
    have mcnt : (seq i).2 = per * w.block + 3 * (per / 2) := by rw [eq]
    rcases Nat.lt_trichotomy i n with before | same | after
    · have := c.ahead i before
      omega
    · subst same
      omega
    · have := I.near n i after
      omega
  cases Nat.lt_or_ge (seq n).2 (per * w.block + 3 * (per / 2)) with
  | inl early => exact .inl (verdict_current.mpr ⟨lo, early⟩)
  | inr done => exact .inr (verdict_advance.mpr ⟨done, hi⟩)

/-- When the next packet ends the current block, the block's packets have all come. -/
theorem Caught.finished (v : verdict per ring w.block (seq n).2 = .advance) :
    ∀ id ∈ ids, ∀ mcnt, start ≤ mcnt → mcnt < per * (w.block + 1) →
      ∃ i < n, seq i = (id, mcnt) := by
  intro id hid mcnt from_ upto
  have half := Nat.mul_div_cancel' even
  obtain ⟨done, _⟩ := verdict_advance.mp v
  rw [Nat.mul_add, Nat.mul_one] at upto
  obtain ⟨i, eq⟩ := I.present id hid mcnt from_
  have at_ : (seq i).2 = mcnt := by rw [eq]
  rcases Nat.lt_trichotomy i n with before | same | after
  · exact ⟨i, before, eq⟩
  · subst same
    omega
  · have := I.near n i after
    omega

include pos in
theorem Caught.step : Caught per start ids seq (n + 1) (step per ring limit w (seq n).2) := by
  have half := Nat.mul_div_cancel' even
  have from_ := c.start_le
  cases c.next_in_window ring pos even I with
  | inl v =>
    obtain ⟨_, early⟩ := verdict_current.mp v
    rw [step_current v]
    refine ⟨from_, ?_, ?_⟩
    · intro id hid mcnt lo hi
      obtain ⟨i, before, eq⟩ := c.passed id hid mcnt lo hi
      exact ⟨i, by omega, eq⟩
    · intro i hi
      rcases Nat.lt_succ_iff_lt_or_eq.mp hi with before | rfl
      · exact c.ahead i before
      · exact early
  | inr v =>
    obtain ⟨_, near⟩ := verdict_advance.mp v
    rw [step_advance v]
    refine ⟨?_, ?_, ?_⟩
    · rw [Nat.mul_add]
      omega
    · intro id hid mcnt lo hi
      obtain ⟨i, before, eq⟩ := c.finished ring even I v id hid mcnt lo hi
      exact ⟨i, by omega, eq⟩
    · intro i hi
      simp only [Nat.mul_add, Nat.mul_one]
      rcases Nat.lt_succ_iff_lt_or_eq.mp hi with before | rfl
      · have := c.ahead i before
        omega
      · omega

end Caught

end Window

variable {g : Geometry}

/-- The header of `block[b]` is as initialize_block leaves it for `mcnt`. -/
structure Untouched (m : Macros) (mem : Mem) (b mcnt : Nat) : Prop where
  mcnt : mem (.header b .mcnt) = mcnt
  missed : ∀ i < m.nBors, mem (.header b (.missedPkts i)) = m.nm

/-- The two held blocks have just been initialised. -/
structure JustInitialised (m : Macros) (s : State) : Prop where
  current : Untouched m s.ring.mem s.thread.binfo.blockI s.thread.binfo.mcntStart
  next : Untouched m s.ring.mem ((s.thread.binfo.blockI + 1) % m.nInputBlocks)
    (s.thread.binfo.mcntStart + m.nm)

/-- `l` are the first packets of `seq`. -/
def Feeds (m : Macros) (l : List Arrival) (seq : Nat → Nat × Nat) : Prop :=
  ∀ i (h : i < l.length), ((getHeader m l[i].frame).sid, (getHeader m l[i].frame).mcnt) = seq i

namespace Feeds

variable {m : Macros} {l k : List Arrival} {a : Arrival} {seq : Nat → Nat × Nat}

theorem left (h : Feeds m (l ++ k) seq) : Feeds m l seq := by
  intro i hi
  rw [← h i (by rw [List.length_append]; omega), List.getElem_append_left hi]

theorem last (h : Feeds m (l ++ a :: k) seq) :
    ((getHeader m a.frame).sid, (getHeader m a.frame).mcnt) = seq l.length := by
  rw [← h l.length (by simp), List.getElem_append_right (Nat.le_refl _)]
  simp

theorem mem (h : Feeds m l seq) (ha : a ∈ l) :
    ∃ i < l.length, ((getHeader m a.frame).sid, (getHeader m a.frame).mcnt) = seq i := by
  obtain ⟨i, hi, rfl⟩ := List.mem_iff_getElem.mp ha
  exact ⟨i, hi, h i hi⟩

end Feeds

theorem Untouched.accounted {j : Nat} {r : Ring}
    (u : Untouched g.toMacros r.mem (j % g.nInputBlocks) (g.nm * j)) :
    Accounted g j { r with trace := [] } := by
  have nm := g.nm_lt
  refine ⟨⟨u.mcnt, by simp [stored], ?_⟩, .nil⟩
  intro i hi
  have whole : u64 g.nm = g.nm := u64_of_lt (by omega)
  simp [stored, u.missed i hi, whole]

theorem Untouched.placed {j : Nat} {r : Ring} : Placed g j { r with trace := [] } :=
  ⟨by simp [stored], by simp [stored]⟩

theorem JustInitialised.gathered {s : State} {w : Window.State} (tracks : Tracks g s.thread w)
    (init : JustInitialised g.toMacros s) : Gathered g 0 [] s.record w where
  tracks := tracks
  whole j _ := rfl
  below := by simp
  accounted := by
    obtain ⟨current, next⟩ := init
    rw [tracks.blockI, tracks.mcntStart] at current next
    rw [Period.place_succ, ← mul_succ_eq] at next
    rintro j (rfl | rfl) _
    · exact current.accounted
    · exact next.accounted
  placed j _ _ := Untouched.placed

/-- Two packets of one source, or of the S6 build, share a slot only if they agree in
source and mcnt. -/
theorem SameSlot.same_packet {ids : List Nat}
    (single : g.source ≠ .s6 → ∀ id ∈ ids, ∀ id' ∈ ids, id = id') {a b : Arrival}
    (ha : (g.header a).sid ∈ ids) (hb : (g.header b).sid ∈ ids)
    (same : SameSlot g.toMacros a.frame b.frame) :
    ((g.header a).sid, (g.header a).mcnt) = ((g.header b).sid, (g.header b).mcnt) := by
  by_cases s6 : g.source = .s6
  · exact Prod.ext (same.2 s6) same.1
  · exact Prod.ext (single s6 _ ha _ hb) same.1

theorem marks_run_stored {s : State} {w : Window.State} (h : Tracks g s.thread w)
    {l : List Arrival} (each : ∀ earlier a later, l = earlier ++ a :: later →
      Stores g.toMacros (s.run g.toMacros earlier) a) (before : .reset ∉ marks s.ring.trace) :
    .reset ∉ marks (s.run g.toMacros l).ring.trace := by
  induction l generalizing s w with
  | nil => exact before
  | cons a l ih =>
    have grown := marks_call h a
    refine ih (call_does h a).2 ?_ ?_
    · rintro earlier b later rfl
      exact each (a :: earlier) b later rfl
    · rcases stores_verdict h (each [] a l rfl) with v | v <;> simp only [v] at grown <;>
        simpa [grown] using before

/-- Two packets of the sequence never share a slot. -/
theorem Feeds.apart {start : Nat} {ids : List Nat} {seq : Nat → Nat × Nat} {l : List Arrival}
    (feeds : Feeds g.toMacros l seq) (sources : Interleaved g.nm start ids seq)
    (single : g.source ≠ .s6 → ∀ id ∈ ids, ∀ id' ∈ ids, id = id') :
    l.Pairwise fun a b => ¬ SameSlot g.toMacros a.frame b.frame := by
  rw [List.pairwise_iff_getElem]
  intro i k hi hk lt same
  have source (n : Nat) (hn : n < l.length) : (g.header l[n]).sid ∈ ids := by
    have := sources.source n
    rwa [← feeds n hn] at this
  have packet := same.same_packet single (source i hi) (source k hk)
  have := sources.once i k (by rw [← feeds i hi, ← feeds k hk]; exact packet)
  omega

section Lossless

variable {s : State} {w : Window.State} (tracks : Tracks g s.thread w)
  (init : JustInitialised g.toMacros s) {ids : List Nat} {seq : Nat → Nat × Nat}
  (sources : Interleaved g.nm s.thread.binfo.mcntStart ids seq)
  (valid : ∀ id ∈ ids, id < g.nSourceNodes)
  (single : g.source ≠ .s6 → ∀ id ∈ ids, ∀ id' ∈ ids, id = id')
include sources valid

theorem next_stores {l : List Arrival} {a : Arrival} {n : Nat} {w' : Window.State}
    (caught : Caught g.nm s.thread.binfo.mcntStart ids seq n w')
    (gathered : Gathered g 0 l (s.record.run g.toMacros l) w')
    (packet : ((g.header a).sid, (g.header a).mcnt) = seq n) :
    Stores g.toMacros (s.record.run g.toMacros l) a := by
  have open_ := caught.next_in_window g.nInputBlocks g.nm_pos g.even sources
  have known := valid _ (sources.source n)
  rw [← packet] at open_ known
  exact (stores_iff gathered.tracks a).mpr ⟨holds_of_verdict open_, known⟩

include tracks init single

/-- After any number of packets: where the window is, and what has been gathered. -/
theorem lossless_run (l : List Arrival) (feeds : Feeds g.toMacros l seq)
    (size : ∀ a ∈ l, FullSize g.toMacros a.frame) :
    Caught g.nm s.thread.binfo.mcntStart ids seq l.length (g.window w l) ∧
    Gathered g 0 l (s.record.run g.toMacros l) (g.window w l) := by
  induction l using List.reverseRecOn with
  | nil =>
    refine ⟨?_, init.gathered tracks⟩
    rw [tracks.mcntStart]
    exact Caught.initial w
  | append_singleton l a ih =>
    obtain ⟨caught, gathered⟩ := ih feeds.left (fun b hb => size b (List.mem_append_left _ hb))
    have packet : ((g.header a).sid, (g.header a).mcnt) = seq l.length := feeds.last
    have stores := next_stores sources valid caught gathered packet
    have apart := (List.pairwise_append.mp (feeds.apart sources single)).2.2
    have new : ∀ b ∈ l, ¬ SameEntry g.toMacros a.frame b.frame := by
      intro b hb same
      have slot := same.sameSlot
      exact apart b hb a (List.mem_singleton_self a)
        ⟨slot.1.symm, fun s6 => (slot.2 s6).symm⟩
    rw [window_append, State.run_append, List.length_append]
    refine ⟨?_, gathered.call stores (size a (by simp)) new⟩
    have next := caught.step g.nInputBlocks g.maxOutOfSeq g.nm_pos g.even
      sources
    rw [← packet] at next
    exact next

end Lossless

/-- From two blocks just initialised, packets that come in an order with reorder depth
below Nm/2 are all stored, and every block that is filled is complete. -/
theorem reordered_lossless (g : Geometry) {s : State} (reach : Reachable g.toMacros s)
    (init : JustInitialised g.toMacros s) {ids : List Nat} {seq : Nat → Nat × Nat}
    (sources : Interleaved g.nm s.thread.binfo.mcntStart ids seq)
    (valid : ∀ id ∈ ids, id < g.nSourceNodes)
    (single : g.source ≠ .s6 → ∀ id ∈ ids, ∀ id' ∈ ids, id = id') {l : List Arrival}
    (feeds : Feeds g.toMacros l seq) (size : ∀ a ∈ l, FullSize g.toMacros a.frame) :
    (∀ earlier a later, l = earlier ++ a :: later →
      pktZone g.toMacros (s.record.run g.toMacros earlier).thread.binfo.mcntStart
        (g.header a).mcnt = .window) ∧
    .reset ∉ marks (s.record.run g.toMacros l).ring.trace ∧
    AtFills (fun b mem _ => Complete g.toMacros ids l b mem)
      (s.record.run g.toMacros l).ring.trace := by
  obtain ⟨w, tracks⟩ := reachable_tracks reach
  have recorded : Tracks g s.record.thread w := tracks
  have gather (earlier : List Arrival) (a : Arrival) (later : List Arrival)
      (split : l = earlier ++ a :: later) :=
    lossless_run tracks init sources valid single earlier (by rw [split] at feeds; exact feeds.left)
      (fun b hb => size b (by rw [split]; exact List.mem_append_left _ hb))
  have stores (earlier : List Arrival) (a : Arrival) (later : List Arrival)
      (split : l = earlier ++ a :: later) :
      Stores g.toMacros (s.record.run g.toMacros earlier) a := by
    obtain ⟨caught, gathered⟩ := gather earlier a later split
    exact next_stores sources valid caught gathered (by rw [split] at feeds; exact feeds.last)
  refine ⟨fun earlier a later split => (stores earlier a later split).1,
    marks_run_stored recorded stores (by simp [State.record, marks]), ?_⟩
  refine atFills_run recorded l atFills_nil ?_
  intro earlier a later split v
  obtain ⟨caught, gathered⟩ := gather earlier a later split
  subst split
  have packet : ((g.header a).sid, (g.header a).mcnt) = seq earlier.length := feeds.last
  have come := caught.finished g.nInputBlocks g.even sources
    (by rw [← packet]; exact v)
  refine (gathered.complete (Nat.zero_le _) a.now valid
    (fun b hb => size b (List.mem_append_left _ hb)) (feeds.left.apart sources single) ?_).mono
    (fun b hb => List.mem_append_left _ hb)
  intro id hid mcnt number
  obtain ⟨lo, hi⟩ := Period.bounds_of_div g.nm_pos mcnt
  rw [number] at lo hi
  obtain ⟨i, hi, eq⟩ := come id hid mcnt (Nat.le_trans caught.start_le lo) hi
  have at_ := feeds.left i hi
  rw [eq] at at_
  exact ⟨earlier[i], List.getElem_mem hi, congrArg Prod.fst at_, congrArg Prod.snd at_⟩

/-- Packets of one source in order. -/
theorem interleaved_in_order (per start id : Nat) :
    Interleaved per start [id] fun i => (id, start + i) where
  nonempty := by simp
  source i := List.mem_singleton_self id
  least i := Nat.le_add_right start i
  present := by
    intro id' hid mcnt lo
    rw [List.mem_singleton.mp hid]
    exact ⟨mcnt - start, Prod.ext rfl (by dsimp only; omega)⟩
  once i k h := Nat.add_left_cancel (Prod.mk.inj h).2
  near i k h := by dsimp only; omega

/-- Packets 0 and 1 change places, 2 and 3, and so on. -/
def swap (i : Nat) : Nat := if i % 2 = 0 then i + 1 else i - 1

theorem swap_swap (i : Nat) : swap (swap i) = i := by
  unfold swap
  split <;> split <;> omega

theorem interleaved_swapped {per : Nat} (four : 4 ≤ per) (start id : Nat) :
    Interleaved per start [id] fun i => (id, start + swap i) where
  nonempty := by simp
  source i := List.mem_singleton_self id
  least i := Nat.le_add_right start _
  present := by
    intro id' hid mcnt lo
    rw [List.mem_singleton.mp hid]
    exact ⟨swap (mcnt - start), Prod.ext rfl (by dsimp only; rw [swap_swap]; omega)⟩
  once i k h := by
    have same := Nat.add_left_cancel (Prod.mk.inj h).2
    rw [← swap_swap i, same, swap_swap]
  near i k h := by
    dsimp only
    unfold swap
    split <;> split <;> omega

/-- Of eight packets that come in swapped pairs, packet 7 fills block 0. -/
theorem reordered_lossless_swapped :
    let s := State.start fastFour.toMacros (fun _ => 0) fun _ => .free
    let l := (List.range 8).map fun i => fastPacket (2 ^ 57 + swap i)
    (∀ earlier a later, l = earlier ++ a :: later →
      pktZone fastFour.toMacros (s.record.run fastFour.toMacros earlier).thread.binfo.mcntStart
        (fastFour.header a).mcnt = .window) ∧
    marks (s.record.run fastFour.toMacros l).ring.trace = [.filled 0 0] ∧
    AtFills (fun b mem _ => Complete fastFour.toMacros [0] l b mem)
      (s.record.run fastFour.toMacros l).ring.trace := by
  intro s l
  have init : JustInitialised fastFour.toMacros s :=
    ⟨⟨by decide +kernel, by decide +kernel⟩, ⟨by decide +kernel, by decide +kernel⟩⟩
  have feeds : Feeds fastFour.toMacros l fun i => (0, 0 + swap i) := by
    unfold Feeds
    decide +kernel
  obtain ⟨stores, -, complete⟩ := reordered_lossless fastFour (.start _ _) init
    (interleaved_swapped (by decide) 0 0) (by decide) (by simp) feeds (by decide +kernel)
  exact ⟨stores, by decide +kernel, complete⟩

end S6Reobs
