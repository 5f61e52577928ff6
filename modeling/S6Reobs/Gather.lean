import S6Reobs.Loss

/-! Runs in which every packet is stored: a held block stores exactly the packets of
the run with its number, and a block all of whose packets have come is complete. -/

namespace S6Reobs

open Word Window

variable {g : Geometry}

/-- The payload fills the packet's slot. -/
def FullSize (m : Macros) (f : Frame) : Prop := copyBytes m f = m.slotBytes

instance (m : Macros) (f : Frame) : Decidable (FullSize m f) :=
  inferInstanceAs (Decidable (_ = _))

/-- Block `b` misses no packet of the sources `ids`, and holds in every slot the
payload of the slot's packet in `l`. -/
structure Complete (m : Macros) (ids : List Nat) (l : List Arrival) (b : Nat) (mem : Mem) :
    Prop where
  missed : ∀ id ∈ ids, mem (.header b (.missedPkts (missedIndex m id))) = 0
  slots : ∀ id ∈ ids, ∀ k < m.nm, ∃ a ∈ l, (getHeader m a.frame).sid = id ∧
    (getHeader m a.frame).mcnt = mem (.header b .mcnt) + k ∧
    ∀ w < m.slotWords, mem (.data b (place m (getHeader m a.frame) w)) = a.frame.payload w

theorem FullSize.fits {m : Macros} {f : Frame} (full : FullSize m f) : Fits m f :=
  Nat.le_of_eq full

theorem FullSize.words {m : Macros} {f : Frame} (full : FullSize m f) :
    copyWords m f = m.slotWords := by
  rw [copyWords, full]
  rfl

theorem SameEntry.sameSlot {a b : Arrival} (same : SameEntry g.toMacros a.frame b.frame) :
    SameSlot g.toMacros a.frame b.frame := by
  refine ⟨same.1, fun s6 => ?_⟩
  have entry := same.2
  simpa [countedIn, missedIndex, s6] using entry

theorem Complete.mono {m : Macros} {ids : List Nat} {l k : List Arrival} {b : Nat} {mem : Mem}
    (h : Complete m ids l b mem) (sub : ∀ a ∈ l, a ∈ k) : Complete m ids k b mem := by
  refine ⟨h.missed, ?_⟩
  intro id hid n hn
  obtain ⟨a, ha, rest⟩ := h.slots id hid n hn
  exact ⟨a, sub a ha, rest⟩

/-! ## What is stored after one call -/

theorem stored_storing {f : Frame} (known : Known g.toMacros f) {w : Window.State}
    (own : w.Holds (g.number f)) {j : Nat} (held : w.Holds j) (r : Ring) :
    stored (j % g.nInputBlocks) (r.execAll g.toMacros (storing g.toMacros f)).trace =
      if g.number f = j then f :: stored (j % g.nInputBlocks) r.trace
      else stored (j % g.nInputBlocks) r.trace := by
  rw [storing_known known]
  split
  · rename_i same
    exact stored_store same r
  · rename_i other
    exact if_neg (holds_place_ne own held other)

theorem stored_logs (b : Nat) (m : Macros) (msgs : List Msg) (r : Ring) :
    stored b (r.execAll m (msgs.map .log)).trace = stored b r.trace :=
  stored_execAll (apart_logs m b msgs) r

theorem stores_verdict {s : State} {w : Window.State} (h : Tracks g s.thread w) {a : Arrival}
    (stores : Stores g.toMacros s a) :
    g.verdict w.block (g.header a).mcnt = .current ∨
    g.verdict w.block (g.header a).mcnt = .advance := by
  have zone := stores.1
  rw [h.zone] at zone
  cases v : g.verdict w.block (g.header a).mcnt <;> simp_all

section Call

variable {s : State} {w : Window.State} (h : Tracks g s.thread w) {a : Arrival}
  (stores : Stores g.toMacros s a)
include h stores

/-- A block that stays held gains the packet if it is the packet's own. -/
theorem stored_call_kept {j : Nat} (held : w.Holds j)
    (still : (g.step w (g.header a).mcnt).Holds j) :
    stored (j % g.nInputBlocks) (s.call g.toMacros a).ring.trace =
      if g.number a.frame = j then a.frame :: stored (j % g.nInputBlocks) s.ring.trace
      else stored (j % g.nInputBlocks) s.ring.trace := by
  obtain ⟨own, known⟩ := (stores_iff h a).mp stores
  have open_ := stores_verdict h stores
  obtain ⟨o, w', does, next, ring⟩ := call_ring h a
  rw [ring]
  rw [next] at still
  cases does with
  | current v msgs routine effects =>
    rw [effects, Ring.execAll_append, stored_storing known own held, stored_logs]
  | advance v msgs routine effects =>
    have hj : j = w.block + 1 := by
      rcases held with rfl | rfl
      · rcases still with still | still <;> dsimp only at still <;> omega
      · rfl
    subst hj
    rw [effects, Ring.execAll_append, Ring.execAll_append, stored_storing known own held,
      stored_logs]
    have kept : stored ((w.block + 1) % g.nInputBlocks) (s.ring.execAll g.toMacros
        (filling g.toMacros w.block (g.header a) a.now)).trace =
        stored ((w.block + 1) % g.nInputBlocks) s.ring.trace :=
      if_neg (Period.place_ne_succ g.two_le_blocks (w.block + 1)).symm
    rw [kept]
  | late v | stray v | resync v => simp [v] at open_

/-- The block that an advancing call acquires stores nothing yet. -/
theorem stored_call_opened (v : g.verdict w.block (g.header a).mcnt = .advance) :
    stored ((w.block + 2) % g.nInputBlocks) (s.call g.toMacros a).ring.trace = [] := by
  obtain ⟨_, known⟩ := (stores_iff h a).mp stores
  obtain ⟨o, w', does, -, ring⟩ := call_ring h a
  rw [ring]
  cases does with
  | advance _ msgs routine effects =>
    have own : g.number a.frame = w.block + 1 := advance_block g.even v
    have next : Window.State.Holds ⟨w.block + 1, 0⟩ (g.number a.frame) := .inl own
    have held : Window.State.Holds ⟨w.block + 1, 0⟩ (w.block + 2) := .inr rfl
    have other : ¬ g.number a.frame = w.block + 2 := by omega
    rw [effects, Ring.execAll_append, Ring.execAll_append, stored_storing known next held,
      if_neg other, stored_logs]
    exact if_pos rfl
  | current v' | late v' | stray v' | resync v' => simp [v] at v'

end Call

/-! ## Runs -/

theorem window_append (w : Window.State) (l : List Arrival) (a : Arrival) :
    g.window w (l ++ [a]) = g.step (g.window w l) (g.header a).mcnt := by
  simp [Geometry.window, List.foldl_append]

theorem holds_of_verdict {w : Window.State} {a : Arrival}
    (v : g.verdict w.block (g.header a).mcnt = .current ∨
      g.verdict w.block (g.header a).mcnt = .advance) : w.Holds (g.number a.frame) := by
  cases v with
  | inl v => exact current_block g.even v
  | inr v => exact .inr (advance_block g.even v)

/-- `l` has been received, all of it stored. Of the held blocks numbered `lo` or
more the header and data are known as well. -/
structure Gathered (g : Geometry) (lo : Nat) (l : List Arrival) (s : State) (w : Window.State) :
    Prop where
  tracks : Tracks g s.thread w
  whole : ∀ j, w.Holds j → stored (j % g.nInputBlocks) s.ring.trace =
    ((l.map Arrival.frame).filter (g.number · = j)).reverse
  below : ∀ a ∈ l, g.number a.frame ≤ w.block + 1
  accounted : ∀ j, w.Holds j → lo ≤ j → Accounted g j s.ring
  placed : ∀ j, w.Holds j → lo ≤ j → Placed g j s.ring

theorem Gathered.whole_call {lo : Nat} {l : List Arrival} {s : State} {w : Window.State}
    (h : Gathered g lo l s w) {a : Arrival} (stores : Stores g.toMacros s a) {j : Nat}
    (still : (g.step w (g.header a).mcnt).Holds j) :
    stored (j % g.nInputBlocks) (s.call g.toMacros a).ring.trace =
      (((l ++ [a]).map Arrival.frame).filter (g.number · = j)).reverse := by
  rw [List.map_append, List.filter_append, List.reverse_append]
  by_cases held : w.Holds j
  · rw [stored_call_kept h.tracks stores held still, h.whole j held]
    split <;> simp [*]
  · -- only an advancing call brings in a new block, and no packet so far is for it
    have v : g.verdict w.block (g.header a).mcnt = .advance := by
      cases stores_verdict h.tracks stores with
      | inl v =>
        have next : g.step w (g.header a).mcnt = ⟨w.block, 0⟩ := step_current v
        rw [next] at still
        exact absurd still held
      | inr v => exact v
    have own : g.number a.frame = w.block + 1 := advance_block g.even v
    have next : g.step w (g.header a).mcnt = ⟨w.block + 1, 0⟩ := step_advance v
    rw [next] at still
    have hj : j = w.block + 2 := by
      rcases still with rfl | rfl
      · exact absurd (.inr rfl) held
      · rfl
    subst hj
    have none : (l.map Arrival.frame).filter (g.number · = w.block + 2) = [] := by
      rw [List.filter_eq_nil_iff]
      intro f hf
      obtain ⟨b, hb, rfl⟩ := List.mem_map.mp hf
      have := h.below b hb
      simp only [decide_eq_true_eq]
      omega
    rw [stored_call_opened h.tracks stores v, none]
    simp [own]

theorem Gathered.call {lo : Nat} {l : List Arrival} {s : State} {w : Window.State}
    (h : Gathered g lo l s w) {a : Arrival} (stores : Stores g.toMacros s a)
    (full : FullSize g.toMacros a.frame)
    (new : ∀ b ∈ l, ¬ SameEntry g.toMacros a.frame b.frame) :
    Gathered g lo (l ++ [a]) (s.call g.toMacros a) (g.step w (g.header a).mcnt) := by
  obtain ⟨own, known⟩ := (stores_iff h.tracks a).mp stores
  have open_ := stores_verdict h.tracks stores
  have block : w.block ≤ (g.step w (g.header a).mcnt).block := by
    cases open_ with
    | inl v =>
      have next : g.step w (g.header a).mcnt = ⟨w.block, 0⟩ := step_current v
      rw [next]
    | inr v =>
      have next : g.step w (g.header a).mcnt = ⟨w.block + 1, 0⟩ := step_advance v
      rw [next]
      exact Nat.le_succ _
  have fresh : ¬ Duplicate g.toMacros
      (stored (g.number a.frame % g.nInputBlocks) s.ring.trace) a.frame := by
    rintro ⟨f, hf, same⟩
    rw [h.whole _ own, List.mem_reverse, List.mem_filter] at hf
    obtain ⟨b, hb, rfl⟩ := List.mem_map.mp hf.1
    exact new b hb same
  refine ⟨(call_does h.tracks a).2, fun j => h.whole_call stores, ?_, ?_, ?_⟩
  · intro b hb
    cases List.mem_append.mp hb with
    | inl hb =>
      have := h.below b hb
      omega
    | inr hb =>
      rw [List.mem_singleton.mp hb]
      rcases own with own | own <;> omega
  · intro j still from_
    exact (accounted_rule g).call_held h.tracks
      (fun _ => ⟨full.fits.staysIn g.nm_pos known _, fresh⟩) trivial still
      fun held => h.accounted j held from_
  · intro j still from_
    exact (placed_rule g).call_held h.tracks (fun _ => full.fits) trivial still
      fun held => h.placed j held from_

theorem Gathered.run {lo : Nat} {l k : List Arrival} {s : State} {w : Window.State}
    (h : Gathered g lo l s w)
    (stores : ∀ earlier a later, k = earlier ++ a :: later →
      Stores g.toMacros (s.run g.toMacros earlier) a)
    (full : ∀ a ∈ k, FullSize g.toMacros a.frame)
    (apart : (l ++ k).Pairwise fun a b => ¬ SameSlot g.toMacros a.frame b.frame) :
    Gathered g lo (l ++ k) (s.run g.toMacros k) (g.window w k) := by
  induction k generalizing l s w with
  | nil => rwa [List.append_nil]
  | cons a k ih =>
    have new : ∀ b ∈ l, ¬ SameEntry g.toMacros a.frame b.frame := by
      intro b hb same
      have slot := same.sameSlot
      exact (List.pairwise_append.mp apart).2.2 b hb a List.mem_cons_self
        ⟨slot.1.symm, fun s6 => (slot.2 s6).symm⟩
    have next := h.call (stores [] a k rfl) (full a List.mem_cons_self) new
    rw [List.append_cons] at apart ⊢
    refine ih next ?_ (fun b hb => full b (List.mem_cons_of_mem a hb)) ?_
    · rintro earlier b later rfl
      exact stores (a :: earlier) b later rfl
    · exact apart

/-- The stamp stores nothing. -/
theorem Gathered.stored_stamped {lo : Nat} {l : List Arrival} {s : State} {w : Window.State}
    (h : Gathered g lo l s w) (now : Timespec) :
    stored (w.block % g.nInputBlocks) (stamped g.toMacros s.ring w.block now).trace =
      ((l.map Arrival.frame).filter (g.number · = w.block)).reverse :=
  h.whole _ (.inl rfl)

theorem Gathered.mem_stamped {lo : Nat} {l : List Arrival} {s : State} {w : Window.State}
    (h : Gathered g lo l s w) (now : Timespec) {a : Arrival} (ha : a ∈ l)
    (number : (g.header a).mcnt / g.nm = w.block) :
    a.frame ∈ stored (w.block % g.nInputBlocks) (stamped g.toMacros s.ring w.block now).trace := by
  rw [h.stored_stamped, List.mem_reverse, List.mem_filter]
  exact ⟨List.mem_map_of_mem ha, by simpa using number⟩

theorem Gathered.stamped_apart {lo : Nat} {l : List Arrival} {s : State} {w : Window.State}
    (h : Gathered g lo l s w) (now : Timespec)
    (apart : l.Pairwise fun a b => ¬ SameSlot g.toMacros a.frame b.frame) :
    (stored (w.block % g.nInputBlocks) (stamped g.toMacros s.ring w.block now).trace).Pairwise
      (¬ SameSlot g.toMacros · ·) := by
  rw [h.stored_stamped, List.pairwise_reverse]
  refine List.Pairwise.filter _ ?_
  rw [List.pairwise_map]
  exact apart.imp fun ne same => ne ⟨same.1.symm, fun s6 => (same.2 s6).symm⟩

/-- When the current block is filled and all its packets have come, it is complete. -/
theorem Gathered.complete {lo : Nat} {l : List Arrival} {s : State} {w : Window.State}
    (h : Gathered g lo l s w) (known : lo ≤ w.block) (now : Timespec) {ids : List Nat}
    (valid : ∀ id ∈ ids, id < g.nSourceNodes)
    (full : ∀ a ∈ l, FullSize g.toMacros a.frame)
    (apart : l.Pairwise fun a b => ¬ SameSlot g.toMacros a.frame b.frame)
    (all : ∀ id ∈ ids, ∀ mcnt, mcnt / g.nm = w.block →
      ∃ a ∈ l, (g.header a).sid = id ∧ (g.header a).mcnt = mcnt) :
    Complete g.toMacros ids l (w.block % g.nInputBlocks)
      (stamped g.toMacros s.ring w.block now).mem := by
  have accounted : Accounted g w.block (stamped g.toMacros s.ring w.block now) :=
    (accounted_rule g).apart trivial (h.accounted _ (.inl rfl) known)
  have placed : Placed g w.block (stamped g.toMacros s.ring w.block now) :=
    (placed_rule g).apart trivial (h.placed _ (.inl rfl) known)
  have mcnt := accounted.1.mcnt
  -- the packet of the `k`th slot
  have packet : ∀ id ∈ ids, ∀ k < g.nm, ∃ a ∈ l, (g.header a).sid = id ∧
      (g.header a).mcnt = g.nm * w.block + k ∧
      a.frame ∈ stored (w.block % g.nInputBlocks)
        (stamped g.toMacros s.ring w.block now).trace := by
    intro id hid k hk
    have number : (g.nm * w.block + k) / g.nm = w.block := by
      rw [Nat.mul_add_div g.nm_pos, Nat.div_eq_of_lt hk, Nat.add_zero]
    obtain ⟨a, ha, sid, at_⟩ := all id hid _ number
    exact ⟨a, ha, sid, at_, h.mem_stamped now ha (by rw [at_]; exact number)⟩
  constructor
  · intro id hid
    have exact_ := accounted.lossExact (missedIndex g.toMacros id) (missedIndex_lt (valid id hid))
    have every : distinctMcnts g.toMacros (g.nm * w.block) (missedIndex g.toMacros id)
        (stored (w.block % g.nInputBlocks)
          (stamped g.toMacros s.ring w.block now).trace) = g.nm := by
      apply distinctMcnts_all
      intro k hk
      obtain ⟨a, _, sid, at_, mem⟩ := packet id hid k hk
      exact ⟨a.frame, mem, at_, by rw [← sid]⟩
    rw [mcnt, every] at exact_
    omega
  · intro id hid k hk
    obtain ⟨a, ha, sid, at_, mem⟩ := packet id hid k hk
    refine ⟨a, ha, sid, by rw [mcnt]; exact at_, ?_⟩
    intro v hv
    exact placed.payload (h.stamped_apart now apart) a.frame mem v
      (by rw [(full a ha).words]; exact hv)

/-- The fills of a run are those of its advancing calls. -/
theorem atFills_run {P : Nat → Mem → List Entry → Prop} {s : State} {w : Window.State}
    (h : Tracks g s.thread w) (l : List Arrival) (before : AtFills P s.ring.trace)
    (each : ∀ earlier a later, l = earlier ++ a :: later →
      g.verdict (g.window w earlier).block (g.header a).mcnt = .advance →
      P ((g.window w earlier).block % g.nInputBlocks)
        (stamped g.toMacros (s.run g.toMacros earlier).ring (g.window w earlier).block a.now).mem
        (stamped g.toMacros (s.run g.toMacros earlier).ring
          (g.window w earlier).block a.now).trace) :
    AtFills P (s.run g.toMacros l).ring.trace := by
  induction l generalizing s w with
  | nil => exact before
  | cons a l ih =>
    refine ih (call_does h a).2 ((atFills_call h a P).mpr ⟨before, each [] a l rfl⟩) ?_
    rintro earlier b later rfl
    exact each (a :: earlier) b later rfl

end S6Reobs
