import S6Reobs.Converge
import S6Reobs.Evidence
import S6Reobs.Reorder

/-! Resynchronisation. A gap-free stream of one source is taken in after few packets, and
every block that is opened from then on is completed. The thread may be in any state in
which out_of_seq_cnt can count the packets that it takes to resync. -/

namespace S6Reobs

open Word Window

variable {g : Geometry}

/-- The window after `n` packets of a stream that starts at mcnt `start`. -/
abbrev Geometry.follow (g : Geometry) (w : Window.State) (start n : Nat) : Window.State :=
  Window.follow g.nm g.nInputBlocks g.maxOutOfSeq w start n

abbrev Geometry.resyncs (g : Geometry) (w : Window.State) (start n : Nat) : Nat :=
  Window.resyncs g.nm g.nInputBlocks g.maxOutOfSeq w start n

/-- `l` is the stream of source `id` from mcnt `start` on. -/
abbrev Streams (m : Macros) (id start : Nat) (l : List Arrival) : Prop :=
  Feeds m l fun i => (id, start + i)

def resets (tr : List Entry) : Nat := (marks tr).count .reset

theorem Feeds.tail {m : Macros} {l : List Arrival} {a : Arrival} {id start : Nat}
    (h : Streams m id start (a :: l)) : Streams m id (start + 1) l := by
  intro i hi
  have next := h (i + 1) (Nat.succ_lt_succ hi)
  rw [List.getElem_cons_succ] at next
  rw [next]
  exact Prod.ext rfl (by dsimp only; omega)

theorem Feeds.right {m : Macros} {l k : List Arrival} {id start : Nat}
    (h : Streams m id start (l ++ k)) : Streams m id (start + l.length) k := by
  induction l generalizing start with
  | nil => exact h
  | cons a l ih =>
    have rest := ih h.tail
    rwa [Nat.add_assoc, Nat.add_comm 1] at rest

theorem takes_iff_holds {w : Window.State} (a : Arrival) :
    w.Takes g.nm (g.header a).mcnt ↔ w.Holds (g.number a.frame) := by
  constructor
  · intro taken
    exact holds_of_verdict ((takes_iff g.nInputBlocks g.even).mp taken)
  · intro held
    obtain ⟨lo, hi⟩ : _ ≤ (g.header a).mcnt ∧ (g.header a).mcnt < _ := number_bounds a.frame
    rcases held with eq | eq <;> rw [eq] at lo hi
    · exact ⟨lo, by omega⟩
    · rw [mul_succ_eq] at lo hi
      exact ⟨by omega, by omega⟩

section Stream

variable {id start : Nat} {l : List Arrival}

theorem window_follow (feeds : Streams g.toMacros id start l) (w : Window.State) :
    g.window w l = g.follow w start l.length := by
  induction l generalizing w start with
  | nil => rfl
  | cons a l ih =>
    have mcnt : (g.header a).mcnt = start := congrArg Prod.snd (feeds 0 (Nat.succ_pos _))
    have rest := ih feeds.tail (g.step w (g.header a).mcnt)
    rw [mcnt] at rest
    change g.window (g.step w (g.header a).mcnt) l = _
    rw [mcnt]
    exact rest

theorem resets_run (feeds : Streams g.toMacros id start l) {s : State} {w : Window.State}
    (h : Tracks g s.thread w) : resets (s.run g.toMacros l).ring.trace =
      resets s.ring.trace + g.resyncs w start l.length := by
  induction l generalizing s w start with
  | nil => rfl
  | cons a l ih =>
    have mcnt : (g.header a).mcnt = start := congrArg Prod.snd (feeds 0 (Nat.succ_pos _))
    have next : Tracks g (s.call g.toMacros a).thread _ := (call_does h a).2
    have rest := ih feeds.tail next
    have grown := marks_call h a
    have one : resets (s.call g.toMacros a).ring.trace = resets s.ring.trace +
        (if w.Resyncs g.nm g.nInputBlocks g.maxOutOfSeq start then 1 else 0) := by
      rw [resets, grown, List.count_append, mcnt]
      cases v : g.verdict w.block start with
      | stray =>
        have counts : w.Resyncs g.nm g.nInputBlocks g.maxOutOfSeq start ↔
            g.maxOutOfSeq < inc w.strays := and_iff_right v
        by_cases many : g.maxOutOfSeq < inc w.strays <;> simp [counts, many, resets]
      | current | advance | late =>
        have calm : ¬ w.Resyncs g.nm g.nInputBlocks g.maxOutOfSeq start := by
          rintro ⟨stray, _⟩
          cases v.symm.trans stray
        simp [calm, resets]
    rw [mcnt] at rest
    rw [State.run_cons, rest, one]
    exact Nat.add_assoc _ _ _

/-- The stream's packet is stored exactly when the window takes it. -/
theorem stream_stores_iff {earlier later : List Arrival} {a : Arrival}
    (feeds : Streams g.toMacros id start (earlier ++ a :: later)) (valid : id < g.nSourceNodes)
    {s : State} {w : Window.State} (h : Tracks g s.thread w) :
    Stores g.toMacros (s.run g.toMacros earlier) a ↔
      (g.follow w start earlier.length).Takes g.nm (start + earlier.length) := by
  have packet := feeds.last
  have sid : (getHeader g.toMacros a.frame).sid = id := congrArg Prod.fst packet
  have known : Known g.toMacros a.frame := by
    rw [Known, sid]
    exact valid
  have mcnt : (getHeader g.toMacros a.frame).mcnt = start + earlier.length :=
    congrArg Prod.snd packet
  rw [stores_iff (run_tracks h earlier), window_follow feeds.left, ← takes_iff_holds, mcnt]
  exact and_iff_left known

end Stream

/-! ## Before the stream is taken in -/

theorem stored_recycling (b : Nat) (k pktMcnt : Nat) (hdr : PacketHeader) (r : Ring)
    (empty : stored b r.trace = []) :
    stored b (r.execAll g.toMacros (recycling g.toMacros k pktMcnt hdr)).trace = [] := by
  simp only [recycling, Ring.execAll_cons, Ring.execAll_nil, Ring.exec, stored, empty]
  split <;> [rfl; split <;> rfl]

/-- A call that does not store its packet leaves an empty block empty. -/
theorem stored_call_idle {s : State} {w : Window.State} (h : Tracks g s.thread w) {a : Arrival}
    (known : Known g.toMacros a.frame) (idle : ¬ Stores g.toMacros s a) (b : Nat)
    (empty : stored b s.ring.trace = []) : stored b (s.call g.toMacros a).ring.trace = [] := by
  rw [stores_iff h] at idle
  obtain ⟨o, w', does, -, ring⟩ := call_ring h a
  rw [ring]
  cases does with
  | current v => exact absurd ⟨current_block g.even v, known⟩ idle
  | advance v => exact absurd ⟨.inr (advance_block g.even v), known⟩ idle
  | late v msgs routine effects | stray v few msgs routine effects =>
    rw [effects, stored_logs, empty]
  | resync v many msgs routine pktMcnt effects =>
    rw [effects, Ring.execAll_append]
    exact stored_recycling b _ _ _ _ (by rw [stored_logs, empty])

theorem stored_run_idle {s : State} {w : Window.State} (h : Tracks g s.thread w)
    {l : List Arrival} (known : ∀ a ∈ l, Known g.toMacros a.frame)
    (idle : ∀ earlier a later, l = earlier ++ a :: later →
      ¬ Stores g.toMacros (s.run g.toMacros earlier) a)
    (b : Nat) (empty : stored b s.ring.trace = []) :
    stored b (s.run g.toMacros l).ring.trace = [] := by
  induction l generalizing s w with
  | nil => exact empty
  | cons a l ih =>
    refine ih (call_does h a).2 (fun c hc => known c (List.mem_cons_of_mem a hc)) ?_
      (stored_call_idle h (known a List.mem_cons_self) (idle [] a l rfl) b empty)
    rintro earlier c later rfl
    exact idle (a :: earlier) c later rfl

/-! ## After the stream is taken in -/

section Taken

variable {s : State} {w : Window.State} (h : Tracks g s.thread w) {id start : Nat}
  {idle k : List Arrival} (feeds : Streams g.toMacros id start (idle ++ k))
  (valid : id < g.nSourceNodes) (size : ∀ a ∈ idle ++ k, FullSize g.toMacros a.frame)
  (before : ∀ i < idle.length, ¬ (g.follow w start i).Takes g.nm (start + i))
  (after : ∀ i, idle.length ≤ i → (g.follow w start i).Takes g.nm (start + i))
include h feeds valid size before after

/-- The blocks after the two first held gather the whole stream from its first packet
taken on. -/
theorem stream_gathered : Gathered g ((g.window w idle).block + 2) k
    (s.record.run g.toMacros (idle ++ k)) (g.window w (idle ++ k)) := by
  have recorded : Tracks g s.record.thread w := h
  have known : ∀ a ∈ idle, Known g.toMacros a.frame := by
    intro a ha
    obtain ⟨i, _, packet⟩ := feeds.left.mem ha
    rw [Known, show (getHeader g.toMacros a.frame).sid = id from congrArg Prod.fst packet]
    exact valid
  have empty (b : Nat) : stored b (s.record.run g.toMacros idle).ring.trace = [] := by
    refine stored_run_idle recorded known ?_ b rfl
    intro earlier a later split
    rw [split, List.append_assoc, List.cons_append] at feeds
    rw [stream_stores_iff feeds valid recorded]
    exact before _ (by simp [split])
  have begin : Gathered g ((g.window w idle).block + 2) []
      (s.record.run g.toMacros idle) (g.window w idle) := by
    refine ⟨run_tracks recorded idle, fun j _ => empty _, by simp, ?_, ?_⟩ <;>
      rintro j (rfl | rfl) from_ <;> omega
  have apart := feeds.apart (interleaved_in_order g.nm start id) (by simp)
  have all := begin.run (k := k) ?_ (fun a ha => size a (List.mem_append_right _ ha))
    (List.pairwise_append.mp apart).2.1
  · rwa [List.nil_append, ← State.run_append, Geometry.window, Geometry.window,
      ← List.foldl_append] at all
  · intro earlier a later split
    rw [split, ← List.append_assoc] at feeds
    rw [← State.run_append, stream_stores_iff feeds valid recorded]
    exact after _ (by simp)

end Taken

/-- After trace `tr`, `block[b]` was marked filled with header.mcnt `mcnt`, and was complete. -/
def Completed (m : Macros) (ids : List Nat) (l : List Arrival) (b mcnt : Nat)
    (tr tr' : List Entry) : Prop :=
  ∃ later mem filling, tr' = later ++ ⟨.setFilled b, mem⟩ :: (filling ++ tr) ∧
    mem (.header b .mcnt) = mcnt ∧ Complete m ids l b mem

theorem Completed.mono {m : Macros} {ids : List Nat} {l k : List Arrival} {b mcnt : Nat}
    {tr tr' old new : List Entry} (h : Completed m ids l b mcnt tr tr') (sub : ∀ a ∈ l, a ∈ k)
    (before : ∃ later, tr = later ++ old) (after : ∃ later, new = later ++ tr') :
    Completed m ids k b mcnt old new := by
  obtain ⟨later, mem, filling, rfl, header, complete⟩ := h
  obtain ⟨first, rfl⟩ := before
  obtain ⟨last, rfl⟩ := after
  exact ⟨last ++ later, mem, filling ++ first, by simp, header, complete.mono sub⟩

/-- When the current block's packets have all been gathered, the packet that ends its
third half block completes it. -/
theorem Gathered.completes {lo : Nat} {k : List Arrival} {s : State} {w : Window.State}
    (gathered : Gathered g lo k s w) (known : lo ≤ w.block) {id start : Nat}
    (feeds : Streams g.toMacros id start k) (valid : id < g.nSourceNodes)
    (size : ∀ a ∈ k, FullSize g.toMacros a.frame) {a : Arrival} (from_ : start ≤ g.nm * w.block)
    (last : (g.header a).mcnt = start + k.length)
    (done : start + k.length = g.nm * w.block + 3 * (g.nm / 2)) :
    Completed g.toMacros [id] k (w.block % g.nInputBlocks) (g.nm * w.block) s.ring.trace
      (s.call g.toMacros a).ring.trace := by
  have half := g.half_nm
  have v : g.verdict w.block (g.header a).mcnt = .advance :=
    verdict_advance.mpr ⟨by omega, by have := g.nm_pos; omega⟩
  have apart := feeds.apart (interleaved_in_order g.nm start id) (by simp)
  obtain ⟨later, eq⟩ := trace_call_fill gathered.tracks a v
  refine ⟨later, _, [⟨.stamp (w.block % g.nInputBlocks) a.now, s.ring.mem⟩], eq, ?_, ?_⟩
  · rw [stamped_mcnt]
    exact (gathered.accounted _ (.inl rfl) known).1.mcnt
  · refine gathered.complete known a.now (by simpa using valid) size apart ?_
    intro id' hid mcnt number
    rw [List.mem_singleton.mp hid]
    obtain ⟨lo, hi⟩ := Period.bounds_of_div g.nm_pos mcnt
    rw [number] at lo hi
    rw [mul_succ_eq] at hi
    have at_ : mcnt - start < k.length := by omega
    have packet := feeds _ at_
    exact ⟨k[mcnt - start], List.getElem_mem at_, congrArg Prod.fst packet,
      (congrArg Prod.snd packet).trans (by dsimp only; omega)⟩

/-- A call that stores its packet initialises no block but the one it acquires. -/
theorem stores_opens {s : State} {w : Window.State} (h : Tracks g s.thread w) {a : Arrival}
    (stores : Stores g.toMacros s a) {b mcnt pchan nchan sid : Nat}
    (opens : .initializeBlock b mcnt pchan nchan sid ∈
      (processPacket g.toMacros s.thread a).effects) :
    g.verdict w.block (g.header a).mcnt = .advance ∧ b = (w.block + 2) % g.nInputBlocks ∧
      mcnt = g.nm * (w.block + 2) := by
  have open_ := stores_verdict h stores
  have logs (msgs : List Msg) : ∀ b mcnt pchan nchan sid,
      Effect.initializeBlock b mcnt pchan nchan sid ∉ msgs.map Effect.log := by simp
  have store : ∀ b mcnt pchan nchan sid,
      Effect.initializeBlock b mcnt pchan nchan sid ∉ storing g.toMacros a.frame := by
    intro b mcnt pchan nchan sid he
    rcases (mem_storing he).2 with he | he <;> cases he
  have does := (call_does h a).1
  generalize processPacket g.toMacros s.thread a = o at does opens
  generalize g.step w (g.header a).mcnt = w' at does
  cases does with
  | current v msgs routine effects =>
    rw [effects] at opens
    cases List.mem_append.mp opens with
    | inl he => exact absurd he (logs msgs _ _ _ _ _)
    | inr he => exact absurd he (store _ _ _ _ _)
  | advance v msgs routine effects =>
    rw [effects] at opens
    cases List.mem_append.mp opens with
    | inl he =>
      simp only [filling, List.mem_cons, List.not_mem_nil, or_false, reduceCtorEq, false_or,
        Effect.initializeBlock.injEq] at he
      exact ⟨v, he.1, he.2.1⟩
    | inr he =>
      cases List.mem_append.mp he with
      | inl he => exact absurd he (logs msgs _ _ _ _ _)
      | inr he => exact absurd he (store _ _ _ _ _)
  | late v | stray v | resync v => simp [v] at open_

theorem cut_twice {l : List Arrival} {i n : Nat} (le : i ≤ n) (lt : n < l.length) :
    ∃ idle mid a rest, l = idle ++ mid ++ a :: rest ∧ idle.length = i ∧
      (idle ++ mid).length = n := by
  have join : l.take i ++ (l.drop i).take (n - i) = l.take n := by
    rw [← List.take_add, Nat.add_sub_cancel' le]
  refine ⟨l.take i, (l.drop i).take (n - i), l[n], l.drop (n + 1), ?_, ?_, ?_⟩
  · rw [join, ← List.drop_eq_getElem_cons lt, List.take_append_drop]
  · rw [List.length_take]
    omega
  · rw [join, List.length_take]
    omega

/-- Once the stream is taken, the window does not go back. -/
theorem follow_block_mono {w : Window.State} {start first n : Nat} (from_ : first ≤ n)
    (after : ∀ i, first ≤ i → (g.follow w start i).Takes g.nm (start + i)) :
    (g.follow w start first).block ≤ (g.follow w start n).block := by
  obtain ⟨d, rfl⟩ := Nat.exists_eq_add_of_le from_
  rw [Geometry.follow, Geometry.follow, follow_add]
  refine block_mono g.even fun i _ => ?_
  rw [← follow_add, Nat.add_assoc]
  exact after _ (Nat.le_add_right first i)

section Runs

variable {s : State} {w : Window.State} (h : Tracks g s.thread w) {id start first : Nat}
  {l : List Arrival} (feeds : Streams g.toMacros id start l) (valid : id < g.nSourceNodes)
  (size : ∀ a ∈ l, FullSize g.toMacros a.frame)
  (before : ∀ i < first, ¬ (g.follow w start i).Takes g.nm (start + i))
  (after : ∀ i, first ≤ i → (g.follow w start i).Takes g.nm (start + i))
include h feeds valid size before after

/-- Packet `n` of the stream, which ends the third half block of the current block `k`, completes
it if the block was opened with the stream taken. -/
theorem taken_completes {n k : Nat} (from_ : first ≤ n) (last : n < l.length)
    (current : (g.follow w start n).block = k) (opened : (g.follow w start first).block + 2 ≤ k)
    (begun : start + first ≤ g.nm * k) (ends : start + n = g.nm * k + 3 * (g.nm / 2)) :
    Completed g.toMacros [id] l (k % g.nInputBlocks) (g.nm * k)
      (s.record.run g.toMacros (l.take n)).ring.trace
      (s.record.run g.toMacros l).ring.trace := by
  obtain ⟨idle, mid, c, rest, cut, hidle, hmid⟩ := cut_twice from_ last
  have taken : l.take n = idle ++ mid := by rw [cut, ← hmid, List.take_left]
  rw [cut] at feeds size
  have sizes : ∀ b ∈ idle ++ mid, FullSize g.toMacros b.frame :=
    fun b hb => size b (List.mem_append_left _ hb)
  rw [← hidle] at before after opened
  have gathered := stream_gathered h feeds.left valid sizes before after
  rw [window_follow feeds.left.left] at gathered
  rw [window_follow feeds.left, hmid] at gathered
  have packet : (g.header c).mcnt = start + (idle ++ mid).length := congrArg Prod.snd feeds.last
  rw [List.length_append] at packet hmid
  have whole := gathered.completes (a := c) (by rw [current]; exact opened) feeds.left.right valid
    (fun b hb => sizes b (List.mem_append_right _ hb)) (by rw [current, hidle]; exact begun)
    (by rw [packet]; omega) (by rw [current]; omega)
  rw [current] at whole
  refine whole.mono (by intro b hb; rw [cut]; simp [hb]) ⟨[], by rw [taken]; rfl⟩ ?_
  have called : (s.record.run g.toMacros (idle ++ mid)).call g.toMacros c =
      s.record.run g.toMacros (idle ++ mid ++ [c]) := (State.run_append _ _ _ [c]).symm
  rw [called]
  exact trace_run_extends g.toMacros _ ⟨rest, by rw [cut]; simp⟩

/-- A block opened by a packet that is taken is completed, if the stream is long enough. -/
theorem opened_completes {earlier later : List Arrival} {a : Arrival}
    (split : l = earlier ++ a :: later) (from_ : first ≤ earlier.length)
    (v : g.verdict (g.follow w start earlier.length).block (start + earlier.length) = .advance)
    (long : g.nm * ((g.follow w start earlier.length).block + 2) + 3 * (g.nm / 2) <
      start + l.length) :
    Completed g.toMacros [id] l (((g.follow w start earlier.length).block + 2) % g.nInputBlocks)
      (g.nm * ((g.follow w start earlier.length).block + 2))
      (s.record.run g.toMacros (earlier ++ [a])).ring.trace
      (s.record.run g.toMacros l).ring.trace := by
  have half := g.half_nm
  have opened := follow_block_mono from_ after
  obtain ⟨_, near⟩ := verdict_advance.mp v
  generalize hk : (g.follow w start earlier.length).block = k at v long near opened
  have number : g.nm * (k + 2) = g.nm * k + 2 * g.nm := by ring
  -- the packet that ends the third half block of block number `k + 2`
  obtain ⟨n, at_⟩ := Nat.exists_eq_add_of_lt
    (show start + earlier.length < g.nm * (k + 2) + 3 * (g.nm / 2) by omega)
  have reached : (g.follow w start (earlier.length + (n + 1))).block = k + 2 := by
    rw [← hk] at v at_
    rw [Geometry.follow, follow_add, ← hk]
    exact opened_reached _ _ g.nm_pos g.even v (by omega)
  have completed := taken_completes h feeds valid size before after
    (Nat.le_add_right_of_le from_) (by omega) reached (by omega) (by omega) (by omega)
  refine completed.mono (fun _ hb => hb) (trace_run_extends g.toMacros _ ?_) ⟨[], rfl⟩
  have pre : earlier ++ [a] <+: l := ⟨later, by rw [split]; simp⟩
  refine List.prefix_of_prefix_length_le pre (List.take_prefix _ l) ?_
  rw [List.length_take, List.length_append, List.length_singleton]
  omega

end Runs

/-! ## The counter -/

/-- The packet is out of sequence, and counting it overflows out_of_seq_cnt. -/
def Overflows (m : Macros) (s : State) (a : Arrival) : Prop :=
  pktZone m s.thread.binfo.mcntStart (getHeader m a.frame).mcnt = .outOfSeq ∧
    s.thread.binfo.outOfSeqCnt = 2 ^ 31 - 1

/-- No packet overflows the counter. -/
def Counted (m : Macros) (s : State) (l : List Arrival) : Prop :=
  ∀ earlier a later, l = earlier ++ a :: later → ¬ Overflows m (s.run m earlier) a

section Counter

variable {m : Macros} {s : State} {a : Arrival} {l k : List Arrival}

theorem reachable_outOfSeqCnt_lt (reach : Reachable m s) :
    s.thread.binfo.outOfSeqCnt < 2 ^ 31 := by
  induction reach with
  | start mem flag =>
    change (0 : Int) < 2 ^ 31
    decide
  | @call s a _ ih =>
    rw [outOfSeqCnt_call]
    cases pktZone m s.thread.binfo.mcntStart (getHeader m a.frame).mcnt with
    | window => simp [tally]
    | late => exact ih
    | outOfSeq => exact (inc_range _).2
  | consumerFree b _ ih => exact ih

/-- Unless it overflows the counter, a packet counts at most one up, and not below 0. -/
theorem call_counts (reach : Reachable m s)
    (counts : 0 ≤ s.thread.binfo.outOfSeqCnt) (room : ¬ Overflows m s a) :
    0 ≤ (s.call m a).thread.binfo.outOfSeqCnt ∧
      (s.call m a).thread.binfo.outOfSeqCnt ≤ s.thread.binfo.outOfSeqCnt + 1 := by
  have most := reachable_outOfSeqCnt_lt reach
  rw [outOfSeqCnt_call]
  cases zone : pktZone m s.thread.binfo.mcntStart (getHeader m a.frame).mcnt with
  | window => exact ⟨Int.le_refl 0, by rw [tally]; omega⟩
  | late => exact ⟨counts, by rw [tally]; omega⟩
  | outOfSeq =>
    have below : s.thread.binfo.outOfSeqCnt ≠ 2 ^ 31 - 1 := fun full => room ⟨zone, full⟩
    rw [tally, inc_of_range (by omega) (by omega)]
    omega

theorem Counted.left (h : Counted m s (l ++ k)) : Counted m s l := by
  rintro earlier a later rfl
  exact h earlier a (later ++ k) (by simp)

theorem Counted.right (h : Counted m s (l ++ k)) : Counted m (s.run m l) k := by
  rintro earlier a later rfl
  rw [← State.run_append]
  exact h (l ++ earlier) a later (by simp)

theorem run_counts (reach : Reachable m s) (counts : 0 ≤ s.thread.binfo.outOfSeqCnt)
    (counted : Counted m s l) :
    0 ≤ (s.run m l).thread.binfo.outOfSeqCnt := by
  induction l generalizing s with
  | nil => exact counts
  | cons a l ih =>
    refine ih (.call a reach) (call_counts reach counts (counted [] a l rfl)).1 ?_
    rintro earlier b later rfl
    exact counted (a :: earlier) b later rfl

/-- It takes 2^31 packets to overflow a counter that starts from 0. -/
theorem counted_of_short (reach : Reachable m s) (counts : 0 ≤ s.thread.binfo.outOfSeqCnt)
    (short : s.thread.binfo.outOfSeqCnt + l.length < 2 ^ 31) : Counted m s l := by
  induction l generalizing s with
  | nil => simp [Counted]
  | cons a l ih =>
    rw [List.length_cons] at short
    have room : ¬ Overflows m s a := by
      rintro ⟨_, full⟩
      omega
    obtain ⟨least, most⟩ := call_counts reach counts room
    intro earlier b later split
    cases earlier with
    | nil =>
      obtain ⟨rfl, _⟩ := List.cons.inj split
      exact room
    | cons c earlier =>
      obtain ⟨rfl, rest⟩ := List.cons.inj split
      exact ih (.call a reach) least (by omega) earlier b later rest

theorem run_reachable (reach : Reachable m s) (l : List Arrival) : Reachable m (s.run m l) := by
  induction l generalizing s with
  | nil => exact reach
  | cons a l ih => exact ih (.call a reach)

end Counter

/-! ## The stream is taken in -/

/-- The stream `l` of source `id` is taken in from its packet `first` on, after at most one
resync, and every block that is opened from then on is completed if the stream is long
enough. -/
structure TakenFrom (g : Geometry) (s : State) (id start : Nat) (l : List Arrival)
    (first : Nat) : Prop where
  stores : ∀ earlier a later, l = earlier ++ a :: later →
    (Stores g.toMacros (s.record.run g.toMacros earlier) a ↔ first ≤ earlier.length)
  once : resets (s.record.run g.toMacros (l.take first)).ring.trace ≤ 1
  settled : ∀ earlier later, l = earlier ++ later → first ≤ earlier.length →
    resets (s.record.run g.toMacros l).ring.trace =
      resets (s.record.run g.toMacros earlier).ring.trace
  completes : ∀ earlier a later, l = earlier ++ a :: later → first ≤ earlier.length →
    ∀ b mcnt pchan nchan sid, .initializeBlock b mcnt pchan nchan sid ∈
      (processPacket g.toMacros (s.record.run g.toMacros earlier).thread a).effects →
    mcnt + 3 * (g.nm / 2) < start + l.length →
    Completed g.toMacros [id] l b mcnt
      (s.record.run g.toMacros (earlier ++ [a])).ring.trace
      (s.record.run g.toMacros l).ring.trace

theorem takenFrom_nil (g : Geometry) (s : State) (id start : Nat) :
    TakenFrom g s id start [] 0 where
  stores := by simp
  once := by simp [State.record, resets, marks]
  settled := by
    intro earlier later split _
    obtain ⟨rfl, rfl⟩ := List.append_eq_nil_iff.mp split.symm
    rfl
  completes := by simp

/-- A stream that the window converges to is taken in. -/
theorem takenFrom_of_converges {s : State} {w : Window.State} (tracks : Tracks g s.thread w)
    {id start bound : Nat} (valid : id < g.nSourceNodes) {l : List Arrival}
    (feeds : Streams g.toMacros id start l) (size : ∀ a ∈ l, FullSize g.toMacros a.frame)
    (converges : Converges g.nm g.nInputBlocks g.maxOutOfSeq w start bound 1) :
    ∃ first < bound, TakenFrom g s id start l first := by
  have recorded : Tracks g s.record.thread w := tracks
  obtain ⟨first, near, before, after, few⟩ := converges
  have count {k later : List Arrival} (split : l = k ++ later) :
      resets (s.record.run g.toMacros k).ring.trace = g.resyncs w start k.length := by
    rw [split] at feeds
    rw [resets_run feeds.left recorded]
    exact Nat.zero_add _
  have taken {earlier later : List Arrival} {a : Arrival} (split : l = earlier ++ a :: later) :
      Stores g.toMacros (s.record.run g.toMacros earlier) a ↔ first ≤ earlier.length := by
    rw [split] at feeds
    rw [stream_stores_iff feeds valid recorded]
    exact ⟨fun takes => Nat.not_lt.mp fun lt => before _ lt takes, after _⟩
  refine ⟨first, near, fun _ _ _ => taken, ?_, ?_, ?_⟩
  · rw [count (List.take_append_drop first l).symm, List.length_take]
    obtain ⟨more, eq⟩ := Nat.exists_eq_add_of_le (Nat.min_le_left first l.length)
    rw [eq, resyncs_add] at few
    exact Nat.le_trans (Nat.le_add_right _ _) few
  · intro earlier later split from_
    have calm : g.resyncs (g.follow w start earlier.length) (start + earlier.length)
        later.length = 0 := by
      refine resyncs_taken g.even fun i _ => ?_
      rw [← follow_add, Nat.add_assoc]
      exact after _ (by omega)
    rw [count (List.append_nil l).symm, count split, split, List.length_append, Geometry.resyncs,
      resyncs_add]
    exact congrArg (g.resyncs w start earlier.length + ·) calm
  · intro earlier a later split from_ b mcnt pchan nchan sid opens long
    obtain ⟨v, rfl, rfl⟩ :=
      stores_opens (run_tracks recorded earlier) ((taken split).mpr from_) opens
    have stream := feeds
    rw [split] at stream
    have at_ : (g.header a).mcnt = start + earlier.length := congrArg Prod.snd stream.last
    rw [window_follow stream.left] at v long ⊢
    rw [at_] at v
    exact opened_completes tracks feeds valid size before after split from_ v long

theorem stream_taken (g : Geometry) {s : State} (reach : Reachable g.toMacros s)
    (counts : 0 ≤ s.thread.binfo.outOfSeqCnt) {id start : Nat} (valid : id < g.nSourceNodes)
    {l : List Arrival} (room : Counted g.toMacros s (l.take 1))
    (feeds : Streams g.toMacros id start l) (size : ∀ a ∈ l, FullSize g.toMacros a.frame) :
    ∃ first < g.maxOutOfSeq + 1 + 2 * g.nm * g.nInputBlocks,
      TakenFrom g s id start l first := by
  obtain ⟨w, tracks⟩ := reachable_tracks reach
  have most := reachable_outOfSeqCnt_lt reach
  cases l with
  | nil => exact ⟨0, by omega, takenFrom_nil g s id start⟩
  | cons a l =>
    have mcnt : (g.header a).mcnt = start := congrArg Prod.snd (feeds 0 (Nat.succ_pos _))
    have can : w.Counts g.nm g.nInputBlocks start := by
      intro v full
      refine room [] a [] rfl ⟨?_, tracks.strays.trans full⟩
      rw [State.run_nil, tracks.zone, mcnt]
      simp [v]
    rw [tracks.strays] at counts most
    have small := maxOutOfSeq_lt g.toMacros
    exact takenFrom_of_converges tracks valid feeds size
      (converges g.nm_pos g.even g.nInputBlocks_pos (by omega) w start counts most can (by omega))

/-- After any packets, from any state in which the counter is not negative, a gap-free stream of
one source is taken in within few packets, if neither any of those packets nor the stream's
first overflows the counter. -/
theorem stream_resyncs (g : Geometry) {s : State} (reach : Reachable g.toMacros s)
    (counts : 0 ≤ s.thread.binfo.outOfSeqCnt) {id start : Nat} (valid : id < g.nSourceNodes)
    (before : List Arrival) {l : List Arrival}
    (counted : Counted g.toMacros s (before ++ l.take 1))
    (feeds : Streams g.toMacros id start l) (size : ∀ a ∈ l, FullSize g.toMacros a.frame) :
    ∃ first < g.maxOutOfSeq + 1 + 2 * g.nm * g.nInputBlocks,
      TakenFrom g (s.run g.toMacros before) id start l first := by
  have least := run_counts reach counts counted.left
  exact stream_taken g (run_reachable reach before) least valid counted.right feeds size

/-- One packet far ahead, and then a stream behind it: its second packet makes the thread resync
to mcnt 1000, packet 1003 opens the block of 1004, and packet 1007 fills it. -/
theorem stream_resyncs_ahead :
    let s := (State.start fastSmall.toMacros (fun _ => 0) fun _ => .free).run fastSmall.toMacros
      [fastPacket (2 ^ 57 + 5000)]
    let l := (List.range 8).map fun i => fastPacket (2 ^ 57 + (1000 + i))
    TakenFrom fastSmall s 0 1000 l 2 ∧
      resets (s.record.run fastSmall.toMacros l).ring.trace = 1 ∧
      Completed fastSmall.toMacros [0] l 0 1004
        (s.record.run fastSmall.toMacros (l.take 3 ++ [fastPacket (2 ^ 57 + 1003)])).ring.trace
        (s.record.run fastSmall.toMacros l).ring.trace := by
  intro s l
  have feeds : Streams fastSmall.toMacros 0 1000 l := by
    unfold Streams Feeds
    decide +kernel
  obtain ⟨first, near, taken⟩ := stream_resyncs fastSmall (.start (fun _ => 0) fun _ => .free)
    (by decide) (by decide) [fastPacket (2 ^ 57 + 5000)]
    (counted_of_short (.start _ _) (by decide) (by decide)) feeds (by decide +kernel)
  have some : Stores fastSmall.toMacros (s.record.run fastSmall.toMacros (l.take 2))
      (fastPacket (2 ^ 57 + 1002)) := by decide +kernel
  have none : ¬ Stores fastSmall.toMacros (s.record.run fastSmall.toMacros (l.take 1))
      (fastPacket (2 ^ 57 + 1001)) := by decide +kernel
  have settled := (taken.stores (l.take 2) _ (l.drop 3) rfl).mp some
  have unsettled := mt (taken.stores (l.take 1) _ (l.drop 2) rfl).mpr none
  have eq : first = 2 := Nat.le_antisymm settled (Nat.not_le.mp unsettled)
  rw [eq] at taken
  obtain ⟨e, opens, is⟩ := List.any_eq_true.mp (show (processPacket fastSmall.toMacros
    (s.record.run fastSmall.toMacros (l.take 3)).thread (fastPacket (2 ^ 57 + 1003))).effects.any
      (fun | .initializeBlock 0 1004 0 0 0 => true | _ => false) = true by decide +kernel)
  refine ⟨taken, by decide +kernel, ?_⟩
  split at is
  · exact taken.completes (l.take 3) (fastPacket (2 ^ 57 + 1003)) (l.drop 4) rfl (by decide)
      0 1004 0 0 0 opens (by decide)
  · cases is

/-! ## An overflow

Packets of mcnts 1000 and 5000 in turn are always out of sequence, and from the third on every
one of them makes the thread resync. -/

def alternating : Nat → List Arrival
  | 0 => [fastPacket (2 ^ 57 + 1000), fastPacket (2 ^ 57 + 1000), fastPacket (2 ^ 57 + 1000)]
  | k + 1 => alternating k ++ [fastPacket (2 ^ 57 + 5000), fastPacket (2 ^ 57 + 1000)]

theorem fastSmall_resync {block mcnt : Nat} {strays : Int}
    (v : fastSmall.verdict block mcnt = .stray) (lo : 2 ≤ strays) (hi : strays < 2 ^ 31 - 1) :
    fastSmall.step ⟨block, strays⟩ mcnt = ⟨target 2 2 block mcnt, strays + 1⟩ := by
  have counted : inc strays = strays + 1 := inc_of_range (by omega) hi
  have many : (fastSmall.maxOutOfSeq : Int) < inc strays := by
    rw [counted, show (fastSmall.maxOutOfSeq : Int) = 2 from rfl]
    omega
  rw [← counted]
  exact step_resync (s := ⟨block, strays⟩) v many

theorem alternating_tracks (mem : Mem) (flag : Nat → Flag) {k : Nat}
    (room : 3 + 2 * k ≤ 2 ^ 31 - 1) :
    Tracks fastSmall ((State.start fastSmall.toMacros mem flag).run fastSmall.toMacros
      (alternating k)).thread ⟨500, 3 + 2 * k⟩ := by
  induction k with
  | zero => exact run_tracks (start_tracks fastSmall mem flag) (alternating 0)
  | succ k ih =>
    rw [alternating, State.run_append]
    have before := ih (by omega)
    have away := (call_does before (fastPacket (2 ^ 57 + 5000))).2
    rw [show (fastSmall.header (fastPacket (2 ^ 57 + 5000))).mcnt = 5000 from rfl,
      fastSmall_resync (by decide) (by omega) (by omega)] at away
    have back := (call_does away (fastPacket (2 ^ 57 + 1000))).2
    rw [show (fastSmall.header (fastPacket (2 ^ 57 + 1000))).mcnt = 1000 from rfl,
      fastSmall_resync (by decide) (by omega) (by omega)] at back
    rw [show (3 : Int) + 2 * (k + 1 : Nat) = 3 + 2 * k + 1 + 1 by omega]
    exact back

theorem not_takenFrom {s : State} {id start first : Nat} {l : List Arrival}
    (none : ∀ earlier a later, l = earlier ++ a :: later →
      ¬ Stores g.toMacros (s.record.run g.toMacros earlier) a)
    (lt : first < l.length) : ¬ TakenFrom g s id start l first := by
  intro taken
  have split : l = l.take first ++ l[first] :: l.drop (first + 1) := by
    rw [← List.drop_eq_getElem_cons lt, List.take_append_drop]
  have at_ : (l.take first).length = first := List.length_take_of_le (Nat.le_of_lt lt)
  exact none _ _ _ split ((taken.stores _ _ _ split).mpr (Nat.le_of_eq at_.symm))

/-- With the counter at its greatest value the thread takes none of the packets of a stream far
ahead. -/
theorem full_unresynced {s : State} (tracks : Tracks fastSmall s.thread ⟨500, 2 ^ 31 - 1⟩)
    {l : List Arrival} (feeds : Streams fastSmall.toMacros 0 10000 l) (long : l.length = 11)
    (earlier : List Arrival) (a : Arrival) (later : List Arrival)
    (split : l = earlier ++ a :: later) :
    ¬ Stores fastSmall.toMacros (s.record.run fastSmall.toMacros earlier) a := by
  have never : ∀ i < 11,
      ¬ (fastSmall.follow ⟨500, 2 ^ 31 - 1⟩ 10000 i).Takes fastSmall.nm (10000 + i) := by
    unfold State.Takes
    decide +kernel
  have recorded : Tracks fastSmall s.record.thread ⟨500, 2 ^ 31 - 1⟩ := tracks
  rw [split] at feeds
  rw [split, List.length_append, List.length_cons] at long
  rw [stream_stores_iff feeds (by decide) recorded]
  exact never _ (by omega)

/-- After 2^31 - 1 packets out of sequence in a row the next one overflows the counter, and
the thread takes none of the packets of the stream that it begins. -/
theorem stream_unresynced :
    let s := (State.start fastSmall.toMacros (fun _ => 0) fun _ => .free).run fastSmall.toMacros
      (alternating (2 ^ 30 - 2))
    let l := (List.range 11).map fun i => fastPacket (2 ^ 57 + (10000 + i))
    Reachable fastSmall.toMacros s ∧ s.thread.binfo.outOfSeqCnt = 2 ^ 31 - 1 ∧
      Streams fastSmall.toMacros 0 10000 l ∧ (∀ a ∈ l, FullSize fastSmall.toMacros a.frame) ∧
      l.length = fastSmall.maxOutOfSeq + 1 + 2 * fastSmall.nm * fastSmall.nInputBlocks ∧
      (∀ earlier a later, l = earlier ++ a :: later →
        ¬ Stores fastSmall.toMacros (s.record.run fastSmall.toMacros earlier) a) ∧
      ∀ first < fastSmall.maxOutOfSeq + 1 + 2 * fastSmall.nm * fastSmall.nInputBlocks,
        ¬ TakenFrom fastSmall s 0 10000 l first := by
  have tracks := alternating_tracks (fun _ => 0) (fun _ => .free) (k := 2 ^ 30 - 2) (by decide)
  have feeds : Streams fastSmall.toMacros 0 10000
      ((List.range 11).map fun i => fastPacket (2 ^ 57 + (10000 + i))) := by
    unfold Streams Feeds
    decide +kernel
  have none := full_unresynced tracks feeds rfl
  exact ⟨run_reachable (.start _ _) _, tracks.strays, feeds, by decide +kernel, rfl, none,
    fun first near => not_takenFrom none near⟩

end S6Reobs
