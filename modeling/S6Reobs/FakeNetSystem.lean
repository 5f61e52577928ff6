import S6Reobs.Drain
import S6Reobs.FakeNet

/-! s6_fake_net_thread beside s6_gpu_thread and s6_output_thread, the test pipeline of the FAST
build. The thread writes to blocks that it does not hold, also while they are being read. It
does no harm: once a block is filled every block has its data, and writing them again changes
nothing. -/

namespace S6Reobs

open Relation

namespace FakeNet

/-! ## What an effect does to the words of a block -/

/-- The block that an effect writes to, and the first word and number of words there. -/
def Effect.target (m : Macros) : Effect → Nat × Nat × Nat
  | .waitFree _ | .setFilled _ => (0, 0, 0)
  | .setHeader b .. => (b, 0, 3)
  | .clearMissedPkts b => (b, 6, m.nBeamSlots)
  | .genFakeData _ => (0, m.headerWords + m.paddingWords, m.nTimeSamples / 8)
  | .copyFakeData _ blockI => (blockI, m.headerWords + m.paddingWords, m.dataWords)

/-- The word of its block that a cell is. -/
def offset (m : Macros) : Cell → Nat
  | .header f => f.word
  | .data k => m.headerWords + m.paddingWords + k

variable {m : Macros} {fake : Nat → Nat}

/-- Words of two blocks are the same only in the same block. -/
theorem inside_iff {size b c start len off : Nat} (fits : start + len ≤ size)
    (inside : off < size) :
    b * size + start ≤ c * size + off ∧ c * size + off < b * size + start + len ↔
      c = b ∧ start ≤ off ∧ off < start + len := by
  constructor
  · rintro ⟨lo, hi⟩
    rcases Nat.lt_trichotomy c b with lt | rfl | gt
    · have := Nat.mul_le_mul_right size (show c + 1 ≤ b from lt)
      rw [Nat.add_mul] at this
      omega
    · exact ⟨rfl, by omega, by omega⟩
    · have := Nat.mul_le_mul_right size (show b + 1 ≤ c from gt)
      rw [Nat.add_mul] at this
      omega
  · rintro ⟨rfl, lo, hi⟩
    omega

theorem target_fits (m : Macros) (e : Effect) :
    (e.target m).2.1 + (e.target m).2.2 ≤ m.blockWords := by
  have header := m.headerWords_le
  have slots := m.beamSlots_le
  have samples := m.samples_le
  have size : m.blockWords = m.headerWords + m.paddingWords + m.dataWords := rfl
  cases e <;> simp only [Effect.target] <;> omega

theorem dest_target (m : Macros) (e : Effect) :
    e.dest m = ((e.target m).1 * m.blockWords + (e.target m).2.1, (e.target m).2.2) := by
  cases e <;> simp [Effect.dest, Effect.target, Loc.addr, Field.word, Macros.dataAddr]

theorem blockAt_apply (e : Effect) (mem : Mem) {b : Nat} {c : Cell}
    (inside : offset m c < m.blockWords) : blockAt (e.apply m fake mem) b c =
      if b = (e.target m).1 ∧ (e.target m).2.1 ≤ offset m c ∧
        offset m c < (e.target m).2.1 + (e.target m).2.2
      then e.src fake mem (offset m c - (e.target m).2.1) else blockAt mem b c := by
  have addr (l : Loc) (here : l.addr m = b * m.blockWords + offset m c) :
      e.apply m fake mem l = if b = (e.target m).1 ∧ (e.target m).2.1 ≤ offset m c ∧
        offset m c < (e.target m).2.1 + (e.target m).2.2
      then e.src fake mem (offset m c - (e.target m).2.1) else mem l := by
    rw [Effect.apply, dest_target]
    simp only [Copy.Piece.copy, Copy.Piece.Covers, here]
    have covers := inside_iff (b := (e.target m).1) (c := b) (target_fits m e) inside
    by_cases hit : b = (e.target m).1 ∧ (e.target m).2.1 ≤ offset m c ∧
        offset m c < (e.target m).2.1 + (e.target m).2.2
    · rw [if_pos hit, if_pos (covers.mpr hit), hit.1]
      congr 1
      omega
    · rw [if_neg hit, if_neg (covers.not.mpr hit)]
  cases c with
  | header f => exact addr (.header b f) rfl
  | data k => exact addr (.data b k) (by simp [Loc.addr, offset, Macros.dataAddr, Nat.add_assoc])

/-- A word that the effect misses. -/
theorem blockAt_apply_ne {e : Effect} (mem : Mem) {b : Nat} {c : Cell}
    (inside : offset m c < m.blockWords) (out : b = (e.target m).1 →
      offset m c < (e.target m).2.1 ∨ (e.target m).2.1 + (e.target m).2.2 ≤ offset m c) :
    blockAt (e.apply m fake mem) b c = blockAt mem b c := by
  rw [blockAt_apply e mem inside, if_neg]
  rintro ⟨here, lo, hi⟩
  have := out here
  omega

theorem offset_header {f : Field} (valid : f.word < m.headerWords) :
    offset m (.header f) < m.blockWords := by
  have size : m.blockWords = m.headerWords + m.paddingWords + m.dataWords := rfl
  simp only [offset]
  omega

theorem offset_data {k : Nat} (hk : k < m.dataWords) : offset m (.data k) < m.blockWords := by
  have size : m.blockWords = m.headerWords + m.paddingWords + m.dataWords := rfl
  simp only [offset]
  omega

/-! ## What a pass leaves -/

variable (m fake)

def applyAll (es : List Effect) (mem : Mem) : Mem :=
  es.foldl (fun mem e => e.apply m fake mem) mem

/-- Every block has the fake data. -/
def AllFake (mem : Mem) : Prop :=
  ∀ b < m.nInputBlocks, ∀ k < m.dataWords, blockAt mem b (.data k) = fake k

/-- The header words that the thread never assigns are as they were. -/
def Kept (old mem : Mem) : Prop :=
  ∀ b, ∀ f ∈ [Field.sid, .timeSec, .timeNsec], blockAt mem b (.header f) = old (.header b f)

/-- Block `n` of the test pipeline, on a ring that held `old`. -/
def fakeBlock (old : Mem) (n : Nat) : Block
  | .header .mcnt => Word.u64 n
  | .header .coarseChanId => 321
  | .header .numCoarseChan => m.nCoarseChan
  | .header (.missedPkts _) => 0
  | .header f => old (.header (n % m.nInputBlocks) f)
  | .data k => fake k

/-- The memory once pass `n` has written all it writes. -/
structure Whole (n : Nat) (mem : Mem) : Prop where
  mcnt : blockAt mem (n % m.nInputBlocks) (.header .mcnt) = Word.u64 n
  coarseChanId : blockAt mem (n % m.nInputBlocks) (.header .coarseChanId) = 321
  numCoarseChan : blockAt mem (n % m.nInputBlocks) (.header .numCoarseChan) = m.nCoarseChan
  missedPkts : blockAt mem (n % m.nInputBlocks) (.header (.missedPkts 0)) = 0
  allFake : AllFake m fake mem

variable {m fake}

theorem Macros.fast_words (fast : m.source = .fast) : m.nTimeSamples / 8 = m.dataWords := by
  simp [Macros.dataWords, Macros.nDataBytesPerBlock, Macros.nSamplesPerBlock,
    Macros.nBytesPerSample, Macros.nCoarseChan, Macros.nPolsPerBeam, fast]

theorem Kept.apply {old mem : Mem} (h : Kept old mem) (e : Effect) :
    Kept old (e.apply m fake mem) := by
  have header := m.headerWords_le
  intro b f hf
  have word : 3 ≤ f.word ∧ f.word < 6 := by
    simp only [List.mem_cons, List.not_mem_nil, or_false] at hf
    rcases hf with rfl | rfl | rfl <;> simp [Field.word]
  rw [blockAt_apply_ne mem (offset_header (by omega))]
  · exact h b f hf
  · intro _
    cases e <;> simp only [offset, Effect.target] <;> omega

/-- Once all blocks have the data, they keep them. -/
theorem AllFake.apply {mem : Mem} (fast : m.source = .fast) (h : AllFake m fake mem)
    (e : Effect) : AllFake m fake (e.apply m fake mem) := by
  have slots := m.beamSlots_le
  have header := m.headerWords_le
  have words := Macros.fast_words fast
  intro b hb k hk
  have before := h b hb k hk
  rw [blockAt_apply e mem (offset_data hk)]
  split
  · rename_i hit
    cases e with
    | waitFree | setFilled | setHeader | clearMissedPkts =>
      simp only [Effect.target, offset] at hit
      omega
    | genFakeData b' =>
      simp only [Effect.target, offset, Effect.src]
      congr 1
      omega
    | copyFakeData b' blockI =>
      have zero := h 0 (by omega) k hk
      have at_ : m.headerWords + m.paddingWords + k - (m.headerWords + m.paddingWords) = k := by
        omega
      simp only [Effect.target, offset, Effect.src, at_]
      exact zero
  · exact before

/-- Copying block 0 to other blocks leaves headers alone. -/
theorem copies_header (i : Nat) (bs : List Nat) (mem : Mem) (b : Nat) {f : Field}
    (valid : f.word < m.headerWords) :
    blockAt (applyAll m fake (bs.map (.copyFakeData i)) mem) b (.header f) =
      blockAt mem b (.header f) := by
  induction bs generalizing mem with
  | nil => rfl
  | cons c bs ih =>
    refine (ih _).trans (blockAt_apply_ne mem (offset_header valid) ?_)
    intro _
    left
    simp only [offset, Effect.target]
    omega

theorem copies_data (i : Nat) (bs : List Nat) {mem : Mem}
    (zero : ∀ k < m.dataWords, blockAt mem 0 (.data k) = fake k) {b : Nat}
    (reached : b ∈ bs ∨ ∀ k < m.dataWords, blockAt mem b (.data k) = fake k) :
    ∀ k < m.dataWords,
      blockAt (applyAll m fake (bs.map (.copyFakeData i)) mem) b (.data k) = fake k := by
  induction bs generalizing mem with
  | nil => exact reached.resolve_left List.not_mem_nil
  | cons c bs ih =>
    -- the words of one block after one copy
    have copied (b : Nat) (k : Nat) (hk : k < m.dataWords) :
        blockAt ((Effect.copyFakeData i c).apply m fake mem) b (.data k) =
          if b = c then fake k else blockAt mem b (.data k) := by
      rw [blockAt_apply _ mem (offset_data hk)]
      have at_ : m.headerWords + m.paddingWords + k - (m.headerWords + m.paddingWords) = k := by
        omega
      have lo : m.headerWords + m.paddingWords ≤ m.headerWords + m.paddingWords + k := by omega
      have hi : m.headerWords + m.paddingWords + k <
          m.headerWords + m.paddingWords + m.dataWords := by omega
      simp only [Effect.target, offset, Effect.src, at_, lo, hi, and_true]
      have word : mem (.data 0 k) = fake k := zero k hk
      rw [word]
    apply ih
    · intro k hk
      rw [copied 0 k hk]
      split
      · rfl
      · exact zero k hk
    · by_cases here : b = c
      · right
        intro k hk
        rw [copied b k hk, if_pos here]
      · rcases reached with mem_ | before
        · exact .inl ((List.mem_cons.mp mem_).resolve_left here)
        · right
          intro k hk
          rw [copied b k hk, if_neg here]
          exact before k hk

theorem applyAll_append (es fs : List Effect) (mem : Mem) :
    applyAll m fake (es ++ fs) mem = applyAll m fake fs (applyAll m fake es mem) :=
  List.foldl_append

theorem whole_filling (fast : m.source = .fast) (n : Nat) (mem : Mem) :
    Whole m fake n (applyAll m fake (filling m ⟨n % m.nInputBlocks, Word.u64 n⟩) mem) := by
  have header := m.headerWords_le
  have slots : m.nBeamSlots = 1 := by simp [Macros.nBeamSlots, fast]
  have bors : m.nBors = 1 := by simp [Macros.nBors, Macros.nSubspectraPerSpectrum, fast]
  have size : m.headerWords = 6 + m.nBors := rfl
  have words := Macros.fast_words fast
  generalize hi : n % m.nInputBlocks = i
  let mem₁ := (Effect.setHeader i (Word.u64 n) m.nCoarseChan).apply m fake mem
  let mem₂ := (Effect.clearMissedPkts i).apply m fake mem₁
  let mem₃ := (Effect.genFakeData i).apply m fake mem₂
  have split : applyAll m fake (filling m ⟨i, Word.u64 n⟩) mem = applyAll m fake
      ((List.range' 1 (m.nInputBlocks - 1)).map (.copyFakeData i)) mem₃ :=
    applyAll_append [.setHeader i (Word.u64 n) m.nCoarseChan, .clearMissedPkts i, .genFakeData i]
      ((List.range' 1 (m.nInputBlocks - 1)).map (.copyFakeData i)) mem
  -- header words below missed_pkts are those of the first effect
  have first {f : Field} (low : f.word < 3) : blockAt mem₃ i (.header f) =
      (Effect.setHeader i (Word.u64 n) m.nCoarseChan).src fake mem f.word := by
    have valid : f.word < m.headerWords := by omega
    calc blockAt mem₃ i (.header f) = blockAt mem₂ i (.header f) :=
          blockAt_apply_ne mem₂ (offset_header valid) fun _ => .inl (by
            simp only [offset, Effect.target]; omega)
      _ = blockAt mem₁ i (.header f) :=
          blockAt_apply_ne mem₁ (offset_header valid) fun _ => .inl (by
            simp only [offset, Effect.target]; omega)
      _ = _ := by
          rw [blockAt_apply _ mem (offset_header valid)]
          simp [offset, Effect.target, low]
  have missed : blockAt mem₃ i (.header (.missedPkts 0)) = 0 := by
    have valid : (Field.missedPkts 0).word < m.headerWords := by simp only [Field.word]; omega
    calc blockAt mem₃ i (.header (.missedPkts 0)) = blockAt mem₂ i (.header (.missedPkts 0)) :=
          blockAt_apply_ne mem₂ (offset_header valid) fun _ => .inl (by
            simp only [offset, Effect.target, Field.word]; omega)
      _ = 0 := by
          rw [blockAt_apply _ mem₁ (offset_header valid)]
          simp [offset, Effect.target, Effect.src, Field.word, slots]
  have zero : ∀ k < m.dataWords, blockAt mem₃ 0 (.data k) = fake k := by
    intro k hk
    rw [blockAt_apply _ mem₂ (offset_data hk), if_pos]
    · simp only [offset, Effect.target, Effect.src]
      congr 1
      omega
    · refine ⟨rfl, ?_, ?_⟩ <;> simp only [offset, Effect.target] <;> omega
  rw [split]
  constructor
  · rw [hi, copies_header i _ _ i (by simp only [Field.word]; omega), first (by decide)]
    rfl
  · rw [hi, copies_header i _ _ i (by simp only [Field.word]; omega), first (by decide)]
    rfl
  · rw [hi, copies_header i _ _ i (by simp only [Field.word]; omega), first (by decide)]
    rfl
  · rw [hi, copies_header i _ _ i (by simp only [Field.word]; omega), missed]
  · intro b hb
    apply copies_data i _ zero
    by_cases first_ : b = 0
    · rw [first_]
      exact .inr zero
    · left
      rw [List.mem_range'_1]
      omega

/-- A whole block says what it should. -/
theorem Whole.tuple {old mem : Mem} {n : Nat} (fast : m.source = .fast)
    (pos : 0 < m.nInputBlocks) (whole : Whole m fake n mem) (kept : Kept old mem) :
    (ringBlock m mem (n % m.nInputBlocks)).tuple m = (fakeBlock m fake old n).tuple m := by
  have place := Nat.mod_lt n pos
  have bors : m.nBors = 1 := by simp [Macros.nBors, Macros.nSubspectraPerSpectrum, fast]
  rw [tuple_ringBlock mem place]
  apply tuple_congr
  intro c hc
  simp only [outputCells, bors, List.range_one, List.map_cons, List.map_nil, List.mem_append,
    List.mem_cons, List.not_mem_nil, or_false, List.mem_map, List.mem_range] at hc
  rcases hc with ((rfl | rfl | rfl | rfl | rfl | rfl) | rfl) | ⟨k, hk, rfl⟩
  · exact whole.mcnt
  · exact whole.coarseChanId
  · exact whole.numCoarseChan
  · exact kept _ .sid (by simp)
  · exact kept _ .timeSec (by simp)
  · exact kept _ .timeNsec (by simp)
  · exact whole.missedPkts
  · exact whole.allFake _ place k hk

/-! ## The test pipeline -/

/-- s6_fake_net_thread, and what is on the other side of its ring. -/
structure System where
  thread : Lease.Config Flag State Effect Mem
  consumers : Consumers

namespace System

variable (m : Macros) (fake : Nat → Nat)

def start (mem : Mem) (blockOut : Nat → Block) : System where
  thread := (writer m fake).start mem fun _ => .free
  consumers := .start blockOut

/-- What the consumers see; what the producer keeps for itself is left out. -/
def view (s : System) : Pipeline where
  dbIn := ⟨s.thread.flag, ringBlock m s.thread.mem⟩
  dbOut := s.consumers.dbOut
  held := []
  next := 0
  gpu := s.consumers.gpu
  curblockIn := s.consumers.curblockIn
  curblockOut := s.consumers.curblockOut
  output := s.consumers.output
  blockIdx := s.consumers.blockIdx
  published := []
  seen := s.consumers.seen

/-- A step of the consumers that leads to `q`. -/
def adopt (s : System) (q : Pipeline) : System where
  thread := { s.thread with flag := q.dbIn.flag }
  consumers := q.consumers

/-- A step of s6_fake_net_thread itself, or of one of its consumers. -/
inductive Step (nOut : Nat) : System → System → Prop
  | produce (s : System) (c : Lease.Config Flag State Effect Mem)
      (step : (writer m fake).Step s.thread c) (own : c.pending ≠ s.thread.pending) :
      Step nOut s { s with thread := c }
  | consume (s : System) (q : Pipeline)
      (moves : Pipeline.Consumes m m.nInputBlocks nOut (s.view m) q) :
      Step nOut s (s.adopt q)

def Reachable (nOut : Nat) (mem : Mem) (s : System) : Prop :=
  ∃ blockOut, ReflTransGen (Step m fake nOut) (start m fake mem blockOut) s

end System

variable (m fake)

/-- Where the thread is after `n` passes, and the block it holds. -/
inductive At (n : Nat) (c : Lease.Config Flag State Effect Mem) : List Nat → Prop
  | idle (pending : c.pending = [])
      (state : c.state = ⟨n % m.nInputBlocks, Word.u64 n⟩) : At n c []
  | waiting (pending : c.pending = .waitFree (n % m.nInputBlocks) ::
        (filling m ⟨n % m.nInputBlocks, Word.u64 n⟩ ++ [.setFilled (n % m.nInputBlocks)]))
      (state : c.state = ⟨(n + 1) % m.nInputBlocks, Word.u64 (n + 1 : Nat)⟩) : At n c []
  | filling (es : List Effect)
      (writes : ∀ e ∈ es, e ∈ filling m ⟨n % m.nInputBlocks, Word.u64 n⟩)
      (pending : c.pending = es ++ [.setFilled (n % m.nInputBlocks)])
      (state : c.state = ⟨(n + 1) % m.nInputBlocks, Word.u64 (n + 1 : Nat)⟩)
      (whole : Whole m fake n (applyAll m fake es c.mem)) : At n c [n % m.nInputBlocks]

/-- The producer that the consumers cannot tell from the thread: it has published the blocks
of `n` passes, holds `held`, and its ring has `block`. -/
def System.abstract (old : Mem) (s : System) (n : Nat) (held : List Nat) (block : Nat → Block) :
    Pipeline :=
  { s.view m with
    dbIn := ⟨s.thread.flag, block⟩
    held := held
    next := (n + held.length) % m.nInputBlocks
    published := (List.range n).map fun i => (fakeBlock m fake old i).tuple m }

/-- The two agree on the blocks that are filled or held. -/
structure Mirrors (nOut : Nat) (old : Mem) (s : System) (n : Nat) (held : List Nat)
    (block : Nat → Block) : Prop where
  at_ : At m fake n s.thread held
  reach : Pipeline.Reachable m m.nInputBlocks nOut (s.abstract m fake old n held block)
  shown : ∀ b, s.thread.flag b = .filled ∨ b ∈ held → block b = ringBlock m s.thread.mem b
  unread : ∀ b, ∀ c ∉ outputCells m, block b c = 0
  kept : Kept old s.thread.mem
  fresh : n = 0 → ∀ b, s.thread.flag b ≠ .filled
  data : n ≠ 0 → AllFake m fake s.thread.mem

variable {m fake}

theorem start_mirrors (nOut : Nat) (mem : Mem) (blockOut : Nat → Block) :
    Mirrors m fake nOut mem (.start m fake mem blockOut) 0 [] fun _ _ => 0 where
  at_ := .idle rfl (by simp [System.start, Lease.Writer.start, writer, Word.u64])
  reach := by
    have ring : Pipeline.Reachable m m.nInputBlocks nOut _ := .start (fun _ _ => 0) blockOut
    have zero : 0 % m.nInputBlocks = 0 := Nat.zero_mod _
    simp only [System.abstract, List.length_nil, zero]
    exact ring
  shown b h := by simp [System.start, Lease.Writer.start] at h
  unread _ _ _ := rfl
  kept b f hf := by
    simp only [List.mem_cons, List.not_mem_nil, or_false] at hf
    rcases hf with rfl | rfl | rfl <;> rfl
  fresh _ b := by simp [System.start, Lease.Writer.start]
  data h := absurd rfl h

/-! ## One step -/

theorem apply_silent {e : Effect} (none : (e.dest m).2 = 0) (mem : Mem) :
    e.apply m fake mem = mem := by
  funext l
  have out : ¬ Copy.Piece.Covers ⟨(e.dest m).1, (e.dest m).2, e.src fake mem⟩ (l.addr m) := by
    simp only [Copy.Piece.Covers, none]
    omega
  exact if_neg out

/-- What a pass writes is neither a wait nor a publication. -/
theorem filling_role {s : State} {e : Effect} (he : e ∈ filling m s) :
    ∃ slots, e.role m = .write slots := by
  simp only [filling, List.mem_append, List.mem_cons, List.mem_map, List.not_mem_nil,
    or_false] at he
  rcases he with (rfl | rfl | rfl) | ⟨blockI, _, rfl⟩ <;> exact ⟨_, rfl⟩

/-- Once every block has the data, a pass changes no words but those of its own block. -/
theorem other_block {mem : Mem} (fast : m.source = .fast) (all : AllFake m fake mem) {s : State}
    {e : Effect} (he : e ∈ filling m s) {b : Nat} (other : b ≠ s.blockIdx) :
    ringBlock m (e.apply m fake mem) b = ringBlock m mem b := by
  funext c
  by_cases word : b < m.nInputBlocks ∧ c ∈ outputCells m
  · simp only [ringBlock, if_pos word]
    cases c with
    | header f =>
      have valid : f.word < m.headerWords := (outputCells_valid word.1 word.2).1.2
      apply blockAt_apply_ne mem (offset_header valid)
      simp only [filling, List.mem_append, List.mem_cons, List.mem_map, List.not_mem_nil,
        or_false] at he
      rcases he with (rfl | rfl | rfl) | ⟨blockI, _, rfl⟩
      · exact fun here => absurd here other
      · exact fun here => absurd here other
      · intro _
        simp only [offset, Effect.target]
        omega
      · intro _
        simp only [offset, Effect.target]
        omega
    | data k =>
      have hk : k < m.dataWords := (outputCells_valid word.1 word.2).1.2
      rw [all.apply fast e b word.1 k hk, all b word.1 k hk]
  · simp only [ringBlock, if_neg word]

theorem ringBlock_unread {mem : Mem} {b : Nat} : ∀ c ∉ outputCells m, ringBlock m mem b c = 0 :=
  fun _ hc => if_neg fun read => hc read.2

/-- A held block may come to hold what the ring does. -/
theorem refill {nIn nOut : Nat} {p : Pipeline} (reach : Pipeline.Reachable m nIn nOut p)
    {b : Nat} (held : b ∈ p.held) (unread : ∀ c ∉ outputCells m, p.dbIn.block b c = 0)
    (mem : Mem) : Pipeline.Reachable m nIn nOut
      { p with dbIn := ⟨p.dbIn.flag, Function.update p.dbIn.block b (ringBlock m mem b)⟩ } := by
  have fills := @Pipeline.fills m nIn nOut p (Function.update p.dbIn.block b (ringBlock m mem b))
    ((outputCells m).map (b, ·)) ?_ ?_
  · exact invariant_run (P := Pipeline.Reachable m nIn nOut)
      (fun _ _ before step => before.next step.1) reach fills
  · intro q hq
    obtain ⟨c, _, rfl⟩ := List.mem_map.mp hq
    exact held
  · intro b' c out
    by_cases here : b' = b
    · subst here
      have hc : c ∉ outputCells m := fun hc => out (List.mem_map_of_mem hc)
      rw [Function.update_self, ringBlock_unread c hc, unread c hc]
    · rw [Function.update_of_ne here]

theorem unread_update {block : Nat → Block} (unread : ∀ b, ∀ c ∉ outputCells m, block b c = 0)
    (mem : Mem) (b : Nat) :
    ∀ b', ∀ c ∉ outputCells m, Function.update block b (ringBlock m mem b) b' c = 0 := by
  intro b' c hc
  by_cases here : b' = b
  · rw [here, Function.update_self]
    exact ringBlock_unread c hc
  · rw [Function.update_of_ne here]
    exact unread b' c hc

section Step

variable {nOut n : Nat} {old : Mem} {s : System} {held : List Nat} {block : Nat → Block}

/-- The thread finds the block of its pass free. -/
theorem Mirrors.acquire (h : Mirrors m fake nOut old s n [] block)
    {c : Lease.Config Flag State Effect Mem} (flag : c.flag = s.thread.flag)
    (mem : c.mem = s.thread.mem) (free : s.thread.flag (n % m.nInputBlocks) = .free)
    (at_ : At m fake n c [n % m.nInputBlocks]) :
    Mirrors m fake nOut old { s with thread := c } n [n % m.nInputBlocks]
      (Function.update block (n % m.nInputBlocks)
        (ringBlock m s.thread.mem (n % m.nInputBlocks))) where
  at_ := at_
  reach := by
    have place : (n + ([] : List Nat).length) % m.nInputBlocks = n % m.nInputBlocks := rfl
    have acquired := h.reach.next (.acquire _ (Nat.zero_lt_two) (by
      simp only [System.abstract, place]
      exact free))
    simp only [System.abstract, place, List.nil_append, Period.place_succ] at acquired
    have filled := refill acquired (List.mem_singleton_self _) (h.unread _) s.thread.mem
    simp only [System.abstract, System.view, flag, List.length_singleton]
    exact filled
  shown := by
    intro b hb
    by_cases here : b = n % m.nInputBlocks
    · rw [here, Function.update_self, mem]
    · rw [Function.update_of_ne here]
      simp only [flag, mem] at hb ⊢
      rcases hb with filled | mine
      · exact h.shown b (.inl filled)
      · exact absurd (List.mem_singleton.mp mine) here
  unread := unread_update h.unread _ _
  kept := by rw [mem]; exact h.kept
  fresh := by rw [flag]; exact h.fresh
  data := by rw [mem]; exact h.data

/-- A write of the pass. -/
theorem Mirrors.write (fast : m.source = .fast)
    (h : Mirrors m fake nOut old s n [n % m.nInputBlocks] block) {e : Effect}
    (he : e ∈ filling m ⟨n % m.nInputBlocks, Word.u64 n⟩)
    {c : Lease.Config Flag State Effect Mem} (flag : c.flag = s.thread.flag)
    (mem : c.mem = e.apply m fake s.thread.mem) (at_ : At m fake n c [n % m.nInputBlocks]) :
    Mirrors m fake nOut old { s with thread := c } n [n % m.nInputBlocks]
      (Function.update block (n % m.nInputBlocks) (ringBlock m c.mem (n % m.nInputBlocks))) where
  at_ := at_
  reach := by
    have filled := refill h.reach (List.mem_singleton_self _) (h.unread _) c.mem
    simp only [System.abstract, System.view, flag]
    exact filled
  shown := by
    intro b hb
    by_cases here : b = n % m.nInputBlocks
    · rw [here, Function.update_self]
    · rw [Function.update_of_ne here]
      have filled : s.thread.flag b = .filled := by
        rw [flag] at hb
        exact hb.resolve_right fun mine => here (List.mem_singleton.mp mine)
      -- some block was filled, so a whole pass is over
      have more : n ≠ 0 := fun zero => h.fresh zero b filled
      rw [mem, other_block fast (h.data more) he here]
      exact h.shown b (.inl filled)
  unread := unread_update h.unread _ _
  kept := by rw [mem]; exact h.kept.apply e
  fresh := by rw [flag]; exact h.fresh
  data more := by rw [mem]; exact (h.data more).apply fast e

/-- The end of the pass. -/
theorem Mirrors.publish (fast : m.source = .fast) (pos : 0 < m.nInputBlocks)
    (h : Mirrors m fake nOut old s n [n % m.nInputBlocks] block)
    (whole : Whole m fake n s.thread.mem) {c : Lease.Config Flag State Effect Mem}
    (flag : c.flag = Function.update s.thread.flag (n % m.nInputBlocks) .filled)
    (mem : c.mem = s.thread.mem) (at_ : At m fake (n + 1) c []) :
    Mirrors m fake nOut old { s with thread := c } (n + 1) [] block where
  at_ := at_
  reach := by
    have published := h.reach.next (.publish _ (n % m.nInputBlocks) [] rfl)
    have tuple : (block (n % m.nInputBlocks)).tuple m = (fakeBlock m fake old n).tuple m := by
      rw [h.shown _ (.inr (List.mem_singleton_self _))]
      exact whole.tuple fast pos h.kept
    simp only [System.abstract, System.view, tuple] at published
    simp only [System.abstract, System.view, flag, List.range_succ, List.map_append,
      List.map_cons, List.map_nil]
    exact published
  shown := by
    intro b hb
    rw [mem]
    by_cases here : b = n % m.nInputBlocks
    · exact h.shown b (.inr (by rw [here]; exact List.mem_singleton_self _))
    · rw [flag, Function.update_of_ne here] at hb
      exact h.shown b (.inl (hb.resolve_right List.not_mem_nil))
  unread := h.unread
  kept := by rw [mem]; exact h.kept
  fresh zero := absurd zero (Nat.succ_ne_zero n)
  data _ := by rw [mem]; exact whole.allFake

/-- A step of the consumers. The block that s6_gpu_thread copies is filled. -/
theorem Mirrors.consume (fast : m.source = .fast) (two : 2 ≤ m.nInputBlocks) (posOut : 0 < nOut)
    (h : Mirrors m fake nOut old s n held block) {q : Pipeline}
    (moves : Pipeline.Consumes m m.nInputBlocks nOut (s.view m) q) :
    Mirrors m fake nOut old (s.adopt q) n held block where
  at_ := by
    cases h.at_ with
    | idle pending state => exact .idle pending state
    | waiting pending state => exact .waiting pending state
    | filling es writes pending state whole => exact .filling es writes pending state whole
  reach := by
    obtain ⟨copied, claimed, freed, opened, read, cleared, inv⟩ :=
      h.reach.consistent fast two posOut
    refine h.reach.next (moves.lift held _ _ block ?_).1
    intro rest pc
    have at_ := inv.gpuAt
    have gpu : (s.abstract m fake old n held block).gpu = .copying rest := pc
    simp only [Pipeline.GpuAt, gpu] at at_
    have full := inv.input.isFull freed (Nat.le_refl _) at_.2.2.1
    rw [← inv.curblockIn] at full
    exact h.shown _ (.inl full)
  shown b hb := h.shown b (hb.imp_left moves.filled)
  unread := h.unread
  kept := h.kept
  fresh zero b filled := h.fresh zero b (moves.filled filled)
  data := h.data

theorem u64_succ (n : Nat) : Word.u64 (Word.u64 n + 1) = Word.u64 (n + 1 : Nat) := by
  unfold Word.u64
  omega

theorem Mirrors.step (fast : m.source = .fast) (two : 2 ≤ m.nInputBlocks) (posOut : 0 < nOut)
    (h : Mirrors m fake nOut old s n held block) {t : System} (step : System.Step m fake nOut s t) :
    ∃ n held block, Mirrors m fake nOut old t n held block := by
  cases step with
  | consume q moves => exact ⟨n, held, block, h.consume fast two posOut moves⟩
  | produce c step own =>
    cases step with
    | release k full => exact absurd rfl own
    | call idle i =>
      cases h.at_ with
      | idle pending state =>
        refine ⟨n, [], block, .waiting ?_ ?_, h.reach, h.shown, h.unread, h.kept, h.fresh, h.data⟩
        · simp only [writer, pass, state]
        · simp only [writer, pass, state, Period.place_succ, u64_succ]
      | waiting pending state => simp [pending] at idle
      | filling es writes pending state whole => simp [pending] at idle
    | exec op ops next ready =>
      cases h.at_ with
      | idle pending state => simp [pending] at next
      | waiting pending state =>
        rw [pending] at next
        obtain ⟨rfl, rfl⟩ := List.cons.inj next
        have silent : Effect.apply m fake (.waitFree (n % m.nInputBlocks)) s.thread.mem =
            s.thread.mem := apply_silent rfl _
        exact ⟨n, _, _, h.acquire rfl silent ready
          (.filling _ (fun _ => id) rfl state (whole_filling fast n _))⟩
      | filling es writes pending state whole =>
        rw [pending] at next
        cases es with
        | nil =>
          obtain ⟨rfl, rfl⟩ := List.cons.inj next
          have silent : Effect.apply m fake (.setFilled (n % m.nInputBlocks)) s.thread.mem =
              s.thread.mem := apply_silent rfl _
          exact ⟨n + 1, _, _, h.publish fast (by omega) whole rfl silent (.idle rfl state)⟩
        | cons e es =>
          obtain ⟨rfl, rfl⟩ := List.cons.inj next
          have mine := writes e List.mem_cons_self
          obtain ⟨slots, role⟩ := filling_role mine
          have flag : (((writer m fake).role e).setFlag (writer m fake).full s.thread.flag) =
              s.thread.flag := by
            simp only [writer, role]
            rfl
          refine ⟨n, _, _, h.write fast mine flag rfl
            (.filling es (fun e' he => writes e' (List.mem_cons_of_mem e he)) rfl state whole)⟩

end Step

/-! ## Every interleaving -/

/-- Whatever the order of the threads' steps, the `i`th block that the test pipeline records
has mcnt `i`, misses nothing and has the fake data, although it was also written to by passes
for other blocks. -/
theorem fake_recorded (fake : Nat → Nat) (fast : m.source = .fast) (two : 2 ≤ m.nInputBlocks)
    {nOut : Nat} (posOut : 0 < nOut) {mem : Mem} {s : System}
    (reach : System.Reachable m fake nOut mem s) :
    s.consumers.seen = (List.range s.consumers.seen.length).map
      fun i => (fakeBlock m fake mem i).tuple m := by
  obtain ⟨blockOut, run⟩ := reach
  obtain ⟨n, held, block, mirrors⟩ := invariant_run
    (P := fun s => ∃ n held block, Mirrors m fake nOut mem s n held block)
    (fun _ _ ⟨_, _, _, h⟩ step => h.step fast two posOut step)
    ⟨_, _, _, start_mirrors nOut mem blockOut⟩ run
  obtain ⟨copied, _, _, _, read, _, inv⟩ := mirrors.reach.consistent fast two posOut
  have seen : s.consumers.seen = copied.take read := inv.seen
  have first : s.consumers.seen <+:
      (List.range n).map fun i => (fakeBlock m fake mem i).tuple m := by
    rw [seen]
    exact (List.take_prefix read copied).trans inv.passed
  have length : s.consumers.seen.length ≤ n := by simpa using first.length_le
  have eq := List.prefix_iff_eq_take.mp first
  rw [← List.map_take, List.take_range, Nat.min_eq_left length] at eq
  exact eq

/-- Two passes on a ring of one data word a block. The second writes to block 0 while
s6_gpu_thread copies that block. -/
theorem fake_recorded_overlapping : ∃ s : System,
    s.Reachable ⟨.fast, 8, 2⟩ (fun _ => 5) 2 (fun _ => 9) ∧
    s.consumers.seen.map Tuple.data = [[5], [5]] ∧
    s.consumers.seen = (List.range s.consumers.seen.length).map
      fun i => (fakeBlock ⟨.fast, 8, 2⟩ (fun _ => 5) (fun _ => 9) i).tuple ⟨.fast, 8, 2⟩ := by
  let Run (s : System) : Prop := s.Reachable ⟨.fast, 8, 2⟩ (fun _ => 5) 2 fun _ => 9
  have call {s : System} (r : Run s) (idle : s.thread.pending = []) :
      Run { s with thread := { s.thread with
        state := (pass ⟨.fast, 8, 2⟩ s.thread.state).1
        pending := (pass ⟨.fast, 8, 2⟩ s.thread.state).2 } } := by
    obtain ⟨blockOut, run⟩ := r
    refine ⟨blockOut, run.tail (.produce s _ (.call _ idle ()) ?_)⟩
    rw [idle]
    exact List.cons_ne_nil _ _
  have exec {s : System} (r : Run s) (e : Effect) (es : List Effect)
      (next : s.thread.pending = e :: es)
      (ready : (e.role ⟨.fast, 8, 2⟩).Ready Flag.free s.thread.flag) :
      Run { s with thread := { s.thread with
        pending := es
        mem := e.apply ⟨.fast, 8, 2⟩ (fun _ => 5) s.thread.mem
        flag := (e.role ⟨.fast, 8, 2⟩).setFlag .filled s.thread.flag
        trace := ⟨e, s.thread.flag⟩ :: s.thread.trace } } := by
    obtain ⟨blockOut, run⟩ := r
    refine ⟨blockOut, run.tail (.produce s _ (.exec _ e es next ready) ?_)⟩
    rw [next]
    exact (List.cons_ne_self e es).symm
  have consume {s : System} {q : Pipeline} (r : Run s)
      (step : Pipeline.Step ⟨.fast, 8, 2⟩ 2 2 (s.view ⟨.fast, 8, 2⟩) q)
      (moved : (q.gpu.left ⟨.fast, 8, 2⟩, q.output.left ⟨.fast, 8, 2⟩) ≠
        (s.consumers.gpu.left ⟨.fast, 8, 2⟩, s.consumers.output.left ⟨.fast, 8, 2⟩)) :
      Run (s.adopt q) := by
    obtain ⟨blockOut, run⟩ := r
    refine ⟨blockOut, run.tail (.consume s q ⟨step, ?_⟩)⟩
    rintro ⟨gpu, output⟩
    exact moved (by rw [gpu, output]; rfl)
  have r : Run (.start ⟨.fast, 8, 2⟩ (fun _ => 5) (fun _ => 9) fun _ _ => 0) := ⟨_, .refl⟩
  have r := call r rfl
  have r := exec r _ _ rfl rfl
  iterate 5 have r := exec r _ _ rfl trivial
  have r := consume r (.gpuWaitFilled _ rfl rfl) (by decide)
  have r := consume r (.gpuCheckMcnt _ rfl) (by decide)
  have r := consume r (.gpuWaitFree _ rfl rfl) (by decide)
  iterate 7 have r := consume r (.gpuCopy _ _ _ rfl) (by decide)
  -- the second pass, with one word of block 0 left to copy
  have r := call r rfl
  have r := exec r _ _ rfl rfl
  iterate 5 have r := exec r _ _ rfl trivial
  have r := consume r (.gpuCopy _ _ _ rfl) (by decide)
  have r := consume r (.gpuSetFilled _ rfl) (by decide)
  have r := consume r (.outputWaitFilled _ rfl rfl) (by decide)
  iterate 8 have r := consume r (.outputRead _ _ _ _ rfl) (by decide)
  have r := consume r (.outputSee _ _ rfl) (by decide)
  have r := consume r (.gpuSetFree _ rfl) (by decide)
  have r := consume r (.gpuWaitFilled _ rfl rfl) (by decide)
  have r := consume r (.gpuCheckMcnt _ rfl) (by decide)
  have r := consume r (.gpuWaitFree _ rfl rfl) (by decide)
  iterate 8 have r := consume r (.gpuCopy _ _ _ rfl) (by decide)
  have r := consume r (.gpuSetFilled _ rfl) (by decide)
  iterate 8 have r := consume r (.outputClear _ _ _ rfl) (by decide)
  have r := consume r (.outputSetFree _ rfl) (by decide)
  have r := consume r (.outputWaitFilled _ rfl rfl) (by decide)
  iterate 8 have r := consume r (.outputRead _ _ _ _ rfl) (by decide)
  have r := consume r (.outputSee _ _ rfl) (by decide)
  exact ⟨_, r, by decide +kernel, fake_recorded _ rfl (by decide) (by decide) r⟩

end FakeNet

end S6Reobs
