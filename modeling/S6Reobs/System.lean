import S6Reobs.Delivery
import S6Reobs.Labels
import S6Reobs.Lib.Simulation
import S6Reobs.Ownership

/-! The three threads of the FAST build together: s6_pktsock_thread, one effect at a time,
beside s6_gpu_thread and s6_output_thread. Seen from its consumers the thread is the
producer of Pipeline.lean: it fills the blocks it holds, and publishes the oldest. -/

namespace S6Reobs

open Relation Word Window

/-- The step leaves s6_gpu_thread and s6_output_thread where they are in their loops. -/
def Pipeline.Produces (m : Macros) (nIn nOut : Nat) (s t : Pipeline) : Prop :=
  Step m nIn nOut s t ∧ t.gpu = s.gpu ∧ t.output = s.output

/-- The step moves s6_gpu_thread or s6_output_thread on. -/
def Pipeline.Consumes (m : Macros) (nIn nOut : Nat) (s t : Pipeline) : Prop :=
  Step m nIn nOut s t ∧ ¬ (t.gpu = s.gpu ∧ t.output = s.output)

/-- What s6_gpu_thread and s6_output_thread have beside the input databuf. -/
structure Consumers where
  dbOut : Databuf
  gpu : GpuPc
  curblockIn : Nat
  curblockOut : Nat
  output : OutputPc
  blockIdx : Nat
  seen : List Tuple

/-- Both threads at their start, on an output databuf as hashpipe_databuf_create leaves it. -/
def Consumers.start (blockOut : Nat → Block) : Consumers where
  dbOut := ⟨fun _ => .free, blockOut⟩
  gpu := .waitFilled
  curblockIn := 0
  curblockOut := 0
  output := .waitFilled
  blockIdx := 0
  seen := []

def Pipeline.consumers (s : Pipeline) : Consumers :=
  ⟨s.dbOut, s.gpu, s.curblockIn, s.curblockOut, s.output, s.blockIdx, s.seen⟩

/-- `heard` records what was received. -/
structure System where
  producer : Producer
  heard : List Arrival
  consumers : Consumers

/-- How many blocks have been acquired. -/
def acquired : List Entry → Nat
  | [] => 0
  | e :: tr => match e.effect with
    | .busywaitFree _ => acquired tr + 1
    | _ => acquired tr

/-- What the filled blocks said when they were set filled, the oldest first. -/
def filledTuples (m : Macros) : List Entry → List Tuple
  | [] => []
  | e :: tr => match e.effect with
    | .setFilled b => filledTuples m tr ++ [(blockAt e.before b).tuple m]
    | _ => filledTuples m tr

/-- The words of a block that are read. -/
def ringBlock (m : Macros) (mem : Mem) (b : Nat) : Block := fun c =>
  if b < m.nInputBlocks ∧ c ∈ outputCells m then blockAt mem b c else 0

namespace System

variable (m : Macros)

/-- run() of each thread from its start, on databufs as hashpipe_databuf_create leaves
their flags. -/
def start (mem : Mem) (blockOut : Nat → Block) : System where
  producer := .start m mem fun _ => .free
  heard := []
  consumers := .start blockOut

/-- The system as its consumers see it. -/
def view (s : System) : Pipeline where
  dbIn := ⟨s.producer.ring.flag, ringBlock m s.producer.ring.mem⟩
  dbOut := s.consumers.dbOut
  held := held s.producer.ring.trace
  next := acquired s.producer.ring.trace % m.nInputBlocks
  gpu := s.consumers.gpu
  curblockIn := s.consumers.curblockIn
  curblockOut := s.consumers.curblockOut
  output := s.consumers.output
  blockIdx := s.consumers.blockIdx
  published := filledTuples m s.producer.ring.trace
  seen := s.consumers.seen

/-- A step of the consumers that leads to `q`. -/
def adopt (s : System) (q : Pipeline) : System where
  producer := { s.producer with ring := { s.producer.ring with flag := q.dbIn.flag } }
  heard := s.heard
  consumers := q.consumers

inductive Step (nOut : Nat) : System → System → Prop
  | call (s : System) (idle : s.producer.pending = []) (a : Arrival) :
      Step nOut s { s with
        producer := { s.producer with
          thread := (processPacket m s.producer.thread a).thread
          pending := (processPacket m s.producer.thread a).effects }
        heard := s.heard ++ [a] }
  | exec (s : System) (e : Effect) (es : List Effect) (next : s.producer.pending = e :: es)
      (ready : e.Ready s.producer.ring.flag) :
      Step nOut s { s with
        producer := { s.producer with ring := s.producer.ring.exec m e, pending := es } }
  | consume (s : System) (q : Pipeline)
      (moves : Pipeline.Consumes m m.nInputBlocks nOut (s.view m) q) :
      Step nOut s (s.adopt q)

def Reachable (nOut : Nat) (mem : Mem) (s : System) : Prop :=
  ∃ blockOut, ReflTransGen (Step m nOut) (start m mem blockOut) s

end System

/-! ## The consumers' side -/

/-- The consumers leave alone what only the producer changes. -/
theorem Pipeline.Consumes.keeps {m : Macros} {nIn nOut : Nat} {s t : Pipeline}
    (moves : Consumes m nIn nOut s t) : t.held = s.held ∧ t.next = s.next ∧
      t.published = s.published ∧ t.dbIn.block = s.dbIn.block := by
  obtain ⟨step, moved⟩ := moves
  cases step with
  | acquire | fill | publish => exact absurd ⟨rfl, rfl⟩ moved
  | gpuWaitFilled | gpuCheckMcnt | gpuWaitFree | gpuCopy | gpuSetFilled | gpuSetFree
  | outputWaitFilled | outputRead | outputSee | outputClear | outputSetFree =>
    exact ⟨rfl, rfl, rfl, rfl⟩

/-- The consumers look at no input block but the one that is being copied, and at nothing that
is the producer's own. -/
theorem Pipeline.Consumes.lift {m : Macros} {nIn nOut : Nat} {s t : Pipeline}
    (moves : Consumes m nIn nOut s t) (held : List Nat) (next : Nat) (published : List Tuple)
    (block : Nat → Block) (same : ∀ rest, s.gpu = .copying rest →
      block s.curblockIn = s.dbIn.block s.curblockIn) :
    Consumes m nIn nOut
      { s with
        dbIn := ⟨s.dbIn.flag, block⟩, held := held, next := next, published := published }
      { t with
        dbIn := ⟨t.dbIn.flag, block⟩, held := held, next := next, published := published } := by
  obtain ⟨step, moved⟩ := moves
  refine ⟨?_, moved⟩
  cases step with
  | acquire | fill | publish => exact absurd ⟨rfl, rfl⟩ moved
  | gpuWaitFilled pc filled => exact .gpuWaitFilled _ pc filled
  | gpuCheckMcnt pc =>
    -- both comparisons are with 0
    have ready (n : Nat) : n ≥ lastMcount := Nat.zero_le n
    have step : Step m nIn nOut _ _ := .gpuCheckMcnt
      { s with
        dbIn := ⟨s.dbIn.flag, block⟩, held := held, next := next, published := published } pc
    simp only [if_pos (ready _)] at step ⊢
    exact step
  | gpuWaitFree pc free => exact .gpuWaitFree _ pc free
  | gpuCopy c rest pc =>
    rw [← same _ pc]
    exact .gpuCopy _ c rest pc
  | gpuSetFilled pc => exact .gpuSetFilled _ pc
  | gpuSetFree pc => exact .gpuSetFree _ pc
  | outputWaitFilled pc filled => exact .outputWaitFilled _ pc filled
  | outputRead c rest got pc => exact .outputRead _ c rest got pc
  | outputSee got pc => exact .outputSee _ got pc
  | outputClear c rest pc => exact .outputClear _ c rest pc
  | outputSetFree pc => exact .outputSetFree _ pc

/-- The consumers mark no input block filled. -/
theorem Pipeline.Consumes.filled {m : Macros} {nIn nOut : Nat} {s t : Pipeline}
    (moves : Consumes m nIn nOut s t) {b : Nat} (filled : t.dbIn.flag b = .filled) :
    s.dbIn.flag b = .filled := by
  obtain ⟨step, moved⟩ := moves
  cases step with
  | acquire | fill | publish => exact absurd ⟨rfl, rfl⟩ moved
  | gpuSetFree pc =>
    by_cases here : b = s.curblockIn
    · subst here
      simp [Databuf.set] at filled
    · simpa [Databuf.set, here] using filled
  | gpuWaitFilled | gpuCheckMcnt | gpuWaitFree | gpuCopy | gpuSetFilled
  | outputWaitFilled | outputRead | outputSee | outputClear | outputSetFree => exact filled

theorem System.view_adopt {m : Macros} {nOut : Nat} {s : System} {q : Pipeline}
    (moves : Pipeline.Consumes m m.nInputBlocks nOut (s.view m) q) : (s.adopt q).view m = q := by
  obtain ⟨held, next, published, block⟩ := moves.keeps
  obtain ⟨⟨flag, words⟩, _, _, _, _, _, _, _, _, _, _⟩ := q
  simp only [view] at held next published block
  simp only [view, adopt, Pipeline.consumers, held, next, published, block]

/-! ## The producer's side -/

/-- After `tr`, the effect publishes the block held longest, or acquires the next in ring
order while fewer than two are held. -/
def InTurn (m : Macros) (tr : List Entry) : Effect → Prop
  | .setFilled b => ∃ rest, held tr = b :: rest
  | .busywaitFree b => (held tr).length < 2 ∧ b = acquired tr % m.nInputBlocks
  | _ => True

def Ordered (m : Macros) (tr : List Entry) : Prop :=
  ∀ later e earlier, tr = later ++ e :: earlier → InTurn m earlier e.effect

theorem ordered_cons {m : Macros} {tr : List Entry} {e : Effect} {mem : Mem} :
    Ordered m (⟨e, mem⟩ :: tr) ↔ InTurn m tr e ∧ Ordered m tr := by
  constructor
  · intro h
    refine ⟨h [] ⟨e, mem⟩ tr rfl, ?_⟩
    rintro later e' earlier rfl
    exact h (⟨e, mem⟩ :: later) e' earlier rfl
  · rintro ⟨now, before⟩ later e' earlier h
    cases later with
    | nil =>
      obtain ⟨rfl, rfl⟩ := List.cons.inj h
      exact now
    | cons e'' later => exact before later e' earlier (List.cons.inj h).2

theorem Ordered.earlier {m : Macros} {tr later : List Entry} (h : Ordered m (later ++ tr)) :
    Ordered m tr := by
  rintro mid e earlier rfl
  exact h (later ++ mid) e earlier (by simp)

variable {g : Geometry}

/-- The blocks of the window were acquired last, and all of them in turn. -/
structure TurnKept (g : Geometry) (w : Window.State) (r : Ring) : Prop where
  next : acquired r.trace % g.nInputBlocks = (w.block + 2) % g.nInputBlocks
  ordered : Ordered g.toMacros r.trace

theorem TurnKept.exec {w : Window.State} {r : Ring} (h : TurnKept g w r) {e : Effect}
    (still : e.Still) : TurnKept g w (r.exec g.toMacros e) := by
  cases e with
  | stamp | setFilled | busywaitFree => exact still.elim
  | initializeBlock | decMissedPkts | copyPayload | log | recvFrame | releaseFrame
  | hputNetmcnt => exact ⟨h.next, ordered_cons.mpr ⟨trivial, h.ordered⟩⟩

theorem TurnKept.execAll {w : Window.State} {r : Ring} (h : TurnKept g w r) {es : List Effect}
    (still : ∀ e ∈ es, e.Still) : TurnKept g w (r.execAll g.toMacros es) := by
  induction es generalizing r with
  | nil => exact h
  | cons e es ih =>
    exact ih (h.exec (still e List.mem_cons_self))
      (fun e' he => still e' (List.mem_cons_of_mem e he))

theorem TurnKept.logs {w : Window.State} {r : Ring} (h : TurnKept g w r) (msgs : List Msg) :
    TurnKept g w (r.execAll g.toMacros (msgs.map .log)) := by
  apply h.execAll
  intro e he
  obtain ⟨msg, _, rfl⟩ := List.mem_map.mp he
  trivial

theorem TurnKept.storing {w : Window.State} {r : Ring} (h : TurnKept g w r) (f : Frame) :
    TurnKept g w (r.execAll g.toMacros (storing g.toMacros f)) := by
  apply h.execAll
  intro e he
  rcases (mem_storing he).2 with rfl | rfl <;> trivial

theorem TurnKept.filling {w : Window.State} {r : Ring} (h : TurnKept g w r)
    (holding : Holding g w r) (hdr : PacketHeader) (now : Timespec) (strays : Int) :
    TurnKept g ⟨w.block + 1, strays⟩
      (r.execAll g.toMacros (filling g.toMacros w.block hdr now)) := by
  let r₁ := r.exec g.toMacros (.stamp (w.block % g.nInputBlocks) now)
  let r₂ := r₁.exec g.toMacros (.setFilled (w.block % g.nInputBlocks))
  let r₃ := r₂.exec g.toMacros (.busywaitFree ((w.block + 2) % g.nInputBlocks))
  have held₂ : held r₂.trace = [(w.block + 1) % g.nInputBlocks] := by
    change (held r.trace).erase _ = _
    rw [holding.held, List.erase_cons_head]
  have ordered₂ : Ordered g.toMacros r₂.trace := by
    refine ordered_cons.mpr ⟨⟨[(w.block + 1) % g.nInputBlocks], ?_⟩, ?_⟩
    · exact holding.held
    · exact ordered_cons.mpr ⟨trivial, h.ordered⟩
  have turn : TurnKept g ⟨w.block + 1, strays⟩ r₃ := by
    constructor
    · change (acquired r.trace + 1) % g.nInputBlocks = (w.block + 2 + 1) % g.nInputBlocks
      rw [← Period.place_succ, h.next, Period.place_succ]
    · refine ordered_cons.mpr ⟨⟨by simp [held₂], ?_⟩, ordered₂⟩
      exact h.next.symm
  exact turn.exec (by trivial)

theorem TurnKept.recycling {w w' : Window.State} {r : Ring} (h : TurnKept g w r)
    (place : w'.block % g.nInputBlocks = w.block % g.nInputBlocks) (pktMcnt : Nat)
    (hdr : PacketHeader) :
    TurnKept g w' (r.execAll g.toMacros (recycling g.toMacros w'.block pktMcnt hdr)) := by
  have next : (w'.block + 2) % g.nInputBlocks = (w.block + 2) % g.nInputBlocks := by
    rw [← Period.place_succ_succ, place, Period.place_succ_succ]
  have same : TurnKept g w' r := ⟨by rw [next]; exact h.next, h.ordered⟩
  apply same.execAll
  intro e he
  simp only [S6Reobs.recycling, List.mem_cons, List.not_mem_nil, or_false] at he
  rcases he with rfl | rfl | rfl <;> trivial

theorem TurnKept.call {s : State} {w : Window.State} (tracks : Tracks g s.thread w)
    (h : TurnKept g w s.ring) (holding : Holding g w s.ring) (a : Arrival) :
    TurnKept g (g.step w (g.header a).mcnt) (s.call g.toMacros a).ring := by
  obtain ⟨o, w', does, next, ring⟩ := call_ring tracks a
  rw [ring, next]
  cases does with
  | current v msgs routine effects =>
    rw [effects, Ring.execAll_append]
    have stored := (h.logs msgs).storing a.frame
    exact ⟨stored.next, stored.ordered⟩
  | advance v msgs routine effects =>
    rw [effects, Ring.execAll_append, Ring.execAll_append]
    exact ((h.filling holding (g.header a) a.now 0).logs msgs).storing a.frame
  | late v msgs routine effects =>
    rw [effects]
    exact h.logs msgs
  | stray v few msgs routine effects =>
    rw [effects]
    have logged := h.logs msgs
    exact ⟨logged.next, logged.ordered⟩
  | resync v many msgs routine pktMcnt effects =>
    have place := target_place g.nm g.nInputBlocks_pos w.block (g.header a).mcnt
    generalize target g.nm g.nInputBlocks w.block (g.header a).mcnt = k at effects place
    rw [effects, Ring.execAll_append]
    have same : TurnKept g ⟨k, inc w.strays⟩ _ :=
      (h.logs msgs).recycling place pktMcnt (g.header a)
    exact same

theorem startup_turn (g : Geometry) (mem : Mem) (flag : Nat → Flag) :
    TurnKept g ⟨0, 0⟩ (Ring.execAll g.toMacros ⟨mem, flag, []⟩ (startupEffects g.toMacros)) := by
  have one : 1 % g.nInputBlocks = 1 := Nat.mod_eq_of_lt g.two_le_blocks
  have none : Ordered g.toMacros [] := by
    intro later e earlier h
    simp at h
  refine ⟨rfl, ?_⟩
  refine ordered_cons.mpr ⟨trivial, ordered_cons.mpr ⟨trivial, ordered_cons.mpr ⟨?_, ?_⟩⟩⟩
  · exact ⟨Nat.one_lt_two, one.symm⟩
  · exact ordered_cons.mpr ⟨⟨Nat.two_pos, (Nat.zero_mod _).symm⟩, none⟩

/-! ## The effects of the producer are its steps -/

/-- Holding some blocks, the producer may give their words any values. -/
theorem Pipeline.fills {m : Macros} {nIn nOut : Nat} (s : Pipeline) (new : Nat → Block)
    (l : List (Nat × Cell)) (held : ∀ p ∈ l, p.1 ∈ s.held)
    (rest : ∀ b c, (b, c) ∉ l → new b c = s.dbIn.block b c) :
    ReflTransGen (Produces m nIn nOut) s { s with dbIn := ⟨s.dbIn.flag, new⟩ } := by
  induction l generalizing s with
  | nil =>
    have same : new = s.dbIn.block := by
      funext b c
      exact rest b c List.not_mem_nil
    rw [same]
  | cons p l ih =>
    obtain ⟨b, c⟩ := p
    have step : Produces m nIn nOut s { s with dbIn := s.dbIn.write b c (new b c) } :=
      ⟨.fill s b (held _ List.mem_cons_self) c (new b c), rfl, rfl⟩
    refine .head step (ih { s with dbIn := s.dbIn.write b c (new b c) }
      (fun p hp => held p (List.mem_cons_of_mem _ hp)) ?_)
    intro b' c' out
    by_cases block : b' = b
    · subst block
      by_cases cell : c' = c
      · subst cell
        simp [Databuf.write]
      · have other : (b', c') ∉ (b', c) :: l := by simp [cell, out]
        simpa [Databuf.write, cell] using rest b' c' other
    · have other : (b', c') ∉ (b, c) :: l := by simp [block, out]
      simpa [Databuf.write, block] using rest b' c' other

theorem outputCells_valid {m : Macros} {b : Nat} (hb : b < m.nInputBlocks) {c : Cell}
    (hc : c ∈ outputCells m) : match c with
      | .header f => (Loc.header b f).Valid m ∧ InBlock m b ((Loc.header b f).addr m)
      | .data k => (Loc.data b k).Valid m ∧ InBlock m b ((Loc.data b k).addr m) := by
  have header {f : Field} (word : f.word < m.headerWords) :
      (Loc.header b f).Valid m ∧ InBlock m b ((Loc.header b f).addr m) :=
    ⟨⟨hb, word⟩, header_inBlock word⟩
  rcases List.mem_append.mp hc with hc | hc
  · rcases List.mem_append.mp hc with hc | hc
    · simp only [List.mem_cons, List.not_mem_nil, or_false] at hc
      rcases hc with rfl | rfl | rfl | rfl | rfl | rfl <;>
        exact header (by simp only [Field.word, Macros.headerWords]; omega)
    · obtain ⟨i, hi, rfl⟩ := List.mem_map.mp hc
      exact header (Nat.add_lt_add_left (List.mem_range.mp hi) 6)
  · obtain ⟨k, hk, rfl⟩ := List.mem_map.mp hc
    rw [List.mem_range] at hk
    refine ⟨⟨hb, hk⟩, ?_, ?_⟩
    · simp only [Loc.addr, Macros.dataAddr]
      omega
    · rw [m.dataAddr_succ]
      simp only [Loc.addr]
      omega

/-- An effect changes the words of held blocks only. -/
theorem ringBlock_exec {m : Macros} {tr : List Entry} {e : Effect} (allowed : Allowed m tr e)
    (mem : Mem) {b : Nat} (free : b ∉ held tr) :
    ringBlock m (e.apply m mem) b = ringBlock m mem b := by
  funext c
  by_cases word : b < m.nInputBlocks ∧ c ∈ outputCells m
  · simp only [ringBlock, if_pos word]
    have valid := outputCells_valid word.1 word.2
    have out {a : Nat} (inside : InBlock m b a) : ¬ e.Writes m a := by
      intro writes
      obtain ⟨b', held', inside'⟩ := allowed.1 a writes
      rw [inside.unique inside'] at held'
      exact free held'
    cases c with
    | header f => exact e.apply_frame m mem valid.1 (out valid.2)
    | data k => exact e.apply_frame m mem valid.1 (out valid.2)
  · simp only [ringBlock, if_neg word]

theorem tuple_ringBlock {m : Macros} (mem : Mem) {b : Nat} (hb : b < m.nInputBlocks) :
    (ringBlock m mem b).tuple m = (blockAt mem b).tuple m :=
  tuple_congr fun _ hc => if_pos ⟨hb, hc⟩

theorem Ordered.held_lt {m : Macros} (pos : 0 < m.nInputBlocks) {tr : List Entry}
    (h : Ordered m tr) : ∀ b ∈ held tr, b < m.nInputBlocks := by
  induction tr with
  | nil => exact fun b hb => absurd hb List.not_mem_nil
  | cons e tr ih =>
    obtain ⟨e, mem⟩ := e
    obtain ⟨turn, before⟩ := ordered_cons.mp h
    have old := ih before
    intro b hb
    cases e with
    | busywaitFree c =>
      rw [held] at hb
      cases List.mem_append.mp hb with
      | inl hb => exact old b hb
      | inr hb =>
        rw [List.mem_singleton.mp hb, turn.2]
        exact Nat.mod_lt _ pos
    | setFilled c => exact old b (List.mem_of_mem_erase hb)
    | stamp | initializeBlock | decMissedPkts | copyPayload | log | recvFrame | releaseFrame
    | hputNetmcnt => exact old b hb

namespace System

variable {m : Macros}

/-- An effect on no flag, seen by the consumers: its words, one at a time. -/
theorem view_writes {nOut : Nat} (s : System) {e : Effect} {es : List Effect}
    (allowed : Allowed m s.producer.ring.trace e)
    (held_ : held (s.producer.ring.exec m e).trace = held s.producer.ring.trace)
    (acquired_ : acquired (s.producer.ring.exec m e).trace = acquired s.producer.ring.trace)
    (filled : filledTuples m (s.producer.ring.exec m e).trace =
      filledTuples m s.producer.ring.trace)
    (flag : (s.producer.ring.exec m e).flag = s.producer.ring.flag) :
    ReflTransGen (Pipeline.Produces m m.nInputBlocks nOut) (s.view m)
      (view m { s with
        producer := { s.producer with ring := s.producer.ring.exec m e, pending := es } }) := by
  have fills := @Pipeline.fills m m.nInputBlocks nOut (s.view m)
    (ringBlock m (e.apply m s.producer.ring.mem))
    ((held s.producer.ring.trace).flatMap fun b => (outputCells m).map (b, ·)) ?_ ?_
  · simp only [view, held_, acquired_, filled, flag]
    exact fills
  · intro p hp
    obtain ⟨b, hb, hp⟩ := List.mem_flatMap.mp hp
    obtain ⟨c, _, rfl⟩ := List.mem_map.mp hp
    exact hb
  · intro b c out
    by_cases free : b ∈ held s.producer.ring.trace
    · -- a word that is not read
      have unread : ¬ (b < m.nInputBlocks ∧ c ∈ outputCells m) := by
        rintro ⟨_, hc⟩
        exact out (List.mem_flatMap.mpr ⟨b, free, List.mem_map_of_mem hc⟩)
      simp only [view, ringBlock, if_neg unread]
    · exact congrFun (ringBlock_exec allowed _ free) c

theorem view_exec {nOut : Nat} (s : System) {e : Effect} {es : List Effect}
    (pos : 0 < m.nInputBlocks) (allowed : Allowed m s.producer.ring.trace e)
    (turn : InTurn m s.producer.ring.trace e) (ordered : Ordered m s.producer.ring.trace)
    (ready : e.Ready s.producer.ring.flag) :
    ReflTransGen (Pipeline.Produces m m.nInputBlocks nOut) (s.view m)
      (view m { s with
        producer := { s.producer with ring := s.producer.ring.exec m e, pending := es } }) := by
  cases e with
  | setFilled b =>
    obtain ⟨rest, oldest⟩ := turn
    have hb : b < m.nInputBlocks := ordered.held_lt pos b (by rw [oldest]; simp)
    have publish : Pipeline.Step m m.nInputBlocks nOut _ _ := .publish (s.view m) b rest oldest
    refine .single ?_
    have erased : held (s.producer.ring.exec m (.setFilled b)).trace = rest := by
      change (held s.producer.ring.trace).erase b = rest
      rw [oldest, List.erase_cons_head]
    have tuple : ((s.view m).dbIn.block b).tuple m =
        (blockAt s.producer.ring.mem b).tuple m := tuple_ringBlock _ hb
    rw [tuple] at publish
    simp only [view, erased]
    exact ⟨publish, rfl, rfl⟩
  | busywaitFree b =>
    obtain ⟨few, next⟩ := turn
    have acquire : Pipeline.Step m m.nInputBlocks nOut _ _ := .acquire (s.view m) few
      (by rw [← ready, next]; rfl)
    refine .single ?_
    have flag : (s.producer.ring.exec m (.busywaitFree b)).flag = s.producer.ring.flag := by
      change Function.update s.producer.ring.flag b .free = _
      rw [← show s.producer.ring.flag b = .free from ready, Function.update_eq_self]
    have acquired_ : acquired (s.producer.ring.exec m (.busywaitFree b)).trace % m.nInputBlocks =
        (acquired s.producer.ring.trace % m.nInputBlocks + 1) % m.nInputBlocks := by
      rw [Period.place_succ]
      rfl
    have held_ : held (s.producer.ring.exec m (.busywaitFree b)).trace =
        held s.producer.ring.trace ++ [acquired s.producer.ring.trace % m.nInputBlocks] := by
      rw [← next]
      rfl
    simp only [view, acquired_, held_, flag]
    exact ⟨acquire, rfl, rfl⟩
  | stamp | initializeBlock | decMissedPkts | copyPayload | log | recvFrame | releaseFrame
  | hputNetmcnt => exact s.view_writes allowed rfl rfl rfl rfl

/-! ## The system and the thread alone -/

/-- process_packet called on the same frames, one call after the other. -/
def alone (m : Macros) (mem : Mem) (l : List Arrival) : State :=
  (State.start m mem fun _ => .free).run m l

/-- Once its effects are done, the thread has done what it would have done alone. -/
structure Follows (m : Macros) (mem : Mem) (s : System) : Prop where
  thread : s.producer.thread = (alone m mem s.heard).thread
  words : (s.producer.settled m).mem = (alone m mem s.heard).ring.mem
  trace : (s.producer.settled m).trace = (alone m mem s.heard).ring.trace

theorem start_follows (m : Macros) (mem : Mem) (blockOut : Nat → Block) :
    Follows m mem (start m mem blockOut) where
  thread := rfl
  words := rfl
  trace := rfl

end System

theorem mem_execAll_congr (m : Macros) (es : List Effect) {r r' : Ring} (mem : r.mem = r'.mem) :
    (r.execAll m es).mem = (r'.execAll m es).mem := by
  induction es generalizing r r' with
  | nil => exact mem
  | cons e es ih => exact ih (by simp only [Ring.exec, mem])

theorem filledTuples_append (m : Macros) (later tr : List Entry) :
    filledTuples m tr <+: filledTuples m (later ++ tr) := by
  induction later with
  | nil => exact List.prefix_rfl
  | cons e later ih =>
    obtain ⟨e, mem⟩ := e
    cases e with
    | setFilled b => exact ih.trans (List.prefix_append _ _)
    | stamp | busywaitFree | initializeBlock | decMissedPkts | copyPayload | log | recvFrame
    | releaseFrame | hputNetmcnt => exact ih

theorem alone_keeps (g : Geometry) (mem : Mem) {l : List Arrival}
    (fits : ∀ a ∈ l, Fits g.toMacros a.frame) :
    ∃ w, Tracks g (System.alone g.toMacros mem l).thread w ∧
      Holding g w (System.alone g.toMacros mem l).ring ∧
      TurnKept g w (System.alone g.toMacros mem l).ring := by
  induction l using List.reverseRecOn with
  | nil => exact ⟨⟨0, 0⟩, tracks_initial g, startup_holding g mem _, startup_turn g mem _⟩
  | append_singleton l a ih =>
    obtain ⟨w, tracks, holding, turn⟩ := ih fun b hb => fits b (List.mem_append_left _ hb)
    rw [System.alone, State.run_append]
    refine ⟨g.step w (g.header a).mcnt, (call_does tracks a).2, ?_, ?_⟩
    · exact holding.call tracks (fits a (by simp))
    · exact turn.call tracks holding a

namespace System

variable {g : Geometry} {mem : Mem} {nOut : Nat} {s t : System}

theorem Follows.step (h : Follows g.toMacros mem s) (step : Step g.toMacros nOut s t) :
    Follows g.toMacros mem t := by
  cases step with
  | call idle a =>
    have settled : s.producer.settled g.toMacros = s.producer.ring := by
      rw [Producer.settled, idle]
      rfl
    have words := h.words
    have trace := h.trace
    rw [settled] at words trace
    have next : alone g.toMacros mem (s.heard ++ [a]) =
        (alone g.toMacros mem s.heard).call g.toMacros a := by
      rw [alone, State.run_append]
      rfl
    refine ⟨?_, ?_, ?_⟩
    · simp only [next, State.call, h.thread]
    · simp only [next, State.call, ← h.thread, Producer.settled]
      exact mem_execAll_congr _ _ words
    · simp only [next, State.call, ← h.thread, Producer.settled]
      exact trace_execAll_congr _ _ words trace
  | exec e es next ready =>
    have settled : s.producer.settled g.toMacros =
        (s.producer.ring.exec g.toMacros e).execAll g.toMacros es := by
      rw [Producer.settled, next]
      rfl
    refine ⟨h.thread, ?_, ?_⟩
    · rw [← h.words, settled]
      rfl
    · rw [← h.trace, settled]
      rfl
  | consume q moves =>
    refine ⟨h.thread, ?_, ?_⟩
    · rw [adopt, ← h.words]
      exact mem_execAll_congr _ _ rfl
    · rw [adopt, ← h.trace]
      exact trace_execAll_congr _ _ rfl rfl

theorem Step.heard (step : Step g.toMacros nOut s t) : s.heard <+: t.heard := by
  cases step with
  | call idle a => exact List.prefix_append _ _
  | exec | consume => exact List.prefix_rfl

/-- The thread's next effect is allowed and in turn. -/
theorem Follows.next (h : Follows g.toMacros mem s)
    (fits : ∀ a ∈ s.heard, Fits g.toMacros a.frame) {e : Effect} {es : List Effect}
    (next : s.producer.pending = e :: es) :
    Allowed g.toMacros s.producer.ring.trace e ∧ InTurn g.toMacros s.producer.ring.trace e ∧
      Ordered g.toMacros s.producer.ring.trace := by
  obtain ⟨w, _, holding, turn⟩ := alone_keeps g mem fits
  have disciplined := holding.disciplined
  have ordered := turn.ordered
  have settled : s.producer.settled g.toMacros =
      (s.producer.ring.exec g.toMacros e).execAll g.toMacros es := by
    rw [Producer.settled, next]
    rfl
  obtain ⟨later, eq⟩ := trace_execAll g.toMacros es (s.producer.ring.exec g.toMacros e)
  rw [← h.trace, settled, eq] at disciplined ordered
  obtain ⟨inTurn, before⟩ := ordered_cons.mp ordered.earlier
  exact ⟨(disciplined_cons.mp disciplined.earlier).1, inTurn, before⟩

/-- As long as the frames fit their slots, the system is one of a producer and its consumers. -/
theorem refines (g : Geometry) (mem : Mem) (nOut : Nat) :
    Simulates (fun s p => p = s.view g.toMacros ∧ Follows g.toMacros mem s)
      (fun s t => Step g.toMacros nOut s t ∧ ∀ a ∈ t.heard, Fits g.toMacros a.frame)
      (Pipeline.Step g.toMacros g.nInputBlocks nOut) := by
  rintro s p t ⟨rfl, follows⟩ ⟨step, fits⟩
  refine ⟨t.view g.toMacros, ?_, rfl, follows.step step⟩
  cases step with
  | call => exact .refl
  | exec e es next ready =>
    obtain ⟨allowed, turn, ordered⟩ := follows.next fits next
    exact ReflTransGen.mono (fun _ _ step => step.1)
      _ _ (s.view_exec g.nInputBlocks_pos allowed turn ordered ready)
  | consume q moves =>
    rw [view_adopt moves]
    exact .single moves.1

theorem Reachable.follows (reach : Reachable g.toMacros nOut mem s) :
    Follows g.toMacros mem s := by
  obtain ⟨blockOut, run⟩ := reach
  exact invariant_run (P := Follows g.toMacros mem) (fun _ _ => Follows.step)
    (start_follows _ _ blockOut) run

theorem Reachable.view (reach : Reachable g.toMacros nOut mem s)
    (fits : ∀ a ∈ s.heard, Fits g.toMacros a.frame) :
    Pipeline.Reachable g.toMacros g.nInputBlocks nOut (s.view g.toMacros) := by
  obtain ⟨blockOut, run⟩ := reach
  have within := run_within (P := fun t : System => ∀ a ∈ t.heard, Fits g.toMacros a.frame)
    (fun _ _ step fit a ha => fit a (step.heard.subset ha)) run fits
  obtain ⟨p, steps, rfl, _⟩ :=
    (refines g mem nOut).run ⟨rfl, start_follows _ _ blockOut⟩ within
  have started : Pipeline.Reachable g.toMacros g.nInputBlocks nOut
      ((start g.toMacros mem blockOut).view g.toMacros) := by
    have ring : Pipeline.Reachable g.toMacros g.nInputBlocks nOut _ :=
      .start (ringBlock g.toMacros mem) blockOut
    have zero : acquired [] % g.nInputBlocks = 0 := Nat.zero_mod _
    simp only [System.view, start, Producer.start, zero]
    exact ring
  exact invariant_run (P := Pipeline.Reachable g.toMacros g.nInputBlocks nOut)
    (fun _ _ => .next) started steps

end System

/-- What has been published so far is what the thread alone would have published first. -/
theorem System.Follows.published {g : Geometry} {mem : Mem} {s : System}
    (h : Follows g.toMacros mem s) : filledTuples g.toMacros s.producer.ring.trace <+:
      filledTuples g.toMacros (alone g.toMacros mem s.heard).ring.trace := by
  obtain ⟨later, eq⟩ := trace_execAll g.toMacros s.producer.pending s.producer.ring
  rw [← h.trace, Producer.settled, eq]
  exact filledTuples_append ..

/-- What s6_output_thread has seen is what the thread alone would have published first. -/
theorem System.Reachable.seen_filled {g : Geometry} (fast : g.source = .fast) {nOut : Nat}
    (posOut : 0 < nOut) {mem : Mem} {s : System} (reach : Reachable g.toMacros nOut mem s)
    (fits : ∀ a ∈ s.heard, Fits g.toMacros a.frame) :
    s.consumers.seen <+:
      filledTuples g.toMacros (alone g.toMacros mem s.heard).ring.trace := by
  obtain ⟨copied, _, _, _, read, _, inv⟩ :=
    (reach.view fits).consistent fast g.two_le_blocks posOut
  have seen : s.consumers.seen = copied.take read := inv.seen
  rw [seen]
  exact ((List.take_prefix read copied).trans inv.passed).trans reach.follows.published

end S6Reobs
