import S6Reobs.Contents

/-! Which blocks the receive thread holds. The thread's effects are run one at a
time between those of a consumer that sets filled blocks free. -/

namespace S6Reobs

open Word Window

/-- The blocks acquired by busywait_free and not yet set filled, the oldest first. -/
def held : List Entry → List Nat
  | [] => []
  | e :: tr => match e.effect with
    | .busywaitFree b => held tr ++ [b]
    | .setFilled b => (held tr).erase b
    | _ => held tr

/-- How often `block[b]` has been stamped since it was last acquired. -/
def stamps (b : Nat) : List Entry → Nat
  | [] => 0
  | e :: tr => match e.effect with
    | .stamp c _ => if c = b then stamps b tr + 1 else stamps b tr
    | .busywaitFree c => if c = b then 0 else stamps b tr
    | _ => stamps b tr

/-- Address `a` lies in `block[b]`. -/
def InBlock (m : Macros) (b a : Nat) : Prop := b * m.blockWords ≤ a ∧ a < (b + 1) * m.blockWords

/-- After `tr`, the effect writes to held blocks only; it publishes a block that is held
and has been stamped once, and acquires one that is not held. -/
def Allowed (m : Macros) (tr : List Entry) (e : Effect) : Prop :=
  (∀ a, e.Writes m a → ∃ b ∈ held tr, InBlock m b a) ∧
  match e with
  | .setFilled b => b ∈ held tr ∧ stamps b tr = 1
  | .busywaitFree b => b ∉ held tr
  | _ => True

def Disciplined (m : Macros) (tr : List Entry) : Prop :=
  ∀ later e earlier, tr = later ++ e :: earlier → Allowed m earlier e.effect

/-! ## The thread beside its consumer -/

/-- busywait_free returns only when it finds its block free. -/
def Effect.Ready (flag : Nat → Flag) : Effect → Prop
  | .busywaitFree b => flag b = .free
  | _ => True

/-- The receive thread, the effects of its current call that are still to come, and
the ring. -/
structure Producer where
  thread : Thread
  pending : List Effect
  ring : Ring

namespace Producer

/-- run() from its start, on a ring that held anything. -/
def start (m : Macros) (mem : Mem) (flag : Nat → Flag) : Producer where
  thread := Thread.initial m
  pending := startupEffects m
  ring := ⟨mem, flag, []⟩

inductive Step (m : Macros) : Producer → Producer → Prop
  | call (p : Producer) (idle : p.pending = []) (a : Arrival) (fits : Fits m a.frame) :
      Step m p { p with
        thread := (processPacket m p.thread a).thread
        pending := (processPacket m p.thread a).effects }
  | exec (p : Producer) (e : Effect) (es : List Effect) (next : p.pending = e :: es)
      (ready : e.Ready p.ring.flag) :
      Step m p { p with ring := p.ring.exec m e, pending := es }
  | consumerFree (p : Producer) (b : Nat) (filled : p.ring.flag b = .filled) :
      Step m p { p with ring := { p.ring with flag := Function.update p.ring.flag b .free } }

inductive Reachable (m : Macros) : Producer → Prop
  | start (mem : Mem) (flag : Nat → Flag) : Reachable m (.start m mem flag)
  | next {p q : Producer} : Reachable m p → Step m p q → Reachable m q

end Producer

/-! ## Facts about traces -/

section Traces

variable {m : Macros} {tr : List Entry}

theorem disciplined_cons {e : Effect} {mem : Mem} :
    Disciplined m (⟨e, mem⟩ :: tr) ↔ Allowed m tr e ∧ Disciplined m tr := by
  constructor
  · intro h
    refine ⟨h [] ⟨e, mem⟩ tr rfl, ?_⟩
    rintro later e' earlier rfl
    exact h (⟨e, mem⟩ :: later) e' earlier rfl
  · rintro ⟨now, before⟩ later e' earlier h
    cases later with
    | nil =>
      obtain ⟨rfl, rfl⟩ := List.cons.inj h
      exact now
    | cons e'' later => exact before later e' earlier (List.cons.inj h).2

theorem Disciplined.earlier {later : List Entry} (h : Disciplined m (later ++ tr)) :
    Disciplined m tr := by
  rintro mid e earlier rfl
  exact h (later ++ mid) e earlier (by simp)

/-- No block is held twice. -/
theorem Disciplined.nodup (h : Disciplined m tr) : (held tr).Nodup := by
  induction tr with
  | nil => exact List.nodup_nil
  | cons e tr ih =>
    obtain ⟨e, mem⟩ := e
    obtain ⟨⟨_, allowed⟩, before⟩ := disciplined_cons.mp h
    have nodup := ih before
    cases e with
    | busywaitFree b =>
      rw [held, List.nodup_append]
      refine ⟨nodup, by simp, ?_⟩
      rintro x hx y hy rfl
      rw [List.mem_singleton.mp hy] at hx
      exact allowed hx
    | setFilled b => exact nodup.erase b
    | stamp | initializeBlock | decMissedPkts | copyPayload | log | recvFrame | releaseFrame
    | hputNetmcnt => exact nodup

/-- A block comes to be held only by being acquired. -/
theorem acquired_of_held {b : Nat} {mid : List Entry} (now : b ∈ held (mid ++ tr))
    (before : b ∉ held tr) : ∃ e ∈ mid, e.effect = .busywaitFree b := by
  induction mid with
  | nil => exact absurd now before
  | cons e mid ih =>
    obtain ⟨e, mem⟩ := e
    have later (h : b ∈ held (mid ++ tr)) :
        ∃ e' ∈ ⟨e, mem⟩ :: mid, e'.effect = .busywaitFree b := by
      obtain ⟨e', he', eq⟩ := ih h
      exact ⟨e', List.mem_cons_of_mem _ he', eq⟩
    cases e with
    | busywaitFree c =>
      rw [List.cons_append, held] at now
      cases List.mem_append.mp now with
      | inl old => exact later old
      | inr new =>
        rw [List.mem_singleton.mp new]
        exact ⟨_, List.mem_cons_self, rfl⟩
    | setFilled c => exact later (List.mem_of_mem_erase now)
    | stamp | initializeBlock | decMissedPkts | copyPayload | log | recvFrame | releaseFrame
    | hputNetmcnt => exact later now

/-- Blocks do not overlap. -/
theorem InBlock.unique {b c a : Nat} (h : InBlock m b a) (h' : InBlock m c a) : c = b := by
  obtain ⟨lo, hi⟩ := h
  obtain ⟨lo', hi'⟩ := h'
  by_contra ne
  cases Nat.lt_or_gt_of_ne ne with
  | inl lt =>
    have := Nat.mul_le_mul_right m.blockWords (show c + 1 ≤ b from lt)
    omega
  | inr gt =>
    have := Nat.mul_le_mul_right m.blockWords (show b + 1 ≤ c from gt)
    omega

/-- Nothing is written to a block after it was set filled, until it is acquired again. -/
theorem Disciplined.untouched {later mid earlier : List Entry} {e : Entry} {b : Nat} {mem : Mem}
    (h : Disciplined m (later ++ e :: (mid ++ ⟨.setFilled b, mem⟩ :: earlier))) {a : Nat}
    (writes : e.effect.Writes m a) (inside : InBlock m b a) :
    ∃ e' ∈ mid, e'.effect = .busywaitFree b := by
  obtain ⟨c, hc, there⟩ := (h later e _ rfl).1 a writes
  have same := inside.unique there
  subst same
  refine acquired_of_held hc ?_
  have split : later ++ e :: (mid ++ ⟨.setFilled c, mem⟩ :: earlier) =
      (later ++ e :: (mid ++ [⟨.setFilled c, mem⟩])) ++ earlier := by simp
  rw [split] at h
  exact h.earlier.nodup.not_mem_erase

end Traces

/-! ## What a call keeps -/

variable {g : Geometry}

/-- The blocks of the window, and only they, are held, and neither is stamped yet. -/
structure Holding (g : Geometry) (w : Window.State) (r : Ring) : Prop where
  held : held r.trace = [w.block % g.nInputBlocks, (w.block + 1) % g.nInputBlocks]
  fresh : ∀ j, w.Holds j → stamps (j % g.nInputBlocks) r.trace = 0
  disciplined : Disciplined g.toMacros r.trace

/-- The effect leaves flags and times alone. -/
def Effect.Still : Effect → Prop
  | .stamp .. | .setFilled _ | .busywaitFree _ => False
  | _ => True

/-- The effect writes to blocks of the window only. -/
def Effect.Within (g : Geometry) (w : Window.State) (e : Effect) : Prop :=
  ∀ a, e.Writes g.toMacros a → ∃ j, w.Holds j ∧ InBlock g.toMacros (j % g.nInputBlocks) a

theorem header_inBlock {m : Macros} {b : Nat} {fld : Field} (valid : fld.word < m.headerWords) :
    InBlock m b ((Loc.header b fld).addr m) := by
  refine ⟨Nat.le_add_right _ _, ?_⟩
  rw [m.dataAddr_succ]
  simp only [Loc.addr, Macros.dataAddr]
  omega

theorem Holding.mem {w : Window.State} {r : Ring} (h : Holding g w r) {j : Nat} (hj : w.Holds j) :
    j % g.nInputBlocks ∈ S6Reobs.held r.trace := by
  rw [h.held]
  rcases hj with rfl | rfl <;> simp

theorem Effect.Within.held {w : Window.State} {r : Ring} {e : Effect} (within : e.Within g w)
    (h : Holding g w r) : ∀ a, e.Writes g.toMacros a →
      ∃ b ∈ S6Reobs.held r.trace, InBlock g.toMacros b a := by
  intro a writes
  obtain ⟨j, hj, inside⟩ := within a writes
  exact ⟨_, h.mem hj, inside⟩

theorem Holding.exec {w : Window.State} {r : Ring} (h : Holding g w r) {e : Effect}
    (still : e.Still) (within : e.Within g w) : Holding g w (r.exec g.toMacros e) := by
  have writes := within.held h
  cases e with
  | stamp | setFilled | busywaitFree => exact still.elim
  | initializeBlock | decMissedPkts | copyPayload | log | recvFrame | releaseFrame
  | hputNetmcnt => exact ⟨h.held, h.fresh, disciplined_cons.mpr ⟨⟨writes, trivial⟩, h.disciplined⟩⟩

theorem Holding.execAll {w : Window.State} {r : Ring} (h : Holding g w r) {es : List Effect}
    (still : ∀ e ∈ es, e.Still) (within : ∀ e ∈ es, e.Within g w) :
    Holding g w (r.execAll g.toMacros es) := by
  induction es generalizing r with
  | nil => exact h
  | cons e es ih =>
    exact ih (h.exec (still e List.mem_cons_self) (within e List.mem_cons_self))
      (fun e' he => still e' (List.mem_cons_of_mem e he))
      (fun e' he => within e' (List.mem_cons_of_mem e he))

theorem Holding.logs {w : Window.State} {r : Ring} (h : Holding g w r) (msgs : List Msg) :
    Holding g w (r.execAll g.toMacros (msgs.map .log)) := by
  apply h.execAll <;> intro e he <;> obtain ⟨msg, _, rfl⟩ := List.mem_map.mp he
  · trivial
  · exact fun _ writes => writes.elim

theorem initialize_within {w : Window.State} {j : Nat} (hj : w.Holds j)
    (mcnt pchan nchan sid : Nat) :
    (Effect.initializeBlock (j % g.nInputBlocks) mcnt pchan nchan sid).Within g w := by
  rintro a ⟨fld, _, _, valid, rfl⟩
  exact ⟨j, hj, header_inBlock valid⟩

/-- A packet of a held block is stored in that block. -/
theorem Holding.storing {w : Window.State} {r : Ring} (h : Holding g w r) {f : Frame}
    (own : w.Holds (g.number f)) (fits : Fits g.toMacros f) :
    Holding g w (r.execAll g.toMacros (storing g.toMacros f)) := by
  by_cases known : Known g.toMacros f
  · rw [storing_known known]
    have dec : (decFor g.toMacros f).Within g w := by
      rintro a rfl
      exact ⟨_, own, header_inBlock (Nat.add_lt_add_left (missedIndex_lt known) 6)⟩
    have copy : (copyFor g.toMacros f).Within g w := by
      intro a writes
      obtain ⟨lo, hi⟩ := fits.staysIn g.nm_pos known _ a writes
      refine ⟨_, own, Nat.le_trans (Nat.le_add_right _ _) lo, ?_⟩
      rw [g.dataAddr_succ]
      exact hi
    exact (h.exec (by trivial) dec).exec (by trivial) copy
  · rw [storing_unknown known]
    exact h

/-- Stamping and publishing the current block, and acquiring the one after the next. -/
theorem Holding.filling {w : Window.State} {r : Ring} (h : Holding g w r) (hdr : PacketHeader)
    (now : Timespec) (strays : Int) :
    Holding g ⟨w.block + 1, strays⟩
      (r.execAll g.toMacros (filling g.toMacros w.block hdr now)) := by
  have two := g.two_le_blocks
  have next := Period.place_ne_succ two w.block
  have after := Period.place_ne_succ two (w.block + 1)
  have none (e : Effect) (quiet : ∀ a, ¬ e.Writes g.toMacros a) (tr : List Entry) :
      ∀ a, e.Writes g.toMacros a → ∃ b ∈ S6Reobs.held tr, InBlock g.toMacros b a :=
    fun a writes => absurd writes (quiet a)
  let r₁ := r.exec g.toMacros (.stamp (w.block % g.nInputBlocks) now)
  let r₂ := r₁.exec g.toMacros (.setFilled (w.block % g.nInputBlocks))
  let r₃ := r₂.exec g.toMacros (.busywaitFree ((w.block + 2) % g.nInputBlocks))
  have held₁ : S6Reobs.held r₁.trace =
      [w.block % g.nInputBlocks, (w.block + 1) % g.nInputBlocks] := h.held
  have held₂ : S6Reobs.held r₂.trace = [(w.block + 1) % g.nInputBlocks] := by
    change (S6Reobs.held r₁.trace).erase _ = _
    rw [held₁, List.erase_cons_head]
  have held₃ : S6Reobs.held r₃.trace =
      [(w.block + 1) % g.nInputBlocks, (w.block + 2) % g.nInputBlocks] := by
    change S6Reobs.held r₂.trace ++ _ = _
    rw [held₂]
    rfl
  have disciplined₁ : Disciplined g.toMacros r₁.trace := by
    refine disciplined_cons.mpr ⟨⟨?_, trivial⟩, h.disciplined⟩
    rintro a (rfl | rfl) <;>
      exact ⟨_, h.mem (.inl rfl), header_inBlock (by simp [Field.word, Macros.headerWords]; omega)⟩
  have disciplined₂ : Disciplined g.toMacros r₂.trace := by
    refine disciplined_cons.mpr ⟨⟨none _ (fun _ => id) _, ?_, ?_⟩, disciplined₁⟩
    · rw [held₁]
      exact List.mem_cons_self
    · change (if _ then _ else _) = 1
      rw [if_pos rfl, h.fresh _ (.inl rfl)]
  have disciplined₃ : Disciplined g.toMacros r₃.trace := by
    refine disciplined_cons.mpr ⟨⟨none _ (fun _ => id) _, ?_⟩, disciplined₂⟩
    change _ ∉ S6Reobs.held r₂.trace
    rw [held₂, List.mem_singleton]
    exact after.symm
  have holding : Holding g ⟨w.block + 1, strays⟩ r₃ := by
    refine ⟨held₃, ?_, disciplined₃⟩
    rintro j (rfl | rfl)
    · change (if _ then 0 else if _ then _ else _) = 0
      rw [if_neg after.symm, if_neg next]
      exact h.fresh _ (.inr rfl)
    · exact if_pos rfl
  exact holding.exec (by trivial) (initialize_within (.inr rfl) _ _ _ _)

theorem Holding.recycling {w w' : Window.State} {r : Ring} (h : Holding g w r)
    (place : w'.block % g.nInputBlocks = w.block % g.nInputBlocks) (pktMcnt : Nat)
    (hdr : PacketHeader) :
    Holding g w' (r.execAll g.toMacros (recycling g.toMacros w'.block pktMcnt hdr)) := by
  have next : (w'.block + 1) % g.nInputBlocks = (w.block + 1) % g.nInputBlocks := by
    rw [← Period.place_succ, place, Period.place_succ]
  have same : Holding g w' r := by
    refine ⟨by rw [place, next]; exact h.held, ?_, h.disciplined⟩
    rintro j (rfl | rfl)
    · rw [place]
      exact h.fresh _ (.inl rfl)
    · rw [next]
      exact h.fresh _ (.inr rfl)
  refine same.execAll ?_ ?_ <;> intro e he <;>
    simp only [S6Reobs.recycling, List.mem_cons, List.not_mem_nil, or_false] at he <;>
    rcases he with rfl | rfl | rfl
  · trivial
  · trivial
  · trivial
  · exact fun _ writes => writes.elim
  · exact initialize_within (.inl rfl) _ _ _ _
  · exact initialize_within (.inr rfl) _ _ _ _

theorem Holding.call {s : State} {w : Window.State} (tracks : Tracks g s.thread w)
    (h : Holding g w s.ring) {a : Arrival} (fits : Fits g.toMacros a.frame) :
    Holding g (g.step w (g.header a).mcnt) (s.call g.toMacros a).ring := by
  obtain ⟨o, w', does, next, ring⟩ := call_ring tracks a
  rw [ring, next]
  have moved {k : Nat} {r : Ring} (strays strays' : Int) (h : Holding g ⟨k, strays⟩ r) :
      Holding g ⟨k, strays'⟩ r := ⟨h.held, h.fresh, h.disciplined⟩
  cases does with
  | current v msgs routine effects =>
    have stored := (h.logs msgs).storing (current_block g.even v) fits
    rw [effects, Ring.execAll_append]
    exact moved w.strays 0 stored
  | advance v msgs routine effects =>
    have filled := (h.filling (g.header a) a.now 0).logs msgs
    rw [effects, Ring.execAll_append, Ring.execAll_append]
    exact filled.storing (.inl (advance_block g.even v)) fits
  | late v msgs routine effects =>
    rw [effects]
    exact h.logs msgs
  | stray v few msgs routine effects =>
    rw [effects]
    exact moved w.strays _ (h.logs msgs)
  | resync v many msgs routine pktMcnt effects =>
    have place := target_place g.nm g.nInputBlocks_pos w.block (g.header a).mcnt
    generalize target g.nm g.nInputBlocks w.block (g.header a).mcnt = k at effects place
    rw [effects, Ring.execAll_append]
    have same : Holding g ⟨k, inc w.strays⟩ _ :=
      (h.logs msgs).recycling place pktMcnt (g.header a)
    exact same

theorem startup_holding (g : Geometry) (mem : Mem) (flag : Nat → Flag) :
    Holding g ⟨0, 0⟩ (Ring.execAll g.toMacros ⟨mem, flag, []⟩ (startupEffects g.toMacros)) := by
  have two := g.two_le_blocks
  have zero : 0 % g.nInputBlocks = 0 := Nat.zero_mod _
  have one : (0 + 1) % g.nInputBlocks = 1 := Nat.mod_eq_of_lt two
  have h0 : initializeBlock g.toMacros 0 0 0 0 =
      .initializeBlock (0 % g.nInputBlocks) (g.nm * 0) 0 0 0 := initializeBlock_mul 0 0 0 0
  have h1 : initializeBlock g.toMacros g.nm 0 0 0 =
      .initializeBlock ((0 + 1) % g.nInputBlocks) (g.nm * (0 + 1)) 0 0 0 := by
    simpa using initializeBlock_mul (g := g) 1 0 0 0
  simp only [startupEffects, Ring.execAll_cons, Ring.execAll_nil, h0, h1]
  have acquired : Holding g ⟨0, 0⟩ (((⟨mem, flag, []⟩ : Ring).exec g.toMacros
      (.busywaitFree 0)).exec g.toMacros (.busywaitFree 1)) := by
    refine ⟨by simp only [zero, one]; rfl, ?_, ?_⟩
    · rintro j (rfl | rfl)
      · rw [zero]
        rfl
      · rw [one]
        rfl
    · refine disciplined_cons.mpr
        ⟨⟨fun _ writes => writes.elim, by simp [Ring.exec, S6Reobs.held]⟩, ?_⟩
      refine disciplined_cons.mpr ⟨⟨fun _ writes => writes.elim, List.not_mem_nil⟩, ?_⟩
      intro later e earlier h
      simp at h
  exact (acquired.exec (by trivial) (initialize_within (.inl rfl) _ _ _ _)).exec (by trivial)
    (initialize_within (.inr rfl) _ _ _ _)

/-! ## Every interleaving -/

/-- What effects do to the trace does not depend on the flags. -/
theorem trace_execAll_congr (m : Macros) (es : List Effect) {r r' : Ring} (mem : r.mem = r'.mem)
    (tr : r.trace = r'.trace) : (r.execAll m es).trace = (r'.execAll m es).trace := by
  induction es generalizing r r' with
  | nil => exact tr
  | cons e es ih => exact ih (by simp only [Ring.exec, mem]) (by simp only [Ring.exec, mem, tr])

namespace Producer

/-- The ring once the effects of the current call are done. -/
def settled (m : Macros) (p : Producer) : Ring := p.ring.execAll m p.pending

def Owns (g : Geometry) (p : Producer) : Prop :=
  ∃ w, Tracks g p.thread w ∧ Holding g w (p.settled g.toMacros)

theorem Step.owns {p q : Producer} (step : Step g.toMacros p q) (h : Owns g p) : Owns g q := by
  obtain ⟨w, tracks, holding⟩ := h
  cases step with
  | call idle a fits =>
    rw [settled, idle] at holding
    have tracks : Tracks g (State.mk p.thread p.ring).thread w := tracks
    exact ⟨_, (call_does tracks a).2, holding.call tracks fits⟩
  | exec e es next ready =>
    rw [settled, next] at holding
    exact ⟨w, tracks, holding⟩
  | consumerFree b filled =>
    have same : (Ring.execAll g.toMacros { p.ring with
        flag := Function.update p.ring.flag b .free } p.pending).trace =
        (p.ring.execAll g.toMacros p.pending).trace := trace_execAll_congr _ _ rfl rfl
    refine ⟨w, tracks, ?_, ?_, ?_⟩ <;> simp only [settled] at holding ⊢ <;> rw [same]
    · exact holding.held
    · exact holding.fresh
    · exact holding.disciplined

theorem Reachable.owns {p : Producer} (reach : Reachable g.toMacros p) : Owns g p := by
  induction reach with
  | start mem flag => exact ⟨⟨0, 0⟩, tracks_initial g, startup_holding g mem flag⟩
  | next _ step ih => exact step.owns ih

/-- Between two calls the thread holds its current block and the next; it writes to
held blocks only, and publishes a block stamped exactly once. -/
theorem owns_blocks (g : Geometry) {p : Producer} (reach : Reachable g.toMacros p) :
    (p.pending = [] → held p.ring.trace =
      [p.thread.binfo.blockI, (p.thread.binfo.blockI + 1) % g.nInputBlocks]) ∧
    (∀ later e earlier, p.ring.trace = later ++ e :: earlier →
      ∀ a, e.effect.Writes g.toMacros a → ∃ b ∈ held earlier, InBlock g.toMacros b a) ∧
    (∀ later e mid b mem earlier,
      p.ring.trace = later ++ e :: (mid ++ ⟨.setFilled b, mem⟩ :: earlier) →
      ∀ a, e.effect.Writes g.toMacros a → InBlock g.toMacros b a →
        ∃ e' ∈ mid, e'.effect = .busywaitFree b) ∧
    AtFills (fun b _ earlier => b ∈ held earlier ∧ stamps b earlier = 1) p.ring.trace := by
  obtain ⟨w, tracks, holding⟩ := reach.owns
  have disciplined : Disciplined g.toMacros p.ring.trace := by
    obtain ⟨later, eq⟩ := trace_execAll g.toMacros p.pending p.ring
    have all := holding.disciplined
    rw [settled, eq] at all
    exact all.earlier
  refine ⟨?_, ?_, ?_, ?_⟩
  · intro idle
    have held := holding.held
    rw [settled, idle] at held
    rw [tracks.blockI, Period.place_succ]
    exact held
  · intro later e earlier split
    exact (disciplined later e earlier split).1
  · intro later e mid b mem earlier split a writes inside
    rw [split] at disciplined
    exact disciplined.untouched writes inside
  · intro later b mem earlier split
    exact (disciplined later _ earlier split).2

/-- One packet fills block 0, which the consumer frees in time. -/
theorem owns_blocks_first : ∃ p, Reachable fastSmall.toMacros p ∧ p.pending = [] ∧
    held p.ring.trace = [1, 0] ∧
    AtFills (fun b _ earlier => b ∈ held earlier ∧ stamps b earlier = 1) p.ring.trace := by
  have r : Reachable fastSmall.toMacros (.start _ (fun _ => 0) fun _ => .free) := .start _ _
  have r := r.next (.exec _ _ _ rfl rfl)
  have r := r.next (.exec _ _ _ rfl rfl)
  have r := r.next (.exec _ _ _ rfl trivial)
  have r := r.next (.exec _ _ _ rfl trivial)
  have r := r.next (.call _ rfl (fastPacket (2 ^ 57 + 3)) (by decide))
  have r := r.next (.exec _ _ _ rfl trivial)
  have r := r.next (.exec _ _ _ rfl trivial)
  have r := r.next (.consumerFree _ 0 rfl)
  have r := r.next (.exec _ _ _ rfl rfl)
  have r := r.next (.exec _ _ _ rfl trivial)
  have r := r.next (.exec _ _ _ rfl trivial)
  have r := r.next (.exec _ _ _ rfl trivial)
  have owns := owns_blocks fastSmall r
  exact ⟨_, r, rfl, owns.1 rfl, owns.2.2.2⟩

end Producer

end S6Reobs
