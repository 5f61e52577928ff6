import S6Reobs.Recorded

/-! What the data of a block are when it is filled, whatever was received. Nothing ever clears
them: a word is that of the last packet stored at its place, in whichever lap of the ring. -/

namespace S6Reobs

open Word Window

/-- The packets ever stored in `block[b]`, the latest first. -/
def written (b : Nat) : List Entry → List Frame
  | [] => []
  | e :: tr => match e.effect with
    | .copyPayload c f => if c = b then f :: written b tr else written b tr
    | _ => written b tr

/-- The payload word that a packet brings to word `k` of its block's data, if any. -/
def laid (m : Macros) (f : Frame) (k : Nat) : Option Nat :=
  ((List.range (copyWords m f)).find? fun v => place m (getHeader m f) v = k).map f.payload

/-- Word `k` of a block's data after these packets, the latest first, over what it was. -/
def overlay (m : Macros) (old : Nat → Nat) : List Frame → Nat → Nat
  | [], k => old k
  | f :: fs, k => (laid m f k).getD (overlay m old fs k)

/-! ## One packet -/

variable {g : Geometry}

theorem laid_place {f : Frame} (fits : Fits g.toMacros f) {v : Nat}
    (hv : v < copyWords g.toMacros f) :
    laid g.toMacros f (place g.toMacros (getHeader g.toMacros f) v) = some (f.payload v) := by
  have le := copyWords_le fits
  cases found : (List.range (copyWords g.toMacros f)).find? fun u =>
      place g.toMacros (getHeader g.toMacros f) u =
        place g.toMacros (getHeader g.toMacros f) v with
  | none =>
    have none_ := List.find?_eq_none.mp found v (List.mem_range.mpr hv)
    simp at none_
  | some u =>
    have hu := List.mem_range.mp (List.mem_of_find?_eq_some found)
    have same := List.find?_some found
    simp only [decide_eq_true_eq] at same
    obtain ⟨_, _, rfl⟩ := place_inj g.nm_pos rfl (by omega) (by omega) same
    rw [laid, found]
    rfl

theorem laid_none {f : Frame} {k : Nat} (out : ∀ v < copyWords g.toMacros f,
    place g.toMacros (getHeader g.toMacros f) v ≠ k) : laid g.toMacros f k = none := by
  have none_ : (List.range (copyWords g.toMacros f)).find? (fun v =>
      place g.toMacros (getHeader g.toMacros f) v = k) = none := by
    rw [List.find?_eq_none]
    intro v hv
    simpa using out v (List.mem_range.mp hv)
  rw [laid, none_]
  rfl

/-- A copy covers the places of the words that are copied, and no others. -/
theorem covers_copied {m : Macros} {f : Frame} (fits : Fits m f) {b a : Nat}
    {p : Copy.Piece Nat} (hp : p ∈ copyPieces m f b) (hc : p.Covers a) :
    ∃ v < copyWords m f, a = m.dataAddr b + place m (getHeader m f) v := by
  cases h : m.source with
  | s6 =>
    rw [copyPieces_s6 h, List.mem_singleton] at hp
    subst hp
    simp only [Copy.Piece.Covers] at hc
    refine ⟨a - (m.dataAddr b +
      ((getHeader m f).sid * m.nm + (getHeader m f).mcnt % m.nm) * m.slotWords), by omega, ?_⟩
    simp only [place, h]
    omega
  | fast =>
    rw [copyPieces_fast h, List.mem_singleton] at hp
    subst hp
    simp only [Copy.Piece.Covers] at hc
    refine ⟨a - (m.dataAddr b +
      (getHeader m f).mcnt % m.nm * m.slotWords), by omega, ?_⟩
    simp only [place, h]
    omega
  | dibas =>
    have whole : copyWords m f = m.slotWords := by
      simp only [copyWords, copyBytes, h]
      rfl
    rw [whole]
    exact covers_place fits hp hc

theorem copyPayload_laid {f : Frame} (fits : Fits g.toMacros f)
    {b k : Nat} (hb : b < g.nInputBlocks) (hk : k < g.dataWords) (mem : Mem) :
    (Effect.copyPayload b f).apply g.toMacros mem (.data b k) =
      (laid g.toMacros f k).getD (mem (.data b k)) := by
  by_cases hit : ∃ v < copyWords g.toMacros f, place g.toMacros (getHeader g.toMacros f) v = k
  · obtain ⟨v, hv, rfl⟩ := hit
    rw [copyPayload_slot g.nm_pos mem b f hv, laid_place fits hv]
    rfl
  · have out : ∀ v < copyWords g.toMacros f,
        place g.toMacros (getHeader g.toMacros f) v ≠ k := fun v hv eq => hit ⟨v, hv, eq⟩
    rw [laid_none out, Option.getD_none]
    have valid : (Loc.data b k).Valid g.toMacros := ⟨hb, hk⟩
    apply Effect.apply_frame g.toMacros mem _ valid
    rintro ⟨p, hp, hc⟩
    obtain ⟨v, hv, eq⟩ := covers_copied fits hp hc
    simp only [Loc.addr] at eq
    exact out v hv (by omega)

/-! ## Any run -/

/-- The effect fills blocks of the ring only, and copies packets that fit to them. -/
def Effect.Copies (m : Macros) : Effect → Prop
  | .copyPayload c f => c < m.nInputBlocks ∧ Known m f ∧ Fits m f
  | .setFilled c => c < m.nInputBlocks
  | _ => True

/-- Every data word of the ring is the last one laid there, over `old`. -/
def Overlaid (m : Macros) (old : Mem) (mem : Mem) (tr : List Entry) : Prop :=
  ∀ b < m.nInputBlocks, ∀ k < m.dataWords,
    mem (.data b k) = overlay m (fun k => old (.data b k)) (written b tr) k

theorem Overlaid.exec {old : Mem} {r : Ring} (h : Overlaid g.toMacros old r.mem r.trace)
    {e : Effect} (copies : e.Copies g.toMacros) :
    Overlaid g.toMacros old (r.exec g.toMacros e).mem (r.exec g.toMacros e).trace := by
  intro b hb k hk
  have before := h b hb k hk
  cases e with
  | copyPayload c f =>
    obtain ⟨hc, known, fits⟩ := copies
    by_cases same : c = b
    · subst same
      simp only [Ring.exec, written, if_pos]
      rw [copyPayload_laid fits hb hk, before]
      rfl
    · have valid : (Loc.data b k).Valid g.toMacros := ⟨hb, hk⟩
      have other : ∀ k', Loc.data b k ≠ .data c k' := fun k' eq => same (Loc.data.inj eq).1.symm
      have frame := (fits.staysIn g.nm_pos known c).frame hc r.mem valid other
      simp only [Ring.exec, written, if_neg same]
      rw [frame]
      exact before
  | initializeBlock => exact before
  | stamp | decMissedPkts => simpa [Ring.exec, Effect.apply, written] using before
  | setFilled | busywaitFree | log | recvFrame | releaseFrame | hputNetmcnt => exact before

/-- The ring is overlaid now, and was when each block was filled. -/
structure AllOverlaid (m : Macros) (old : Mem) (r : Ring) : Prop where
  now : Overlaid m old r.mem r.trace
  fills : AtFills (fun b mem tr => b < m.nInputBlocks ∧ Overlaid m old mem tr) r.trace

theorem AllOverlaid.execAll {old : Mem} {r : Ring} (h : AllOverlaid g.toMacros old r)
    {es : List Effect} (copies : ∀ e ∈ es, e.Copies g.toMacros) :
    AllOverlaid g.toMacros old (r.execAll g.toMacros es) := by
  induction es generalizing r with
  | nil => exact h
  | cons e es ih =>
    have first := copies e List.mem_cons_self
    refine ih ⟨h.now.exec first, ?_⟩ fun e' he => copies e' (List.mem_cons_of_mem e he)
    cases e with
    | setFilled b => exact atFills_setFilled.mpr ⟨⟨first, h.now⟩, h.fills⟩
    | stamp | busywaitFree | initializeBlock | decMissedPkts | copyPayload | log | recvFrame
    | releaseFrame | hputNetmcnt => exact (atFills_cons (by simp)).mpr h.fills

theorem Does.copies_fit {w w' : Window.State} {a : Arrival} {o : Outcome} (does : Does g w a o w')
    (fits : Fits g.toMacros a.frame) : ∀ e ∈ o.effects, e.Copies g.toMacros := by
  have place (k : Nat) : k % g.nInputBlocks < g.nInputBlocks := Nat.mod_lt _ g.nInputBlocks_pos
  intro e he
  rcases does.effect_cases he with ⟨msg, _, rfl⟩ | store | fill | ⟨_, _, recycle⟩
  · trivial
  · obtain ⟨known, rfl | rfl⟩ := mem_storing store
    · trivial
    · exact ⟨place _, known, fits⟩
  · simp only [filling, List.mem_cons, List.not_mem_nil, or_false] at fill
    rcases fill with rfl | rfl | rfl | rfl
    · trivial
    · exact place _
    · trivial
    · trivial
  · simp only [recycling, List.mem_cons, List.not_mem_nil, or_false] at recycle
    rcases recycle with rfl | rfl | rfl <;> trivial

theorem start_overlaid (m : Macros) (mem : Mem) (flag : Nat → Flag) :
    AllOverlaid m mem (State.start m mem flag).ring := by
  constructor
  · intro b _ k _
    simp [State.start, startupEffects, initializeBlock, Ring.exec, Effect.apply, written, overlay]
  · exact start_atFills m _ mem flag

theorem AllOverlaid.run {old : Mem} {s : State} {w : Window.State} (tracks : Tracks g s.thread w)
    (h : AllOverlaid g.toMacros old s.ring) {l : List Arrival}
    (fits : ∀ a ∈ l, Fits g.toMacros a.frame) :
    AllOverlaid g.toMacros old (s.run g.toMacros l).ring := by
  induction l generalizing s w with
  | nil => exact h
  | cons a l ih =>
    obtain ⟨does, next⟩ := call_does tracks a
    have called : AllOverlaid g.toMacros old (s.call g.toMacros a).ring :=
      h.execAll (does.copies_fit (fits a List.mem_cons_self))
    exact ih next called fun b hb => fits b (List.mem_cons_of_mem a hb)

/-- When a block is filled, each of its data words is the payload word of the last packet
stored at its place since the thread started, or what the ring held before that. A slot
whose packet is missing thus has the data of an earlier lap. -/
theorem data_overlaid (g : Geometry) (mem : Mem) (flag : Nat → Flag) (l : List Arrival)
    (fits : ∀ a ∈ l, Fits g.toMacros a.frame) :
    AtFills (fun b mem' tr => ∀ k < g.dataWords,
        mem' (.data b k) = overlay g.toMacros (fun k => mem (.data b k)) (written b tr) k)
      ((State.start g.toMacros mem flag).run g.toMacros l).ring.trace := by
  have run := (start_overlaid g.toMacros mem flag).run (start_tracks g mem flag) fits
  intro later b mem' earlier split k hk
  obtain ⟨hb, overlaid⟩ := run.fills later b mem' earlier split
  exact overlaid b hb k hk

/-- Block 0 is filled with no packet in it. -/
theorem data_overlaid_one : AtFills (fun b mem' tr => ∀ k < fastSmall.dataWords,
      mem' (.data b k) = overlay fastSmall.toMacros (fun _ => 9) (written b tr) k)
    ((State.start fastSmall.toMacros (fun _ => 9) fun _ => .free).run fastSmall.toMacros
      [fastPacket (2 ^ 57 + 3)]).ring.trace :=
  data_overlaid fastSmall _ _ _ (by decide)

end S6Reobs
