import Mathlib.Data.List.Nodup
import S6Reobs.Contents

/-! Loss accounting. `missed_pkts[i]` counts stored packets down from Nm, whether
or not a packet was stored before, so it is exact as long as no packet is stored
twice in one filling of a block. -/

namespace S6Reobs

open Word

variable {g : Geometry}

/-- The missed_pkts entry that a packet is counted in. -/
abbrev countedIn (m : Macros) (f : Frame) : Nat := missedIndex m (getHeader m f).sid

/-- How many mcnts of a block that starts at `start` have a packet among `fs`
that is counted in entry `i`. -/
def distinctMcnts (m : Macros) (start i : Nat) (fs : List Frame) : Nat :=
  (List.range m.nm).countP fun k =>
    fs.any fun f => (getHeader m f).mcnt = start + k ∧ countedIn m f = i

theorem distinctMcnts_all {m : Macros} {start i : Nat} {fs : List Frame}
    (all : ∀ k < m.nm, ∃ f ∈ fs, (getHeader m f).mcnt = start + k ∧ countedIn m f = i) :
    distinctMcnts m start i fs = m.nm := by
  rw [distinctMcnts, List.countP_eq_length.mpr, List.length_range]
  intro k hk
  obtain ⟨f, mem, slot⟩ := all k (List.mem_range.mp hk)
  exact List.any_eq_true.mpr ⟨f, mem, by simpa using slot⟩

/-- Every entry of missed_pkts is Nm less the number of distinct mcnts stored. -/
def LossExact (m : Macros) (b : Nat) (mem : Mem) (tr : List Entry) : Prop :=
  ∀ i < m.nBors, mem (.header b (.missedPkts i)) +
    distinctMcnts m (mem (.header b .mcnt)) i (stored b tr) = m.nm

def SameEntry (m : Macros) (f f' : Frame) : Prop :=
  (getHeader m f).mcnt = (getHeader m f').mcnt ∧ countedIn m f = countedIn m f'

instance (m : Macros) (f f' : Frame) : Decidable (SameEntry m f f') :=
  inferInstanceAs (Decidable (_ ∧ _))

/-- A packet with this mcnt, counted in the same entry, is stored already. -/
def Duplicate (m : Macros) (fs : List Frame) (f : Frame) : Prop := ∃ f' ∈ fs, SameEntry m f f'

instance (m : Macros) (fs : List Frame) (f : Frame) : Decidable (Duplicate m fs f) :=
  inferInstanceAs (Decidable (∃ f' ∈ fs, _))

theorem countP_range {n : Nat} {l : List Nat} (nodup : l.Nodup) (lt : ∀ x ∈ l, x < n) :
    (List.range n).countP (fun k => k ∈ l) = l.length := by
  rw [List.countP_eq_length_filter]
  apply List.Perm.length_eq
  rw [List.perm_ext_iff_of_nodup (List.nodup_range.filter _) nodup]
  intro x
  simpa using lt x

/-- Without duplicates, counting packets is counting their mcnts. -/
theorem countP_eq_distinct {j : Nat} {fs : List Frame} (i : Nat)
    (number : ∀ f ∈ fs, g.number f = j) (distinct : fs.Pairwise (¬ SameEntry g.toMacros · ·)) :
    fs.countP (fun f => countedIn g.toMacros f = i) =
      distinctMcnts g.toMacros (g.nm * j) i fs := by
  have bounds : ∀ f ∈ fs, g.nm * j ≤ (getHeader g.toMacros f).mcnt ∧
      (getHeader g.toMacros f).mcnt < g.nm * j + g.nm := by
    intro f hf
    rw [← number f hf]
    exact number_bounds f
  -- the offsets of the packets counted in entry `i`
  let offsets := (fs.filter fun f => countedIn g.toMacros f = i).map
    fun f => (getHeader g.toMacros f).mcnt - g.nm * j
  have nodup : offsets.Nodup := by
    rw [List.nodup_iff_pairwise_ne, List.pairwise_map]
    refine (distinct.filter _).imp_of_mem ?_
    intro f f' hf hf' apart same
    simp only [List.mem_filter, decide_eq_true_eq] at hf hf'
    have := bounds f hf.1
    have := bounds f' hf'.1
    exact apart ⟨by omega, hf.2.trans hf'.2.symm⟩
  have lt : ∀ x ∈ offsets, x < g.nm := by
    intro x hx
    obtain ⟨f, hf, rfl⟩ := List.mem_map.mp hx
    have := bounds f (List.mem_filter.mp hf).1
    omega
  have length : offsets.length = fs.countP fun f => countedIn g.toMacros f = i := by
    rw [List.length_map, List.countP_eq_length_filter]
  rw [← length, ← countP_range nodup lt, distinctMcnts]
  apply List.countP_congr
  intro k _
  simp only [decide_eq_true_eq, List.any_eq_true, offsets, List.mem_map, List.mem_filter]
  constructor
  · rintro ⟨f, ⟨hf, entry⟩, offset⟩
    have := bounds f hf
    exact ⟨f, hf, by omega, entry⟩
  · rintro ⟨f, hf, mcnt, entry⟩
    exact ⟨f, ⟨hf, entry⟩, by omega⟩

/-- A block whose header counts its packets, none of them twice. -/
def Accounted (g : Geometry) (j : Nat) (r : Ring) : Prop :=
  Booked g j r ∧ (stored (j % g.nInputBlocks) r.trace).Pairwise (¬ SameEntry g.toMacros · ·)

theorem accounted_rule (g : Geometry) : BlockRule g (fun _ => True)
    (fun fs f => StaysIn g.toMacros (blockForMcnt g.toMacros (getHeader g.toMacros f).mcnt) f ∧
      ¬ Duplicate g.toMacros fs f) (Accounted g) where
  stays fs _ joins known := (booked_rule g).stays fs joins.1 known
  apart {j r e} apart q := by
    refine ⟨(booked_rule g).apart apart q.1, ?_⟩
    rw [apart.stored_exec]
    exact q.2
  store {j r f} known number joins q := by
    refine ⟨(booked_rule g).store known number joins.1 q.1, ?_⟩
    rw [stored_store number]
    exact List.pairwise_cons.mpr ⟨fun f' hf' same => joins.2 ⟨f', hf', same⟩, q.2⟩
  opens {f} j r opener := by
    refine ⟨(booked_rule g).opens j r opener, ?_⟩
    rw [stored_open]
    exact List.Pairwise.nil

theorem Accounted.lossExact {j : Nat} {r : Ring} (q : Accounted g j r) :
    LossExact g.toMacros (j % g.nInputBlocks) r.mem r.trace := by
  intro i hi
  have count := countP_eq_distinct i (fun f hf => (q.1.number f hf).1) q.2
  have le : distinctMcnts g.toMacros (g.nm * j) i (stored (j % g.nInputBlocks) r.trace) ≤ g.nm :=
    List.countP_le_length.trans_eq List.length_range
  have nm := g.nm_lt
  rw [q.1.mcnt, q.1.missed i hi, count]
  generalize distinctMcnts g.toMacros (g.nm * j) i (stored (j % g.nInputBlocks) r.trace) = n at le
  have small : u64 ((g.nm - n : Nat) : Int) = g.nm - n := u64_of_lt (by omega)
  rw [Nat.cast_sub le] at small
  omega

/-- In a run that stores no packet twice in one filling of a block, and writes no
header through a copy, the loss counters of every filled block are exact. -/
theorem run_loss_exact (g : Geometry) (mem : Mem) (flag : Nat → Flag) (l : List Arrival)
    (contained : ∀ earlier a later, l = earlier ++ a :: later →
      Stores g.toMacros ((State.start g.toMacros mem flag).run g.toMacros earlier) a →
      StaysIn g.toMacros (blockForMcnt g.toMacros (g.header a).mcnt) a.frame)
    (fresh : ∀ earlier a later, l = earlier ++ a :: later →
      Stores g.toMacros ((State.start g.toMacros mem flag).run g.toMacros earlier) a →
      ¬ Duplicate g.toMacros (stored (blockForMcnt g.toMacros (g.header a).mcnt)
        ((State.start g.toMacros mem flag).run g.toMacros earlier).ring.trace) a.frame) :
    AtFills (LossExact g.toMacros)
      ((State.start g.toMacros mem flag).run g.toMacros l).ring.trace := by
  refine ((accounted_rule g).run_keeps (fun _ _ => Accounted.lossExact) (start_tracks g mem flag)
    (fun _ _ => trivial) ?_ ?_ ?_).2
  · intro earlier a later split stores
    exact ⟨contained earlier a later split stores, fresh earlier a later split stores⟩
  · refine (accounted_rule g).start_both (fun j r => ⟨booked_init j 0 0 0 r, ?_⟩) mem flag
    rw [stored_init]
    exact List.Pairwise.nil
  · exact start_atFills _ _ mem flag

theorem run_loss_exact_two : AtFills (LossExact fastSmall.toMacros)
    ((State.start fastSmall.toMacros (fun _ => 0) (fun _ => .free)).run fastSmall.toMacros
      [fastPacket (2 ^ 57), fastPacket (2 ^ 57 + 3)]).ring.trace := by
  have fits : ∀ a ∈ [fastPacket (2 ^ 57), fastPacket (2 ^ 57 + 3)],
      Fits fastSmall.toMacros a.frame := by decide
  refine run_loss_exact fastSmall _ _ _ ?_ ?_
  · intro earlier a later split stores
    have mem : a ∈ earlier ++ a :: later := List.mem_append_right _ List.mem_cons_self
    exact (fits a (split ▸ mem)).staysIn fastSmall.nm_pos stores.2 _
  · rintro (_ | ⟨b, _ | ⟨c, earlier⟩⟩) a later split _
    · obtain ⟨rfl, _⟩ := List.cons.inj split
      decide +kernel
    · obtain ⟨rfl, rest⟩ := List.cons.inj split
      obtain ⟨rfl, _⟩ := List.cons.inj rest
      decide +kernel
    · simp at split

/-- Three copies of one datagram, then the packet that fills the block: one mcnt of
two was stored, and missed_pkts has wrapped. -/
theorem duplicate_loss_wrong : ¬ AtFills (LossExact fastSmall.toMacros)
    ((State.start fastSmall.toMacros (fun _ => 0) (fun _ => .free)).run fastSmall.toMacros
      [fastPacket (2 ^ 57), fastPacket (2 ^ 57), fastPacket (2 ^ 57),
        fastPacket (2 ^ 57 + 3)]).ring.trace := by
  intro h
  have tracks := run_tracks (start_tracks fastSmall (fun _ => 0) fun _ => .free)
    [fastPacket (2 ^ 57), fastPacket (2 ^ 57), fastPacket (2 ^ 57)]
  have exact_ := ((atFills_call tracks (fastPacket (2 ^ 57 + 3)) _).mp h).2 (by decide +kernel)
    0 (by decide)
  revert exact_
  decide +kernel

end S6Reobs
