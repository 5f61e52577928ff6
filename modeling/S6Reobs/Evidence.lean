import Mathlib.Data.List.Induction
import S6Reobs.Control

/-! What it takes to move the window. A resync is meant to follow a run of
out-of-sequence packets that is longer than MAX_OUT_OF_SEQ. The counter of such packets
is cleared by packets of the window only, so a resync leaves it above the limit. -/

namespace S6Reobs

open Word

/-- The packet takes the branch that resets mcnt_start. -/
def Resyncs (m : Macros) (s : State) (a : Arrival) : Prop :=
  pktZone m s.thread.binfo.mcntStart (getHeader m a.frame).mcnt = .outOfSeq ∧
    m.maxOutOfSeq < inc s.thread.binfo.outOfSeqCnt

instance (m : Macros) (s : State) (a : Arrival) : Decidable (Resyncs m s a) :=
  inferInstanceAs (Decidable (_ ∧ _))

/-- The branch that each packet of a run takes. -/
def State.zones (m : Macros) : State → List Arrival → List Zone
  | _, [] => []
  | s, a :: l => pktZone m s.thread.binfo.mcntStart (getHeader m a.frame).mcnt ::
      State.zones m (s.call m a) l

/-- Among the packets are MAX_OUT_OF_SEQ + 1 that are out of sequence, with none of the
window between them. -/
def Evidence (m : Macros) (zones : List Zone) : Prop :=
  ∃ before run after, zones = before ++ run ++ after ∧ .window ∉ run ∧
    m.maxOutOfSeq + 1 ≤ run.count .outOfSeq

/-- Between the start or a resync and the next resync, the packet that makes it included,
the packets are evidence for it. -/
def EvidenceFirst (m : Macros) (s : State) (l : List Arrival) : Prop :=
  ∀ before mid a later, l = before ++ (mid ++ a :: later) →
    (before = [] ∨ ∃ b c, before = b ++ [c] ∧ Resyncs m (s.run m b) c) →
    (∀ x c y, mid = x ++ c :: y → ¬ Resyncs m (s.run m (before ++ x)) c) →
    Resyncs m (s.run m (before ++ mid)) a →
    Evidence m ((s.run m before).zones m (mid ++ [a]))

/-- Every out-of-sequence packet finds the counter within the limit. -/
def Rearmed (m : Macros) (s : State) (l : List Arrival) : Prop :=
  ∀ earlier a later, l = earlier ++ a :: later →
    pktZone m (s.run m earlier).thread.binfo.mcntStart (getHeader m a.frame).mcnt = .outOfSeq →
    (s.run m earlier).thread.binfo.outOfSeqCnt ≤ m.maxOutOfSeq

/-! ## The counter -/

/-- What a packet of the zone does to the counter. -/
def tally (n : Int) : Zone → Int
  | .window => 0
  | .late => n
  | .outOfSeq => inc n

/-- The count after packets of these zones, as long as it fits. -/
def strays : Nat → List Zone → Nat
  | n, [] => n
  | _, .window :: zs => strays 0 zs
  | n, .late :: zs => strays n zs
  | n, .outOfSeq :: zs => strays (n + 1) zs

/-- The counter counts from the last packet of the window on. -/
theorem strays_eq (n : Nat) (zs : List Zone) :
    (.window ∉ zs ∧ strays n zs = n + zs.count .outOfSeq) ∨
    ∃ before after, zs = before ++ .window :: after ∧ .window ∉ after ∧
      strays n zs = after.count .outOfSeq := by
  induction zs generalizing n with
  | nil => exact .inl ⟨List.not_mem_nil, rfl⟩
  | cons z zs ih =>
    have grow {k : Nat} (h : ∃ before after, zs = before ++ .window :: after ∧ .window ∉ after ∧
        strays k zs = after.count .outOfSeq) : ∃ before after,
          z :: zs = before ++ .window :: after ∧ .window ∉ after ∧
            strays k zs = after.count .outOfSeq := by
      obtain ⟨before, after, rfl, none, eq⟩ := h
      exact ⟨z :: before, after, rfl, none, eq⟩
    cases z with
    | window =>
      cases ih 0 with
      | inl h => exact .inr ⟨[], zs, rfl, h.1, by rw [strays, h.2, Nat.zero_add]⟩
      | inr h => exact .inr (grow h)
    | late =>
      cases ih n with
      | inl h => exact .inl ⟨by simp [h.1], by simp [strays, h.2]⟩
      | inr h => exact .inr (grow h)
    | outOfSeq =>
      cases ih (n + 1) with
      | inl h =>
        refine .inl ⟨by simp [h.1], ?_⟩
        rw [strays, h.2, List.count_cons_self]
        omega
      | inr h => exact .inr (grow h)

variable {m : Macros}

theorem outOfSeqCnt_call (s : State) (a : Arrival) :
    (s.call m a).thread.binfo.outOfSeqCnt = tally s.thread.binfo.outOfSeqCnt
      (pktZone m s.thread.binfo.mcntStart (getHeader m a.frame).mcnt) := by
  rw [State.call]
  cases zone : pktZone m s.thread.binfo.mcntStart (getHeader m a.frame).mcnt with
  | window => exact (processPacket_window_spec zone).1
  | late =>
    rw [processPacket_late zone]
    rfl
  | outOfSeq =>
    rw [processPacket_outOfSeq zone, outOfSeqPacket]
    split <;> rfl

theorem zones_append (s : State) (l k : List Arrival) :
    s.zones m (l ++ k) = s.zones m l ++ (s.run m l).zones m k := by
  induction l generalizing s with
  | nil => rfl
  | cons a l ih => exact congrArg _ (ih (s.call m a))

/-- MAX_OUT_OF_SEQ is at least 2. -/
theorem two_le_maxOutOfSeq (m : Macros) : 2 ≤ m.maxOutOfSeq := by
  unfold Macros.maxOutOfSeq Macros.nBors Macros.nBeams Macros.nSubspectraPerSpectrum
  cases m.source <;> decide

section Rearmed

variable {s : State} {l k : List Arrival}

theorem Rearmed.left (h : Rearmed m s (l ++ k)) : Rearmed m s l := by
  rintro earlier a later rfl
  exact h earlier a (later ++ k) (by simp)

theorem Rearmed.right (h : Rearmed m s (l ++ k)) : Rearmed m (s.run m l) k := by
  rintro earlier a later rfl
  rw [← State.run_append]
  exact h (l ++ earlier) a later (by simp)

theorem Rearmed.snoc {a : Arrival} (h : Rearmed m s l)
    (last : pktZone m (s.run m l).thread.binfo.mcntStart (getHeader m a.frame).mcnt = .outOfSeq →
      (s.run m l).thread.binfo.outOfSeqCnt ≤ m.maxOutOfSeq) : Rearmed m s (l ++ [a]) := by
  intro earlier b later split
  rcases List.eq_nil_or_concat' later with rfl | ⟨later, c, rfl⟩
  · obtain ⟨rfl, eq⟩ := List.append_inj' split rfl
    cases eq
    exact last
  · rw [← List.cons_append, ← List.append_assoc] at split
    exact h earlier b later (List.append_inj' split rfl).1

/-- A counter that every out-of-sequence packet finds within the limit does not overflow. -/
theorem Rearmed.outOfSeqCnt_run {n : Nat} (h : Rearmed m s l)
    (start : s.thread.binfo.outOfSeqCnt = n) :
    (s.run m l).thread.binfo.outOfSeqCnt = strays n (s.zones m l) ∧
      (n ≤ m.maxOutOfSeq + 1 → strays n (s.zones m l) ≤ m.maxOutOfSeq + 1) := by
  induction l generalizing s n with
  | nil => exact ⟨start, id⟩
  | cons a l ih =>
    have rest : Rearmed m (s.call m a) l := Rearmed.right (l := [a]) h
    have count := outOfSeqCnt_call (m := m) s a
    have room := h [] a l rfl
    rw [start] at count
    simp only [State.run_nil, start] at room
    rw [State.run_cons, State.zones]
    cases zone : pktZone m s.thread.binfo.mcntStart (getHeader m a.frame).mcnt with
    | window =>
      rw [zone] at count
      obtain ⟨eq, le⟩ := ih rest (n := 0) count
      exact ⟨eq, fun _ => le (Nat.zero_le _)⟩
    | late =>
      rw [zone] at count
      exact ih rest count
    | outOfSeq =>
      have few := room zone
      have small := maxOutOfSeq_lt m
      rw [zone, tally, inc_of_range (by omega) (by omega)] at count
      obtain ⟨eq, le⟩ := ih rest (n := n + 1) count
      exact ⟨eq, fun _ => le (by omega)⟩

end Rearmed

/-! ## Between two resyncs -/

/-- With no resync among the packets, the counter ends within the limit, unless it started
above and met only late packets. -/
theorem calm {s : State} {l : List Arrival}
    (none : ∀ x c y, l = x ++ c :: y → ¬ Resyncs m (s.run m x) c) :
    (s.run m l).thread.binfo.outOfSeqCnt ≤ m.maxOutOfSeq ∨
    (m.maxOutOfSeq < s.thread.binfo.outOfSeqCnt ∧ .window ∉ s.zones m l ∧
      .outOfSeq ∉ s.zones m l) := by
  induction l generalizing s with
  | nil =>
    by_cases many : s.thread.binfo.outOfSeqCnt ≤ m.maxOutOfSeq
    · exact .inl many
    · exact .inr ⟨by omega, List.not_mem_nil, List.not_mem_nil⟩
  | cons a l ih =>
    have first : ¬ Resyncs m s a := none [] a l rfl
    have count := outOfSeqCnt_call (m := m) s a
    have rest := ih (s := s.call m a) fun x c y split => none (a :: x) c y (by rw [split]; rfl)
    rw [count] at rest
    cases zone : pktZone m s.thread.binfo.mcntStart (getHeader m a.frame).mcnt with
    | window =>
      rw [zone] at rest
      cases rest with
      | inl few => exact .inl few
      | inr h => exact absurd h.1 (by simp [tally])
    | late =>
      rw [zone] at rest
      cases rest with
      | inl few => exact .inl few
      | inr h =>
        obtain ⟨many, noWindow, noStray⟩ := h
        exact .inr ⟨many, by simp [State.zones, zone, noWindow], by
          simp [State.zones, zone, noStray]⟩
    | outOfSeq =>
      have few : ¬ m.maxOutOfSeq < inc s.thread.binfo.outOfSeqCnt := fun many => first ⟨zone, many⟩
      rw [zone] at rest
      cases rest with
      | inl few => exact .inl few
      | inr h => exact absurd h.1 few

/-- The last resync of a run, if there is one. -/
theorem last_resync (m : Macros) (s : State) (l : List Arrival) : ∃ before mid, l = before ++ mid ∧
    (before = [] ∨ ∃ b c, before = b ++ [c] ∧ Resyncs m (s.run m b) c) ∧
    ∀ x c y, mid = x ++ c :: y → ¬ Resyncs m (s.run m (before ++ x)) c := by
  induction l using List.reverseRecOn with
  | nil => exact ⟨[], [], rfl, .inl rfl, by simp⟩
  | append_singleton l a ih =>
    by_cases now : Resyncs m (s.run m l) a
    · exact ⟨l ++ [a], [], (List.append_nil _).symm, .inr ⟨l, a, rfl, now⟩, by simp⟩
    · obtain ⟨before, mid, rfl, boundary, none⟩ := ih
      refine ⟨before, mid ++ [a], List.append_assoc .., boundary, ?_⟩
      intro x c y split
      cases List.append_eq_append_iff.mp split with
      | inl h =>
        obtain ⟨z, rfl, eq⟩ := h
        cases z with
        | nil =>
          obtain ⟨rfl, _⟩ := List.cons.inj eq
          rwa [List.append_nil]
        | cons d z => simp at eq
      | inr h =>
        obtain ⟨z, rfl, eq⟩ := h
        cases z with
        | nil =>
          obtain ⟨rfl, _⟩ := List.cons.inj eq
          rwa [List.append_nil] at now
        | cons d z =>
          obtain ⟨rfl, rfl⟩ := List.cons.inj eq
          exact none x c z rfl

/-- After a resync the counter is above the limit. -/
theorem resync_counted {s : State} {b : List Arrival} {c : Arrival}
    (resyncs : Resyncs m (s.run m b) c) :
    m.maxOutOfSeq < (s.run m (b ++ [c])).thread.binfo.outOfSeqCnt := by
  rw [State.run_append]
  change m.maxOutOfSeq < ((s.run m b).call m c).thread.binfo.outOfSeqCnt
  rw [outOfSeqCnt_call, resyncs.1]
  exact resyncs.2

theorem EvidenceFirst.left {s : State} {l k : List Arrival} (h : EvidenceFirst m s (l ++ k)) :
    EvidenceFirst m s l := by
  rintro before mid a later rfl
  exact h before mid a (later ++ k) (by simp)

theorem rearmed_of_evidence {s : State} {l : List Arrival}
    (fresh : s.thread.binfo.outOfSeqCnt = 0) (evidence : EvidenceFirst m s l) :
    Rearmed m s l := by
  induction l using List.reverseRecOn with
  | nil => simp [Rearmed]
  | append_singleton earlier a ih =>
    have soFar := ih evidence.left
    refine soFar.snoc fun zone => ?_
    by_contra many
    -- the counter is just above the limit, far from its overflow
    obtain ⟨eq, le⟩ := soFar.outOfSeqCnt_run (n := 0) fresh
    have most := le (Nat.zero_le _)
    have small := maxOutOfSeq_lt m
    have above : m.maxOutOfSeq < inc (s.run m earlier).thread.binfo.outOfSeqCnt := by
      rw [inc_of_range] <;> omega
    obtain ⟨before, mid, rfl, boundary, none⟩ := last_resync m s earlier
    have after : ∀ x c y, mid = x ++ c :: y → ¬ Resyncs m ((s.run m before).run m x) c := by
      intro x c y split
      rw [← State.run_append]
      exact none x c y split
    have quiet := calm after
    rw [← State.run_append] at quiet
    cases quiet with
    | inl few => exact many few
    | inr h =>
      obtain ⟨_, _, noStray⟩ := h
      -- the packet is the only out-of-sequence one since the last resync
      obtain ⟨x, run, y, zones, _, enough⟩ := evidence before mid a [] (by simp) boundary none
        ⟨zone, above⟩
      have one : (((s.run m before).zones m (mid ++ [a])).count .outOfSeq) = 1 := by
        rw [zones_append, List.count_append, List.count_eq_zero.mpr noStray, ← State.run_append]
        simp [State.zones, zone]
      rw [zones, List.count_append, List.count_append] at one
      have two := two_le_maxOutOfSeq m
      omega

theorem evidence_of_rearmed {s : State} {l : List Arrival} (fresh : s.thread.binfo.outOfSeqCnt = 0)
    (rearmed : Rearmed m s l) : EvidenceFirst m s l := by
  rintro before mid a later rfl boundary none resyncs
  have zone := resyncs.1
  have few := rearmed (before ++ mid) a later (by simp) zone
  have many := resyncs.2
  have small := maxOutOfSeq_lt m
  rw [← List.append_assoc] at rearmed
  obtain ⟨start, _⟩ := rearmed.left.left.outOfSeqCnt_run (n := 0) fresh
  obtain ⟨count, _⟩ := rearmed.left.right.outOfSeqCnt_run start
  rw [← State.run_append] at count
  rw [count] at few many
  rw [inc_of_range (by omega) (by omega)] at many
  have all : (s.run m before).zones m (mid ++ [a]) =
      (s.run m before).zones m mid ++ [.outOfSeq] := by
    rw [zones_append, ← State.run_append]
    simp [State.zones, zone]
  rw [all]
  cases strays_eq (strays 0 (s.zones m before)) ((s.run m before).zones m mid) with
  | inl h =>
    obtain ⟨noWindow, eq⟩ := h
    have zero : strays 0 (s.zones m before) = 0 := by
      cases boundary with
      | inl none => rw [none, State.zones, strays]
      | inr h =>
        obtain ⟨b, c, rfl, resync⟩ := h
        have above := resync_counted resync
        omega
    refine ⟨[], (s.run m before).zones m mid ++ [.outOfSeq], [], by simp, by simp [noWindow], ?_⟩
    rw [List.count_append, List.count_singleton_self]
    omega
  | inr h =>
    obtain ⟨x, y, zones, noWindow, eq⟩ := h
    refine ⟨x ++ [.window], y ++ [.outOfSeq], [], by simp [zones], by simp [noWindow], ?_⟩
    rw [List.count_append, List.count_singleton_self]
    omega

/-- Every resync of a run has its evidence exactly when no out-of-sequence packet finds
the counter above the limit, where a resync leaves it. -/
theorem evidence_first_iff (m : Macros) (mem : Mem) (flag : Nat → Flag) (l : List Arrival) :
    EvidenceFirst m (State.start m mem flag) l ↔ Rearmed m (State.start m mem flag) l := by
  constructor
  · exact rearmed_of_evidence rfl
  · exact evidence_of_rearmed rfl

/-- Three strays make the thread resync to mcnt 1000, and one more takes it to 5000. -/
theorem one_stray_resyncs :
    ¬ EvidenceFirst fastSmall.toMacros
      (State.start fastSmall.toMacros (fun _ => 0) fun _ => .free)
      [fastPacket (2 ^ 57 + 1000), fastPacket (2 ^ 57 + 1000), fastPacket (2 ^ 57 + 1000),
        fastPacket (2 ^ 57 + 5000)] ∧
    ((State.start fastSmall.toMacros (fun _ => 0) fun _ => .free).run fastSmall.toMacros
      [fastPacket (2 ^ 57 + 1000), fastPacket (2 ^ 57 + 1000),
        fastPacket (2 ^ 57 + 1000)]).thread.binfo.mcntStart = 1000 ∧
    ((State.start fastSmall.toMacros (fun _ => 0) fun _ => .free).run fastSmall.toMacros
      [fastPacket (2 ^ 57 + 1000), fastPacket (2 ^ 57 + 1000), fastPacket (2 ^ 57 + 1000),
        fastPacket (2 ^ 57 + 5000)]).thread.binfo.mcntStart = 5000 := by
  refine ⟨?_, by decide +kernel, by decide +kernel⟩
  intro evidence
  have few := rearmed_of_evidence rfl evidence
    [fastPacket (2 ^ 57 + 1000), fastPacket (2 ^ 57 + 1000), fastPacket (2 ^ 57 + 1000)]
    (fastPacket (2 ^ 57 + 5000)) [] rfl (by decide +kernel)
  revert few
  decide +kernel

end S6Reobs
