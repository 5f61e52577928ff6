import Mathlib.Order.Bounds.Basic
import S6Reobs.MainLoop

/-! What run() counts from one call that returns an mcnt to the next: the packets, the time they
took, and the packet socket's totals, which nobody else writes. A call that fills a block for a
packet whose sid it then rejects returns -1, and is not told of. Averages and percentages are
floating point; what they are taken of is kept. -/

namespace S6Reobs

open Word

/-- CLOCK_MONOTONIC before and after the wait, after the receipt and after the call. -/
structure Clocks where
  recvStart : Timespec
  start : Timespec
  recvStop : Timespec
  stop : Timespec

/-- ELAPSED_NS, kept in a uint64_t. -/
def elapsedNs (start stop : Timespec) : Nat :=
  u64 (((stop.sec : Int) - start.sec) * 1000 * 1000 * 1000 + ((stop.nsec : Int) - start.nsec))

def Clocks.waitNs (c : Clocks) : Nat := elapsedNs c.recvStart c.start
def Clocks.recvNs (c : Clocks) : Nat := elapsedNs c.start c.recvStop
def Clocks.procNs (c : Clocks) : Nat := elapsedNs c.recvStop c.stop

/-- elapsed_*_ns, min_*_ns and max_*_ns. -/
structure Span where
  elapsedNs : Nat
  minNs : Nat
  maxNs : Nat

def Span.start : Span := ⟨0, 99999, 0⟩

def Span.add (s : Span) (ns : Nat) : Span where
  elapsedNs := u64 (s.elapsedNs + ns)
  minNs := min ns s.minNs
  maxNs := max ns s.maxNs

structure Tally where
  packetCount : Nat
  wait : Span
  recv : Span
  proc : Span

def Tally.start : Tally := ⟨0, .start, .start, .start⟩

def Tally.add (t : Tally) (c : Clocks) : Tally where
  packetCount := u64 (t.packetCount + 1)
  wait := t.wait.add c.waitNs
  recv := t.recv.add c.recvNs
  proc := t.proc.add c.procNs

/-- A frame, the clocks around it, and what hashpipe_pktsock_stats would say after it. -/
structure Pass where
  arrival : Arrival
  clocks : Clocks
  pktsockPkts : Nat
  pktsockDrops : Nat

/-- What the status buffer is told when the call returned an mcnt. -/
structure Report where
  netmcnt : Nat
  tally : Tally
  netpkts : Nat
  netdrops : Nat
  netpktttl : Nat
  netdrptl : Nat

/-- The main loop with its counters; the keys may be missing from the status buffer. -/
structure Counting where
  state : State
  tally : Tally
  pktsockPktsTotal : Nat
  pktsockDropsTotal : Nat
  netpktttl : Option Nat
  netdrptl : Option Nat
  reports : List Report

namespace Counting

def start (state : State) (netpktttl netdrptl : Option Nat) : Counting where
  state := state
  tally := .start
  pktsockPktsTotal := 0
  pktsockDropsTotal := 0
  netpktttl := netpktttl
  netdrptl := netdrptl
  reports := []

/-- Tell of the block that the call reported, and start again. -/
def report (s : Counting) (mcnt : Nat) (p : Pass) : Counting :=
  let pktsTotal := s.netpktttl.getD s.pktsockPktsTotal
  let dropsTotal := s.netdrptl.getD s.pktsockDropsTotal
  { state := s.state
    tally := .start
    pktsockPktsTotal := pktsTotal
    pktsockDropsTotal := dropsTotal
    netpktttl := some (u64 (pktsTotal + p.pktsockPkts))
    netdrptl := some (u64 (dropsTotal + p.pktsockDrops))
    reports := s.reports ++ [{
      netmcnt := mcnt
      tally := s.tally
      netpkts := p.pktsockPkts
      netdrops := p.pktsockDrops
      netpktttl := u64 (pktsTotal + p.pktsockPkts)
      netdrptl := u64 (dropsTotal + p.pktsockDrops) }] }

/-- One pass of the main loop. -/
def pass (m : Macros) (s : Counting) (p : Pass) : Counting :=
  let looped := { s with state := s.state.loop m p.arrival }
  if Accepted m p.arrival.frame then
    let counted := { looped with tally := s.tally.add p.clocks }
    let mcnt := (processPacket m s.state.thread p.arrival).ret
    if mcnt ≠ noMcnt then counted.report mcnt p else counted
  else looped

def passes (m : Macros) (s : Counting) (l : List Pass) : Counting := l.foldl (pass m) s

end Counting

/-- The frames that pass the size test, each with what process_packet returns for it. -/
def State.turns (m : Macros) (s : State) : List Pass → List (Pass × Nat)
  | [] => []
  | p :: rest =>
    (if Accepted m p.arrival.frame then [(p, (processPacket m s.thread p.arrival).ret)] else []) ++
      (s.loop m p.arrival).turns m rest

/-! ## What the counters say -/

/-- The counters of these times: a minimum over 99999 does not show. -/
structure Span.Of (s : Span) (ns : List Nat) : Prop where
  elapsedNs : s.elapsedNs = ns.sum % 2 ^ 64
  minNs : IsLeast {n | n = 99999 ∨ n ∈ ns} s.minNs
  maxNs : IsGreatest {n | n = 0 ∨ n ∈ ns} s.maxNs

theorem Span.start_of : Span.start.Of [] where
  elapsedNs := rfl
  minNs := by simp [Span.start]
  maxNs := by simp [Span.start]

theorem Span.Of.add {s : Span} {ns : List Nat} (h : s.Of ns) (n : Nat) :
    (s.add n).Of (ns ++ [n]) := by
  have more (k : Nat) :
      {x | x = k ∨ x ∈ ns ++ [n]} = insert n {x | x = k ∨ x ∈ ns} := by
    ext x
    simp only [Set.mem_ofPred_eq, Set.mem_insert_iff, List.mem_append, List.mem_singleton]
    tauto
  refine ⟨?_, ?_, ?_⟩
  · have wrapped := h.elapsedNs
    simp only [Span.add, u64, List.sum_append, List.sum_singleton]
    omega
  · rw [more]
    exact h.minNs.insert n
  · rw [more]
    exact h.maxNs.insert n

/-- The counters of these packets. -/
structure Tally.Of (t : Tally) (cs : List Clocks) : Prop where
  packetCount : t.packetCount = cs.length % 2 ^ 64
  wait : t.wait.Of (cs.map Clocks.waitNs)
  recv : t.recv.Of (cs.map Clocks.recvNs)
  proc : t.proc.Of (cs.map Clocks.procNs)

theorem Tally.start_of : Tally.start.Of [] :=
  ⟨rfl, Span.start_of, Span.start_of, Span.start_of⟩

theorem Tally.Of.add {t : Tally} {cs : List Clocks} (h : t.Of cs) (c : Clocks) :
    (t.add c).Of (cs ++ [c]) where
  packetCount := by
    have wrapped := h.packetCount
    simp only [Tally.add, u64, List.length_append, List.length_singleton]
    omega
  wait := by simpa [Tally.add] using h.wait.add c.waitNs
  recv := by simpa [Tally.add] using h.recv.add c.recvNs
  proc := by simpa [Tally.add] using h.proc.add c.procNs

/-- The three times of a packet leave out nothing between its first clock and its last. -/
theorem Clocks.elapsed (c : Clocks) : (c.waitNs + c.recvNs + c.procNs) % 2 ^ 64 =
    elapsedNs c.recvStart c.stop := by
  simp only [waitNs, recvNs, procNs, elapsedNs, u64]
  omega

theorem Clocks.elapsed_sum (cs : List Clocks) :
    ((cs.map waitNs).sum + (cs.map recvNs).sum + (cs.map procNs).sum) % 2 ^ 64 =
      (cs.map fun c => elapsedNs c.recvStart c.stop).sum % 2 ^ 64 := by
  induction cs with
  | nil => rfl
  | cons c cs ih =>
    have one := c.elapsed
    simp only [List.map_cons, List.sum_cons]
    omega

theorem Tally.Of.elapsed {t : Tally} {cs : List Clocks} (h : t.Of cs) :
    (t.wait.elapsedNs + t.recv.elapsedNs + t.proc.elapsedNs) % 2 ^ 64 =
      (cs.map fun c => elapsedNs c.recvStart c.stop).sum % 2 ^ 64 := by
  rw [← Clocks.elapsed_sum, h.wait.elapsedNs, h.recv.elapsedNs, h.proc.elapsedNs]
  omega

/-! ## Runs -/

/-- A report and the packets it is about: from the one after the last whose call returned an
mcnt to the next. -/
structure Report.About (r : Report) (turns : List (Pass × Nat)) : Prop where
  ends : ∃ before p, turns = before ++ [(p, r.netmcnt)] ∧ (∀ t ∈ before, t.2 = noMcnt) ∧
    r.netpkts = p.pktsockPkts ∧ r.netdrops = p.pktsockDrops
  valid : r.netmcnt ≠ noMcnt
  tally : r.tally.Of (turns.map fun t => t.1.clocks)
  elapsed : (r.tally.wait.elapsedNs + r.tally.recv.elapsedNs + r.tally.proc.elapsedNs) % 2 ^ 64 =
    (turns.map fun t => elapsedNs t.1.clocks.recvStart t.1.clocks.stop).sum % 2 ^ 64

/-- The packets so far are those of the reports, one after the other, and the ones since. -/
structure Counting.Counts (s : Counting) (turns : List (Pass × Nat)) : Prop where
  grouped : ∃ groups since, turns = groups.flatten ++ since ∧
    List.Forall₂ Report.About s.reports groups ∧ (∀ t ∈ since, t.2 = noMcnt) ∧
    s.tally.Of (since.map fun t => t.1.clocks)
  netmcnts : netmcnts s.state.ring.trace = s.reports.map Report.netmcnt

/-- A pass puts NETMCNT when the call returns an mcnt. -/
theorem loop_netmcnts {g : Geometry} {s : State} {w : Window.State} (h : Tracks g s.thread w)
    (a : Arrival) : netmcnts (s.loop g.toMacros a).ring.trace = netmcnts s.ring.trace ++
      if Accepted g.toMacros a.frame ∧ (processPacket g.toMacros s.thread a).ret ≠ noMcnt then
        [(processPacket g.toMacros s.thread a).ret] else [] := by
  have called := netmcnts_execAll (m := g.toMacros) (call_does h a).1.quiet
    (s.ring.exec g.toMacros .recvFrame)
  rw [netmcnts_exec, List.append_nil] at called
  by_cases accepted : Accepted g.toMacros a.frame
  · simp only [State.loop, if_pos accepted]
    by_cases ret : (processPacket g.toMacros s.thread a).ret ≠ noMcnt
    · rw [if_pos ret, if_pos ⟨accepted, ret⟩, netmcnts_exec, netmcnts_exec, List.append_nil]
      exact congrArg (· ++ [_]) called
    · rw [if_neg ret, if_neg fun both => ret both.2, netmcnts_exec]
      exact congrArg (· ++ []) called
  · simp only [State.loop, if_neg accepted]
    rw [if_neg fun both => accepted both.1, netmcnts_exec]

namespace Counting

variable {g : Geometry}

theorem pass_state (m : Macros) (s : Counting) (p : Pass) :
    (s.pass m p).state = s.state.loop m p.arrival := by
  simp only [pass]
  split
  · split <;> rfl
  · rfl

/-- One pass: its packet is counted, and ends a group if its call returned an mcnt. -/
theorem Counts.pass {s : Counting} {turns : List (Pass × Nat)} {w : Window.State}
    (h : s.Counts turns) (tracks : Tracks g s.state.thread w) (p : Pass) :
    (s.pass g.toMacros p).Counts (turns ++ s.state.turns g.toMacros [p]) := by
  obtain ⟨groups, since, rfl, about, none, tally⟩ := h.grouped
  have put := loop_netmcnts tracks p.arrival
  rw [h.netmcnts] at put
  by_cases accepted : Accepted g.toMacros p.arrival.frame
  · have counted := tally.add p.clocks
    simp only [State.turns, if_pos accepted, List.append_nil]
    by_cases ret : (processPacket g.toMacros s.state.thread p.arrival).ret ≠ noMcnt
    · rw [if_pos ⟨accepted, ret⟩] at put
      simp only [Counting.pass, if_pos accepted, if_pos ret, report]
      refine ⟨⟨groups ++ [since ++ [(p, (processPacket g.toMacros s.state.thread p.arrival).ret)]],
        [], by simp, ?_, by simp, Tally.start_of⟩, ?_⟩
      · refine List.rel_append about (.cons ⟨⟨since, p, rfl, none, rfl, rfl⟩, ret, ?_, ?_⟩ .nil)
        · simpa using counted
        · simpa [Function.comp_def] using counted.elapsed
      · simpa using put
    · rw [if_neg fun both => ret both.2, List.append_nil] at put
      simp only [Counting.pass, if_pos accepted, if_neg ret]
      refine ⟨⟨groups, since ++ [(p, (processPacket g.toMacros s.state.thread p.arrival).ret)],
        by simp, about, ?_, by simpa using counted⟩, put⟩
      intro t ht
      cases List.mem_append.mp ht with
      | inl ht => exact none t ht
      | inr ht =>
        rw [List.mem_singleton.mp ht]
        exact not_not.mp ret
  · rw [if_neg fun both => accepted both.1, List.append_nil] at put
    simp only [State.turns, Counting.pass, if_neg accepted, List.append_nil]
    exact ⟨⟨groups, since, rfl, about, none, tally⟩, put⟩

theorem Counts.passes {s : Counting} {turns : List (Pass × Nat)} {w : Window.State}
    (h : s.Counts turns) (tracks : Tracks g s.state.thread w) (l : List Pass) :
    (s.passes g.toMacros l).Counts (turns ++ s.state.turns g.toMacros l) := by
  induction l generalizing s w turns with
  | nil => rwa [State.turns, List.append_nil]
  | cons p l ih =>
    obtain ⟨w', next⟩ := loop_tracks tracks p.arrival
    rw [← pass_state g.toMacros s p] at next
    have later := ih (h.pass tracks p) next
    simpa [State.turns, pass_state, Counting.passes] using later

/-- The totals in the status buffer, from what they were at first. -/
structure Totals (s : Counting) (pkts drops : Nat) : Prop where
  netpktttl : s.netpktttl.getD s.pktsockPktsTotal % 2 ^ 64 =
    (pkts + (s.reports.map Report.netpkts).sum) % 2 ^ 64
  netdrptl : s.netdrptl.getD s.pktsockDropsTotal % 2 ^ 64 =
    (drops + (s.reports.map Report.netdrops).sum) % 2 ^ 64

theorem Totals.pass {m : Macros} {s : Counting} {pkts drops : Nat} (h : s.Totals pkts drops)
    (p : Pass) : (s.pass m p).Totals pkts drops := by
  simp only [Counting.pass]
  split
  · split
    · obtain ⟨packets, lost⟩ := h
      constructor
      · simp only [report, Option.getD_some, u64, List.map_append, List.map_singleton,
          List.sum_append, List.sum_singleton]
        omega
      · simp only [report, Option.getD_some, u64, List.map_append, List.map_singleton,
          List.sum_append, List.sum_singleton]
        omega
    · exact ⟨h.netpktttl, h.netdrptl⟩
  · exact ⟨h.netpktttl, h.netdrptl⟩

theorem Totals.passes {m : Macros} {s : Counting} {pkts drops : Nat} (h : s.Totals pkts drops)
    (l : List Pass) : (s.passes m l).Totals pkts drops := by
  induction l generalizing s with
  | nil => exact h
  | cons p l ih => exact ih (h.pass p)

/-- In every run each packet that passes the size test is counted once, in the next report,
which tells their number, their times, and the times' extremes below and above 99999 and 0;
there is one report for each NETMCNT, and the totals add up. -/
theorem blocks_counted (g : Geometry) (mem : Mem) (flag : Nat → Flag)
    (netpktttl netdrptl : Option Nat) (l : List Pass) :
    ((start (State.start g.toMacros mem flag) netpktttl netdrptl).passes g.toMacros l).Counts
      ((State.start g.toMacros mem flag).turns g.toMacros l) ∧
    ((start (State.start g.toMacros mem flag) netpktttl netdrptl).passes g.toMacros l).Totals
      (netpktttl.getD 0) (netdrptl.getD 0) := by
  have begun : (start (State.start g.toMacros mem flag) netpktttl netdrptl).Counts [] :=
    ⟨⟨[], [], rfl, .nil, by simp, Tally.start_of⟩, rfl⟩
  constructor
  · exact begun.passes (start_tracks g mem flag) l
  · exact Totals.passes ⟨rfl, rfl⟩ l

end Counting

end S6Reobs
