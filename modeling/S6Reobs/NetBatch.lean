import Mathlib.Data.List.TakeWhile
import S6Reobs.NetThread

/-! s6_net_thread.cpp: run()'s main loop with recvmmsg. The size test is on the packet that
the startup benchmark used, so it says nothing about the packets of a batch. -/

namespace S6Reobs.Net

open Word

/-- What recvmmsg returns: the datagrams received, each as long as its msg_len; or -1, with
errno EAGAIN or EWOULDBLOCK, or with another. -/
inductive RecvResult
  | batch (packets : List UdpPacket)
  | again
  | error

/-- `packet_bufs[0]` to `packet_bufs[recv_cnt-1]`. -/
def RecvResult.received : RecvResult → List UdpPacket
  | .batch packets => packets
  | .again | .error => []

def RecvResult.isError : RecvResult → Bool
  | .error => true
  | _ => false

variable (m : Macros)

/-- `p.packet_size`, as s6_memcpy_benchmark leaves it. -/
def benchmarkPacketSize : Int := (m.nCoarseChan * 2 * 2 + 16 : Nat)

/-- `up.packet_size`. -/
def upPacketSize : Nat := 8 + m.nCoarseChan * nBytesPerChan + 8

inductive Gate
  | pass | ignore | exit
  deriving DecidableEq

/-- The test of the packet size and its error branch. -/
def gate (packetSize : Int) : Gate :=
  if packetSize < 16 ∨ upPacketSize m < u64 packetSize ∨ packetSize.tmod 8 ≠ 0 then
    if packetSize = -1 then .exit else .ignore
  else .pass

/-- The main loop between two calls of recvmmsg. -/
structure Loop where
  state : State
  /-- The packets that were handed to process_packet, oldest first. -/
  handed : List UdpPacket
  ended : Bool

/-- One return of recvmmsg, and what run() does with it. -/
def Loop.step (s : Loop) (r : RecvResult) : Loop :=
  if s.ended then s
  else match r with
    | .again => s
    | .batch _ | .error =>
      match gate m (benchmarkPacketSize m) with
      | .exit => { s with ended := true }
      | .ignore => s
      | .pass =>
        { s with
          state := s.state.run m r.received
          handed := s.handed ++ r.received }

def Loop.run (s : Loop) (rs : List RecvResult) : Loop := rs.foldl (Loop.step m) s

def Loop.start (state : State) : Loop := ⟨state, [], false⟩

/-- The size that the test asks for. -/
def InBounds (p : UdpPacket) : Prop :=
  16 ≤ p.packetSize ∧ p.packetSize ≤ upPacketSize m ∧ p.packetSize % 8 = 0

instance (p : UdpPacket) : Decidable (InBounds m p) := inferInstanceAs (Decidable (_ ∧ _))

/-- The loop lets the right datagrams through, one by one, and stops at an error. -/
structure SizeGate (state : State) (rs : List RecvResult) : Prop where
  bounded : ∀ p ∈ ((Loop.start state).run m rs).handed, InBounds m p
  lengths : ∀ p ∈ ((Loop.start state).run m rs).handed,
    (u64 (p.packetSize - 8 - 8) : Int) = p.packetSize - 16 ∧
      u64 (p.packetSize - 8 - 8) ≤ m.nCoarseChan * nBytesPerChan
  individually : ((Loop.start state).run m rs).handed =
    ((rs.takeWhile (!·.isError)).flatMap RecvResult.received).filter (InBounds m ·)
  ends : (∃ r ∈ rs, r.isError = true) → ((Loop.start state).run m rs).ended = true

/-- Nothing went wrong in the run but packets that the benchmark's stands for. -/
def BenchmarkSpeaks (rs : List RecvResult) : Prop :=
  ∀ r ∈ rs, r.isError = false ∧ ∀ p ∈ r.received, (InBounds m p ↔ m.source ≠ .fast)

/-! ## The loop -/

variable {m}

/-- The benchmark's packet passes in the builds whose channels are a multiple of 8 bytes. -/
theorem gate_benchmark : gate m (benchmarkPacketSize m) =
    if m.source = .fast then .ignore else .pass := by
  unfold gate benchmarkPacketSize upPacketSize nBytesPerChan Macros.nCoarseChan
  cases m.source <;> decide

/-- In-bounds packets give a copy length that fits a slot. -/
theorem InBounds.length {p : UdpPacket} (inside : InBounds m p) :
    (u64 (p.packetSize - 8 - 8) : Int) = p.packetSize - 16 ∧
      u64 (p.packetSize - 8 - 8) ≤ m.nCoarseChan * nBytesPerChan := by
  obtain ⟨lo, hi, _⟩ := inside
  have small : m.nCoarseChan ≤ 512 := by
    unfold Macros.nCoarseChan
    cases m.source <;> decide
  unfold upPacketSize nBytesPerChan at *
  have value := u64_of_range (x := p.packetSize - 8 - 8) (by omega) (by omega)
  omega

theorem Loop.step_running {s : Loop} (running : s.ended = false) (r : RecvResult) :
    (s.step m r).ended = false ∧ (s.step m r).handed =
      if m.source = .fast then s.handed else s.handed ++ r.received := by
  cases r with
  | again => simp [Loop.step, running, RecvResult.received]
  | batch packets | error =>
    by_cases fast : m.source = .fast
    · simp [Loop.step, running, gate_benchmark, fast]
    · simp [Loop.step, running, gate_benchmark, fast]

/-- The loop never ends, and hands over all or nothing. -/
theorem Loop.run_running {s : Loop} (running : s.ended = false) (rs : List RecvResult) :
    (s.run m rs).ended = false ∧ (s.run m rs).handed =
      if m.source = .fast then s.handed else s.handed ++ rs.flatMap RecvResult.received := by
  induction rs generalizing s with
  | nil => simp [Loop.run, running]
  | cons r rs ih =>
    obtain ⟨running', handed⟩ := Loop.step_running (m := m) running r
    obtain ⟨final, all⟩ := ih running'
    refine ⟨final, ?_⟩
    rw [Loop.run, List.foldl_cons]
    rw [Loop.run] at all
    rw [all, handed]
    split <;> simp

theorem takeWhile_quiet {rs : List RecvResult} (quiet : ∀ r ∈ rs, r.isError = false) :
    rs.takeWhile (!·.isError) = rs := by
  rw [List.takeWhile_eq_self_iff]
  intro r hr
  simp [quiet r hr]

theorem SizeGate.speaks {state : State} {rs : List RecvResult} (right : SizeGate m state rs) :
    BenchmarkSpeaks m rs := by
  obtain ⟨running, handed⟩ := Loop.run_running (m := m) (s := Loop.start state) rfl rs
  have quiet : ∀ r ∈ rs, r.isError = false := by
    intro r hr
    by_contra error
    have ended := right.ends ⟨r, hr, by simpa using error⟩
    rw [running] at ended
    cases ended
  have all := right.individually
  rw [handed, takeWhile_quiet quiet] at all
  intro r hr
  refine ⟨quiet r hr, fun p hp => ?_⟩
  have mem : p ∈ rs.flatMap RecvResult.received := List.mem_flatMap.mpr ⟨r, hr, hp⟩
  by_cases fast : m.source = .fast
  · rw [if_pos fast] at all
    have none := List.filter_eq_nil_iff.mp all.symm p mem
    simpa [fast] using none
  · rw [if_neg fast] at all
    have each := List.filter_eq_self.mp all.symm p mem
    simpa [fast] using each

/-- The size test does its work in exactly the runs without receive errors whose datagrams are
all in bounds; in the FAST build, all out of bounds. -/
theorem size_gate_iff (state : State) (rs : List RecvResult) :
    SizeGate m state rs ↔ BenchmarkSpeaks m rs := by
  constructor
  · exact SizeGate.speaks
  · intro speaks
    obtain ⟨running, handed⟩ := Loop.run_running (m := m) (s := Loop.start state) rfl rs
    have quiet : ∀ r ∈ rs, r.isError = false := fun r hr => (speaks r hr).1
    have each : ∀ p ∈ rs.flatMap RecvResult.received, (InBounds m p ↔ m.source ≠ .fast) := by
      intro p hp
      obtain ⟨r, hr, hp⟩ := List.mem_flatMap.mp hp
      exact (speaks r hr).2 p hp
    have filtered : ((Loop.start state).run m rs).handed =
        (rs.flatMap RecvResult.received).filter (InBounds m ·) := by
      rw [handed]
      by_cases fast : m.source = .fast
      · rw [if_pos fast, List.filter_eq_nil_iff.mpr]
        · rfl
        · intro p hp
          simp [each p hp, fast]
      · rw [if_neg fast, List.filter_eq_self.mpr]
        · rfl
        · intro p hp
          simp [each p hp, fast]
    have bounded : ∀ p ∈ ((Loop.start state).run m rs).handed, InBounds m p := by
      intro p hp
      rw [filtered] at hp
      simpa using (List.mem_filter.mp hp).2
    refine ⟨bounded, fun p hp => (bounded p hp).length, ?_, ?_⟩
    · rw [filtered, takeWhile_quiet quiet]
    · rintro ⟨r, hr, error⟩
      rw [quiet r hr] at error
      cases error

/-- The S6 build with two blocks of two mcnts. -/
def s6Net : Macros := ⟨.s6, 2, 2⟩

/-- The S6 build hands over a datagram without data, whose copy length wraps, and goes on after
a receive error. -/
theorem empty_datagram_handed :
    let state := State.start s6Net (fun _ => 0) fun _ => .free
    let run := (Loop.start state).run s6Net [.batch [.ofWords 0 []], .error]
    run.handed = [.ofWords 0 []] ∧ run.ended = false ∧
    u64 ((UdpPacket.ofWords 0 []).packetSize - 8 - 8) = 2 ^ 64 - 16 ∧
    ¬ SizeGate s6Net state [.batch [.ofWords 0 []], .error] := by
  intro state run
  obtain ⟨running, handed⟩ := Loop.run_running (m := s6Net) (s := Loop.start state) rfl
    [.batch [.ofWords 0 []], .error]
  refine ⟨handed, running, by decide, ?_⟩
  intro right
  have quiet := (right.speaks .error (by simp)).1
  cases quiet

end S6Reobs.Net
