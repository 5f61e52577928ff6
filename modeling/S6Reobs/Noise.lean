import S6Reobs.Ledger

/-! Noise immunity. Packets outside the window, no more than MAX_OUT_OF_SEQ of them out of
sequence in a row, leave no mark on a run but the counter of such packets, and the next packet
of the window clears it. -/

namespace S6Reobs

open Word

/-- The two header words that hold the time at which a block was filled. -/
def Loc.Timed : Loc → Prop
  | .header _ .timeSec | .header _ .timeNsec => True
  | _ => False

/-- Every packet of a run is in the window when it is processed, from a known source. -/
def StoresAll (m : Macros) (s : State) (l : List Arrival) : Prop :=
  ∀ earlier a later, l = earlier ++ a :: later → Stores m (s.run m earlier) a

/-- The second list is the first with noise inserted, when it is processed from `s`; `n`
out-of-sequence packets were inserted since the last packet of the first list. The packets
of both lists may arrive at different times. -/
inductive Noisy (m : Macros) : State → Nat → List Arrival → List Arrival → Prop
  | done {s : State} {n : Nat} : Noisy m s n [] []
  | packet {s : State} {n : Nat} {a b : Arrival} {clean noisy : List Arrival}
      (same : b.frame = a.frame) (rest : Noisy m (s.call m b) 0 clean noisy) :
      Noisy m s n (a :: clean) (b :: noisy)
  | late {s : State} {n : Nat} {b : Arrival} {clean noisy : List Arrival}
      (zone : pktZone m s.thread.binfo.mcntStart (getHeader m b.frame).mcnt = .late)
      (rest : Noisy m (s.call m b) n clean noisy) : Noisy m s n clean (b :: noisy)
  | outOfSeq {s : State} {n : Nat} {b : Arrival} {clean noisy : List Arrival}
      (zone : pktZone m s.thread.binfo.mcntStart (getHeader m b.frame).mcnt = .outOfSeq)
      (few : n + 1 ≤ m.maxOutOfSeq) (rest : Noisy m (s.call m b) (n + 1) clean noisy) :
      Noisy m s n clean (b :: noisy)

/-- The mcnts returned for the blocks filled in a run. -/
def State.returns (m : Macros) : State → List Arrival → List Nat
  | _, [] => []
  | s, a :: l =>
    let ret := (processPacket m s.thread a).ret
    if ret ≠ noMcnt then ret :: State.returns m (s.call m a) l else State.returns m (s.call m a) l

/-- The thread but for its count of out-of-sequence packets. -/
def Thread.quiet (t : Thread) : Thread := { t with binfo := { t.binfo with outOfSeqCnt := 0 } }

/-- The effect with the time it stamps left open. -/
def Effect.timeless : Effect → Effect
  | .stamp b _ => .stamp b ⟨0, 0⟩
  | e => e

/-- The rings agree but for the times in the headers. -/
structure Ring.SameButTimes (r r' : Ring) : Prop where
  mem : ∀ l : Loc, ¬ l.Timed → r.mem l = r'.mem l
  flag : r.flag = r'.flag
  marks : marks r.trace = marks r'.trace

/-- What noise cannot change: the thread but for its count, and the ring but for the times. -/
structure State.SameButNoise (s s' : State) : Prop where
  thread : s.thread.quiet = s'.thread.quiet
  ring : s.ring.SameButTimes s'.ring

/-! ## The rings -/

section Rings

variable {m : Macros} {r r' : Ring}

/-- An effect's word at one location depends on no other. -/
theorem timeless_apply {e e' : Effect} (same : e.timeless = e'.timeless) {mem mem' : Mem}
    (agree : ∀ l : Loc, ¬ l.Timed → mem l = mem' l) {l : Loc} (untimed : ¬ l.Timed) :
    e.apply m mem l = e'.apply m mem' l := by
  have here := agree l untimed
  cases e with
  | stamp b now =>
    cases e' with
    | stamp b' now' =>
      have sec (c : Nat) : l ≠ .header c .timeSec := by
        rintro rfl
        exact untimed trivial
      have nsec (c : Nat) : l ≠ .header c .timeNsec := by
        rintro rfl
        exact untimed trivial
      simp [Effect.apply, sec, nsec, here]
    | _ => simp [Effect.timeless] at same
  | initializeBlock b mcnt pchan nchan sid =>
    have eq : e' = .initializeBlock b mcnt pchan nchan sid := by
      cases e' <;> simp_all [Effect.timeless]
    subst eq
    cases l with
    | header c fld => simp only [Effect.apply, here]
    | padding | data | past => exact here
  | decMissedPkts b i =>
    have eq : e' = .decMissedPkts b i := by cases e' <;> simp_all [Effect.timeless]
    subst eq
    by_cases at_ : l = .header b (.missedPkts i)
    · subst at_
      simp [Effect.apply, here]
    · simp [Effect.apply, at_, here]
  | copyPayload b f =>
    have eq : e' = .copyPayload b f := by cases e' <;> simp_all [Effect.timeless]
    subst eq
    exact Copy.copyAll_congr _ _ here
  | setFilled | busywaitFree | log | recvFrame | releaseFrame | hputNetmcnt =>
    cases e' <;> simp_all [Effect.timeless, Effect.apply]

theorem timeless_mark {e e' : Effect} (same : e.timeless = e'.timeless) {mem mem' : Mem}
    (agree : ∀ l : Loc, ¬ l.Timed → mem l = mem' l) :
    Entry.mark ⟨e, mem⟩ = Entry.mark ⟨e', mem'⟩ := by
  have mcnt (b : Nat) := agree (.header b .mcnt) id
  cases e <;> cases e' <;> simp_all [Effect.timeless, Entry.mark]

theorem Ring.SameButTimes.exec (same : r.SameButTimes r') {e e' : Effect}
    (effect : e.timeless = e'.timeless) : (r.exec m e).SameButTimes (r'.exec m e') where
  mem _ untimed := timeless_apply effect same.mem untimed
  flag := by
    have flag := same.flag
    cases e <;> cases e' <;> simp_all [Effect.timeless, Effect.setFlag, Ring.exec]
  marks := by
    simp only [Ring.exec, marks_cons]
    rw [same.marks, timeless_mark effect same.mem]

theorem Ring.SameButTimes.execAll (same : r.SameButTimes r') {es es' : List Effect}
    (effects : es.map Effect.timeless = es'.map Effect.timeless) :
    (r.execAll m es).SameButTimes (r'.execAll m es') := by
  induction es generalizing es' r r' with
  | nil =>
    rw [List.map_nil, eq_comm, List.map_eq_nil_iff] at effects
    subst effects
    exact same
  | cons e es ih =>
    cases es' with
    | nil => simp at effects
    | cons e' es' =>
      obtain ⟨head, tail⟩ := List.cons.inj effects
      exact ih (same.exec head) tail

/-- Messages about a packet change nothing in the ring. -/
theorem Ring.SameButTimes.logs (same : r.SameButTimes r') (msgs : List Msg)
    (routine : ∀ msg ∈ msgs, msg.Routine) :
    r.SameButTimes (r'.execAll m (msgs.map .log)) := by
  induction msgs generalizing r' with
  | nil => exact same
  | cons msg msgs ih =>
    apply ih _ fun msg' hm => routine msg' (List.mem_cons_of_mem msg hm)
    have un : (Effect.log msg).Unmarked := routine msg List.mem_cons_self
    constructor
    · exact same.mem
    · exact same.flag
    · rw [Ring.exec, marks_cons, mark_unmarked un, same.marks]
      simp

end Rings

/-! ## One call -/

variable {m : Macros}

/-- A packet of the window clears the counter, so what it does is the same for any count. -/
theorem processPacket_quiet {t : Thread} {a : Arrival}
    (zone : pktZone m t.binfo.mcntStart (getHeader m a.frame).mcnt = .window) :
    processPacket m t a = processPacket m t.quiet a := by
  have zone' : pktZone m t.quiet.binfo.mcntStart (getHeader m a.frame).mcnt = .window := zone
  rw [processPacket_window zone, processPacket_window zone']
  by_cases done : BlockDone m t.binfo.mcntStart (getHeader m a.frame).mcnt
  · have done' : BlockDone m t.quiet.binfo.mcntStart (getHeader m a.frame).mcnt := done
    rw [if_pos done, if_pos done']
    rfl
  · have done' : ¬ BlockDone m t.quiet.binfo.mcntStart (getHeader m a.frame).mcnt := done
    rw [if_neg done, if_neg done']
    rfl

/-- Two outcomes that differ in the times only. -/
structure Outcome.SameButTimes (o o' : Outcome) : Prop where
  thread : o.thread = o'.thread
  effects : o.effects.map Effect.timeless = o'.effects.map Effect.timeless
  ret : o.ret = o'.ret

theorem countAndStore_sameButTimes {o o' : Outcome} (same : o.SameButTimes o')
    (hdr : PacketHeader) (f : Frame) :
    (countAndStore m o hdr f).SameButTimes (countAndStore m o' hdr f) := by
  obtain ⟨thread, effects, ret⟩ := same
  simp only [countAndStore, ← thread, ← ret]
  split <;> exact ⟨rfl, by simp [effects], rfl⟩

/-- The clock is read for the stamp of a finished block only. -/
theorem processPacket_sameButTimes {t : Thread} {a b : Arrival} (same : b.frame = a.frame)
    (zone : pktZone m t.binfo.mcntStart (getHeader m a.frame).mcnt = .window) :
    (processPacket m t a).SameButTimes (processPacket m t b) := by
  have zone' : pktZone m t.binfo.mcntStart (getHeader m b.frame).mcnt = .window := by
    rw [same]
    exact zone
  rw [processPacket_window zone, processPacket_window zone', same]
  apply countAndStore_sameButTimes
  split
  · exact ⟨rfl, by simp [finishBlock, Effect.timeless], rfl⟩
  · exact ⟨rfl, rfl, rfl⟩

section Call

variable {s s' : State} (same : s.SameButNoise s')
include same

theorem State.SameButNoise.mcntStart : s.thread.binfo.mcntStart = s'.thread.binfo.mcntStart := by
  have quiet := congrArg (fun t : Thread => t.binfo.mcntStart) same.thread
  exact quiet

/-- A packet that both runs have. -/
theorem State.SameButNoise.packet {a b : Arrival} (frame : b.frame = a.frame)
    (zone : pktZone m s.thread.binfo.mcntStart (getHeader m a.frame).mcnt = .window) :
    (s.call m a).SameButNoise (s'.call m b) ∧
    (processPacket m s.thread a).ret = (processPacket m s'.thread b).ret ∧
    (s'.call m b).thread.binfo.outOfSeqCnt = 0 := by
  have zone' : pktZone m s'.thread.binfo.mcntStart (getHeader m b.frame).mcnt = .window := by
    rw [← same.mcntStart, frame]
    exact zone
  have outcome : (processPacket m s.thread a).SameButTimes (processPacket m s'.thread b) := by
    rw [processPacket_quiet zone, processPacket_quiet zone', ← same.thread]
    exact processPacket_sameButTimes frame zone
  exact ⟨⟨congrArg Thread.quiet outcome.thread, same.ring.execAll outcome.effects⟩,
    outcome.ret, (processPacket_window_spec zone').1⟩

/-- A late packet that only the second run has. -/
theorem State.SameButNoise.late {b : Arrival}
    (zone : pktZone m s'.thread.binfo.mcntStart (getHeader m b.frame).mcnt = .late) :
    s.SameButNoise (s'.call m b) ∧ (processPacket m s'.thread b).ret = noMcnt ∧
    (s'.call m b).thread.binfo.outOfSeqCnt = s'.thread.binfo.outOfSeqCnt := by
  rw [State.call, processPacket_late zone]
  refine ⟨⟨same.thread, ?_⟩, rfl, rfl⟩
  unfold latePacket
  dsimp only
  split
  · exact same.ring.logs [.latePacket _] (by simp [Msg.Routine])
  · exact same.ring

/-- An out-of-sequence packet that only the second run has, within the limit. -/
theorem State.SameButNoise.outOfSeq {b : Arrival} {n : Nat}
    (zone : pktZone m s'.thread.binfo.mcntStart (getHeader m b.frame).mcnt = .outOfSeq)
    (count : s'.thread.binfo.outOfSeqCnt = n) (few : n + 1 ≤ m.maxOutOfSeq) :
    s.SameButNoise (s'.call m b) ∧ (processPacket m s'.thread b).ret = noMcnt ∧
    (s'.call m b).thread.binfo.outOfSeqCnt = (n + 1 : Nat) := by
  have small := maxOutOfSeq_lt m
  have counted : inc s'.thread.binfo.outOfSeqCnt = (n + 1 : Nat) := by
    rw [count, inc_of_range] <;> omega
  have stays : ¬ (m.maxOutOfSeq : Int) < inc s'.thread.binfo.outOfSeqCnt := by omega
  rw [State.call, processPacket_outOfSeq zone, outOfSeqPacket]
  dsimp only
  rw [if_neg stays]
  refine ⟨⟨same.thread, ?_⟩, rfl, counted⟩
  dsimp only
  split
  · exact same.ring.logs [.outOfSeq _ _ _] (by simp [Msg.Routine])
  · exact same.ring

end Call

/-! ## Runs -/

/-- The rest of a run is a run from the state reached. -/
theorem StoresAll.tail {s : State} {a : Arrival} {l : List Arrival}
    (stores : StoresAll m s (a :: l)) : StoresAll m (s.call m a) l := by
  rintro earlier b later rfl
  exact stores (a :: earlier) b later rfl

theorem storesAll_cons {s : State} {a : Arrival} {l : List Arrival} (first : Stores m s a)
    (rest : StoresAll m (s.call m a) l) : StoresAll m s (a :: l) := by
  intro earlier b later split
  cases earlier with
  | nil =>
    obtain ⟨rfl, rfl⟩ := List.cons.inj split
    exact first
  | cons c earlier =>
    obtain ⟨rfl, rfl⟩ := List.cons.inj split
    exact rest earlier b later rfl

theorem noisy_run {s s' : State} {n : Nat} {clean noisy : List Arrival}
    (same : s.SameButNoise s') (stores : StoresAll m s clean)
    (count : s'.thread.binfo.outOfSeqCnt = n) (noise : Noisy m s' n clean noisy) :
    (s.run m clean).SameButNoise (s'.run m noisy) ∧ s.returns m clean = s'.returns m noisy := by
  induction noise generalizing s with
  | done => exact ⟨same, rfl⟩
  | packet frame rest ih =>
    obtain ⟨next, ret, zero⟩ := same.packet frame (stores [] _ _ rfl).1
    obtain ⟨final, returns⟩ := ih next stores.tail zero
    exact ⟨final, by simp only [State.returns, ret, returns]⟩
  | late zone rest ih =>
    obtain ⟨next, ret, kept⟩ := same.late zone
    obtain ⟨final, returns⟩ := ih next stores (kept.trans count)
    exact ⟨final, by simp [State.returns, ret, returns]⟩
  | outOfSeq zone few rest ih =>
    obtain ⟨next, ret, more⟩ := same.outOfSeq zone count few
    obtain ⟨final, returns⟩ := ih next stores more
    exact ⟨final, by simp [State.returns, ret, returns]⟩

/-- Running the packets with the noise and without it gives the same thread but for its count,
the same ring but for the times, the same fills in the same order and the same returns. -/
theorem noise_immunity (m : Macros) {s : State} (fresh : s.thread.binfo.outOfSeqCnt = 0)
    {clean noisy : List Arrival} (stores : StoresAll m s clean)
    (noise : Noisy m s 0 clean noisy) :
    (s.run m clean).SameButNoise (s.run m noisy) ∧ s.returns m clean = s.returns m noisy :=
  noisy_run ⟨rfl, ⟨fun _ _ => rfl, rfl, rfl⟩⟩ stores fresh noise

/-- Two packets that fill a block, with as much noise around them as is allowed. -/
theorem noise_immunity_fastSmall :
    let s := State.start fastSmall.toMacros (fun _ => 0) (fun _ => .free)
    let stray := fastPacket (2 ^ 57 + 1000)
    let clean := [fastPacket (2 ^ 57), fastPacket (2 ^ 57 + 3)]
    let noisy := [stray, stray, fastPacket (2 ^ 57), stray, stray, fastPacket (2 ^ 57 + 3),
      fastPacket (2 ^ 57)]
    (s.run fastSmall.toMacros clean).SameButNoise (s.run fastSmall.toMacros noisy) ∧
      s.returns fastSmall.toMacros clean = s.returns fastSmall.toMacros noisy := by
  intro s stray clean noisy
  apply noise_immunity fastSmall.toMacros rfl
  · apply storesAll_cons (by decide +kernel)
    apply storesAll_cons (by decide +kernel)
    intro earlier a later split
    simp at split
  · apply Noisy.outOfSeq (by decide +kernel) (by decide)
    apply Noisy.outOfSeq (by decide +kernel) (by decide)
    apply Noisy.packet rfl
    apply Noisy.outOfSeq (by decide +kernel) (by decide)
    apply Noisy.outOfSeq (by decide +kernel) (by decide)
    apply Noisy.packet rfl
    apply Noisy.late (by decide +kernel)
    exact Noisy.done

end S6Reobs
