import S6Reobs.MainLoop

/-! The frames that run() holds. The main loop obtains a frame at its top and gives it
back at its end; the branch for wrongly sized packets goes back to the top without. -/

namespace S6Reobs

/-- What the packet socket is called for. -/
inductive SockCall
  | recv | release
  deriving DecidableEq

def Effect.sockCall : Effect → Option SockCall
  | .recvFrame => some .recv
  | .releaseFrame => some .release
  | _ => none

/-- The socket calls of a run, oldest first. -/
def sockCalls (tr : List Entry) : List SockCall := tr.reverse.filterMap (·.effect.sockCall)

/-- Frames obtained and not given back. -/
def framesHeld (tr : List Entry) : Int :=
  (sockCalls tr).count .recv - (sockCalls tr).count .release

/-- "Drop all packets to date": run() gives back every frame it finds waiting. -/
def State.drop (m : Macros) (s : State) : Nat → State
  | 0 => s
  | n + 1 => State.drop m { s with ring := (s.ring.exec m .recvFrame).exec m .releaseFrame } n

/-- Every frame the main loop obtains is given back exactly once, before the next one is
asked for, and none is held at the top of the loop. -/
structure GivesBack (m : Macros) (s : State) (l : List Arrival) : Prop where
  once : sockCalls (s.loops m l).ring.trace =
    sockCalls s.ring.trace ++ l.flatMap fun _ => [.recv, .release]
  none : ∀ earlier later, l = earlier ++ later →
    framesHeld (s.loops m earlier).ring.trace = 0

/-! ## One call -/

theorem sockCalls_exec (m : Macros) (r : Ring) (e : Effect) :
    sockCalls (r.exec m e).trace = sockCalls r.trace ++ e.sockCall.toList := by
  rw [sockCalls, Ring.exec, List.reverse_cons, List.filterMap_append]
  cases h : e.sockCall <;> simp [h, sockCalls]

theorem sockCalls_execAll {m : Macros} {es : List Effect} (quiet : ∀ e ∈ es, e.sockCall = none)
    (r : Ring) : sockCalls (r.execAll m es).trace = sockCalls r.trace := by
  induction es generalizing r with
  | nil => rfl
  | cons e es ih =>
    have head := quiet e List.mem_cons_self
    have rest := ih (fun e' he => quiet e' (List.mem_cons_of_mem e he)) (r.exec m e)
    rw [Ring.execAll_cons, rest, sockCalls_exec, head]
    exact List.append_nil _

/-- process_packet leaves the socket alone. -/
theorem processPacket_sockCall (m : Macros) (t : Thread) (a : Arrival) :
    ∀ e ∈ (processPacket m t a).effects, e.sockCall = none := by
  intro e he
  cases processPacket_effects he with
  | inl steers => cases e <;> first | rfl | exact steers.elim
  | inr stored => rcases (mem_storing stored).2 with rfl | rfl <;> rfl

/-! ## Runs of the main loop -/

theorem sockCalls_loop (m : Macros) (s : State) (a : Arrival) :
    sockCalls (s.loop m a).ring.trace = sockCalls s.ring.trace ++
      if Accepted m a.frame then [.recv, .release] else [.recv] := by
  have quiet := processPacket_sockCall m s.thread a
  by_cases accepted : Accepted m a.frame
  · have called :
        sockCalls (State.call m { s with ring := s.ring.exec m .recvFrame } a).ring.trace =
          sockCalls s.ring.trace ++ [.recv] :=
      (sockCalls_execAll quiet _).trans (sockCalls_exec m s.ring .recvFrame)
    simp only [State.loop, accepted, ↓reduceIte]
    split
    · simp [sockCalls_exec, called, Effect.sockCall]
    · simp [sockCalls_exec, called, Effect.sockCall]
  · simp only [State.loop, accepted, ↓reduceIte]
    exact sockCalls_exec m s.ring .recvFrame

theorem framesHeld_loop (m : Macros) (s : State) (a : Arrival) :
    framesHeld (s.loop m a).ring.trace =
      framesHeld s.ring.trace + if Accepted m a.frame then 0 else 1 := by
  rw [framesHeld, framesHeld, sockCalls_loop]
  split
  · simp
  · simp
    omega

/-- One frame is lost for every wrongly sized packet. -/
theorem framesHeld_loops (m : Macros) (s : State) (l : List Arrival) :
    framesHeld (s.loops m l).ring.trace =
      framesHeld s.ring.trace + l.countP fun a => ¬ Accepted m a.frame := by
  induction l generalizing s with
  | nil => simp [State.loops]
  | cons a l ih =>
    have rest := ih (s.loop m a)
    rw [framesHeld_loop] at rest
    change framesHeld ((s.loop m a).loops m l).ring.trace = _
    rw [rest, List.countP_cons]
    by_cases accepted : Accepted m a.frame
    · simp [accepted]
    · simp [accepted]
      omega

theorem sockCalls_loops {m : Macros} {l : List Arrival} (accepted : ∀ a ∈ l, Accepted m a.frame)
    (s : State) : sockCalls (s.loops m l).ring.trace =
      sockCalls s.ring.trace ++ l.flatMap fun _ => [.recv, .release] := by
  induction l generalizing s with
  | nil => simp [State.loops]
  | cons a l ih =>
    have rest := ih (fun b hb => accepted b (List.mem_cons_of_mem a hb)) (s.loop m a)
    have now := sockCalls_loop m s a
    rw [if_pos (accepted a List.mem_cons_self)] at now
    change sockCalls ((s.loop m a).loops m l).ring.trace = _
    rw [rest, now, List.flatMap_cons, List.append_assoc]

theorem framesHeld_drop (m : Macros) (s : State) (n : Nat) :
    framesHeld (s.drop m n).ring.trace = framesHeld s.ring.trace := by
  induction n generalizing s with
  | zero => rfl
  | succ n ih =>
    rw [State.drop, ih]
    simp only [framesHeld, sockCalls_exec, Effect.sockCall, Option.toList_some, List.count_append,
      List.count_singleton]
    simp

/-- The frames are all given back exactly when none of the packets is wrongly sized. -/
theorem frames_given_back_iff (m : Macros) (mem : Mem) (flag : Nat → Flag) (waiting : Nat)
    (l : List Arrival) : GivesBack m ((State.start m mem flag).drop m waiting) l ↔
      ∀ a ∈ l, Accepted m a.frame := by
  have top : framesHeld ((State.start m mem flag).drop m waiting).ring.trace = 0 :=
    framesHeld_drop m _ waiting
  have held := framesHeld_loops m ((State.start m mem flag).drop m waiting)
  rw [top] at held
  constructor
  · intro gives a ha
    have all := gives.none l [] (List.append_nil l).symm
    rw [held l, Int.zero_add, Int.natCast_eq_zero, List.countP_eq_zero] at all
    simpa using all a ha
  · intro accepted
    refine ⟨sockCalls_loops accepted _, ?_⟩
    rintro earlier later rfl
    have none : (earlier.countP fun a => ¬ Accepted m a.frame) = 0 := by
      rw [List.countP_eq_zero]
      intro a ha
      simpa using accepted a (List.mem_append_left later ha)
    rw [held earlier, none]
    rfl

/-- A packet whose UDP data are 8 bytes long. -/
def shortPacket : Arrival := ⟨.ofWords 16 [2 ^ 57], ⟨0, 0⟩⟩

/-- Its frame is never given back. -/
theorem short_frame_leaks :
    ¬ GivesBack fastSmall.toMacros ((State.start fastSmall.toMacros (fun _ => 0)
      fun _ => .free).drop fastSmall.toMacros 0) [shortPacket] ∧
    framesHeld (((State.start fastSmall.toMacros (fun _ => 0) fun _ => .free).drop
      fastSmall.toMacros 0).loops fastSmall.toMacros [shortPacket]).ring.trace = 1 := by
  have held : framesHeld (((State.start fastSmall.toMacros (fun _ => 0) fun _ => .free).drop
      fastSmall.toMacros 0).loops fastSmall.toMacros [shortPacket]).ring.trace = 1 := by
    decide +kernel
  refine ⟨?_, held⟩
  intro gives
  have none := gives.none [shortPacket] [] rfl
  omega

end S6Reobs
