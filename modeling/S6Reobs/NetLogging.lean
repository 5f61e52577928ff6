import Mathlib.Data.List.Forall2
import S6Reobs.Lib.Simulation
import S6Reobs.Logger
import S6Reobs.NetBatch

/-! s6_net_thread.cpp: the in-memory log of run(). The operator asks for it by putting a number
of lines into NETLOGLN; run() takes it over when it has finished a block, logs a line for each
pass, and puts 0 back when the lines are written out. -/

namespace S6Reobs.Net

open Relation Logger

variable (m : Macros)

/-- `mcnt` after the packets of a batch: that of the last block they finish. -/
def batchMcnt (s : State) (packets : List UdpPacket) : Nat :=
  (packets.foldl (fun (s, mcnt) p =>
    let thisMcnt := (processPacket m s.thread p).ret
    (s.call m p, if thisMcnt ≠ noMcnt then thisMcnt else mcnt)) (s, noMcnt)).2

/-- `netlogln` is the status key. `asked` records what the operator has put into it, and `logged`
what has been logged. -/
structure NetLog where
  netLogLines : Int
  netlogln : Int
  logger : Logger
  asked : List Int
  logged : List (List Char)

namespace NetLog

def start : NetLog := ⟨0, 0, .start, [], []⟩

def ask (l : NetLog) (lines : Int) : NetLog :=
  { l with netlogln := lines, asked := l.asked ++ [lines] }

/-- What a pass does about its log message. -/
def log (l : NetLog) (logMessage : List Char) : NetLog :=
  if l.netLogLines ≠ 0 then
    let (logger, ret) := l.logger.logger logMessage l.netLogLines
    let l := { l with logger := logger, logged := l.logged ++ [logMessage] }
    -- stop logging after writing out the current log
    if ret = l.netLogLines then { l with netLogLines := 0, netlogln := 0 } else l
  else l

/-- The status update of a finished block. -/
def update (l : NetLog) : NetLog := { l with netLogLines := l.netlogln }

end NetLog

/-- The main loop with its log; `mcnt` is not -1 between the end of a block and the status
update. -/
structure Logging where
  loop : Loop
  mcnt : Nat
  log : NetLog

namespace Logging

/-- At the main loop NETLOGLN has been put to 0. -/
def start (state : State) : Logging := ⟨.start state, noMcnt, .start⟩

/-- One return of recvmmsg, and what run() does with it before the status update. -/
def receive (s : Logging) (r : RecvResult) (logMessage : List Char) : Logging :=
  let looped := { s with loop := s.loop.step m r }
  if s.loop.ended then looped
  else match r with
    | .again => looped
    | .batch _ | .error =>
      match gate m (benchmarkPacketSize m) with
      | .exit | .ignore => looped
      | .pass =>
        { looped with
          mcnt := batchMcnt m s.loop.state r.received
          log := s.log.log logMessage }

/-- One step of the operator, who asks as `May` allows, or of run(). -/
inductive Step (May : NetLog → Int → Prop) : Logging → Logging → Prop
  | ask (s : Logging) (lines : Int) (may : May s.log lines) :
      Step May s { s with log := s.log.ask lines }
  | receive (s : Logging) (told : s.mcnt = noMcnt) (r : RecvResult) (logMessage : List Char)
      (message : Message logMessage) : Step May s (s.receive m r logMessage)
  | update (s : Logging) (finished : s.mcnt ≠ noMcnt) :
      Step May s { s with mcnt := noMcnt, log := s.log.update }

/-- A pass logs its message or leaves the log alone. -/
theorem receive_log (s : Logging) (r : RecvResult) (logMessage : List Char) :
    (s.receive m r logMessage).log = s.log ∨
    (s.receive m r logMessage).log = s.log.log logMessage := by
  unfold receive
  split
  · exact .inl rfl
  · split
    · exact .inl rfl
    · split
      · exact .inl rfl
      · exact .inl rfl
      · exact .inr rfl
    · split
      · exact .inl rfl
      · exact .inl rfl
      · exact .inr rfl

end Logging

namespace NetLog

/-- The texts written out so far are these groups of lines, and the buffer holds `since`. -/
structure Kept (l : NetLog) (groups : List (List (List Char))) (since : List (List Char)) :
    Prop where
  keeps : l.logger.Keeps since
  logged : l.logged = groups.flatten ++ since
  written : l.logger.written = groups.map numbered

theorem start_kept : start.Kept [] [] := ⟨start_keeps, rfl, rfl⟩

/-- What a pass can do to the log. -/
inductive Logs (l : NetLog) (groups : List (List (List Char))) (since : List (List Char))
    (logMessage : List Char) : NetLog → Prop
  | off (none : l.netLogLines = 0) : Logs l groups since logMessage l
  | writes (on : l.netLogLines ≠ 0) (t : NetLog)
      (full : l.netLogLines ≤ (since.length + 1 : Nat) ∨
        logLimit ≤ (numbered (since ++ [logMessage])).length)
      (asked : t.asked = l.asked) (zero : t.netLogLines = 0 ∧ t.netlogln = 0)
      (kept : t.Kept (groups ++ [since ++ [logMessage]]) []) : Logs l groups since logMessage t
  | adds (on : l.netLogLines ≠ 0) (t : NetLog) (few : (since.length + 1 : Nat) < l.netLogLines)
      (asked : t.asked = l.asked)
      (same : t.netLogLines = l.netLogLines ∧ t.netlogln = l.netlogln)
      (kept : t.Kept groups (since ++ [logMessage])) : Logs l groups since logMessage t

theorem Kept.log {l : NetLog} {groups : List (List (List Char))} {since : List (List Char)}
    (h : l.Kept groups since) {logMessage : List Char} (message : Message logMessage) :
    Logs l groups since logMessage (l.log logMessage) := by
  by_cases on : l.netLogLines = 0
  · have same : l.log logMessage = l := if_neg (not_not.mpr on)
    rw [same]
    exact .off on
  · rw [NetLog.log, if_pos on]
    obtain ⟨ret, full, keeps, out⟩ | ⟨ret, few, keeps, out⟩ :=
      h.keeps.logger message l.netLogLines
    · simp only [if_pos ret]
      refine .writes on _ full rfl ⟨rfl, rfl⟩ ⟨keeps, ?_, ?_⟩
      · simp only [h.logged, List.flatten_append, List.flatten_singleton, List.append_nil,
          List.append_assoc]
      · rw [out, h.written, List.map_append, List.map_singleton]
    · simp only [if_neg ret]
      refine .adds on _ few rfl ⟨rfl, rfl⟩ ⟨keeps, ?_, out.trans h.written⟩
      simp only [h.logged, List.append_assoc]

/-! ## Requests -/

/-- There is a request for every text, and one more while one is open. -/
structure Paid (l : NetLog) (groups : List (List (List Char))) : Prop where
  texts : groups.length ≤ l.asked.countP (· ≠ 0)
  more : l.netLogLines ≠ 0 ∨ l.netlogln ≠ 0 → groups.length < l.asked.countP (· ≠ 0)

theorem start_paid : start.Paid [] := ⟨Nat.le_refl _, fun on => absurd on (by decide)⟩

theorem Paid.ask {l : NetLog} {groups : List (List (List Char))} (h : l.Paid groups)
    (lines : Int) : (l.ask lines).Paid groups := by
  have count : (l.ask lines).asked.countP (· ≠ 0) =
      l.asked.countP (· ≠ 0) + if lines = 0 then 0 else 1 := by
    simp [NetLog.ask, List.countP_append, List.countP_singleton]
  have texts := h.texts
  by_cases zero : lines = 0
  · rw [if_pos zero] at count
    refine ⟨by omega, ?_⟩
    rintro (on | asks)
    · have more := h.more (.inl on)
      omega
    · exact absurd zero asks
  · rw [if_neg zero] at count
    exact ⟨by omega, fun _ => by omega⟩

theorem Paid.update {l : NetLog} {groups : List (List (List Char))} (h : l.Paid groups) :
    l.update.Paid groups :=
  ⟨h.texts, fun on => h.more (.inr (on.elim id id))⟩

/-- A text uses up what its request paid. -/
theorem Paid.writes {l t : NetLog} {groups : List (List (List Char))} (h : l.Paid groups)
    (on : l.netLogLines ≠ 0) (asked : t.asked = l.asked)
    (zero : t.netLogLines = 0 ∧ t.netlogln = 0) (group : List (List Char)) :
    t.Paid (groups ++ [group]) := by
  constructor
  · rw [List.length_append, asked]
    exact h.more (.inl on)
  · rintro (on' | asks)
    · exact absurd zero.1 on'
    · exact absurd zero.2 asks

theorem Paid.adds {l t : NetLog} {groups : List (List (List Char))} (h : l.Paid groups)
    (asked : t.asked = l.asked)
    (same : t.netLogLines = l.netLogLines ∧ t.netlogln = l.netlogln) : t.Paid groups := by
  constructor
  · rw [asked]
    exact h.texts
  · rw [asked, same.1, same.2]
    exact h.more

/-- The group answers the request for so many lines, or the buffer was nearly full before. -/
def Answers (lines : Int) (group : List (List Char)) : Prop :=
  (group.length : Int) = max lines 1 ∨
  (group.length : Int) < max lines 1 ∧ logLimit ≤ (numbered group).length

/-- Each request got its answer before the next was made. -/
structure InTurn (l : NetLog) (answered : List Int) (groups : List (List (List Char)))
    (since : List (List Char)) : Prop where
  asked : l.asked = answered ++ if l.netlogln = 0 then [] else [l.netlogln]
  answers : List.Forall₂ Answers answered groups
  taken : l.netLogLines = 0 ∨ l.netLogLines = l.netlogln
  idle : l.netLogLines = 0 → since = []
  few : (since.length : Int) < max l.netlogln 1

theorem start_inTurn : start.InTurn [] [] [] where
  asked := rfl
  answers := .nil
  taken := .inl rfl
  idle _ := rfl
  few := by decide

theorem InTurn.ask {l : NetLog} {answered : List Int} {groups : List (List (List Char))}
    {since : List (List Char)} (h : l.InTurn answered groups since) (none : l.netlogln = 0)
    {lines : Int} (some : lines ≠ 0) : (l.ask lines).InTurn answered groups since := by
  have off : l.netLogLines = 0 := by
    cases h.taken with
    | inl off => exact off
    | inr same => rw [same, none]
  have empty := h.idle off
  refine ⟨?_, h.answers, .inl off, h.idle, ?_⟩
  · have asked := h.asked
    rw [if_pos none, List.append_nil] at asked
    simp only [NetLog.ask, asked, if_neg some]
  · rw [empty]
    simp

theorem InTurn.update {l : NetLog} {answered : List Int} {groups : List (List (List Char))}
    {since : List (List Char)} (h : l.InTurn answered groups since) :
    l.update.InTurn answered groups since := by
  refine ⟨h.asked, h.answers, .inr rfl, ?_, h.few⟩
  intro none
  have few := h.few
  rw [show l.netlogln = 0 from none] at few
  exact List.length_eq_zero_iff.mp (by omega)

theorem InTurn.writes {l t : NetLog} {answered : List Int} {groups : List (List (List Char))}
    {since : List (List Char)} (h : l.InTurn answered groups since) {logMessage : List Char}
    (on : l.netLogLines ≠ 0)
    (full : l.netLogLines ≤ (since.length + 1 : Nat) ∨
      logLimit ≤ (numbered (since ++ [logMessage])).length)
    (asked : t.asked = l.asked) (zero : t.netLogLines = 0 ∧ t.netlogln = 0) :
    t.InTurn (answered ++ [l.netlogln]) (groups ++ [since ++ [logMessage]]) [] := by
  have same := h.taken.resolve_left on
  have few := h.few
  rw [same] at on full
  refine ⟨?_, ?_, .inl zero.1, fun _ => rfl, by simp [zero.2]⟩
  · rw [asked, h.asked, if_neg on, if_pos zero.2, List.append_nil]
  · refine List.rel_append h.answers (.cons ?_ .nil)
    have length : (since ++ [logMessage]).length = since.length + 1 := List.length_append
    unfold Answers
    rw [length]
    rcases full with enough | full
    · exact .inl (by omega)
    · by_cases all : ((since.length + 1 : Nat) : Int) = max l.netlogln 1
      · exact .inl all
      · exact .inr ⟨by omega, full⟩

theorem InTurn.adds {l t : NetLog} {answered : List Int} {groups : List (List (List Char))}
    {since : List (List Char)} (h : l.InTurn answered groups since) {logMessage : List Char}
    (on : l.netLogLines ≠ 0) (few : (since.length + 1 : Nat) < l.netLogLines)
    (asked : t.asked = l.asked)
    (same : t.netLogLines = l.netLogLines ∧ t.netlogln = l.netlogln) :
    t.InTurn answered groups (since ++ [logMessage]) := by
  have taken := h.taken.resolve_left on
  refine ⟨?_, h.answers, .inr (by rw [same.1, same.2, taken]), ?_, ?_⟩
  · rw [asked, same.2]
    exact h.asked
  · intro off
    exact absurd (same.1.symm.trans off) on
  · rw [List.length_append, List.length_singleton, same.2]
    omega

end NetLog

namespace Logging

variable {May : NetLog → Int → Prop} {s t : Logging}

/-- What every step keeps; the last is about an operator who waits for the answer. -/
def Requested (May : NetLog → Int → Prop) (l : NetLog) : Prop :=
  ∃ groups since, l.Kept groups since ∧ l.Paid groups ∧
    ((∀ l lines, May l lines → l.netlogln = 0 ∧ lines ≠ 0) →
      ∃ answered, l.InTurn answered groups since)

theorem Step.requested (h : Requested May s.log) (step : Step m May s t) :
    Requested May t.log := by
  obtain ⟨groups, since, kept, paid, turn⟩ := h
  cases step with
  | ask lines may =>
    refine ⟨groups, since, ⟨kept.keeps, kept.logged, kept.written⟩, paid.ask lines, ?_⟩
    intro waits
    obtain ⟨answered, inTurn⟩ := turn waits
    obtain ⟨none, some⟩ := waits _ _ may
    exact ⟨answered, inTurn.ask none some⟩
  | update finished =>
    refine ⟨groups, since, ⟨kept.keeps, kept.logged, kept.written⟩, paid.update, ?_⟩
    intro waits
    obtain ⟨answered, inTurn⟩ := turn waits
    exact ⟨answered, inTurn.update⟩
  | receive told r logMessage message =>
    rcases receive_log m s r logMessage with same | logged
    · rw [same]
      exact ⟨groups, since, kept, paid, turn⟩
    · rw [logged]
      have logs := kept.log message
      generalize s.log.log logMessage = l at logs
      cases logs with
      | off none => exact ⟨groups, since, kept, paid, turn⟩
      | writes on _ full asked zero kept' =>
        refine ⟨_, _, kept', paid.writes on asked zero _, ?_⟩
        intro waits
        obtain ⟨answered, inTurn⟩ := turn waits
        exact ⟨_, inTurn.writes on full asked zero⟩
      | adds on _ few asked same kept' =>
        refine ⟨_, _, kept', paid.adds asked same, ?_⟩
        intro waits
        obtain ⟨answered, inTurn⟩ := turn waits
        exact ⟨_, inTurn.adds on few asked same⟩

/-- Every pass that logs leaves its line in one text or in the buffer, and there are no more
texts than requests. If the operator asks only when NETLOGLN is 0, the texts are the
answers to the requests, in order and of as many lines, and NETLOGLN is 0 again when the
last is answered. -/
theorem netlogln_answered (May : NetLog → Int → Prop) (state : State)
    (run : ReflTransGen (Step m May) (start state) s) :
    ∃ (groups : List (List (List Char))) (since : List (List Char)),
      s.log.logged = groups.flatten ++ since ∧
      s.log.logger.written = groups.map numbered ∧
      groups.length ≤ s.log.asked.countP (· ≠ 0) ∧
      ((∀ l lines, May l lines → l.netlogln = 0 ∧ lines ≠ 0) → ∃ answered,
        s.log.asked = answered ++ (if s.log.netlogln = 0 then [] else [s.log.netlogln]) ∧
        List.Forall₂ NetLog.Answers answered groups ∧
        (since.length : Int) < max s.log.netlogln 1) := by
  have begun : Requested May (start state).log :=
    ⟨[], [], NetLog.start_kept, NetLog.start_paid, fun _ => ⟨[], NetLog.start_inTurn⟩⟩
  obtain ⟨groups, since, kept, paid, turn⟩ :=
    invariant_run (P := fun s => Requested May s.log) (fun _ _ => Step.requested m) begun run
  refine ⟨groups, since, kept.logged, kept.written, paid.texts, ?_⟩
  intro waits
  obtain ⟨answered, inTurn⟩ := turn waits
  exact ⟨answered, inTurn.asked, inTurn.answers, inTurn.few⟩

/-- One line is asked for, the packet of mcnt 3 finishes block 0, and the next pass logs. -/
theorem netlogln_answered_one : ∃ s : Logging,
    ReflTransGen (Step s6Net fun l lines => l.netlogln = 0 ∧ lines ≠ 0)
      (start (.start s6Net (fun _ => 0) fun _ => .free)) s ∧
    s.log.asked = [1] ∧ s.log.logger.written = ["00001  wait\n".toList] ∧
    ∃ (groups : List (List (List Char))) (since : List (List Char)),
      s.log.logged = groups.flatten ++ since ∧
      s.log.logger.written = groups.map numbered ∧ ∃ answered,
        s.log.asked = answered ++ (if s.log.netlogln = 0 then [] else [s.log.netlogln]) ∧
        List.Forall₂ NetLog.Answers answered groups := by
  have run := ReflTransGen.refl (r := Step s6Net fun l lines => l.netlogln = 0 ∧ lines ≠ 0)
    (a := start (.start s6Net (fun _ => 0) fun _ => .free))
  have run := run.tail (.ask _ 1 (by decide))
  have run := run.tail
    (.receive _ rfl (.batch [.ofWords 24 [3 * 2 ^ 40]]) "recv".toList (by decide))
  have run := run.tail (.update _ (by decide +kernel))
  have run := run.tail
    (.receive _ rfl (.batch [.ofWords 24 [4 * 2 ^ 40]]) "wait".toList (by decide))
  obtain ⟨groups, since, logged, written, _, turn⟩ := netlogln_answered s6Net _ _ run
  obtain ⟨answered, asked, answers, _⟩ := turn fun _ _ may => may
  exact ⟨_, run, by decide +kernel, by decide +kernel, groups, since, logged, written, answered,
    asked, answers⟩

end Logging

end S6Reobs.Net
