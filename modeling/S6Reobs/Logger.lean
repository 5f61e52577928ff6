import Mathlib.Data.List.Induction
import S6Reobs.Lib.CString

/-! logger: lines kept as one string in a static buffer, and written out now and then. -/

namespace S6Reobs

open CString

/-- The static variables; `written` are the texts that hashpipe_info was given. -/
structure Logger where
  log : Memory
  logP : Nat
  numLines : Nat
  written : List (List Char)

namespace Logger

def logSize : Nat := 1024 * 1024 * 1024

/-- `int(log_size*0.9)`. -/
def logLimit : Nat := logSize * 9 / 10

def start : Logger := ⟨fun _ => '\x00', 0, 0, []⟩

/-- `%05d`. -/
def padded (n : Nat) : List Char :=
  List.replicate (5 - (Nat.toDigits 10 n).length) '0' ++ Nat.toDigits 10 n

/-- `"%05d  %s\n"`. -/
def line (n : Nat) (logMessage : List Char) : List Char :=
  padded n ++ [' ', ' '] ++ logMessage ++ ['\n']

/-- One call, and what it returns. -/
def logger (s : Logger) (logMessage : List Char) (lineLimit : Int) : Logger × Int :=
  let numLines := s.numLines + 1
  let log := store s.log s.logP (line numLines logMessage)
  let logP := s.logP + (read log s.logP (logSize - s.logP)).length
  if lineLimit ≤ numLines ∨ logLimit ≤ logP then
    (⟨log, 0, 0, s.written ++ [read log 0 logSize]⟩, lineLimit)
  else (⟨log, logP, numLines, s.written⟩, numLines)

def run (s : Logger) (calls : List (List Char × Int)) : Logger :=
  calls.foldl (fun s c => (s.logger c.1 c.2).1) s

/-- A message that fits into the callers' 200 characters. -/
def Message (logMessage : List Char) : Prop :=
  logMessage.length < 200 ∧ ∀ c ∈ logMessage, c ≠ '\x00'

instance (logMessage : List Char) : Decidable (Message logMessage) :=
  @instDecidableAnd _ _ (Nat.decLt _ _) (List.decidableBAll _ logMessage)

/-- The lines of these messages, numbered from 1. -/
def numbered (messages : List (List Char)) : List Char :=
  (messages.zipIdx 1).flatMap fun p => line p.2 p.1

/-! ## Lines -/

theorem numbered_concat (messages : List (List Char)) (logMessage : List Char) :
    numbered (messages ++ [logMessage]) =
      numbered messages ++ line (messages.length + 1) logMessage := by
  simp [numbered, List.zipIdx_append, Nat.add_comm]

theorem padded_length {n : Nat} (small : n < 10000000000) : (padded n).length ≤ 10 := by
  have digits : (Nat.toDigits 10 n).length ≤ 10 :=
    (Nat.length_toDigits_le_iff (by decide) (by decide)).mpr small
  rw [padded, List.length_append, List.length_replicate]
  omega

theorem line_length (n : Nat) (logMessage : List Char) :
    (line n logMessage).length = (padded n).length + logMessage.length + 3 := by
  simp only [line, List.length_append, List.length_cons, List.length_nil]
  omega

theorem line_text {n : Nat} {logMessage : List Char} (message : Message logMessage) :
    ∀ c ∈ line n logMessage, c ≠ '\x00' := by
  intro c hc
  simp only [line, padded, List.mem_append, List.mem_replicate, List.mem_cons, List.not_mem_nil,
    or_false] at hc
  rcases hc with (((⟨_, rfl⟩ | digit) | rfl | rfl) | text) | rfl
  · decide
  · rintro rfl
    exact absurd (Nat.isDigit_of_mem_toDigits (by decide) (by decide) digit) (by decide)
  · decide
  · decide
  · exact message.2 c text
  · decide

theorem length_le_numbered (messages : List (List Char)) :
    messages.length ≤ (numbered messages).length := by
  induction messages using List.reverseRecOn with
  | nil => exact Nat.le_refl _
  | append_singleton messages logMessage ih =>
    rw [numbered_concat, List.length_append, List.length_append, line_length, List.length_singleton]
    omega

theorem numbered_text {messages : List (List Char)} (all : ∀ m ∈ messages, Message m) :
    ∀ c ∈ numbered messages, c ≠ '\x00' := by
  induction messages using List.reverseRecOn with
  | nil => simp [numbered]
  | append_singleton messages logMessage ih =>
    intro c hc
    rw [numbered_concat] at hc
    cases List.mem_append.mp hc with
    | inl earlier => exact ih (fun m hm => all m (List.mem_append_left _ hm)) c earlier
    | inr last => exact line_text (all logMessage (by simp)) c last

/-! ## Calls -/

/-- The buffer holds the lines since the last text that was written out. -/
structure Keeps (s : Logger) (since : List (List Char)) : Prop where
  numLines : s.numLines = since.length
  logP : s.logP = (numbered since).length
  short : s.logP < logLimit
  holds : Holds s.log 0 (numbered since)
  messages : ∀ m ∈ since, Message m

/-- A call stores its line inside the buffer. -/
theorem Keeps.fits {s : Logger} {since : List (List Char)} (h : s.Keeps since)
    {logMessage : List Char} (message : Message logMessage) :
    s.logP + (line (s.numLines + 1) logMessage).length < logSize := by
  have few := length_le_numbered since
  have lines := h.numLines
  have place := h.logP
  have short := h.short
  have limit : logLimit = 966367641 := by decide
  have size : logSize = 1073741824 := by decide
  have digits := padded_length (n := s.numLines + 1) (by omega)
  have brief := message.1
  rw [line_length]
  omega

/-- What one call does: it writes out the lines so far with its own, as they are enough or the
buffer is nearly full, or keeps them all. -/
theorem Keeps.logger {s : Logger} {since : List (List Char)} (h : s.Keeps since)
    {logMessage : List Char} (message : Message logMessage) (lineLimit : Int) :
    ((s.logger logMessage lineLimit).2 = lineLimit ∧
      (lineLimit ≤ (since.length + 1 : Nat) ∨
        logLimit ≤ (numbered (since ++ [logMessage])).length) ∧
      (s.logger logMessage lineLimit).1.Keeps [] ∧
      (s.logger logMessage lineLimit).1.written =
        s.written ++ [numbered (since ++ [logMessage])]) ∨
    ((s.logger logMessage lineLimit).2 ≠ lineLimit ∧ (since.length + 1 : Nat) < lineLimit ∧
      (s.logger logMessage lineLimit).1.Keeps (since ++ [logMessage]) ∧
      (s.logger logMessage lineLimit).1.written = s.written) := by
  have fits := h.fits message
  have stored : Holds (store s.log s.logP (line (s.numLines + 1) logMessage)) 0
      (numbered (since ++ [logMessage])) := by
    have appended := h.holds.append (t := line (s.numLines + 1) logMessage)
    rw [Nat.zero_add, ← h.logP] at appended
    rwa [numbered_concat, ← h.numLines]
  have messages : ∀ m ∈ since ++ [logMessage], Message m := by
    intro m hm
    cases List.mem_append.mp hm with
    | inl earlier => exact h.messages m earlier
    | inr last => exact List.mem_singleton.mp last ▸ message
  have length : (numbered (since ++ [logMessage])).length =
      s.logP + (line (s.numLines + 1) logMessage).length := by
    rw [numbered_concat, List.length_append, h.logP, h.numLines]
  have ends := store_end s.log s.logP (line (s.numLines + 1) logMessage)
  -- strlen finds the line that was just stored
  have last : read (store s.log s.logP (line (s.numLines + 1) logMessage)) s.logP
      (logSize - s.logP) = line (s.numLines + 1) logMessage :=
    read_holds (fun i hi => store_inside _ _ (Nat.le_of_lt hi)) ends (line_text message) (by omega)
  -- what is behind it from earlier, longer texts does not show
  have whole : read (store s.log s.logP (line (s.numLines + 1) logMessage)) 0 logSize =
      numbered (since ++ [logMessage]) := by
    refine read_holds stored ?_ (numbered_text messages) (by omega)
    rw [Nat.zero_add, length]
    exact ends
  simp only [Logger.logger, last]
  by_cases full : lineLimit ≤ (s.numLines + 1 : Nat) ∨
      logLimit ≤ s.logP + (line (s.numLines + 1) logMessage).length
  · rw [if_pos full, whole]
    rw [← length, h.numLines] at full
    exact .inl ⟨rfl, full, ⟨rfl, rfl, show 0 < logLimit by decide, nofun, nofun⟩, rfl⟩
  · rw [if_neg full]
    obtain ⟨few, short⟩ := not_or.mp full
    have lines := h.numLines
    refine .inr ⟨by omega, by omega, ⟨?_, length.symm, Nat.lt_of_not_le short, stored, messages⟩,
      rfl⟩
    rw [List.length_append, h.numLines]
    rfl

theorem start_keeps : start.Keeps [] := ⟨rfl, rfl, by decide, nofun, nofun⟩

theorem run_keeps {calls : List (List Char × Int)} (messages : ∀ c ∈ calls, Message c.1) :
    ∃ (groups : List (List (List Char))) (since : List (List Char)),
      calls.map Prod.fst = groups.flatten ++ since ∧
      (start.run calls).written = groups.map numbered ∧ (start.run calls).Keeps since := by
  induction calls using List.reverseRecOn with
  | nil => exact ⟨[], [], rfl, rfl, start_keeps⟩
  | append_singleton calls c ih =>
    obtain ⟨groups, since, split, written, keeps⟩ :=
      ih fun d hd => messages d (List.mem_append_left _ hd)
    have next : start.run (calls ++ [c]) = ((start.run calls).logger c.1 c.2).1 := by
      rw [run, List.foldl_append]
      rfl
    rw [next, List.map_append, split]
    obtain ⟨_, _, kept, out⟩ | ⟨_, _, kept, out⟩ := keeps.logger (messages c (by simp)) c.2
    · exact ⟨groups ++ [since ++ [c.1]], [], by simp, by rw [out, written, List.map_append]; rfl,
        kept⟩
    · exact ⟨groups, since ++ [c.1], by simp, out.trans written, kept⟩

/-- In every run each message is written out once, in order, on a line numbered from 1 since
the last text, or is still in the buffer; no line is stored past its end, and a call returns
its limit just when it writes out. -/
theorem log_lossless (calls : List (List Char × Int)) (messages : ∀ c ∈ calls, Message c.1) :
    (∃ (groups : List (List (List Char))) (since : List (List Char)),
      calls.map Prod.fst = groups.flatten ++ since ∧
      (start.run calls).written = groups.map numbered ∧ (start.run calls).Keeps since) ∧
    ∀ earlier c later, calls = earlier ++ c :: later →
      (start.run earlier).logP + (line ((start.run earlier).numLines + 1) c.1).length < logSize ∧
      (((start.run earlier).logger c.1 c.2).2 = c.2 ↔
        ((start.run earlier).logger c.1 c.2).1.written ≠ (start.run earlier).written) := by
  refine ⟨run_keeps messages, ?_⟩
  rintro earlier c later rfl
  obtain ⟨_, since, _, _, keeps⟩ := run_keeps fun d hd => messages d (List.mem_append_left _ hd)
  have message := messages c (by simp)
  refine ⟨keeps.fits message, ?_⟩
  obtain ⟨ret, _, _, out⟩ | ⟨ret, _, _, out⟩ := keeps.logger message c.2
  · exact iff_of_true ret (by simp [out])
  · exact iff_of_false ret (not_not.mpr out)

theorem log_lossless_three : (start.run [("wait".toList, 2), ("recv".toList, 2),
      ("proc".toList, 2)]).written = ["00001  wait\n00002  recv\n".toList] ∧
    ∃ (groups : List (List (List Char))) (since : List (List Char)),
      ["wait".toList, "recv".toList, "proc".toList] = groups.flatten ++ since ∧
      ["00001  wait\n00002  recv\n".toList] = groups.map numbered ∧
      (start.run [("wait".toList, 2), ("recv".toList, 2), ("proc".toList, 2)]).Keeps since := by
  have out : (start.run [("wait".toList, 2), ("recv".toList, 2), ("proc".toList, 2)]).written =
      ["00001  wait\n00002  recv\n".toList] := by decide +kernel
  have messages : ∀ c ∈ [("wait".toList, (2 : Int)), ("recv".toList, 2), ("proc".toList, 2)],
      Message c.1 := by decide
  obtain ⟨⟨groups, since, split, written, keeps⟩, _⟩ := log_lossless _ messages
  exact ⟨out, groups, since, split, out.symm.trans written, keeps⟩

end Logger

end S6Reobs
