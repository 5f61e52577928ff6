import Mathlib.Data.Set.Insert
import Mathlib.Logic.Function.Basic

/-! Slots with a flag each between a writer and a reader. The writer may write a slot from
when it found it free until it publishes it, and the reader releases full slots at any time.
What a writer holds follows from its operations alone, whatever the reader does between them. -/

namespace Lease

/-- What an operation is to the slots: a wait that found one free, the publication of one,
or a write to some of them. -/
inductive Role
  | acquire (k : Nat)
  | publish (k : Nat)
  | write (slots : Set Nat)

def Role.after (r : Role) (held : Set Nat) : Set Nat :=
  match r with
  | .acquire k => insert k held
  | .publish k => held \ {k}
  | .write _ => held

def Role.slots : Role → Set Nat
  | .write slots => slots
  | _ => ∅

variable {F σ ι Op M : Type}

def Role.setFlag (full : F) (flag : Nat → F) : Role → Nat → F
  | .publish k => Function.update flag k full
  | _ => flag

def Role.Ready (free : F) (flag : Nat → F) : Role → Prop
  | .acquire k => flag k = free
  | _ => True

/-- A writer starts with a batch of operations, and answers each input with another. -/
structure Writer (F σ ι Op M : Type) where
  free : F
  full : F
  initial : σ
  startup : List Op
  call : σ → ι → σ × List Op
  apply : Op → M → M
  role : Op → Role

/-- An operation that was executed, with the flags it found. -/
structure Entry (F Op : Type) where
  op : Op
  flag : Nat → F

/-- The writer, the operations of its current batch that are still to come, and what it
shares with the reader. -/
structure Config (F σ Op M : Type) where
  state : σ
  pending : List Op
  mem : M
  flag : Nat → F
  trace : List (Entry F Op)

namespace Writer

variable (w : Writer F σ ι Op M)

def start (mem : M) (flag : Nat → F) : Config F σ Op M where
  state := w.initial
  pending := w.startup
  mem := mem
  flag := flag
  trace := []

inductive Step : Config F σ Op M → Config F σ Op M → Prop
  | call (c : Config F σ Op M) (idle : c.pending = []) (i : ι) :
      Step c { c with state := (w.call c.state i).1, pending := (w.call c.state i).2 }
  | exec (c : Config F σ Op M) (op : Op) (ops : List Op) (next : c.pending = op :: ops)
      (ready : (w.role op).Ready w.free c.flag) :
      Step c { c with
        pending := ops
        mem := w.apply op c.mem
        flag := (w.role op).setFlag w.full c.flag
        trace := ⟨op, c.flag⟩ :: c.trace }
  | release (c : Config F σ Op M) (k : Nat) (full : c.flag k = w.full) :
      Step c { c with flag := Function.update c.flag k w.free }

inductive Reachable : Config F σ Op M → Prop
  | start (mem : M) (flag : Nat → F) : Reachable (w.start mem flag)
  | next {c d : Config F σ Op M} : Reachable c → w.Step c d → Reachable d

/-- The slots that were found free and not published since. -/
def held : List (Entry F Op) → Set Nat
  | [] => ∅
  | e :: tr => (w.role e.op).after (held tr)

/-- Every write went to slots that were held, and free at that time. -/
def Owned (tr : List (Entry F Op)) : Prop :=
  ∀ later e earlier, tr = later ++ e :: earlier →
    ∀ k ∈ (w.role e.op).slots, k ∈ w.held earlier ∧ e.flag k = w.free

def heldAfter (held : Set Nat) (ops : List Op) : Set Nat :=
  ops.foldl (fun held op => (w.role op).after held) held

/-- Of the operations of a batch, the wild ones and no others write to slots that are not
held by then. -/
def Marks (wild : Op → Prop) : Set Nat → List Op → Prop
  | _, [] => True
  | held, op :: ops =>
    ((w.role op).slots ⊆ held ↔ ¬ wild op) ∧ Marks wild ((w.role op).after held) ops

/-- The batches of the writer are marked, when it holds between two of them what `holds`
says. -/
structure Keeps (wild : Op → Prop) (holds : σ → Set Nat → Prop) : Prop where
  startup : w.Marks wild ∅ w.startup
  initial : holds w.initial (w.heldAfter ∅ w.startup)
  call : ∀ s held i, holds s held → w.Marks wild held (w.call s i).2
  next : ∀ s held i, holds s held → holds (w.call s i).1 (w.heldAfter held (w.call s i).2)

/-! ## Batches -/

section Batches

variable {w} {wild : Op → Prop} {held : Set Nat}

@[simp] theorem heldAfter_nil : w.heldAfter held [] = held := rfl

@[simp] theorem heldAfter_cons {op : Op} {ops : List Op} :
    w.heldAfter held (op :: ops) = w.heldAfter ((w.role op).after held) ops := rfl

@[simp] theorem heldAfter_append {ops ops' : List Op} :
    w.heldAfter held (ops ++ ops') = w.heldAfter (w.heldAfter held ops) ops' :=
  List.foldl_append

theorem marks_append {ops ops' : List Op} : w.Marks wild held (ops ++ ops') ↔
    w.Marks wild held ops ∧ w.Marks wild (w.heldAfter held ops) ops' := by
  induction ops generalizing held with
  | nil => simp [Marks]
  | cons op ops ih => simp [Marks, ih, and_assoc]

/-- Only which operations of the batch are wild matters. -/
theorem Marks.congr {wild' : Op → Prop} {ops : List Op} (h : w.Marks wild held ops)
    (same : ∀ op ∈ ops, (wild op ↔ wild' op)) : w.Marks wild' held ops := by
  induction ops generalizing held with
  | nil => trivial
  | cons op ops ih =>
    constructor
    · rw [← same op List.mem_cons_self]
      exact h.1
    · exact ih h.2 fun op' hop => same op' (List.mem_cons_of_mem op hop)

/-- A batch of writes leaves the held slots as they are. -/
theorem marks_writes {ops : List Op} (writes : ∀ op ∈ ops, ∃ slots,
    w.role op = .write slots ∧ (slots ⊆ held ↔ ¬ wild op)) :
    w.Marks wild held ops ∧ w.heldAfter held ops = held := by
  induction ops with
  | nil => exact ⟨trivial, rfl⟩
  | cons op ops ih =>
    obtain ⟨slots, role, sound⟩ := writes op List.mem_cons_self
    have rest := ih fun op' hop => writes op' (List.mem_cons_of_mem op hop)
    simpa [Marks, role, Role.after, Role.slots, sound] using rest

end Batches

/-! ## Runs -/

section Runs

variable {w} {c : Config F σ Op M}

theorem owned_cons {e : Entry F Op} {tr : List (Entry F Op)} : w.Owned (e :: tr) ↔
    (∀ k ∈ (w.role e.op).slots, k ∈ w.held tr ∧ e.flag k = w.free) ∧ w.Owned tr := by
  constructor
  · intro h
    constructor
    · exact h [] e tr rfl
    · rintro later e' earlier rfl
      exact h (e :: later) e' earlier rfl
  · rintro ⟨now, before⟩ later e' earlier h
    cases later with
    | nil =>
      obtain ⟨rfl, rfl⟩ := List.cons.inj h
      exact now
    | cons e'' later => exact before later e' earlier (List.cons.inj h).2

/-- A held slot is free: the reader releases slots, and only the writer fills them. -/
theorem Reachable.held_free (reach : w.Reachable c) {k : Nat} (hk : k ∈ w.held c.trace) :
    c.flag k = w.free := by
  induction reach generalizing k with
  | start mem flag => exact hk.elim
  | next _ step ih =>
    cases step with
    | call idle i => exact ih hk
    | exec op ops next ready =>
      cases hr : w.role op with
      | acquire j =>
        simp only [held, hr, Role.after, Role.setFlag, Role.Ready] at hk ready ⊢
        cases hk with
        | inl eq => rwa [eq]
        | inr old => exact ih old
      | publish j =>
        simp only [held, hr, Role.after, Role.setFlag] at hk ⊢
        rw [Function.update_of_ne hk.2]
        exact ih hk.1
      | write slots =>
        simp only [held, hr, Role.after, Role.setFlag] at hk ⊢
        exact ih hk
    | release j full =>
      by_cases eq : k = j
      · rw [eq]
        exact Function.update_self ..
      · exact (Function.update_of_ne eq ..).trans (ih hk)

/-- In a run, exactly the wild operations write to slots that are not held. -/
theorem Keeps.owned_iff {wild : Op → Prop} {holds : σ → Set Nat → Prop}
    (keeps : w.Keeps wild holds) (reach : w.Reachable c) :
    w.Owned c.trace ↔ ∀ e ∈ c.trace, ¬ wild e.op := by
  -- the rest of the current batch is marked too
  have all : (w.Owned c.trace ↔ ∀ e ∈ c.trace, ¬ wild e.op) ∧
      w.Marks wild (w.held c.trace) c.pending ∧
      holds c.state (w.heldAfter (w.held c.trace) c.pending) := by
    induction reach with
    | start mem flag =>
      refine ⟨?_, keeps.startup, keeps.initial⟩
      simp [start, Owned]
    | @next c d before step ih =>
      obtain ⟨owned, marks, holding⟩ := ih
      cases step with
      | call idle i =>
        rw [idle] at holding
        exact ⟨owned, keeps.call _ _ i holding, keeps.next _ _ i holding⟩
      | exec op ops next ready =>
        rw [next] at marks holding
        refine ⟨?_, marks.2, holding⟩
        rw [owned_cons, List.forall_mem_cons, owned, ← marks.1]
        have free : (∀ k ∈ (w.role op).slots, k ∈ w.held c.trace ∧ c.flag k = w.free) ↔
            (w.role op).slots ⊆ w.held c.trace := by
          constructor
          · exact fun h k hk => (h k hk).1
          · exact fun h k hk => ⟨h hk, before.held_free (h hk)⟩
        rw [free]
      | release k full => exact ⟨owned, marks, holding⟩
  exact all.1

/-- Operations whose slots the flags show free, and that publish nothing, can be executed
one after the other. -/
theorem Reachable.execAll (reach : w.Reachable c) {ops rest : List Op}
    (next : c.pending = ops ++ rest)
    (calm : ∀ op ∈ ops, (∃ k, w.role op = .acquire k ∧ c.flag k = w.free) ∨
      ∃ slots, w.role op = .write slots) :
    ∃ d, w.Reachable d ∧ d.pending = rest ∧ d.flag = c.flag ∧
      w.held d.trace = w.heldAfter (w.held c.trace) ops := by
  induction ops generalizing c with
  | nil => exact ⟨c, reach, next, rfl, rfl⟩
  | cons op ops ih =>
    have now := calm op List.mem_cons_self
    have ready : (w.role op).Ready w.free c.flag := by
      rcases now with ⟨k, role, free⟩ | ⟨slots, role⟩
      · rwa [role]
      · rw [role]
        trivial
    have same : (w.role op).setFlag w.full c.flag = c.flag := by
      rcases now with ⟨k, role, free⟩ | ⟨slots, role⟩ <;> rw [role] <;> rfl
    have step := reach.next (.exec c op (ops ++ rest) next ready)
    rw [same] at step
    obtain ⟨d, reach', pending, flag, held⟩ :=
      ih step rfl fun op' hop => calm op' (List.mem_cons_of_mem op hop)
    exact ⟨d, reach', pending, flag, held⟩

end Runs

end Writer

end Lease
