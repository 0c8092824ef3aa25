import Mathlib.Logic.Function.Basic
import ParallelWatermark.Process.Fifo
import ParallelWatermark.Process.Run

/-!
# Threads that share queues

A program is a family of threads. A thread is a sequential program whose next instruction depends on
its own state only: it pushes to a queue, pops from one, acts on what all threads share, starts
another thread or waits for one to return. Here a push and a pop are one step each, and a pop waits
for its queue to be non-empty. An exception that leaves a thread ends the whole program.
-/

namespace Process

/-- What a thread in a state `σ` does next, and the state it goes on in. -/
inductive Instr {κ : Type} (ι : Type) (α : κ → Type) (ε σ : Type) where
  | push (k : κ) (value : α k) (next : σ)
  | pop (k : κ) (next : α k → σ)
  | act (e : ε) (next : σ)
  | spawn (j : ι) (next : σ)
  | join (j : ι) (next : σ)
  | throw
  | returned

structure Program {κ : Type} (ι : Type) (α : κ → Type) (ε : Type) where
  State : ι → Type
  start : ∀ i, State i
  instr : ∀ i, State i → Instr ι α ε (State i)
  initial : ι → Bool  -- the threads that run from the beginning

namespace Threads

variable {ι κ ε δ : Type} {α : κ → Type}

inductive Event {κ : Type} (ι : Type) (α : κ → Type) (ε : Type) where
  | push (i : ι) (k : κ) (value : α k)
  | pop (i : ι) (k : κ) (value : α k)
  | act (i : ι) (e : ε)
  | spawn (i j : ι)
  | join (i j : ι)
  | throw (i : ι)

@[ext]
structure State (prog : Program ι α ε) (δ : Type) where
  queue : ∀ k, Fifo (α k)
  thread : ∀ i, prog.State i
  running : ι → Bool
  shared : δ
  aborted : Bool

def start (prog : Program ι α ε) (shared : δ) : State prog δ :=
  ⟨fun _ => Fifo.empty, prog.start, prog.initial, shared, false⟩

variable [DecidableEq ι] [DecidableEq κ] {prog : Program ι α ε}

def State.goto (s : State prog δ) (i : ι) (next : prog.State i) : State prog δ :=
  { s with thread := Function.update s.thread i next }

omit [DecidableEq κ] in
@[simp] theorem State.goto_thread_self (s : State prog δ) (i : ι) (next : prog.State i) :
    (s.goto i next).thread i = next :=
  Function.update_self ..

inductive Step (effect : ε → δ → δ) : State prog δ → Event ι α ε → State prog δ → Prop
  | push {s : State prog δ} {i : ι} {k : κ} {value : α k} {next : prog.State i}
      (hlive : s.aborted = false) (hrunning : s.running i = true)
      (hinstr : prog.instr i (s.thread i) = .push k value next) :
      Step effect s (.push i k value)
        { s.goto i next with queue := Function.update s.queue k ((s.queue k).push value) }
  | pop {s : State prog δ} {i : ι} {k : κ} {value : α k} {queue' : Fifo (α k)}
      {next : α k → prog.State i}
      (hlive : s.aborted = false) (hrunning : s.running i = true)
      (hinstr : prog.instr i (s.thread i) = .pop k next) (hpop : (s.queue k).pop = some (value, queue')) :
      Step effect s (.pop i k value)
        { s.goto i (next value) with queue := Function.update s.queue k queue' }
  | act {s : State prog δ} {i : ι} {e : ε} {next : prog.State i}
      (hlive : s.aborted = false) (hrunning : s.running i = true)
      (hinstr : prog.instr i (s.thread i) = .act e next) :
      Step effect s (.act i e) { s.goto i next with shared := effect e s.shared }
  | spawn {s : State prog δ} {i j : ι} {next : prog.State i}
      (hlive : s.aborted = false) (hrunning : s.running i = true)
      (hinstr : prog.instr i (s.thread i) = .spawn j next) :
      Step effect s (.spawn i j) { s.goto i next with running := Function.update s.running j true }
  | join {s : State prog δ} {i j : ι} {next : prog.State i}
      (hlive : s.aborted = false) (hrunning : s.running i = true)
      (hinstr : prog.instr i (s.thread i) = .join j next) (hstarted : s.running j = true)
      (hreturned : prog.instr j (s.thread j) = .returned) :
      Step effect s (.join i j) (s.goto i next)
  | throw {s : State prog δ} {i : ι} (hlive : s.aborted = false) (hrunning : s.running i = true)
      (hinstr : prog.instr i (s.thread i) = .throw) :
      Step effect s (.throw i) { s with aborted := true }

/-- A step that thread `i` takes when its next instruction is the given one. -/
def Performs (effect : ε → δ → δ) (s : State prog δ) (i : ι) (e : Event ι α ε) (s' : State prog δ) :
    Instr ι α ε (prog.State i) → Prop
  | .push k value next =>
    e = .push i k value ∧ s' = { s.goto i next with queue := Function.update s.queue k ((s.queue k).push value) }
  | .pop k next => ∃ value queue', (s.queue k).pop = some (value, queue') ∧ e = .pop i k value ∧
      s' = { s.goto i (next value) with queue := Function.update s.queue k queue' }
  | .act a next => e = .act i a ∧ s' = { s.goto i next with shared := effect a s.shared }
  | .spawn j next => e = .spawn i j ∧ s' = { s.goto i next with running := Function.update s.running j true }
  | .join j next => s.running j = true ∧ prog.instr j (s.thread j) = .returned ∧ e = .join i j ∧ s' = s.goto i next
  | .throw => e = .throw i ∧ s' = { s with aborted := true }
  | .returned => False

theorem step_iff {effect : ε → δ → δ} {s s' : State prog δ} {e : Event ι α ε} :
    Step effect s e s' ↔ ∃ i, s.aborted = false ∧ s.running i = true ∧
      Performs effect s i e s' (prog.instr i (s.thread i)) := by
  constructor
  · intro hstep
    cases hstep with
    | @push i k value next hlive hrunning hinstr =>
      exact ⟨i, hlive, hrunning, by rw [hinstr]; exact ⟨rfl, rfl⟩⟩
    | @pop i k value queue' next hlive hrunning hinstr hpop =>
      exact ⟨i, hlive, hrunning, by rw [hinstr]; exact ⟨value, queue', hpop, rfl, rfl⟩⟩
    | @act i a next hlive hrunning hinstr => exact ⟨i, hlive, hrunning, by rw [hinstr]; exact ⟨rfl, rfl⟩⟩
    | @spawn i j next hlive hrunning hinstr => exact ⟨i, hlive, hrunning, by rw [hinstr]; exact ⟨rfl, rfl⟩⟩
    | @join i j next hlive hrunning hinstr hstarted hreturned =>
      exact ⟨i, hlive, hrunning, by rw [hinstr]; exact ⟨hstarted, hreturned, rfl, rfl⟩⟩
    | @throw i hlive hrunning hinstr => exact ⟨i, hlive, hrunning, by rw [hinstr]; exact ⟨rfl, rfl⟩⟩
  · intro hperforms
    obtain ⟨i, hlive, hrunning, hperforms⟩ := hperforms
    cases hinstr : prog.instr i (s.thread i) with
    | push k value next =>
      rw [hinstr] at hperforms
      obtain ⟨rfl, rfl⟩ := hperforms
      exact .push hlive hrunning hinstr
    | pop k next =>
      rw [hinstr] at hperforms
      obtain ⟨value, queue', hpop, rfl, rfl⟩ := hperforms
      exact .pop hlive hrunning hinstr hpop
    | act a next =>
      rw [hinstr] at hperforms
      obtain ⟨rfl, rfl⟩ := hperforms
      exact .act hlive hrunning hinstr
    | spawn j next =>
      rw [hinstr] at hperforms
      obtain ⟨rfl, rfl⟩ := hperforms
      exact .spawn hlive hrunning hinstr
    | join j next =>
      rw [hinstr] at hperforms
      obtain ⟨hstarted, hreturned, rfl, rfl⟩ := hperforms
      exact .join hlive hrunning hinstr hstarted hreturned
    | throw =>
      rw [hinstr] at hperforms
      obtain ⟨rfl, rfl⟩ := hperforms
      exact .throw hlive hrunning hinstr
    | returned =>
      rw [hinstr] at hperforms
      exact hperforms.elim

theorem thread_of_performs {effect : ε → δ → δ} {s s' : State prog δ} {i j : ι} {e : Event ι α ε}
    {instr : Instr ι α ε (prog.State i)} (hperforms : Performs effect s i e s' instr) (hj : j ≠ i) :
    s'.thread j = s.thread j := by
  cases instr with
  | push k value next =>
    obtain ⟨-, rfl⟩ := hperforms
    exact Function.update_of_ne hj _ _
  | pop k next =>
    obtain ⟨value, queue', -, -, rfl⟩ := hperforms
    exact Function.update_of_ne hj _ _
  | act a next =>
    obtain ⟨-, rfl⟩ := hperforms
    exact Function.update_of_ne hj _ _
  | spawn j' next =>
    obtain ⟨-, rfl⟩ := hperforms
    exact Function.update_of_ne hj _ _
  | join j' next =>
    obtain ⟨-, -, -, rfl⟩ := hperforms
    exact Function.update_of_ne hj _ _
  | throw =>
    obtain ⟨-, rfl⟩ := hperforms
    rfl
  | returned => exact hperforms.elim

/-- A thread that runs goes on running. -/
theorem running_of_performs {effect : ε → δ → δ} {s s' : State prog δ} {i j : ι} {e : Event ι α ε}
    {instr : Instr ι α ε (prog.State i)} (hperforms : Performs effect s i e s' instr) (hj : s.running j = true) :
    s'.running j = true := by
  cases instr with
  | push k value next =>
    obtain ⟨-, rfl⟩ := hperforms
    exact hj
  | pop k next =>
    obtain ⟨value, queue', -, -, rfl⟩ := hperforms
    exact hj
  | act a next =>
    obtain ⟨-, rfl⟩ := hperforms
    exact hj
  | spawn j' next =>
    obtain ⟨-, rfl⟩ := hperforms
    by_cases hsame : j = j'
    · subst hsame
      exact Function.update_self ..
    · exact (Function.update_of_ne hsame _ _).trans hj
  | join j' next =>
    obtain ⟨-, -, -, rfl⟩ := hperforms
    exact hj
  | throw =>
    obtain ⟨-, rfl⟩ := hperforms
    exact hj
  | returned => exact hperforms.elim

/-- What keeps a thread from taking a step. -/
def Blocked (s : State prog δ) {i : ι} : Instr ι α ε (prog.State i) → Prop
  | .pop k _ => (s.queue k).pop = none
  | .join j _ => ¬(s.running j = true ∧ prog.instr j (s.thread j) = .returned)
  | .returned => True
  | _ => False

theorem blocked_of_terminal {effect : ε → δ → δ} {s : State prog δ} {i : ι} (hterminal : Terminal (Step effect) s)
    (hlive : s.aborted = false) (hrunning : s.running i = true) : Blocked s (prog.instr i (s.thread i)) := by
  cases hinstr : prog.instr i (s.thread i) with
  | push k value next => exact hterminal _ _ (.push hlive hrunning hinstr)
  | pop k next =>
    cases hpop : (s.queue k).pop with
    | none => exact hpop
    | some popped => exact absurd (.pop hlive hrunning hinstr hpop) (hterminal _ _)
  | act a next => exact hterminal _ _ (.act hlive hrunning hinstr)
  | spawn j next => exact hterminal _ _ (.spawn hlive hrunning hinstr)
  | join j next =>
    exact fun hdone => hterminal _ _ (.join hlive hrunning hinstr hdone.1 hdone.2)
  | throw => exact hterminal _ _ (.throw hlive hrunning hinstr)
  | returned => trivial

/-- A run of the program, from the given shared value. -/
abbrev History (prog : Program ι α ε) (effect : ε → δ → δ) (shared : δ) (evs : List (Event ι α ε))
    (s : State prog δ) : Prop :=
  Run (Step effect) (start prog shared) evs s

end Threads

end Process
