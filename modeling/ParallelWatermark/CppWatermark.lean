import Mathlib.Data.Fintype.Sigma
import Mathlib.Data.Fintype.Sum
import Mathlib.Data.List.FinRange
import Mathlib.Tactic.DeriveFintype
import ParallelWatermark.Pipeline
import ParallelWatermark.Process.Threads

/-!
# `cpp_watermark`, thread by thread

`main` starts the threads of the network one after the other, the first of them at work before the
last is there, and then waits for each of them in turn. The program is given as the next instruction
of each of its threads; what a thread pops from or pushes to is named by it.
-/

namespace ParallelWatermark.CppWatermark

open Process

inductive Thread (P : Nat) where
  | main
  | source
  | stage1 (i : Fin P)
  | stage2 (i : Fin P)
  | stage3 (i : Fin P)
  deriving DecidableEq, Fintype

inductive Queue (P : Nat) where
  | task
  | stage2 (i : Fin P)
  | stage3 (i : Fin P)
  deriving DecidableEq

/-- Where `main` is: starting threads, or waiting for them to return. -/
inductive MainPc (P : Nat) where
  | spawning (left : List (Thread P))
  | joining (left : List (Thread P))
  | returned
  deriving DecidableEq

def Item (P : Nat) : Queue P → Type
  | .task => String
  | .stage2 _ => Pair
  | .stage3 _ => Pair

def PcOf (P : Nat) : Thread P → Type
  | .main => MainPc P
  | .source => SourceState
  | .stage1 _ => Loop.Pc String
  | .stage2 _ => Loop.Pc Pair
  | .stage3 _ => Loop.Pc Pair

section Instructions

variable {P : Nat} {σ : Type}

/-- What a thread does next: besides its pushes and pops it may attempt to save. -/
abbrev Next (P : Nat) (σ : Type) := Instr (Thread P) (Item P) (Option Save) σ

/-- The threads in the order in which `main` starts them and waits for them. -/
def tids (P : Nat) : List (Thread P) :=
  (List.finRange P).flatMap (fun i => [.stage1 i, .stage2 i, .stage3 i]) ++ [.source]

/-- The two loops of `main` over `tids`. -/
def mainInstr : MainPc P → Next P (MainPc P)
  | .spawning [] => .act none (.joining (tids P))
  | .spawning (t :: left) => .spawn t (.spawning left)
  | .joining [] => .act none .returned
  | .joining (t :: left) => .join t (.joining left)
  | .returned => .returned

def sourceInstr (env : Env) (s : SourceState) : Next P SourceState :=
  match sourceNext env P s with
  | none => .returned
  | some (none, s') => .act none s'
  | some (some name, s') => .push .task name s'

/-- A thread that pops from `k`, works and pushes, or saves: `emit` is what it does with what its body
gives. -/
def loopInstr {γ : Type} (k : Queue P) (body : Item P k → Outcome γ)
    (emit : Option γ → Loop.Pc (Item P k) → Next P (Loop.Pc (Item P k))) :
    Loop.Pc (Item P k) → Next P (Loop.Pc (Item P k))
  | .top => .pop k .holding
  | .holding b => match body b with
    | .next out => emit out .top
    | .stop out => emit out .returned
    | .throw => .throw
  | .returned => .returned

def pushIfAny (k : Queue P) : Option (Item P k) → σ → Next P σ
  | some p, next => .push k p next
  | none, next => .act none next

end Instructions

def program (env : Env) (P : Nat) : Program (Thread P) (Item P) (Option Save) where
  State := PcOf P
  start
    | .main => .spawning (tids P)
    | .source => ⟨.opening, 0⟩
    | .stage1 _ => .top
    | .stage2 _ => .top
    | .stage3 _ => .top
  instr
    | .main => mainInstr
    | .source => sourceInstr env
    | .stage1 i => loopInstr .task (stage1Body env) (pushIfAny (.stage2 i))
    | .stage2 i => loopInstr (.stage2 i) (stage2Body env) (pushIfAny (.stage3 i))
    | .stage3 i => loopInstr (.stage3 i) (stage3Body env) .act
  initial
    | .main => true
    | _ => false

/-- What the threads do to the world: attempts to save, or nothing. -/
def saveEffect (env : Env) : Option Save → World → World
  | some save, world => trySave env .cout save world
  | none, world => world

end ParallelWatermark.CppWatermark
