import ParallelWatermark.Pipeline

/-!
# Emitters that stop after a number of images

`populate_task` of `util.cpp` and `Source` of `pipelineNEW.cpp` run one and the same loop over the
folder, which ends also when `nImgs` names have been pushed. They differ in how many `"EOS"` they
push: after the loop, and when the folder cannot be opened.
-/

namespace ParallelWatermark

open Process

structure BoundedState where
  pc : SourcePc
  i : Int  -- the names pushed so far
  deriving DecidableEq, Repr

def boundedNext (env : Env) (nImgs : Int) (onFailure atEnd : Nat) (s : BoundedState) :
    Option (Option String × BoundedState) :=
  match s.pc with
  | .opening => match env.dir with
    | none => some (none, ⟨.sendingEos onFailure, s.i⟩)
    | some entries => some (none, ⟨.reading entries, s.i⟩)
  | .reading [] => some (none, ⟨.sendingEos atEnd, s.i⟩)
  | .reading (entry :: entries) =>
    if s.i < nImgs then
      if isDots entry then some (none, ⟨.reading entries, s.i⟩)
      else some (some entry, ⟨.reading entries, s.i + 1⟩)
    else some (none, ⟨.sendingEos atEnd, s.i⟩)
  | .sendingEos 0 => some (none, ⟨.returned, s.i⟩)
  | .sendingEos (left + 1) => some (some "EOS", ⟨.sendingEos left, s.i⟩)
  | .returned => none

def boundedSource (env : Env) (nImgs : Int) (onFailure atEnd : Nat) : Emitter String where
  State := BoundedState
  start := ⟨.opening, 0⟩
  next := boundedNext env nImgs onFailure atEnd

/-! ### `populate_task` -/

/-- `populate_task` as a thread beside the consumers of `task_queue`: when `opendir` fails it
returns without a push. -/
def populateTaskThread (env : Env) (nImgs : Int) (parDeg : Nat) : Emitter String :=
  boundedSource env nImgs 0 parDeg

def populateLoop (nImgs : Int) : List String → Int → Fifo String → Fifo String
  | [], _, taskQueue => taskQueue
  | s :: entries, i, taskQueue =>
    if i < nImgs then
      if isDots s then populateLoop nImgs entries i taskQueue
      else populateLoop nImgs entries (i + 1) (taskQueue.push s)
    else taskQueue

/-- `populate_task`, with the queue it is given. -/
def populateTask (env : Env) (nImgs : Int) (parDeg : Nat) (taskQueue : Fifo String) : Fifo String :=
  match env.dir with
  | none => taskQueue
  | some entries =>
    (List.replicate parDeg "EOS").foldl Fifo.push (populateLoop nImgs entries 0 taskQueue)

end ParallelWatermark
