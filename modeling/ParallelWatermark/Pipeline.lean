import ParallelWatermark.Process.Chain
import ParallelWatermark.Process.Loop
import ParallelWatermark.Process.SharedQueue
import ParallelWatermark.World

/-!
# The plain C++ networks

The threads of `pipeline.cpp` and the two networks made of them: `cpp_watermark` runs `Source` and,
for each worker, the chain `stage1`, `stage2`, `stage3`; the master-worker version runs `Source` and
one `stage123` for each worker. A push, a pop and an attempt to save are one step each. The end of
the stream is the string `"EOS"`, sent in band, once for each worker and, when the folder could be
read, once more.
-/

namespace ParallelWatermark

open Process

/-- The item on which consumers stop. -/
def isEos (name : String) : Bool := name == "EOS"

/-- A file name and the image loaded from it. -/
abbrev Pair := String × Img

/-! ### The threads -/

inductive SourcePc where
  | opening
  /-- In the `readdir` loop, with the entries still to be returned. -/
  | reading (entries : List String)
  /-- In the loop pushing `"EOS"`, with the number of pushes still to be made. -/
  | sendingEos (left : Nat)
  | returned
  deriving DecidableEq, Repr

structure SourceState where
  pc : SourcePc
  nImgs : Nat
  deriving DecidableEq, Repr

/-- One step of `Source(par_deg)`. -/
def sourceNext (env : Env) (parDeg : Nat) (s : SourceState) :
    Option (Option String × SourceState) :=
  match s.pc with
  | .opening => match env.dir with
    | none => some (none, ⟨.sendingEos parDeg, s.nImgs⟩)
    | some entries => some (none, ⟨.reading entries, s.nImgs⟩)
  | .reading [] => some (none, ⟨.sendingEos (parDeg + 1), s.nImgs⟩)
  | .reading (entry :: entries) =>
    if isDots entry then some (none, ⟨.reading entries, s.nImgs⟩)
    else some (some entry, ⟨.reading entries, s.nImgs + 1⟩)
  | .sendingEos 0 => some (none, ⟨.returned, s.nImgs⟩)
  | .sendingEos (left + 1) => some (some "EOS", ⟨.sendingEos left, s.nImgs⟩)
  | .returned => none

def source (env : Env) (parDeg : Nat) : Emitter String where
  State := SourceState
  start := ⟨.opening, 0⟩
  next := sourceNext env parDeg

def stage1Body (env : Env) (fileName : String) : Outcome Pair :=
  if isEos fileName then .stop (some ("EOS", Img.empty))
  else match env.load (env.pathIn ++ fileName) with
    | none => .throw
    | some img => .next (some (fileName, img))

def stage2Body (env : Env) (p : Pair) : Outcome Pair :=
  if isEos p.1 then .stop (some p)
  else .next (some (p.1, pipeProcessImage p.2 env.watermark env.aVg))

/-- `stage3`. Whether the save succeeds or its exception is caught, the loop goes on. -/
def stage3Body (env : Env) (p : Pair) : Outcome Save :=
  if isEos p.1 then .stop none
  else .next (some ⟨env.pathOut ++ p.1, p.2⟩)

def stage123Body (env : Env) (fileName : String) : Outcome Save :=
  if isEos fileName then .stop none
  else match env.load (env.pathIn ++ fileName) with
    | none => .throw
    | some img => .next (some ⟨env.pathOut ++ fileName, pipeProcessImage img env.watermark env.aVg⟩)

def stage1 (env : Env) : Component String Pair Unit := loop (stage1Body env)
def stage2 (env : Env) : Component Pair Pair Unit := loop (stage2Body env)
def stage3 (env : Env) : Component Pair Save Unit := loop (stage3Body env)
def stage123 (env : Env) : Component String Save Unit := loop (stage123Body env)

/-! ### The networks -/

/-- Silent moves of a worker's three threads: the pushes and pops of its two queues. -/
abbrev PipelineMove := ChainMove (ChainMove Unit Pair Unit) Pair Unit

/-- `stage1(i)`, `stage2task_queue[i]`, `stage2(i)`, `stage3task_queue[i]`, `stage3(i)`. -/
def pipeline (env : Env) : Component String Save PipelineMove :=
  chain (chain (stage1 env) (stage2 env)) (stage3 env)

section Networks

variable {τ : Type} (env : Env) (P : Nat) (C : Component String Save τ) (stream : Stream)

abbrev NetworkState := Farm.State (Fin P) World (SharedQueue.feed (Fin P) (source env P)) C

/-- A step of the network of `Source(P)` and `P` workers on `task_queue`, whose save handlers print
to `stream`. -/
abbrev NetworkStep : NetworkState env P C → Farm.Event (Fin P) String Save τ (Option String) → NetworkState env P C → Prop :=
  Farm.Step (SharedQueue.feed (Fin P) (source env P)) C (trySave env stream)

abbrev NetworkHistory (evs : List (Farm.Event (Fin P) String Save τ (Option String)))
    (s : NetworkState env P C) : Prop :=
  Farm.History (SharedQueue.feed (Fin P) (source env P)) C (trySave env stream) World.empty evs s

end Networks

section Positions

variable {env : Env} {P : Nat} (s : NetworkState env P (pipeline env)) (i : Fin P)

/-- Where the threads of `cpp_watermark` are, and what its private queues hold. -/
def stage1Pc : Loop.Pc String := (s.worker i).left.left
def stage2TaskQueue : Fifo Pair := (s.worker i).left.queue
def stage2Pc : Loop.Pc Pair := (s.worker i).left.right
def stage3TaskQueue : Fifo Pair := (s.worker i).queue
def stage3Pc : Loop.Pc Pair := (s.worker i).right

end Positions

section Shared

variable {τ : Type} {env : Env} {P : Nat} {C : Component String Save τ} (s : NetworkState env P C)

def taskQueue : Fifo String := s.feed.queue
def nImgs : Nat := s.feed.emitter.nImgs

end Shared

end ParallelWatermark
