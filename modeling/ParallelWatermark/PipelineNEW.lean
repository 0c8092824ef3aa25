import ParallelWatermark.BoundedSource

/-!
# The pointer-passing network

`pipelineNEW.cpp` passes pointers to its pairs from queue to queue. A pair has one owner at a time,
the thread that holds its pointer, and so is passed as a value here; what is deleted, and what is
not, shows nowhere. The file has no `aVg`: its images are always watermarked plainly.
`farm_pipes.cpp` runs the three stages either as three threads, or with the first two in one.
-/

namespace ParallelWatermark.PipelineNEW

open Process

/-- The environment of the file, in which the average mode is off. -/
def plain (env : Env) : Env := { env with aVg := false }

/-- `Source(nImgs, par_deg)`. -/
def source (env : Env) (nImgs : Int) (parDeg : Nat) : Emitter String :=
  boundedSource env nImgs parDeg (parDeg + 1)

def stage1 (env : Env) : Component String Pair Unit := ParallelWatermark.stage1 (plain env)
def stage2 (env : Env) : Component Pair Pair Unit := ParallelWatermark.stage2 (plain env)

/-- `stage3`. After a save that failed the loop goes on with `continue`, before the `delete`. -/
def stage3 (env : Env) : Component Pair Save Unit := ParallelWatermark.stage3 (plain env)

def stage12Body (env : Env) (task : String) : Outcome Pair :=
  if isEos task then .stop (some ("EOS", Img.empty))
  else match env.load (env.pathIn ++ task) with
    | none => .throw
    | some img => .next (some (task, pipeProcessImage img env.watermark false))

def stage12 (env : Env) : Component String Pair Unit := loop (stage12Body env)

/-- `stage12(i)`, `stage3task_queue[i]`, `stage3(i)`. -/
def fused (env : Env) : Component String Save (ChainMove Unit Pair Unit) := chain (stage12 env) (stage3 env)

/-- `stage1(i)`, `stage2task_queue[i]`, `stage2(i)`, `stage3task_queue[i]`, `stage3(i)`. -/
def unfused (env : Env) : Component String Save PipelineMove :=
  chain (chain (stage1 env) (stage2 env)) (stage3 env)

section Networks

variable {τ : Type} (env : Env) (nImgs : Int) (P : Nat) (C : Component String Save τ)

abbrev NetworkState := Farm.State (Fin P) World (SharedQueue.feed (Fin P) (source env nImgs P)) C

/-- A step of the network of `Source(nImgs, P)` and `P` workers on `task_queue`. -/
abbrev NetworkStep : NetworkState env nImgs P C → Farm.Event (Fin P) String Save τ (Option String) →
    NetworkState env nImgs P C → Prop :=
  Farm.Step (SharedQueue.feed (Fin P) (source env nImgs P)) C (trySave env .cout)

abbrev NetworkHistory (evs : List (Farm.Event (Fin P) String Save τ (Option String)))
    (s : NetworkState env nImgs P C) : Prop :=
  Farm.History (SharedQueue.feed (Fin P) (source env nImgs P)) C (trySave env .cout) World.empty evs s

end Networks

end ParallelWatermark.PipelineNEW
