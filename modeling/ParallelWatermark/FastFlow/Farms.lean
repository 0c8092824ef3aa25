import ParallelWatermark.FastFlow.ProcessImage

/-!
# Farms of other workers

`ff_mw_wm` has one `stage123` for each worker. The farm of `ff_watermark_opt` has the pipelines of
`stage12_opt` and `stage3`, and the parallel for of each `stage12_opt` runs on threads of its own, so
what it leaves of an image may be different from one task to the next.
-/

namespace ParallelWatermark.FastFlow

open Process

/-- The loop around the `svc` of a worker that is not followed by another node and may throw. -/
def workerBody {α β : Type} (svc : α → Option (Guarded β)) : Packet α → Outcome Save
  | .eos => .stop none
  | .item task => match svc task with
    | none => .throw
    | some g => match g.ret with
      | .null => .stop (some g.save)
      | _ => .next (some g.save)

def masterWorker (env : Env) : Component (Packet String) Save Unit := loop (workerBody (stage123 env))

/-- What `ff_process_image` leaves of the image of each task. -/
abbrev Processing := String → Img → Img

/-- It is what a call may leave of an image with rows, if there are calls. -/
def Processing.Possible (numCores : Nat) (env : Env) (opts : PfOptions) (process : Processing) : Prop :=
  opts.enablePf = "on" → ∀ task img, 0 < img.rows →
    ∃ calls, FfProcessImage numCores opts.maxNw img env.watermark opts.chunkSz env.aVg calls (process task img)

/-- `stage12_opt::svc`. -/
def stage12OptOn (process : Processing) (env : Env) (opts : PfOptions) (task : String) : Option (Ret Pair) :=
  (env.load (env.pathIn ++ task)).map fun img =>
    .out (task, if opts.enablePf == "on" then process task img else pipeProcessImage img env.watermark false)

/-- `ff_Pipe<float>(first, third)`. -/
def optPipe (process : Processing) (env : Env) (opts : PfOptions) :
    Component (Packet String) Save (ChainMove Unit (Packet Pair) Unit) :=
  chain (loop (nodeBody (stage12OptOn process env opts))) (thirdNode env)

section Workers

variable {τ : Type} (env : Env) (P : Nat) (C : Component (Packet String) Save τ)

abbrev WorkersState := Farm.State (Fin P) World (Scatter.feed (Fin P) (source env)) C

/-- A step of a farm with the emitter `source`, without collector, of `P` workers. -/
abbrev WorkersStep : WorkersState env P C →
    Farm.Event (Fin P) (Packet String) Save τ (Scatter.Event (Fin P) String) → WorkersState env P C → Prop :=
  Farm.Step (Scatter.feed (Fin P) (source env)) C (trySave env .cerr)

abbrev WorkersHistory (evs : List (Farm.Event (Fin P) (Packet String) Save τ (Scatter.Event (Fin P) String)))
    (s : WorkersState env P C) : Prop :=
  Farm.History (Scatter.feed (Fin P) (source env)) C (trySave env .cerr) World.empty evs s

/-- `MAX_NUM_THREADS`. -/
def maxNumThreads : Nat := 256

/-- `ff_farm::cardinality` without collector, of workers that have so many threads each. -/
def cardinality (P threads : Nat) : Nat := P * threads + 1

/-- What `run_and_wait_end` has done when nothing can happen any more. -/
inductive RunAndWaitEnd (threads : Nat) :
    List (Farm.Event (Fin P) (Packet String) Save τ (Scatter.Event (Fin P) String)) → WorkersState env P C → Prop
  | refused (hmany : maxNumThreads < cardinality P threads) :
      RunAndWaitEnd threads [] (Farm.start (Scatter.feed (Fin P) (source env)) C World.empty)
  | ran {evs : List (Farm.Event (Fin P) (Packet String) Save τ (Scatter.Event (Fin P) String))} {s : WorkersState env P C}
      (hfew : cardinality P threads ≤ maxNumThreads) (hrun : WorkersHistory env P C evs s)
      (hterminal : Terminal (WorkersStep env P C) s) : RunAndWaitEnd threads evs s

end Workers

end ParallelWatermark.FastFlow
