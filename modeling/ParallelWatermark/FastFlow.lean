import ParallelWatermark.Pipeline
import ParallelWatermark.Process.Scatter

/-!
# The FastFlow programs

The nodes of `ff_farm.cpp`, each as the function its `svc` computes, and the farm that
`ff_watermark` builds of them. What the library does around `svc` is `nodeBody` and `lastBody` for a
stage of a pipeline and `Process.Scatter` for a farm without collector; the ranges on which
`parallel_for_idx` calls its function are a parameter.
-/

namespace ParallelWatermark.FastFlow

open Process

/-- What `svc` returns: `NULL`, which `EOS` stands for, `GO_ON`, or a task for the next stage. -/
inductive Ret (β : Type) where
  | null
  | goOn
  | out (b : β)
  deriving DecidableEq, Repr

/-- What `svc` of a saving node does: a save whose `CImgIOException` is caught and reported on a
stream, and its result. -/
structure Guarded (β : Type) where
  save : Save
  handler : Stream
  ret : Ret β
  deriving DecidableEq, Repr

/-! ### The nodes -/

inductive SourcePc where
  | opening
  /-- In the `readdir` loop, with the entries still to be returned. -/
  | reading (entries : List String)
  | returned
  deriving DecidableEq, Repr

structure SourceState where
  pc : SourcePc
  nImgs : Nat
  deriving DecidableEq, Repr

/-- One step of `source::svc`; the items are those given to `ff_send_out`. -/
def sourceNext (env : Env) (s : SourceState) : Option (Option String × SourceState) :=
  match s.pc with
  | .opening => match env.dir with
    | none => some (none, ⟨.returned, s.nImgs⟩)
    | some entries => some (none, ⟨.reading entries, s.nImgs⟩)
  | .reading [] => some (none, ⟨.returned, s.nImgs⟩)
  | .reading (entry :: entries) =>
    if isDots entry then some (none, ⟨.reading entries, s.nImgs⟩)
    else some (some entry, ⟨.reading entries, s.nImgs + 1⟩)
  | .returned => none

def source (env : Env) : Emitter String where
  State := SourceState
  start := ⟨.opening, 0⟩
  next := sourceNext env

/-- `stage1::svc`; `none` when the `CImg` constructor throws. -/
def stage1 (env : Env) (task : String) : Option (Ret Pair) :=
  (env.load (env.pathIn ++ task)).map fun img => .out (task, img)

def stage2 (env : Env) (p : Pair) : Ret Pair :=
  .out (p.1, pipeProcessImage p.2 env.watermark env.aVg)

def stage3 (env : Env) (p : Pair) : Guarded Pair := ⟨⟨env.pathOut ++ p.1, p.2⟩, .cerr, .goOn⟩

def stage12 (env : Env) (task : String) : Option (Ret Pair) :=
  (env.load (env.pathIn ++ task)).map fun img => .out (task, pipeProcessImage img env.watermark env.aVg)

def stage123 (env : Env) (task : String) : Option (Guarded String) :=
  (env.load (env.pathIn ++ task)).map fun img =>
    ⟨⟨env.pathOut ++ task, pipeProcessImage img env.watermark env.aVg⟩, .cerr, .out task⟩

/-! ### The parallel for -/

/-- `ParallelFor(nw).parallel_for_idx(first, last, step, grain, f)`: the ranges `[start, stop)` on
which `f` is called, in the order of the calls. -/
abbrev ParallelForIdx := (nw first last step grain : Int) → List (Nat × Nat)

/-- The function `ff_process_image` hands to `parallel_for_idx`. Its two loops over the rows of the
range are nested. -/
def rangeBody (watermark : Img) (average : Bool) (width start stop : Nat) (img : Img) : Img :=
  (List.range' start (stop - start)).foldl
    (fun img _r => watermarkRows watermark average width (List.range' start (stop - start)) img) img

def ffProcessImage (parallelForIdx : ParallelForIdx) (maxNw : Int) (img watermark : Img)
    (chunk : Int) (average : Bool) :
    Img :=
  (parallelForIdx maxNw 0 img.height 1 chunk).foldl
    (fun acc call => rangeBody watermark average img.cols call.1 call.2 acc) img

/-- The globals that only `stage12_opt` reads. -/
structure PfOptions where
  enablePf : String
  maxNw : Int
  chunkSz : Int

def stage12Opt (parallelForIdx : ParallelForIdx) (env : Env) (opts : PfOptions) (task : String) :
    Option (Ret Pair) :=
  (env.load (env.pathIn ++ task)).map fun img =>
    .out (task,
      if opts.enablePf == "on" then
        ffProcessImage parallelForIdx opts.maxNw img env.watermark opts.chunkSz env.aVg
      else pipeProcessImage img env.watermark false)

/-! ### The farm -/

/-- The loop around the `svc` of a stage that is followed by another. -/
def nodeBody {α β : Type} (svc : α → Option (Ret β)) : Packet α → Outcome (Packet β)
  | .eos => .stop (some .eos)
  | .item task => match svc task with
    | none => .throw
    | some .null => .stop (some .eos)
    | some .goOn => .next none
    | some (.out b) => .next (some (.item b))

/-- The loop around the `svc` of a last stage; there is no collector to send results to. -/
def lastBody {α β : Type} (svc : α → Guarded β) : Packet α → Outcome Save
  | .eos => .stop none
  | .item task => match (svc task).ret with
    | .null => .stop (some (svc task).save)
    | _ => .next (some (svc task).save)

abbrev PipeMove := ChainMove (ChainMove Unit (Packet Pair) Unit) (Packet Pair) Unit

def firstNode (env : Env) : Component (Packet String) (Packet Pair) Unit :=
  loop (nodeBody (stage1 env))
def secondNode (env : Env) : Component (Packet Pair) (Packet Pair) Unit :=
  loop (nodeBody fun p => some (stage2 env p))
def thirdNode (env : Env) : Component (Packet Pair) Save Unit := loop (lastBody (stage3 env))

/-- `ff_Pipe<float>(first, second, third)`. -/
def pipe (env : Env) : Component (Packet String) Save PipeMove :=
  chain (chain (firstNode env) (secondNode env)) (thirdNode env)

section Farm

variable (env : Env) (P : Nat)

abbrev FarmState := Farm.State (Fin P) World (Scatter.feed (Fin P) (source env)) (pipe env)

abbrev FarmEvent := Farm.Event (Fin P) (Packet String) Save PipeMove (Scatter.Event (Fin P) String)

/-- A step of the farm of `ff_watermark` with `P` workers. -/
abbrev FarmStep : FarmState env P → FarmEvent P → FarmState env P → Prop :=
  Farm.Step (Scatter.feed (Fin P) (source env)) (pipe env) (trySave env .cerr)

abbrev FarmHistory (evs : List (FarmEvent P)) (s : FarmState env P) : Prop :=
  Farm.History (Scatter.feed (Fin P) (source env)) (pipe env) (trySave env .cerr) World.empty evs s

variable {env P}

def nImgs (s : FarmState env P) : Nat := s.feed.emitter.nImgs

end Farm

end ParallelWatermark.FastFlow
