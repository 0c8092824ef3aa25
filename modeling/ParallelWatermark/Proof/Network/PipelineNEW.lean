import ParallelWatermark.PipelineNEW
import ParallelWatermark.Proof.Network.BoundedSource

/-!
# The pointer-passing network, fused and unfused

The two threads `stage12`, `stage3` and the three threads `stage1`, `stage2`, `stage3` make the same
attempt to save of every name, so both networks come to the same end.
-/

namespace ParallelWatermark.PipelineNEW

open Process

variable {env : Env} {nImgs : Int} {P : Nat}

/-! ### The workers -/

/-- What `stage12` pushes for a name. -/
def markedPair (env : Env) (name : String) : Option Pair :=
  (loadPair env name).bind fun p => some (markPair (plain env) p)

theorem stage12_spec (env : Env) : (stage12 env).Spec isEos (markedPair env) (loads env) := by
  refine (Loop.spec (stage12Body env)).congr (fun name => ?_) (fun name => ?_) (fun name => ?_)
  all_goals
    cases heos : isEos name with
    | true =>
      simp [Loop.isLast, Loop.output, Loop.accepts, stage12Body, markedPair, loadPair, markPair, loads,
        eosPair, heos, Outcome.stops, Outcome.out, Outcome.succeeds]
    | false =>
      cases hload : env.load (env.pathIn ++ name) <;>
        simp [Loop.isLast, Loop.output, Loop.accepts, stage12Body, markedPair, loadPair, markPair, loads,
          plain, heos, hload, Outcome.stops, Outcome.out, Outcome.succeeds]

theorem forwards_stage12 (env : Env) : Chain.Forwards isEos (markedPair env) (fun p : Pair => isEos p.1) :=
  (forwards_stage1 env).comp (forwards_stage2 (plain env))

/-- Two threads and one queue make of a name what three threads and two queues make of it. -/
theorem fused_spec (env : Env) : IsWorker (plain env) (fused env) := by
  have hspec := Chain.spec (stage12_spec env) (stage3_spec (plain env)) (forwards_stage12 env)
  refine hspec.congr (fun _ => rfl) (fun name => ?_) (fun name => ?_)
  · cases heos : isEos name with
    | true => simp [attempt, markedPair, loadPair, heos, savePair, markPair, eosPair]
    | false =>
      cases hload : env.load (env.pathIn ++ name) <;>
        simp [attempt, markedPair, loadPair, heos, hload, savePair, markPair, savedAs, plain]
  · cases hpair : markedPair env name <;> simp [Chain.chainOk, hpair, loads, plain]

theorem unfused_spec (env : Env) : IsWorker (plain env) (unfused env) := pipeline_spec (plain env)

theorem fused_ranked (env : Env) : (fused env).Ranked 4 0 (Chain.rank 2 (Loop.rank 2) (Loop.rank 0)) :=
  Chain.ranked (Loop.ranked (stage12Body env) 2) (Loop.ranked (stage3Body (plain env)) 0)

theorem unfused_ranked (env : Env) : (unfused env).Ranked 6 0 (pipelineRank (plain env)) :=
  pipeline_ranked (plain env)

/-! ### Runs of a network -/

/-- The network does not deadlock and always comes to its end. -/
structure Terminates {τ : Type} (env : Env) (nImgs : Int) (P : Nat) (C : Component String Save τ) : Prop where
  progress : ∀ evs s, NetworkHistory env nImgs P C evs s → ¬ SharedQueue.Returned s →
    ∃ e s', NetworkStep env nImgs P C s e s'
  finite : ¬ ∃ (state : Nat → NetworkState env nImgs P C) (label : Nat → _),
    ∀ n, NetworkStep env nImgs P C (state n) (label n) (state (n + 1))

/-- What `Source` pushes. -/
def stream (env : Env) (nImgs : Int) (P : Nat) : List String := boundedStream env nImgs P (P + 1)

/-- The folder holds the watermarked images of the given names, `"EOS"` and the names whose save
throws excepted, and nothing else. -/
def HoldsImages (env : Env) (load : String → Img) (names : List String) (folder : String → Option Img) : Prop :=
  ∀ path img, folder path = some img ↔ ∃ name ∈ names, isEos name = false ∧ env.saveThrows path = false ∧
    path = env.pathOut ++ name ∧ img = pipeProcessImage (load (env.pathIn ++ name)) env.watermark false

theorem HoldsImages.unique {env : Env} {load : String → Img} {names : List String}
    {folder folder' : String → Option Img} (hholds : HoldsImages env load names folder)
    (hholds' : HoldsImages env load names folder') : folder = folder' := by
  ext path img
  rw [hholds, hholds']

theorem le_countP_stream (env : Env) (nImgs : Int) (P : Nat) : P ≤ (stream env nImgs P).countP isEos :=
  le_countP_eos env.dir (env.listing.take nImgs.toNat) (Nat.le_refl P) (Nat.le_succ P)

section Runs

variable {τ : Type} {env : Env} {nImgs : Int} {P : Nat} {C : Component String Save τ}
  {evs : List (Farm.Event (Fin P) String Save τ (Option String))} {s : NetworkState env nImgs P C}
  {load : String → Img} (hload : ∀ path, env.load path = some (load path)) (hC : IsWorker (plain env) C)
include hload hC

theorem returned_of_terminal (hrun : NetworkHistory env nImgs P C evs s)
    (hterminal : Terminal (NetworkStep env nImgs P C) s) : SharedQueue.Returned s := by
  obtain ⟨final, hyields⟩ := bounded_yields env nImgs P (P + 1)
  refine SharedQueue.returned_of_terminal_of_ok hC hyields (Farm.split_of_history hrun) ?_ (fun name _ => ?_) hterminal
  · simpa [stream] using le_countP_stream env nImgs P
  · simp [loads, plain, hload]

theorem terminates {cin cout : Nat} {rank : C.State → Nat} (hrank : C.Ranked cin cout rank) :
    Terminates env nImgs P C where
  progress evs s hrun hunfinished := by
    by_contra hstuck
    exact hunfinished (returned_of_terminal hload hC hrun fun e s' hstep => hstuck ⟨e, s', hstep⟩)
  finite := not_exists_infinite fun s e s' hstep =>
    SharedQueue.rank_lt (bounded_ranked env nImgs P (P + 1) cin) hrank hstep

/-- What a network leaves: the images of the names its workers have taken. -/
theorem holdsImages_of_terminal (hrun : NetworkHistory env nImgs P C evs s)
    (hterminal : Terminal (NetworkStep env nImgs P C) s) :
    HoldsImages env load (upTo isEos P (stream env nImgs P)) s.world.folder := by
  intro path img
  obtain ⟨final, hyields⟩ := bounded_yields env nImgs P (P + 1)
  have hattempts : (attempts evs).Perm ((upTo isEos P (stream env nImgs P)).filterMap (attempt (plain env))) := by
    have hperm := SharedQueue.sends_perm hC hyields (Farm.split_of_history hrun)
      (returned_of_terminal hload hC hrun hterminal)
    rwa [Fintype.card_fin] at hperm
  have hworld : s.world = trySaves (plain env) .cout (attempts evs) World.empty := by
    rw [(Farm.split_of_history hrun).world, attempts, trySaves, List.foldl_map]
    rfl
  rw [hworld, folder_eq_some_iff hattempts]
  constructor
  · intro hsaved
    obtain ⟨⟨name, hname, hattempt⟩, hok⟩ := hsaved
    obtain ⟨hdata, img', himg, hsave⟩ := attempt_eq_some.mp hattempt
    obtain rfl := Option.some_inj.mp ((hload _).symm.trans himg)
    exact ⟨name, hname, hdata, hok, congrArg Save.path hsave, congrArg Save.img hsave⟩
  · intro hsaved
    obtain ⟨name, hname, hdata, hok, rfl, rfl⟩ := hsaved
    exact ⟨⟨name, hname, attempt_eq_some.mpr ⟨hdata, _, hload _, rfl⟩⟩, hok⟩

end Runs

/-- The networks of `farm_pipes.cpp`, with `stage12` and without, never deadlock and always come to
their end. Either of them, under any interleaving, leaves the watermarked images of the names before
the `P`-th `"EOS"` of the stream, except where the save has failed. -/
theorem fused_agrees {env : Env} {load : String → Img} (hload : ∀ path, env.load path = some (load path))
    (nImgs : Int) (P : Nat) :
    Terminates env nImgs P (fused env) ∧ Terminates env nImgs P (unfused env) ∧
    ∃ taken, IsShortest isEos P (stream env nImgs P) taken ∧
      ∀ evs s evs' s', NetworkHistory env nImgs P (fused env) evs s →
        Terminal (NetworkStep env nImgs P (fused env)) s → NetworkHistory env nImgs P (unfused env) evs' s' →
          Terminal (NetworkStep env nImgs P (unfused env)) s' →
        s.world.folder = s'.world.folder ∧ HoldsImages env load taken s.world.folder := by
  refine ⟨terminates hload (fused_spec env) (fused_ranked env), terminates hload (unfused_spec env) (unfused_ranked env),
    upTo isEos P (stream env nImgs P), upTo_isShortest (le_countP_stream env nImgs P), ?_⟩
  intro evs s evs' s' hrun hterminal hrun' hterminal'
  have hfused := holdsImages_of_terminal hload (fused_spec env) hrun hterminal
  have hunfused := holdsImages_of_terminal hload (unfused_spec env) hrun' hterminal'
  exact ⟨hfused.unique hunfused, hfused⟩

/-- Three entries, one of them called `"EOS"` and one whose save fails. -/
def obstructedEnv : Env where
  pathIn := "in/"
  pathOut := "out/"
  watermark := Img.column 0 200
  aVg := true
  dir := some ["a", "b", "EOS"]
  load _ := some (Img.column 9 9)
  saveThrows path := path == "out/b"

theorem fused_agrees_inhabited :
    ∃ evs, ∃ s : NetworkState obstructedEnv 5 1 (fused obstructedEnv), ∃ evs',
      ∃ s' : NetworkState obstructedEnv 5 1 (unfused obstructedEnv),
        NetworkHistory obstructedEnv 5 1 (fused obstructedEnv) evs s ∧
        NetworkHistory obstructedEnv 5 1 (unfused obstructedEnv) evs' s' ∧ s.world.folder = s'.world.folder := by
  have hload : ∀ path, obstructedEnv.load path = some ((fun _ => Img.column 9 9) path) := fun _ => rfl
  obtain ⟨-, -, taken, -, hagree⟩ := fused_agrees hload 5 1
  obtain ⟨evs, s, hrun, hterminal⟩ := Run.exists_terminal (fun s e s' hstep =>
    SharedQueue.rank_lt (bounded_ranked obstructedEnv 5 1 2 4) (fused_ranked obstructedEnv) hstep)
    (Run.nil : NetworkHistory obstructedEnv 5 1 (fused obstructedEnv) [] _)
  obtain ⟨evs', s', hrun', hterminal'⟩ := Run.exists_terminal (fun s e s' hstep =>
    SharedQueue.rank_lt (bounded_ranked obstructedEnv 5 1 2 6) (unfused_ranked obstructedEnv) hstep)
    (Run.nil : NetworkHistory obstructedEnv 5 1 (unfused obstructedEnv) [] _)
  exact ⟨_, s, _, s', hrun, hrun', (hagree _ s _ s' hrun hterminal hrun' hterminal').1⟩

end ParallelWatermark.PipelineNEW
