import ParallelWatermark.Proof.Network.Outcome

/-!
# Complete runs of the plain C++ networks

Loads succeed here; saves may fail, and entries may be called `"EOS"`. The network of
`cpp_watermark` makes each attempt to save exactly once, it always comes to its end, and the
master-worker network ends as it does.
-/

namespace ParallelWatermark

open Process

section Totals

variable {env : Env} {P : Nat} {load : String → Img} (hload : ∀ path, env.load path = some (load path))
include hload

theorem loads_of_total (name : String) : loads env name = true := by simp [loads, hload]

theorem attempt_of_total (name : String) :
    attempt env name = if isEos name then none else some (savedAs env name (load (env.pathIn ++ name))) := by
  simp [attempt, hload]

theorem filterMap_attempt_of_total (names : List String) :
    names.filterMap (attempt env) =
      (names.filter fun name => !isEos name).map fun name => savedAs env name (load (env.pathIn ++ name)) := by
  induction names with
  | nil => rfl
  | cons name names ih =>
    rw [List.filterMap_cons, attempt_of_total hload, List.filter_cons]
    cases heos : isEos name with
    | true => simpa using ih
    | false => simpa using ih

section Run

variable {τ : Type} {C : Component String Save τ} {st : Stream}
  {evs : List (Farm.Event (Fin P) String Save τ (Option String))} {s : NetworkState env P C}

theorem returned_of_terminal_of_total (hC : IsWorker env C) (hrun : NetworkHistory env P C st evs s)
    (hterminal : Terminal (NetworkStep env P C st) s) : SharedQueue.Returned s :=
  returned_of_terminal hC hrun (aborted_eq_false hC hrun fun name _ => loads_of_total hload name) hterminal

theorem exists_step (hC : IsWorker env C) (hrun : NetworkHistory env P C st evs s)
    (hunfinished : ¬ SharedQueue.Returned s) : ∃ e s', NetworkStep env P C st s e s' := by
  by_contra hstuck
  exact hunfinished (returned_of_terminal_of_total hload hC hrun fun e s' hstep => hstuck ⟨e, s', hstep⟩)

theorem exists_returned_of_total (hC : IsWorker env C) {c cout : Nat} {workerRank : C.State → Nat}
    (hrank : C.Ranked c cout workerRank) (P : Nat) (st : Stream) :
    ∃ evs, ∃ s : NetworkState env P C, NetworkHistory env P C st evs s ∧ SharedQueue.Returned s :=
  exists_returned hC hrank (fun name _ => loads_of_total hload name) .nil

end Run

end Totals

/-! ### Exactly once -/

theorem privateQueues_eq_nil {env : Env} {P : Nat} {st : Stream}
    {evs : List (Farm.Event (Fin P) String Save PipelineMove (Option String))}
    {s : NetworkState env P (pipeline env)}
    (hrun : NetworkHistory env P (pipeline env) st evs s) (hreturned : SharedQueue.Returned s)
    (i : Fin P) :
    (stage2TaskQueue s i).items = [] ∧ (stage3TaskQueue s i).items = [] := by
  have hworker := (Farm.split_of_history hrun).worker i
  have hfirst := Chain.spec (stage1_spec env) (stage2_spec env) (forwards_stage1 env)
  have hforwards := (forwards_stage1 env).comp (forwards_stage2 env)
  constructor
  · apply Chain.queue_eq_nil_of_halted (stage1_spec env) (stage2_spec env) (forwards_stage1 env)
    · exact (Chain.split_of_history hworker).left
    · exact (Chain.halted_iff.mp (hreturned.2.2 i)).1
  · exact Chain.queue_eq_nil_of_halted hfirst (stage3_spec env) hforwards hworker (hreturned.2.2 i)

/-- When all threads of `cpp_watermark` have returned, the names before the `P`-th `"EOS"` of the
stream have each had one attempt to save their own watermarked image, and there has been no other
attempt. -/
theorem cppWatermark_exactly_once {env : Env} {P : Nat} {load : String → Img}
    (hload : ∀ path, env.load path = some (load path))
    {evs : List (Farm.Event (Fin P) String Save PipelineMove (Option String))}
    {s : NetworkState env P (pipeline env)}
    (hrun : NetworkHistory env P (pipeline env) .cout evs s) (hreturned : SharedQueue.Returned s) :
    SharedQueue.emits evs = stream env P ∧
    (∃ taken, IsShortest isEos P (stream env P) taken ∧
      (attempts evs).Perm ((taken.filter fun name => !isEos name).map fun name =>
        ⟨env.pathOut ++ name, pipeProcessImage (load (env.pathIn ++ name)) env.watermark env.aVg⟩) ∧
      taken ++ (taskQueue s).items = stream env P) ∧
    (∀ i, (stage2TaskQueue s i).items = [] ∧ (stage3TaskQueue s i).items = []) ∧
    (∀ path img, s.world.folder path = some img ↔ ⟨path, img⟩ ∈ attempts evs ∧ env.saveThrows path = false) ∧
    nImgs s = env.listing.length := by
  have hC := pipeline_spec env
  have hattempts := attempts_perm hC hrun hreturned
  refine ⟨?_, ⟨processed env P, upTo_isShortest (le_countP_stream env P), ?_, ?_⟩, ?_, ?_, ?_⟩
  · exact (SharedQueue.emits_eq_of_halted (source_yields env P) (Farm.split_of_history hrun) hreturned.2.1).1
  · rwa [filterMap_attempt_of_total hload] at hattempts
  · exact processed_append_taskQueue hC hrun hreturned
  · exact privateQueues_eq_nil hrun hreturned
  · intro path img
    rw [world_eq hrun, folder_trySaves (attempts_functional hattempts)]
  · exact nImgs_eq hrun hreturned

/-- A folder in which an entry is called `"EOS"`, and what two pipelines make of it. -/
def collidingEnv : Env := uniformEnv ["a", "EOS", "b"] (Img.column 9 9) (Img.column 0 200) false

theorem cppWatermark_exactly_once_inhabited :
    ∃ (evs : List (Farm.Event (Fin 2) String Save PipelineMove (Option String)))
      (s : NetworkState collidingEnv 2 (pipeline collidingEnv)),
      NetworkHistory collidingEnv 2 (pipeline collidingEnv) .cout evs s ∧
      SharedQueue.emits evs = ["a", "EOS", "b", "EOS", "EOS", "EOS"] ∧
      (∀ path img, s.world.folder path = some img ↔
        ⟨path, img⟩ ∈ attempts evs ∧ collidingEnv.saveThrows path = false) ∧ nImgs s = 3 := by
  have hload : ∀ path, collidingEnv.load path = some (Img.column 9 9) := fun _ => rfl
  obtain ⟨evs, s, hrun, hreturned⟩ := exists_returned_of_total hload (pipeline_spec collidingEnv)
    (pipeline_ranked collidingEnv) 2 .cout
  obtain ⟨hemits, -, -, hfolder, hn⟩ := cppWatermark_exactly_once hload hrun hreturned
  exact ⟨evs, s, hrun, hemits.trans (by decide), hfolder, hn.trans (by decide)⟩

/-! ### Termination -/

/-- The network of `cpp_watermark` never deadlocks, each of its steps lowers a rank, and a run that
cannot be continued has seen every thread return. -/
theorem cppWatermark_terminates {env : Env} {load : String → Img}
    (hload : ∀ path, env.load path = some (load path))
    (P : Nat) :
    (∀ evs s, NetworkHistory env P (pipeline env) .cout evs s → ¬ SharedQueue.Returned s →
      ∃ e s', NetworkStep env P (pipeline env) .cout s e s') ∧
    (∀ s e s', NetworkStep env P (pipeline env) .cout s e s' →
      networkRank 6 (pipelineRank env) s' < networkRank 6 (pipelineRank env) s) ∧
    (¬ ∃ (state : Nat → NetworkState env P (pipeline env)) (label : Nat → _),
      ∀ n, NetworkStep env P (pipeline env) .cout (state n) (label n) (state (n + 1))) ∧
    ∀ evs s, NetworkHistory env P (pipeline env) .cout evs s → Terminal (NetworkStep env P (pipeline env) .cout) s →
      SharedQueue.Returned s := by
  have hrank := networkRank_lt env P .cout (pipeline_ranked env)
  refine ⟨?_, hrank, not_exists_infinite hrank, ?_⟩
  · exact fun evs s hrun hunfinished => exists_step hload (pipeline_spec env) hrun hunfinished
  · exact fun evs s hrun hterminal => returned_of_terminal_of_total hload (pipeline_spec env) hrun hterminal

theorem cppWatermark_terminates_inhabited :
    ∃ evs s, NetworkHistory collidingEnv 2 (pipeline collidingEnv) .cout evs s ∧
      SharedQueue.Returned s := by
  have hload : ∀ path, collidingEnv.load path = some (Img.column 9 9) := fun _ => rfl
  obtain ⟨-, hrank, -, hreturned⟩ := cppWatermark_terminates hload 2
  obtain ⟨evs, s, hrun, hterminal⟩ := Run.exists_terminal hrank .nil
  exact ⟨_, s, hrun, hreturned _ s hrun hterminal⟩

/-! ### The master-worker network -/

/-- The network of `Source` and `P` threads running `stage123` never deadlocks and always comes to
its end, and ends as any complete run of `cpp_watermark` on the same folder does. -/
theorem masterWorker_agrees {env : Env} {load : String → Img}
    (hload : ∀ path, env.load path = some (load path))
    (P : Nat) :
    (∀ evs s, NetworkHistory env P (stage123 env) .cerr evs s → ¬ SharedQueue.Returned s →
      ∃ e s', NetworkStep env P (stage123 env) .cerr s e s') ∧
    (∀ s e s', NetworkStep env P (stage123 env) .cerr s e s' →
      networkRank 2 (Loop.rank 0) s' < networkRank 2 (Loop.rank 0) s) ∧
    (¬ ∃ (state : Nat → NetworkState env P (stage123 env)) (label : Nat → _),
      ∀ n, NetworkStep env P (stage123 env) .cerr (state n) (label n) (state (n + 1))) ∧
    ∀ evs s evs' s', NetworkHistory env P (stage123 env) .cerr evs s → Terminal (NetworkStep env P (stage123 env) .cerr) s →
      NetworkHistory env P (pipeline env) .cout evs' s' → Terminal (NetworkStep env P (pipeline env) .cout) s' →
      s.world.folder = s'.world.folder ∧ s.world.failedSaves = s'.world.failedSaves ∧
        nImgs s = nImgs s' ∧
        (taskQueue s).items = (taskQueue s').items := by
  have hrank := networkRank_lt env P .cerr (stage123_ranked env)
  refine ⟨?_, hrank, not_exists_infinite hrank, ?_⟩
  · exact fun evs s hrun hunfinished => exists_step hload (stage123_spec env) hrun hunfinished
  intro evs s evs' s' hrun hterminal hrun' hterminal'
  have hreturned := returned_of_terminal_of_total hload (stage123_spec env) hrun hterminal
  have hreturned' := returned_of_terminal_of_total hload (pipeline_spec env) hrun' hterminal'
  obtain ⟨hfolder, hfailed⟩ := world_congr .cerr .cout (attempts_perm (stage123_spec env) hrun hreturned)
    (attempts_perm (pipeline_spec env) hrun' hreturned')
  refine ⟨?_, ?_, ?_, ?_⟩
  · rwa [world_eq hrun, world_eq hrun']
  · rwa [world_eq hrun, world_eq hrun']
  · rw [nImgs_eq hrun hreturned, nImgs_eq hrun' hreturned']
  · have hleft := processed_append_taskQueue (stage123_spec env) hrun hreturned
    have hright := processed_append_taskQueue (pipeline_spec env) hrun' hreturned'
    exact List.append_cancel_left (hleft.trans hright.symm)

theorem masterWorker_agrees_inhabited :
    ∃ evs s evs' s', NetworkHistory collidingEnv 2 (stage123 collidingEnv) .cerr evs s ∧
      NetworkHistory collidingEnv 2 (pipeline collidingEnv) .cout evs' s' ∧
        s.world.folder = s'.world.folder ∧
      (taskQueue s).items = (taskQueue s').items := by
  have hload : ∀ path, collidingEnv.load path = some (Img.column 9 9) := fun _ => rfl
  obtain ⟨-, hrank, -, hagree⟩ := masterWorker_agrees hload 2
  obtain ⟨evs, s, hrun, hterminal⟩ := Run.exists_terminal hrank .nil
  obtain ⟨evs', s', hrun', hterminal'⟩ := Run.exists_terminal
    (networkRank_lt collidingEnv 2 .cout (pipeline_ranked collidingEnv)) .nil
  obtain ⟨hfolder, -, -, hqueue⟩ := hagree _ s _ s' hrun hterminal hrun' hterminal'
  exact ⟨_, s, _, s', hrun, hrun', hfolder, hqueue⟩

end ParallelWatermark
