import ParallelWatermark.Proof.Network.Support

/-!
# What a run of a plain C++ network leaves behind

For any worker that makes of its items what `IsWorker` says: the names popped, the saves attempted
and the world, in a state where every thread has returned. None of it depends on which worker popped
what, or on when.
-/

namespace ParallelWatermark

open Process

/-- The names all workers together pop in a complete run. -/
def processed (env : Env) (P : Nat) : List String := upTo isEos P (stream env P)

/-! ### The attempts to save -/

theorem attempt_eq_some {env : Env} {name : String} {save : Save} :
    attempt env name = some save ↔
      isEos name = false ∧ ∃ img, env.load (env.pathIn ++ name) = some img ∧
        save = savedAs env name img := by
  cases heos : isEos name with
  | true => simp [attempt, heos]
  | false => simp [attempt, heos, eq_comm]

theorem attempt_injective {env : Env} {name name' : String} {save save' : Save}
    (hsave : attempt env name = some save)
    (hsave' : attempt env name' = some save') (hpath : save.path = save'.path) : name = name' := by
  obtain ⟨-, img, -, rfl⟩ := attempt_eq_some.mp hsave
  obtain ⟨-, img', -, rfl⟩ := attempt_eq_some.mp hsave'
  exact (String.append_right_inj _).mp hpath

section Attempts

variable {env : Env} {st : Stream} {saves : List Save} {names : List String}

theorem attempts_functional (hsaves : saves.Perm (names.filterMap (attempt env))) :
    ∀ save ∈ saves, ∀ save' ∈ saves, save.path = save'.path → save = save' := by
  intro save hmem save' hmem' hpath
  obtain ⟨name, -, hsave⟩ := List.mem_filterMap.mp (hsaves.subset hmem)
  obtain ⟨name', -, hsave'⟩ := List.mem_filterMap.mp (hsaves.subset hmem')
  obtain rfl := attempt_injective hsave hsave' hpath
  exact Option.some_inj.mp (hsave.symm.trans hsave')

/-- The output folder after the attempts for some names, in whatever order they were made. -/
theorem folder_eq_some_iff (hsaves : saves.Perm (names.filterMap (attempt env))) {path : String}
    {img : Img} :
    (trySaves env st saves World.empty).folder path = some img ↔
      (∃ name ∈ names, attempt env name = some ⟨path, img⟩) ∧ env.saveThrows path = false := by
  rw [folder_trySaves (attempts_functional hsaves), hsaves.mem_iff, List.mem_filterMap]

/-- Attempts for the same names leave the same folder and the same failures, whatever their order
and whichever stream the handlers print to. -/
theorem world_congr (st st' : Stream) {saves' : List Save} (hsaves : saves.Perm (names.filterMap (attempt env)))
    (hsaves' : saves'.Perm (names.filterMap (attempt env))) :
    (trySaves env st saves World.empty).folder = (trySaves env st' saves' World.empty).folder ∧
      (trySaves env st saves World.empty).failedSaves = (trySaves env st' saves' World.empty).failedSaves :=
  ⟨folder_trySaves_perm st st' (hsaves.trans hsaves'.symm) (attempts_functional hsaves'),
    failedSaves_trySaves_perm st st' (hsaves.trans hsaves'.symm)⟩

end Attempts

/-! ### Complete runs -/

section Runs

variable {τ : Type} {env : Env} {P : Nat} {C : Component String Save τ} {st : Stream}
  {evs : List (Farm.Event (Fin P) String Save τ (Option String))} {s : NetworkState env P C}

def attempts {α κ : Type} (evs : List (Farm.Event (Fin P) α Save τ κ)) : List Save :=
  (Farm.sends evs).map Prod.snd

def popped {κ : Type} (evs : List (Farm.Event (Fin P) String Save τ κ)) : List String :=
  (Farm.takes evs).map Prod.snd

theorem world_eq (hrun : NetworkHistory env P C st evs s) :
    s.world = trySaves env st (attempts evs) World.empty := by
  rw [(Farm.split_of_history hrun).world, attempts, trySaves, List.foldl_map]

/-- In any reachable state `task_queue` holds the rest of what `Source` has pushed. -/
theorem popped_append_taskQueue (hrun : NetworkHistory env P C st evs s) :
    popped evs ++ (taskQueue s).items = SharedQueue.emits evs ∧
      SharedQueue.emits evs <+: stream env P :=
  SharedQueue.takes_append_queue (source_yields env P) (Farm.split_of_history hrun)

theorem popped_subset_stream (hrun : NetworkHistory env P C st evs s) {name : String}
    (hname : name ∈ popped evs) :
    name ∈ stream env P := by
  obtain ⟨hqueue, hpre⟩ := popped_append_taskQueue hrun
  exact hpre.subset (hqueue ▸ List.mem_append_left _ hname)

section Returned

variable (hC : IsWorker env C) (hrun : NetworkHistory env P C st evs s)
  (hreturned : SharedQueue.Returned s)
include hC hrun hreturned

theorem popped_eq : popped evs = processed env P := by
  obtain ⟨-, -, hworkers⟩ := hreturned
  rw [popped, SharedQueue.takes_eq_upTo hC (source_yields env P) (Farm.split_of_history hrun) hworkers, Fintype.card_fin,
    processed]

theorem processed_append_taskQueue : processed env P ++ (taskQueue s).items = stream env P := by
  rw [← popped_eq hC hrun hreturned, (popped_append_taskQueue hrun).1]
  exact (SharedQueue.emits_eq_of_halted (source_yields env P) (Farm.split_of_history hrun) hreturned.2.1).1

omit hC in
/-- `Source` has counted every entry, popped or not. -/
theorem nImgs_eq : nImgs s = env.listing.length := by
  have hfinal := (SharedQueue.emits_eq_of_halted (source_yields env P) (Farm.split_of_history hrun) hreturned.2.1).2
  exact congrArg SourceState.nImgs hfinal

theorem attempts_perm : (attempts evs).Perm ((processed env P).filterMap (attempt env)) := by
  rw [← popped_eq hC hrun hreturned]
  exact Farm.sends_perm hC (Farm.split_of_history hrun) hreturned.2.2

end Returned

theorem eos_or_mem_listing {name : String} (hname : name ∈ stream env P) :
    isEos name = true ∨ name ∈ env.listing := by
  cases hdir : env.dir with
  | none =>
    simp only [stream, hdir, List.mem_replicate] at hname
    exact Or.inl (by simp [hname.2])
  | some entries =>
    simp only [stream, hdir, List.mem_append, List.mem_replicate] at hname
    rcases hname with hname | ⟨-, rfl⟩
    · exact Or.inr hname
    · exact Or.inl isEos_eos

theorem aborted_eq_false (hC : IsWorker env C) (hrun : NetworkHistory env P C st evs s)
    (hloads : ∀ name ∈ env.listing, loads env name = true) : s.aborted = false := by
  apply Farm.aborted_eq_false hC (Farm.split_of_history hrun)
  intro p hp
  rcases eos_or_mem_listing (popped_subset_stream hrun (List.mem_map_of_mem hp)) with heos | hmem
  · simp [loads, heos]
  · exact hloads _ hmem

theorem returned_of_terminal (hC : IsWorker env C) (hrun : NetworkHistory env P C st evs s)
    (hlive : s.aborted = false)
    (hterminal : Terminal (NetworkStep env P C st) s) : SharedQueue.Returned s :=
  SharedQueue.returned_of_terminal hC (source_yields env P) (Farm.split_of_history hrun)
    (by simpa using le_countP_stream env P) hlive hterminal

/-- Units still to be spent by a network whose workers are paid `c` for each name. -/
def networkRank (c : Nat) (workerRank : C.State → Nat) (s : NetworkState env P C) : Nat :=
  Farm.rank (SharedQueue.rank c (sourceRank env P c)) workerRank s

theorem networkRank_lt (env : Env) (P : Nat) (st : Stream) {c cout : Nat}
    {workerRank : C.State → Nat} (hC : C.Ranked c cout workerRank) (s : NetworkState env P C)
    (e : Farm.Event (Fin P) String Save τ (Option String))
    (s' : NetworkState env P C) (hstep : NetworkStep env P C st s e s') :
    networkRank c workerRank s' < networkRank c workerRank s :=
  SharedQueue.rank_lt (source_ranked env P c) hC hstep

theorem exists_returned (hC : IsWorker env C) {c cout : Nat} {workerRank : C.State → Nat}
    (hrank : C.Ranked c cout workerRank)
    (hloads : ∀ name ∈ env.listing, loads env name = true) (hrun : NetworkHistory env P C st evs s) :
    ∃ more s', NetworkHistory env P C st (evs ++ more) s' ∧ SharedQueue.Returned s' := by
  obtain ⟨more, s', hmore, hterminal⟩ := hrun.exists_terminal (networkRank_lt env P st hrank)
  exact ⟨more, s', hmore, returned_of_terminal hC hmore (aborted_eq_false hC hmore hloads) hterminal⟩

end Runs

end ParallelWatermark
