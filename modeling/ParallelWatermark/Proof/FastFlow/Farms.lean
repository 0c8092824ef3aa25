import ParallelWatermark.FastFlow.Farms
import ParallelWatermark.Proof.FastFlow.Farm
import ParallelWatermark.Proof.FastFlow.ProcessImage
import ParallelWatermark.Proof.Network.Folder

/-!
# Farms of any workers

For any worker that makes of its tasks what the three stages make of them: how the farm ends, and what
it leaves. `stage123` is such a worker, and so is the pipeline of `stage12_opt` and `stage3` in plain mode.
-/

namespace ParallelWatermark.FastFlow

open Process ParallelFor

abbrev IsFarmWorker {τ : Type} (env : Env) (C : Component (Packet String) Save τ) : Prop :=
  C.Spec Packet.isEos (attemptPacket env) (loadsPacket env)

/-! ### Two workers -/

theorem masterWorker_spec (env : Env) : IsFarmWorker env (masterWorker env) := by
  refine (Loop.spec (workerBody (stage123 env))).congr (fun p => ?_) (fun p => ?_) (fun p => ?_)
  all_goals
    cases p with
    | eos => rfl
    | item task =>
      cases hload : env.load (env.pathIn ++ task) <;>
        simp [Loop.isLast, Loop.output, Loop.accepts, workerBody, stage123, hload, Outcome.stops, Outcome.out,
          Outcome.succeeds, Packet.isEos, attemptPacket, loadsPacket, savedAs]

theorem masterWorker_ranked (env : Env) : (masterWorker env).Ranked 2 0 (Loop.rank 0) :=
  Loop.ranked (workerBody (stage123 env)) 0

section Opt

variable {numCores : Nat} {env : Env} {opts : PfOptions} {process : Processing} (hchunk : |opts.chunkSz| ≤ 2 ^ 31)
  (hplain : env.aVg = false) (hrows : opts.enablePf = "on" → ∀ path img, env.load path = some img → 0 < img.rows)
  (hprocess : process.Possible numCores env opts)
include hchunk hplain hrows hprocess

/-- In plain mode, `stage12_opt` returns what `stage1` and `stage2` make of its task. -/
theorem stage12OptOn_eq (task : String) : stage12OptOn process env opts task =
    (env.load (env.pathIn ++ task)).map fun img => .out (task, pipeProcessImage img env.watermark env.aVg) := by
  cases hload : env.load (env.pathIn ++ task) with
  | none => simp [stage12OptOn, hload]
  | some img =>
    simp only [stage12OptOn, hload, Option.map_some, hplain, beq_iff_eq]
    split_ifs with hon
    · have hpos := hrows hon _ img hload
      obtain ⟨calls, hrun⟩ := hprocess hon task img hpos
      rw [hplain] at hrun
      rw [blackened_of_run hchunk hpos hrun]
    · rfl

def markLoaded (env : Env) : Packet String → Option (Packet Pair)
  | .eos => some .eos
  | .item task => (env.load (env.pathIn ++ task)).map fun img =>
    .item (task, pipeProcessImage img env.watermark env.aVg)

theorem optNode_spec : (loop (nodeBody (stage12OptOn process env opts))).Spec Packet.isEos (markLoaded env)
    (loadsPacket env) := by
  refine (Loop.spec (nodeBody (stage12OptOn process env opts))).congr (fun p => ?_) (fun p => ?_) (fun p => ?_)
  all_goals
    cases p with
    | eos => rfl
    | item task =>
      have hret := stage12OptOn_eq hchunk hplain hrows hprocess task
      cases hload : env.load (env.pathIn ++ task) <;>
        simp [Loop.isLast, Loop.output, Loop.accepts, nodeBody, hret, hload, Outcome.stops, Outcome.out,
          Outcome.succeeds, Packet.isEos, markLoaded, loadsPacket]

omit hchunk hplain hrows hprocess in
theorem forwards_optNode (env : Env) : Chain.Forwards Packet.isEos (markLoaded env) Packet.isEos where
  token p htok := by
    cases p with
    | eos => exact ⟨.eos, rfl, rfl⟩
    | item task => cases htok
  data p q hdata hout := by
    cases p with
    | eos => cases hdata
    | item task =>
      obtain ⟨img, -, rfl⟩ := Option.map_eq_some_iff.mp hout
      rfl

theorem optPipe_spec : IsFarmWorker env (optPipe process env opts) := by
  have hspec := Chain.spec (optNode_spec hchunk hplain hrows hprocess) (thirdNode_spec env) (forwards_optNode env)
  refine hspec.congr (fun _ => rfl) (fun p => ?_) (fun p => ?_)
  all_goals
    cases p with
    | eos => rfl
    | item task =>
      cases hload : env.load (env.pathIn ++ task) <;>
        simp [Chain.chainOk, markLoaded, savePacket, attemptPacket, loadsPacket, savedAs, hload]

omit hchunk hplain hrows hprocess in
theorem optPipe_ranked (process : Processing) (env : Env) (opts : PfOptions) :
    (optPipe process env opts).Ranked 4 0 (Chain.rank 2 (Loop.rank 2) (Loop.rank 0)) :=
  Chain.ranked (Loop.ranked (nodeBody (stage12OptOn process env opts)) 2) (Loop.ranked (lastBody (stage3 env)) 0)

end Opt

/-! ### Any worker -/

section Workers

variable {τ : Type} {env : Env} {P : Nat} {C : Component (Packet String) Save τ}
  {evs : List (Farm.Event (Fin P) (Packet String) Save τ (Scatter.Event (Fin P) String))} {s : WorkersState env P C}

def sentOut (s : WorkersState env P C) : Nat := s.feed.emitter.nImgs

theorem workers_world_eq (hrun : WorkersHistory env P C evs s) :
    s.world = trySaves env .cerr (attempts evs) World.empty := by
  rw [(Farm.split_of_history hrun).world, attempts, trySaves, List.foldl_map]

theorem mem_listing_of_taken (hrun : WorkersHistory env P C evs s) {i : Fin P} {name : String}
    (htake : (i, Packet.item name) ∈ Farm.takes evs) : name ∈ env.listing := by
  have hsplit := Farm.split_of_history hrun
  have hqueue := Scatter.inv_of_split (source_yields env) hsplit i
  have hmem : Packet.item name ∈ (Farm.ofWorker i (Scatter.assignment evs)).map Packet.item ++
      if s.feed.ended i then [.eos] else [] := by
    rw [← hqueue]
    exact List.mem_append_left _ (Farm.mem_ofWorker.mpr htake)
  have hassigned : name ∈ Farm.ofWorker i (Scatter.assignment evs) := by
    split at hmem <;> simpa using hmem
  obtain ⟨rest, -, hstream⟩ := (Scatter.feed_history (source_yields env) hsplit.feed).stream
  rw [← hstream]
  exact List.mem_append_left _ (List.mem_map.mpr ⟨(i, name), Farm.mem_ofWorker.mp hassigned, rfl⟩)

theorem workers_rank_lt {c : Nat} {workerRank : C.State → Nat} (hrank : C.Ranked c 0 workerRank)
    (s : WorkersState env P C) (e : Farm.Event (Fin P) (Packet String) Save τ (Scatter.Event (Fin P) String))
    (s' : WorkersState env P C) (hstep : WorkersStep env P C s e s') :
    Farm.rank (Scatter.rank c (sourceRank env c)) workerRank s' <
      Farm.rank (Scatter.rank c (sourceRank env c)) workerRank s :=
  Scatter.rank_lt (source_ranked env c) hrank s e s' hstep

/-- All the files of the folder are loaded. -/
def Loadable (env : Env) : Prop := ∀ name ∈ env.listing, (env.load (env.pathIn ++ name)).isSome = true

section Terminal

variable (hP : 0 < P) (hC : IsFarmWorker env C) (hrun : WorkersHistory env P C evs s)
  (hterminal : Terminal (WorkersStep env P C) s)
include hP hC hrun hterminal

theorem workers_returned (hlive : s.aborted = false) : Scatter.Returned s := by
  have : Nonempty (Fin P) := ⟨⟨0, hP⟩⟩
  exact Scatter.returned_of_terminal hC (source_yields env) (Farm.split_of_history hrun) hlive hterminal

/-- A farm comes to a good end exactly if all files are loaded. -/
theorem workers_aborted_iff : s.aborted = false ↔ Loadable env := by
  have hsplit := Farm.split_of_history hrun
  constructor
  · intro hlive name hname
    obtain ⟨-, hhalted, hworkers⟩ := workers_returned hP hC hrun hterminal hlive
    have hstream := (Scatter.assignment_eq_of_halted (source_yields env) hsplit hhalted).1
    rw [← hstream] at hname
    obtain ⟨⟨i, task⟩, hassigned, rfl⟩ := List.mem_map.mp hname
    -- The worker that it was assigned to has taken it.
    have htaken := Scatter.takes_of_halted hC (source_yields env) hsplit (hworkers i)
    have hok := (Farm.taken_of_halted hC hsplit (hworkers i)).2.2
    refine hok (.item task) ?_
    rw [htaken]
    exact List.mem_append_left _ (List.mem_map_of_mem (Farm.mem_ofWorker.mpr hassigned))
  · intro hloadable
    refine Farm.aborted_eq_false hC hsplit fun p hp => ?_
    obtain ⟨i, packet⟩ := p
    cases packet with
    | eos => rfl
    | item name => exact hloadable name (mem_listing_of_taken hrun hp)

/-- A farm that comes to a good end has made one attempt to save of each file, and counted them. -/
theorem workers_outcome (hlive : s.aborted = false) :
    Scatter.Returned s ∧
    (attempts evs).Perm (env.listing.filterMap fun name => attemptPacket env (.item name)) ∧
    sentOut s = env.listing.length := by
  have hsplit := Farm.split_of_history hrun
  have hreturned := workers_returned hP hC hrun hterminal hlive
  exact ⟨hreturned, Scatter.sends_perm hC (source_yields env) rfl hsplit hreturned,
    congrArg SourceState.nImgs (Scatter.assignment_eq_of_halted (source_yields env) hsplit hreturned.2.1).2⟩

/-- With loads and saves succeeding it leaves what `seq_wm` leaves. -/
theorem workers_eq_seqWm {load : String → Img} (hload : ∀ path, env.load path = some (load path))
    (hsave : ∀ path, env.saveThrows path = false) :
    s.aborted = false ∧ s.world.folder = (seqWm env 0 World.empty).world.folder ∧
      sentOut s = (seqWm env 0 World.empty).nImgs := by
  have hlive : s.aborted = false :=
    (workers_aborted_iff hP hC hrun hterminal).mpr fun name _ => by simp [hload]
  obtain ⟨-, hattempts, hn⟩ := workers_outcome hP hC hrun hterminal hlive
  have hperm : (attempts evs).Perm (env.listing.map fun name => savedAs env name (load (env.pathIn ++ name))) := by
    simpa [attemptPacket, hload] using hattempts
  have hfun := savedAs_functional env (fun name => load (env.pathIn ++ name)) env.listing
  rw [seqWm_eq hload hsave .cerr, workers_world_eq hrun]
  exact ⟨hlive, folder_trySaves_perm .cerr .cerr hperm hfun, hn⟩

end Terminal

end Workers

/-! ### The folder while a farm runs -/

section Running

variable {τ : Type} {env : Env} {P : Nat} {C : Component (Packet String) Save τ}
  {evs : List (Farm.Event (Fin P) (Packet String) Save τ (Scatter.Event (Fin P) String))} {s : WorkersState env P C}

theorem attempts_subperm (hC : IsFarmWorker env C) (hrun : WorkersHistory env P C evs s) :
    (attempts evs).Subperm (env.listing.filterMap fun name => attemptPacket env (.item name)) := by
  have hsplit := Farm.split_of_history hrun
  have hassigned : (attempts evs).Subperm
      (((Scatter.assignment evs).map Prod.snd).filterMap fun name => attemptPacket env (.item name)) := by
    refine Farm.subperm_map_snd_of_ofWorker fun i => ?_
    have hsent := (hC.sent_isPrefix _ _ (hsplit.worker i)).sublist
    rw [Farm.sent_workerActions, Farm.received_workerActions] at hsent
    have hqueued : Farm.ofWorker i (Farm.takes evs) <+: (Farm.ofWorker i (Scatter.assignment evs)).map .item ++
        if s.feed.ended i then [.eos] else [] := ⟨_, Scatter.inv_of_split (source_yields env) hsplit i⟩
    have htaken := hqueued.sublist.filterMap (attemptPacket env)
    rw [List.filterMap_append, List.filterMap_map] at htaken
    have hend : (if s.feed.ended i then [Packet.eos] else [] : List (Packet String)).filterMap (attemptPacket env) = [] := by
      split <;> rfl
    rw [hend, List.append_nil] at htaken
    exact (hsent.trans htaken).subperm
  obtain ⟨rest, -, hstream⟩ := (Scatter.feed_history (source_yields env) hsplit.feed).stream
  have hpart : (Scatter.assignment evs).map Prod.snd <+: env.listing := ⟨rest, hstream⟩
  exact hassigned.trans (hpart.sublist.filterMap _).subperm

/-- In every state of a farm, whether or not an exception has ended it: no entry has more attempts to save
it than the listing has it; a file in the output folder is the watermarked image of an entry; and it stays
as it is in every state that follows. -/
theorem farm_folder_sound (hC : IsFarmWorker env C) (hrun : WorkersHistory env P C evs s) :
    (attempts evs).Subperm (env.listing.filterMap fun name => attemptPacket env (.item name)) ∧
    (∀ path img, s.world.folder path = some img → env.saveThrows path = false ∧
      ∃ name ∈ env.listing, path = env.pathOut ++ name ∧
        ∃ loaded, env.load (env.pathIn ++ name) = some loaded ∧ img = pipeProcessImage loaded env.watermark env.aVg) ∧
    ∀ more s', WorkersHistory env P C (evs ++ more) s' →
      ∀ path img, s.world.folder path = some img → s'.world.folder path = some img := by
  have hmade : ∀ {evs} {s : WorkersState env P C}, WorkersHistory env P C evs s → ∀ save ∈ attempts evs,
      ∃ name ∈ env.listing, ∃ img, env.load (env.pathIn ++ name) = some img ∧ save = savedAs env name img := by
    intro evs s hrun save hsave
    obtain ⟨name, hlisted, hattempt⟩ := List.mem_filterMap.mp ((attempts_subperm hC hrun).subset hsave)
    obtain ⟨img, hload, rfl⟩ := Option.map_eq_some_iff.mp hattempt
    exact ⟨name, hlisted, img, hload, rfl⟩
  have hfaithful : ∀ {evs} {s : WorkersState env P C}, WorkersHistory env P C evs s →
      ∀ save ∈ attempts evs, Faithful env save := by
    intro evs s hrun save hsave
    obtain ⟨name, -, hmade⟩ := hmade hrun save hsave
    exact ⟨name, hmade⟩
  refine ⟨attempts_subperm hC hrun, fun path img hsaved => ?_, fun more s' hmore path img hsaved => ?_⟩
  · rw [workers_world_eq hrun, mem_of_folder (hfaithful hrun)] at hsaved
    obtain ⟨hmem, hok⟩ := hsaved
    obtain ⟨name, hlisted, loaded, hload, hsave⟩ := hmade hrun _ hmem
    exact ⟨hok, name, hlisted, congrArg Save.path hsave, loaded, hload, congrArg Save.img hsave⟩
  · have hsplit : attempts (evs ++ more) = attempts evs ++ attempts more := by simp [attempts]
    have hall := hfaithful hmore
    rw [workers_world_eq hrun] at hsaved
    rw [hsplit] at hall
    rw [workers_world_eq hmore, hsplit]
    exact folder_kept hall hsaved

end Running

/-! ### How a farm ends -/

/-- What a farm of these workers does on a folder: every step lowers a rank; where nothing can happen any
more, the farm has been ended by an exception if some file does not load, and else has made one attempt to
save of each entry; and if nothing fails it leaves what `seq_wm` leaves. -/
structure Agrees {τ : Type} (env : Env) (P : Nat) (C : Component (Packet String) Save τ) (threads : Nat) : Prop where
  terminates : ∃ rank : WorkersState env P C → Nat, ∀ s e s', WorkersStep env P C s e s' → rank s' < rank s
  aborted_iff : ∀ evs s, RunAndWaitEnd env P C threads evs s → (s.aborted = false ↔ Loadable env)
  attempts : ∀ evs s, RunAndWaitEnd env P C threads evs s → s.aborted = false →
    Scatter.Returned s ∧ sentOut s = env.listing.length ∧
      (ParallelWatermark.attempts evs).Perm (env.listing.filterMap fun name =>
        (env.load (env.pathIn ++ name)).map fun img =>
          ⟨env.pathOut ++ name, pipeProcessImage img env.watermark env.aVg⟩)
  eq_seqWm : ∀ evs s, RunAndWaitEnd env P C threads evs s →
    ∀ load : String → Img, (∀ path, env.load path = some (load path)) → (∀ path, env.saveThrows path = false) →
      s.world.folder = (seqWm env 0 World.empty).world.folder ∧ sentOut s = (seqWm env 0 World.empty).nImgs

section Agrees

variable {τ : Type} {env : Env} {P threads : Nat} {C : Component (Packet String) Save τ}
  (hfew : cardinality P threads ≤ maxNumThreads)
include hfew

/-- A farm of few enough threads runs. -/
theorem ran_of_few {evs : List (Farm.Event (Fin P) (Packet String) Save τ (Scatter.Event (Fin P) String))}
    {s : WorkersState env P C} (hend : RunAndWaitEnd env P C threads evs s) :
    WorkersHistory env P C evs s ∧ Terminal (WorkersStep env P C) s := by
  cases hend with
  | refused hmany => exact absurd hfew (not_le.mpr hmany)
  | ran _ hrun hterminal => exact ⟨hrun, hterminal⟩

theorem agrees_of_spec {c : Nat} {workerRank : C.State → Nat} (hP : 0 < P) (hC : IsFarmWorker env C)
    (hrank : C.Ranked c 0 workerRank) : Agrees env P C threads where
  terminates := ⟨_, workers_rank_lt hrank⟩
  aborted_iff := fun _ _ hend =>
    have ⟨hrun, hterminal⟩ := ran_of_few hfew hend
    workers_aborted_iff hP hC hrun hterminal
  attempts := fun _ _ hend hlive =>
    have ⟨hrun, hterminal⟩ := ran_of_few hfew hend
    have houtcome := workers_outcome hP hC hrun hterminal hlive
    ⟨houtcome.1, houtcome.2.2, houtcome.2.1⟩
  eq_seqWm := fun _ _ hend _ hload hsave =>
    have ⟨hrun, hterminal⟩ := ran_of_few hfew hend
    (workers_eq_seqWm hP hC hrun hterminal hload hsave).2

theorem exists_end (hagrees : Agrees env P C threads) : ∃ evs s, RunAndWaitEnd env P C threads evs s := by
  obtain ⟨rank, hrank⟩ := hagrees.terminates
  obtain ⟨evs, s, hrun, hterminal⟩ := Run.exists_terminal hrank .nil
  exact ⟨_, s, .ran hfew hrun hterminal⟩

end Agrees

/-- The farm of `ff_mw_wm`, of as many workers as FastFlow accepts. -/
theorem masterWorkerFarm_agrees (env : Env) {P : Nat} (hP : 0 < P) (hfew : cardinality P 1 ≤ maxNumThreads) :
    Agrees env P (masterWorker env) 1 :=
  agrees_of_spec hfew hP (masterWorker_spec env) (masterWorker_ranked env)

theorem masterWorkerFarm_agrees_inhabited : ∃ evs s, RunAndWaitEnd singleEnv 2 (masterWorker singleEnv) 1 evs s ∧
    s.world.folder = (seqWm singleEnv 0 World.empty).world.folder := by
  have hfew : cardinality 2 1 ≤ maxNumThreads := by decide
  have hagrees := masterWorkerFarm_agrees singleEnv (show 0 < 2 by decide) hfew
  obtain ⟨evs, s, hend⟩ := exists_end hfew hagrees
  exact ⟨evs, s, hend, (hagrees.eq_seqWm evs s hend _ (fun _ => rfl) fun _ => rfl).1⟩

/-- The farm of the pipelines of `stage12_opt` and `stage3`, of as many as FastFlow accepts, in plain mode:
whether or not the parallel for is enabled, which is for images with rows, with as many workers as it can have,
with any chunk and however its threads are scheduled. -/
theorem optFarm_agrees {numCores : Nat} {env : Env} {opts : PfOptions} {process : Processing} {P : Nat} (hP : 0 < P)
    (hfew : cardinality P 2 ≤ maxNumThreads) (hchunk : |opts.chunkSz| ≤ 2 ^ 31) (hplain : env.aVg = false)
    (hrows : opts.enablePf = "on" → ∀ path img, env.load path = some img → 0 < img.rows)
    (hprocess : process.Possible numCores env opts) : Agrees env P (optPipe process env opts) 2 :=
  agrees_of_spec hfew hP (optPipe_spec hchunk hplain hrows hprocess) (optPipe_ranked process env opts)

/-- Some schedule of the parallel for there always is, if it has workers. -/
theorem exists_possible {numCores : Nat} (env : Env) (opts : PfOptions) (hchunk : |opts.chunkSz| ≤ 2 ^ 31)
    (hworkers : 0 < workersOf opts.maxNw numCores) : ∃ process : Processing, process.Possible numCores env opts := by
  have hsome : ∀ img : Img, ∃ img', 0 < img.rows →
      ∃ calls, FfProcessImage numCores opts.maxNw img env.watermark opts.chunkSz env.aVg calls img' := by
    intro img
    by_cases hrows : 0 < img.rows
    · have hheight := height_eq_rows hrows
      obtain ⟨calls, img', hrun⟩ := exists_parallelForIdx (small_rows img hchunk) (by decide) (by omega) hworkers
        (rangeSamples img env.watermark) (markSample env.aVg) img
      exact ⟨img', fun _ => ⟨calls, hrun⟩⟩
    · exact ⟨img, fun h => absurd h hrows⟩
  choose process hprocess using hsome
  exact ⟨fun _ => process, fun _ _ img => hprocess img⟩

def plainSingleEnv : Env := uniformEnv ["a.jpg"] (Img.column 9 9) (Img.column 0 200) false

theorem optFarm_agrees_inhabited : ∃ process evs,
    ∃ s : WorkersState plainSingleEnv 2 (optPipe process plainSingleEnv ⟨"on", 2, 1⟩),
      RunAndWaitEnd plainSingleEnv 2 (optPipe process plainSingleEnv ⟨"on", 2, 1⟩) 2 evs s ∧
      s.world.folder = (seqWm plainSingleEnv 0 World.empty).world.folder := by
  obtain ⟨process, hprocess⟩ := exists_possible plainSingleEnv ⟨"on", 2, 1⟩ (by decide) (show 0 < workersOf 2 4 by decide)
  have hfew : cardinality 2 2 ≤ maxNumThreads := by decide
  have hagrees := optFarm_agrees (show 0 < 2 by decide) hfew (by decide) rfl
    (fun _ path img hload => by obtain rfl := Option.some.inj hload; decide) hprocess
  obtain ⟨evs, s, hend⟩ := exists_end hfew hagrees
  exact ⟨process, evs, s, hend, (hagrees.eq_seqWm evs s hend _ (fun _ => rfl) fun _ => rfl).1⟩

theorem farm_folder_sound_inhabited : ∃ evs s, WorkersHistory singleEnv 2 (pipe singleEnv) evs s ∧
    ∃ img, s.world.folder "out/a.jpg" = some img ∧ ∃ name ∈ singleEnv.listing, "out/a.jpg" = "out/" ++ name := by
  obtain ⟨evs, s, hrun, hterminal⟩ := Run.exists_terminal (farm_rank_lt singleEnv 2) .nil
  have hsame := (workers_eq_seqWm (show 0 < 2 by decide) (pipe_spec singleEnv) hrun hterminal (fun _ => rfl) fun _ => rfl).2.1
  have hsaved : s.world.folder "out/a.jpg" = some (pipeProcessImage (Img.column 9 9) (Img.column 0 200) true) :=
    (congrFun hsame "out/a.jpg").trans (by decide)
  obtain ⟨-, name, hlisted, hpath, -⟩ := (farm_folder_sound (pipe_spec singleEnv) hrun).2.1 _ _ hsaved
  exact ⟨_, s, hrun, _, hsaved, name, hlisted, hpath⟩

end ParallelWatermark.FastFlow
