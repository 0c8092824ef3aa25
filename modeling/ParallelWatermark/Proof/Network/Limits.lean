import ParallelWatermark.Proof.Network.Complete
import ParallelWatermark.Sequential

/-!
# Where `cpp_watermark` and the sequential program part

Two kinds of folder on which the network does less than `seq_wm` or its own `stage3` promise. An
entry called `"EOS"` is taken for the end of the stream, and an entry that cannot be loaded ends the
process: `stage1` has no handler. Without such entries nothing is lost.
-/

namespace ParallelWatermark

open Process

theorem isEos_iff {name : String} : isEos name = true ↔ name = "EOS" := beq_iff_eq

theorem processed_eq {env : Env} {P : Nat} (hP : 0 < P) (heos : "EOS" ∉ env.listing) :
    processed env P = env.listing ++ List.replicate P "EOS" := by
  have hfree : TokenFree isEos env.listing := by
    intro name hname
    by_contra htok
    obtain rfl := isEos_iff.mp (by simpa using htok)
    exact heos hname
  cases hdir : env.dir with
  | none => simp [processed, stream, Env.listing, hdir, upTo_replicate isEos_eos (Nat.le_refl P)]
  | some entries =>
    simp only [processed, stream, hdir]
    rw [upTo_append_of_tokenFree hP hfree, upTo_replicate isEos_eos (Nat.le_succ P)]

theorem filterMap_attempt_processed {env : Env} {P : Nat} (hP : 0 < P)
    (heos : "EOS" ∉ env.listing) :
    (processed env P).filterMap (attempt env) = env.listing.filterMap (attempt env) := by
  rw [processed_eq hP heos, List.filterMap_append]
  simp [attempt]

/-! ### An entry called `"EOS"` -/

section Sequential

variable {env : Env} {load : String → Img} (hload : ∀ path, env.load path = some (load path))
include hload

theorem filterMap_attempt_listing (heos : "EOS" ∉ env.listing) :
    env.listing.filterMap (attempt env) = env.listing.map fun name => savedAs env name (load (env.pathIn ++ name)) := by
  rw [filterMap_attempt_of_total hload, List.filter_eq_self.mpr]
  intro name hname
  cases hname' : isEos name with
  | true => exact absurd (isEos_iff.mp hname' ▸ hname) heos
  | false => rfl

/-- `seq_wm` saves every entry, one called `"EOS"` like any other. -/
theorem seqWm_folder (hsave : ∀ path, env.saveThrows path = false) {name : String}
    (hname : name ∈ env.listing) :
    (seqWm env 0 World.empty).world.folder (env.pathOut ++ name) =
      some (savedAs env name (load (env.pathIn ++ name))).img := by
  rw [seqWm_eq hload hsave .cout, folder_trySaves]
  · exact ⟨List.mem_map.mpr ⟨name, hname, rfl⟩, hsave _⟩
  · exact savedAs_functional env (fun name => load (env.pathIn ++ name)) env.listing

omit hload in
/-- No worker ever saves under the name an entry called `"EOS"` would have. -/
theorem folder_eos {P : Nat} {evs : List (Farm.Event (Fin P) String Save PipelineMove (Option String))}
    {s : NetworkState env P (pipeline env)} (hrun : NetworkHistory env P (pipeline env) .cout evs s)
    (hreturned : SharedQueue.Returned s) : s.world.folder (env.pathOut ++ "EOS") = none := by
  rw [Option.eq_none_iff_forall_ne_some]
  intro img hfolder
  rw [world_eq hrun, folder_eq_some_iff (attempts_perm (pipeline_spec env) hrun hreturned)] at hfolder
  obtain ⟨⟨name, -, hattempt⟩, -⟩ := hfolder
  obtain ⟨hdata, img', -, hsave⟩ := attempt_eq_some.mp hattempt
  obtain rfl := (String.append_right_inj _).mp (congrArg Save.path hsave)
  exact absurd isEos_eos (by simp [hdata])

/-- When the threads of `cpp_watermark` have returned, the folder and the count are those of
`seq_wm` exactly if no entry is called `"EOS"`. -/
theorem cppWatermark_eq_seqWm_iff (hsave : ∀ path, env.saveThrows path = false) {P : Nat}
    (hP : 0 < P) {evs : List (Farm.Event (Fin P) String Save PipelineMove (Option String))}
    {s : NetworkState env P (pipeline env)}
    (hrun : NetworkHistory env P (pipeline env) .cout evs s) (hreturned : SharedQueue.Returned s) :
    (s.world.folder = (seqWm env 0 World.empty).world.folder ∧ nImgs s = (seqWm env 0 World.empty).nImgs) ↔
      "EOS" ∉ env.listing := by
  constructor
  · intro hequal heos
    obtain ⟨hfolder, -⟩ := hequal
    have hseq := seqWm_folder hload hsave heos
    rw [← hfolder, folder_eos hrun hreturned] at hseq
    cases hseq
  · intro heos
    have hattempts := attempts_perm (pipeline_spec env) hrun hreturned
    rw [filterMap_attempt_processed hP heos] at hattempts
    have hseq := filterMap_attempt_listing hload heos
    rw [seqWm_eq hload hsave .cout, world_eq hrun]
    exact ⟨(world_congr .cout .cout hattempts (hseq ▸ List.Perm.refl _)).1, nImgs_eq hrun hreturned⟩

end Sequential

def plainEnv : Env := uniformEnv ["a.jpg", "b.jpg"] (Img.column 9 9) (Img.column 0 200) true

theorem cppWatermark_eq_seqWm_iff_inhabited :
    ∃ evs, ∃ s : NetworkState plainEnv 2 (pipeline plainEnv), NetworkHistory plainEnv 2 (pipeline plainEnv) .cout evs s ∧
      s.world.folder = (seqWm plainEnv 0 World.empty).world.folder ∧
      nImgs s = (seqWm plainEnv 0 World.empty).nImgs := by
  have hload : ∀ path, plainEnv.load path = some (Img.column 9 9) := fun _ => rfl
  obtain ⟨evs, s, hrun, hreturned⟩ :=
    exists_returned_of_total hload (pipeline_spec plainEnv) (pipeline_ranked plainEnv) 2
    .cout
  exact ⟨evs, s, hrun, (cppWatermark_eq_seqWm_iff hload (fun _ => rfl) (by decide) hrun hreturned).mpr (by decide)⟩

def eosEntryEnv : Env := uniformEnv ["EOS", "b.jpg"] (Img.column 9 9) (Img.column 0 200) false

/-- One worker on that folder: `seq_wm` saves both entries, the network neither. -/
theorem cppWatermark_eos_entry :
    ∃ evs, ∃ s : NetworkState eosEntryEnv 1 (pipeline eosEntryEnv),
      NetworkHistory eosEntryEnv 1 (pipeline eosEntryEnv) .cout evs s ∧ SharedQueue.Returned s ∧
      s.world.folder "out/EOS" = none ∧ s.world.folder "out/b.jpg" = none ∧
      ((seqWm eosEntryEnv 0 World.empty).world.folder "out/EOS").isSome ∧
      ((seqWm eosEntryEnv 0 World.empty).world.folder "out/b.jpg").isSome ∧
      s.world.folder ≠ (seqWm eosEntryEnv 0 World.empty).world.folder := by
  have hload : ∀ path, eosEntryEnv.load path = some (Img.column 9 9) := fun _ => rfl
  obtain ⟨evs, s, hrun, hreturned⟩ := exists_returned_of_total hload (pipeline_spec eosEntryEnv)
    (pipeline_ranked eosEntryEnv) 1 .cout
  have hattempts : (attempts evs).Perm [] :=
    attempts_perm (pipeline_spec eosEntryEnv) hrun hreturned
  have hworld : s.world = World.empty := by
    rw [world_eq hrun, hattempts.eq_nil]
    rfl
  have hfirst : (seqWm eosEntryEnv 0 World.empty).world.folder "out/EOS" = some _ :=
    seqWm_folder hload (fun _ => rfl) (show "EOS" ∈ eosEntryEnv.listing by decide)
  have hsecond : (seqWm eosEntryEnv 0 World.empty).world.folder "out/b.jpg" = some _ :=
    seqWm_folder hload (fun _ => rfl) (show "b.jpg" ∈ eosEntryEnv.listing by decide)
  refine ⟨evs, s, hrun, hreturned, by rw [hworld]; rfl, by rw [hworld]; rfl, Option.isSome_iff_exists.mpr ⟨_, hfirst⟩,
    Option.isSome_iff_exists.mpr ⟨_, hsecond⟩, fun heq => ?_⟩
  rw [← heq, hworld] at hfirst
  cases hfirst

/-! ### An entry that cannot be loaded -/

/-- Every run comes to its end with all threads returned, and each entry that loads has been saved
exactly once, watermarked, under its own name. -/
structure EndsWell (env : Env) (P : Nat) : Prop where
  finite : ¬ ∃ (state : Nat → NetworkState env P (pipeline env)) (label : Nat → _),
    ∀ n, NetworkStep env P (pipeline env) .cout (state n) (label n) (state (n + 1))
  returned : ∀ evs s, NetworkHistory env P (pipeline env) .cout evs s →
    Terminal (NetworkStep env P (pipeline env) .cout) s → SharedQueue.Returned s
  saved : ∀ evs s, NetworkHistory env P (pipeline env) .cout evs s →
    Terminal (NetworkStep env P (pipeline env) .cout) s → (attempts evs).Perm (env.listing.filterMap (attempt env)) ∧
      ∀ path img, s.world.folder path = some img ↔
        ∃ name ∈ env.listing, attempt env name = some ⟨path, img⟩

section Unreadable

variable {env : Env} {P : Nat}

theorem loads_of_returned (hP : 0 < P) (heos : "EOS" ∉ env.listing)
    {evs : List (Farm.Event (Fin P) String Save PipelineMove (Option String))}
    {s : NetworkState env P (pipeline env)}
    (hrun : NetworkHistory env P (pipeline env) .cout evs s) (hreturned : SharedQueue.Returned s) :
    ∀ name ∈ env.listing, loads env name = true := by
  intro name hname
  have hpopped : name ∈ popped evs := by
    rw [popped_eq (pipeline_spec env) hrun hreturned, processed_eq hP heos]
    exact List.mem_append_left _ hname
  obtain ⟨⟨i, a⟩, hmem, rfl⟩ := List.mem_map.mp hpopped
  have htaken := Farm.taken_of_halted (pipeline_spec env) (Farm.split_of_history hrun) (hreturned.2.2 i)
  exact htaken.2.2 a (Farm.mem_ofWorker.mpr hmem)

theorem isSome_load_of_loads (heos : "EOS" ∉ env.listing) {name : String}
    (hname : name ∈ env.listing)
    (hloads : loads env name = true) : (env.load (env.pathIn ++ name)).isSome = true := by
  rcases Bool.or_eq_true_iff.mp hloads with hname' | hsome
  · exact absurd (isEos_iff.mp hname' ▸ hname) heos
  · exact hsome

/-- An entry that cannot be loaded ends every complete run by an exception. -/
theorem aborted_of_unreadable (hP : 0 < P) (heos : "EOS" ∉ env.listing) {name : String}
    (hname : name ∈ env.listing) (hbad : env.load (env.pathIn ++ name) = none)
    {evs : List (Farm.Event (Fin P) String Save PipelineMove (Option String))}
    {s : NetworkState env P (pipeline env)} (hrun : NetworkHistory env P (pipeline env) .cout evs s)
    (hterminal : Terminal (NetworkStep env P (pipeline env) .cout) s) : s.aborted = true := by
  by_contra hlive
  have hreturned := returned_of_terminal (pipeline_spec env) hrun (by simpa using hlive) hterminal
  have hsome := isSome_load_of_loads heos hname (loads_of_returned hP heos hrun hreturned name hname)
  simp [hbad] at hsome

/-- The network of `cpp_watermark` ends well exactly on the folders in which every entry loads. -/
theorem cppWatermark_endsWell_iff (hP : 0 < P) (heos : "EOS" ∉ env.listing)
    (hsave : ∀ path, env.saveThrows path = false) :
    EndsWell env P ↔ ∀ name ∈ env.listing, (env.load (env.pathIn ++ name)).isSome = true := by
  have hrank := networkRank_lt env P .cout (pipeline_ranked env)
  constructor
  · intro hends name hname
    obtain ⟨evs, s, hrun, hterminal⟩ := Run.exists_terminal hrank .nil
    have hreturned := hends.returned _ s hrun hterminal
    exact isSome_load_of_loads heos hname (loads_of_returned hP heos hrun hreturned name hname)
  · intro hall
    have hloads : ∀ name ∈ env.listing, loads env name = true :=
      fun name hname => by simp [loads, hall name hname]
    have hreturned : ∀ evs s, NetworkHistory env P (pipeline env) .cout evs s →
        Terminal (NetworkStep env P (pipeline env) .cout) s → SharedQueue.Returned s :=
          fun evs s hrun hterminal =>
      returned_of_terminal (pipeline_spec env) hrun (aborted_eq_false (pipeline_spec env) hrun hloads) hterminal
    refine ⟨not_exists_infinite hrank, hreturned, fun evs s hrun hterminal => ?_⟩
    have hattempts := attempts_perm (pipeline_spec env) hrun (hreturned evs s hrun hterminal)
    rw [filterMap_attempt_processed hP heos] at hattempts
    refine ⟨hattempts, fun path img => ?_⟩
    rw [world_eq hrun, folder_eq_some_iff hattempts]
    simp [hsave]

end Unreadable

theorem cppWatermark_endsWell_iff_inhabited :
    EndsWell plainEnv 2 :=
  (cppWatermark_endsWell_iff (by decide) (by decide) fun _ => rfl).mpr fun _ _ => rfl

/-- The first of two entries is no image, such as a file cut short. -/
def unreadableEnv : Env where
  pathIn := "in/"
  pathOut := "out/"
  watermark := Img.column 0 200
  aVg := false
  dir := some ["a.jpg", "b.jpg"]
  load path := if path = "in/a.jpg" then none else some (Img.column 9 9)
  saveThrows _ := false

/-- One worker that comes upon the corrupt file: the process is gone, and the image is never saved.
-/
theorem cppWatermark_unreadable_entry :
    "EOS" ∉ unreadableEnv.listing ∧ (unreadableEnv.load "in/b.jpg").isSome = true ∧
    ∃ evs, ∃ s : NetworkState unreadableEnv 1 (pipeline unreadableEnv),
      NetworkHistory unreadableEnv 1 (pipeline unreadableEnv) .cout evs s ∧
      Terminal (NetworkStep unreadableEnv 1 (pipeline unreadableEnv) .cout) s ∧ s.aborted = true ∧
      ¬ SharedQueue.Returned s ∧ attempts evs = [] ∧ s.world.folder "out/b.jpg" = none := by
  refine ⟨by decide, rfl, ?_⟩
  have hstart : NetworkHistory unreadableEnv 1 (pipeline unreadableEnv) .cout [] (Farm.start _ _ World.empty) := .nil
  have hopened := hstart.snoc (.feed (k := none) rfl ⟨_, rfl, rfl⟩)
  have hpushed := hopened.snoc (.feed (k := some "a.jpg") rfl ⟨_, rfl, rfl⟩)
  have hpopped := hpushed.snoc (.take (i := 0) (a := "a.jpg") rfl rfl rfl)
  have hthrown := hpopped.snoc (.abort (i := 0) rfl rfl)
  refine ⟨_, _, hthrown, ?_, rfl, ?_, rfl, rfl⟩
  · intro e s' hstep
    cases hstep <;> contradiction
  · intro hreturned
    cases hreturned.1

end ParallelWatermark
