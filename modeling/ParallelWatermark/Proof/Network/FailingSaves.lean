import ParallelWatermark.Proof.Network.Limits

/-!
# Saves that fail

The save handlers of `stage3` and `stage123` let the other entries go their way. `seq_wm` has none:
an exception from `save_jpeg` goes through `process_image` and out of the directory loop, and the
entries that follow are neither saved nor counted.
-/

namespace ParallelWatermark

open Process

/-- A failing save costs only its own entry: `seq_wm` returns, has made exactly the saves that do
not throw, and leaves the folder that the networks leave if they do not take an entry for the end of
the stream. -/
structure SavesOthers (env : Env) (load : String → Img) : Prop where
  returns : (seqWm env 0 World.empty).thrown = false
  saves : seqSaves env = (env.listing.filter fun name => !env.saveThrows (env.pathOut ++ name)).map fun name =>
    savedAs env name (load (env.pathIn ++ name))
  pipeline : "EOS" ∉ env.listing → ∀ P, 0 < P → ∀ evs s, NetworkHistory env P (pipeline env) .cout evs s →
    Terminal (NetworkStep env P (pipeline env) .cout) s → s.world.folder = (seqWm env 0 World.empty).world.folder
  stage123 : "EOS" ∉ env.listing → ∀ P, 0 < P → ∀ evs s, NetworkHistory env P (stage123 env) .cerr evs s →
    Terminal (NetworkStep env P (stage123 env) .cerr) s → s.world.folder = (seqWm env 0 World.empty).world.folder

section Total

variable {env : Env} {load : String → Img} (hload : ∀ path, env.load path = some (load path))
include hload

/-- A network that has come to its end leaves what the attempts to save all entries leave. -/
theorem folder_of_terminal (heos : "EOS" ∉ env.listing) {τ : Type} {C : Component String Save τ}
    (hC : IsWorker env C) {P : Nat} (hP : 0 < P) {st : Stream} (st' : Stream)
    {evs : List (Farm.Event (Fin P) String Save τ (Option String))} {s : NetworkState env P C}
    (hrun : NetworkHistory env P C st evs s) (hterminal : Terminal (NetworkStep env P C st) s) :
    s.world.folder = (trySaves env st' (env.listing.map fun name => savedAs env name (load (env.pathIn ++ name)))
      World.empty).folder := by
  have hattempts := attempts_perm hC hrun (returned_of_terminal_of_total hload hC hrun hterminal)
  rw [filterMap_attempt_processed hP heos] at hattempts
  have hlisting := filterMap_attempt_listing hload heos
  rw [world_eq hrun]
  exact (world_congr st st' hattempts (hlisting ▸ List.Perm.refl _)).1

/-- `seq_wm` keeps a failing save to its own entry exactly if there is none. -/
theorem seqWm_savesOthers_iff :
    SavesOthers env load ↔ ∀ name ∈ env.listing, env.saveThrows (env.pathOut ++ name) = false := by
  have hseq := seqWm_eq_savedNames hload .cout World.empty
  have hsaves := seqSaves_eq hload
  constructor
  · intro hothers name hname
    have hthrown := hothers.returns
    rw [hseq] at hthrown
    simpa using List.any_eq_false.mp hthrown name hname
  · intro hsave
    have hall : savedNames env env.listing = env.listing := savedNames_eq_self hsave
    have hnone : env.listing.filter (fun name => !env.saveThrows (env.pathOut ++ name)) = env.listing := by
      rw [List.filter_eq_self]
      intro name hname
      simp [hsave name hname]
    rw [hall] at hseq hsaves
    refine ⟨?_, ?_, ?_, ?_⟩
    · rw [hseq, List.any_eq_false]
      intro name hname
      simp [hsave name hname]
    · rw [hsaves, hnone]
    · intro heos P hP evs s hrun hterminal
      rw [hseq]
      exact folder_of_terminal hload heos (pipeline_spec env) hP .cout hrun hterminal
    · intro heos P hP evs s hrun hterminal
      rw [hseq]
      exact folder_of_terminal hload heos (stage123_spec env) hP .cout hrun hterminal

end Total

theorem seqWm_savesOthers_iff_inhabited : SavesOthers plainEnv fun _ => Img.column 9 9 :=
  (seqWm_savesOthers_iff fun _ => rfl).mpr fun _ _ => rfl

/-- The first of two entries cannot be saved. -/
def failingSaveEnv : Env where
  pathIn := "in/"
  pathOut := "out/"
  watermark := Img.column 0 200
  aVg := false
  dir := some ["a.jpg", "b.jpg"]
  load _ := some (Img.column 9 9)
  saveThrows path := path == "out/a.jpg"

/-- `seq_wm` is left by the exception and never saves the second entry; the master-worker network
with one worker does. -/
theorem seqWm_failing_save :
    "EOS" ∉ failingSaveEnv.listing ∧ failingSaveEnv.saveThrows "out/b.jpg" = false ∧
    (seqWm failingSaveEnv 0 World.empty).thrown = true ∧ seqSaves failingSaveEnv = [] ∧
    (seqWm failingSaveEnv 0 World.empty).world.folder "out/b.jpg" = none ∧
    (∃ evs, ∃ s : NetworkState failingSaveEnv 1 (stage123 failingSaveEnv),
      NetworkHistory failingSaveEnv 1 (stage123 failingSaveEnv) .cerr evs s ∧
      Terminal (NetworkStep failingSaveEnv 1 (stage123 failingSaveEnv) .cerr) s ∧
      (s.world.folder "out/b.jpg").isSome) ∧
    ¬ SavesOthers failingSaveEnv fun _ => Img.column 9 9 := by
  have hload : ∀ path, failingSaveEnv.load path = some ((fun _ => Img.column 9 9) path) := fun _ => rfl
  refine ⟨by decide, rfl, by decide, by decide, by decide, ?_, fun hothers => ?_⟩
  · obtain ⟨evs, s, hrun, hterminal⟩ := Run.exists_terminal
      (networkRank_lt failingSaveEnv 1 .cerr (stage123_ranked failingSaveEnv)) .nil
    refine ⟨_, s, hrun, hterminal, ?_⟩
    rw [folder_of_terminal hload (by decide) (stage123_spec failingSaveEnv) (by decide) .cerr hrun hterminal]
    decide
  · exact absurd hothers.returns (by decide)

end ParallelWatermark
