import Mathlib.Data.List.Induction
import Mathlib.Data.Set.Defs
import Mathlib.Logic.Function.Basic
import ParallelWatermark.Watermark

/-!
# The world the programs run in

`Env` is what does not change while a program runs: the arguments of `main` that became globals, the
source folder, and how loading and saving behave. `World` is what changes: the images in the output
folder and the lines printed.
-/

namespace ParallelWatermark

structure Env where
  pathIn : String
  pathOut : String
  watermark : Img
  aVg : Bool
  /-- The entries `readdir` returns for `path_in`, in order, or `none` when `opendir` fails. -/
  dir : Option (List String)
  /-- The `CImg` constructor on a path; `none` when it throws `CImgIOException`. -/
  load : String → Option Img
  /-- `save_jpeg` throws `CImgIOException` at this path. -/
  saveThrows : String → Bool

def isDots (s : String) : Bool := s == "." || s == ".."

/-- The entries the directory loops visit. -/
def Env.listing (env : Env) : List String := (env.dir.getD []).filter fun s => !isDots s

/-- A folder with the given entries, every file of which holds the image `img`, and where every save
succeeds. -/
def uniformEnv (entries : List String) (img watermark : Img) (average : Bool) : Env where
  pathIn := "in/"
  pathOut := "out/"
  watermark := watermark
  aVg := average
  dir := some entries
  load _ := some img
  saveThrows _ := false

/-- A call of `save_jpeg`: the result name and the image. -/
structure Save where
  path : String
  img : Img
  deriving DecidableEq, Repr

/-- The save of the watermarked image of an entry. -/
def savedAs (env : Env) (name : String) (img : Img) : Save :=
  ⟨env.pathOut ++ name, pipeProcessImage img env.watermark env.aVg⟩

inductive Stream where
  | cout
  | cerr
  deriving DecidableEq, Repr

structure World where
  folder : String → Option Img
  printed : List (Stream × String)

def World.empty : World := ⟨fun _ => none, []⟩

/-- The line printed by the handlers of `CImgIOException`. -/
def saveError (resultName : String) : String := "Error occurred while saving " ++ resultName

/-- `save_jpeg`: nothing is written when it throws. -/
def saveJpeg (env : Env) (save : Save) (world : World) : Option World :=
  if env.saveThrows save.path then none
  else some { world with folder := Function.update world.folder save.path (some save.img) }

/-- `try { img.save_jpeg(...); } catch (CImgIOException ex) { ... }`, with the stream the handler
prints to. -/
def trySave (env : Env) (stream : Stream) (save : Save) (world : World) : World :=
  match saveJpeg env save world with
  | some world' => world'
  | none => { world with printed := world.printed ++ [(stream, saveError save.path)] }

theorem saveJpeg_eq_trySave {env : Env} (stream : Stream) {save : Save}
    (hok : env.saveThrows save.path = false)
    (world : World) : saveJpeg env save world = some (trySave env stream save world) := by
  simp [saveJpeg, trySave, hok]

/-- The result names reported by the handlers. -/
def World.failedSaves (world : World) : Set String :=
  {path | ∃ stream, (stream, saveError path) ∈ world.printed}

theorem saveError_injective {path path' : String} (heq : saveError path = saveError path') :
    path = path' :=
  (String.append_right_inj _).mp heq

def trySaves (env : Env) (stream : Stream) (saves : List Save) (world : World) : World :=
  saves.foldl (fun w save => trySave env stream save w) world

section TrySaves

variable {env : Env} {stream : Stream}

theorem trySaves_concat (saves : List Save) (save : Save) (world : World) :
    trySaves env stream (saves ++ [save]) world = trySave env stream save (trySaves env stream saves world) := by
  simp [trySaves]

/-- When no path is given two different images, the folder holds exactly the images whose save did
not throw. -/
theorem folder_trySaves {saves : List Save}
    (hfun : ∀ s ∈ saves, ∀ s' ∈ saves, s.path = s'.path → s = s') {path : String} {img : Img} :
    (trySaves env stream saves World.empty).folder path = some img ↔
      ⟨path, img⟩ ∈ saves ∧ env.saveThrows path = false := by
  induction saves using List.reverseRecOn with
  | nil => simp [trySaves, World.empty]
  | append_singleton saves save ih =>
    have hih := ih fun s hs s' hs' => hfun s (by simp [hs]) s' (by simp [hs'])
    rw [trySaves_concat]
    cases hthrows : env.saveThrows save.path with
    | true =>
      simp only [trySave, saveJpeg, hthrows, if_true, hih, List.mem_append, List.mem_singleton]
      refine and_congr_left fun hok => ⟨Or.inl, Or.rec id ?_⟩
      rintro rfl
      simp [hok] at hthrows
    | false =>
      simp only [trySave, saveJpeg, hthrows, Bool.false_eq_true, if_false, List.mem_append,
        List.mem_singleton]
      by_cases hpath : path = save.path
      · subst hpath
        simp only [Function.update_self, Option.some.injEq, hthrows, and_true]
        constructor
        · rintro rfl
          exact Or.inr rfl
        · intro hsave
          rcases hsave with hmem | heq
          · exact (congrArg Save.img (hfun ⟨save.path, img⟩ (by simp [hmem]) save (by simp) rfl)).symm
          · exact (congrArg Save.img heq).symm
      · rw [Function.update_of_ne hpath, hih]
        have hne : (⟨path, img⟩ : Save) ≠ save := fun heq => hpath (congrArg Save.path heq)
        simp [hne]

theorem failedSaves_trySaves {saves : List Save} {path : String} :
    path ∈ (trySaves env stream saves World.empty).failedSaves ↔
      (∃ save ∈ saves, save.path = path) ∧ env.saveThrows path = true := by
  induction saves using List.reverseRecOn with
  | nil => simp [trySaves, World.empty, World.failedSaves]
  | append_singleton saves save ih =>
    rw [trySaves_concat]
    simp only [World.failedSaves, Set.mem_ofPred_eq] at ih ⊢
    cases hthrows : env.saveThrows save.path with
    | true =>
      simp only [trySave, saveJpeg, hthrows, if_true, List.mem_append, List.mem_singleton,
        Prod.mk.injEq, exists_or, ih]
      constructor
      · intro hfailed
        rcases hfailed with ⟨⟨s, hs, hpath⟩, hbad⟩ | ⟨_, _, herror⟩
        · exact ⟨⟨s, Or.inl hs, hpath⟩, hbad⟩
        · obtain rfl := saveError_injective herror
          exact ⟨⟨save, Or.inr rfl, rfl⟩, hthrows⟩
      · intro hfailed
        obtain ⟨⟨s, hs | rfl, hpath⟩, hbad⟩ := hfailed
        · exact Or.inl ⟨⟨s, hs, hpath⟩, hbad⟩
        · exact Or.inr ⟨stream, rfl, by rw [hpath]⟩
    | false =>
      simp only [trySave, saveJpeg, hthrows, Bool.false_eq_true, if_false, List.mem_append,
        List.mem_singleton, ih]
      constructor
      · intro hfailed
        obtain ⟨⟨s, hs, hpath⟩, hbad⟩ := hfailed
        exact ⟨⟨s, Or.inl hs, hpath⟩, hbad⟩
      · intro hfailed
        obtain ⟨⟨s, hs | rfl, hpath⟩, hbad⟩ := hfailed
        · exact ⟨⟨s, hs, hpath⟩, hbad⟩
        · rw [← hpath, hthrows] at hbad
          cases hbad

/-- The folder does not depend on the order of the saves, nor on the stream the handlers print to.
-/
theorem folder_trySaves_perm (stream stream' : Stream) {saves saves' : List Save}
    (hperm : saves.Perm saves') (hfun : ∀ s ∈ saves', ∀ s' ∈ saves', s.path = s'.path → s = s') :
    (trySaves env stream saves World.empty).folder = (trySaves env stream' saves' World.empty).folder := by
  have hfun' : ∀ s ∈ saves, ∀ s' ∈ saves, s.path = s'.path → s = s' := fun s hs s' hs' =>
    hfun s (hperm.mem_iff.mp hs) s' (hperm.mem_iff.mp hs')
  ext path img
  rw [folder_trySaves hfun, folder_trySaves hfun', hperm.mem_iff]

theorem failedSaves_trySaves_perm (stream stream' : Stream) {saves saves' : List Save}
    (hperm : saves.Perm saves') :
    (trySaves env stream saves World.empty).failedSaves = (trySaves env stream' saves' World.empty).failedSaves := by
  ext path
  simp only [failedSaves_trySaves, hperm.mem_iff]

theorem savedAs_functional (env : Env) (load : String → Img) (names : List String) :
    ∀ s ∈ names.map fun name => savedAs env name (load name), ∀ s' ∈ names.map fun name => savedAs env name (load name),
      s.path = s'.path → s = s' := by
  intro s hs s' hs' hpath
  obtain ⟨name, -, rfl⟩ := List.mem_map.mp hs
  obtain ⟨name', -, rfl⟩ := List.mem_map.mp hs'
  obtain rfl := (String.append_right_inj _).mp hpath
  rfl

end TrySaves

end ParallelWatermark
