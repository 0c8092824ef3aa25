import Mathlib.Data.List.TakeWhile
import ParallelWatermark.World

/-!
# The sequential program

`seq_wm` loads, watermarks and saves the entries of the source folder one after the other. Neither
it nor its callers catch `CImgIOException`, so an entry that cannot be loaded or saved is the last
one it looks at. The times it adds up for its callers are left out.
-/

namespace ParallelWatermark

/-- `process_image`: watermarks its own copy of the image and saves it; `none` when `save_jpeg`
throws. -/
def processImage (env : Env) (fileName : String) (img watermark : Img) (average : Bool)
    (world : World) :
    Option World :=
  saveJpeg env ⟨fileName, watermarkRows watermark average img.cols (List.range img.rows) img⟩ world

/-- What `seq_wm` leaves. -/
structure SeqResult where
  world : World
  nImgs : Nat
  thrown : Bool  -- a `CImgIOException` has left the function

def seqLoop (env : Env) : List String → Nat → World → SeqResult
  | [], nImgs, world => ⟨world, nImgs, false⟩
  | s :: entries, nImgs, world =>
    if isDots s then seqLoop env entries nImgs world
    else match env.load (env.pathIn ++ s) with
      | none => ⟨world, nImgs, true⟩
      | some img => match processImage env (env.pathOut ++ s) img env.watermark env.aVg world with
        | none => ⟨world, nImgs, true⟩
        | some world' => seqLoop env entries (nImgs + 1) world'

/-- `seq_wm`, with its `nImgs` argument and the world it starts in. -/
def seqWm (env : Env) (nImgs : Nat) (world : World) : SeqResult :=
  match env.dir with
  | none => ⟨world, nImgs, false⟩
  | some entries => seqLoop env entries nImgs world

/-- `seq_wm`, with the saves that have been made. -/
def seqLoopSaving (env : Env) : List String → Nat → World → List Save → SeqResult × List Save
  | [], nImgs, world, saves => (⟨world, nImgs, false⟩, saves)
  | s :: entries, nImgs, world, saves =>
    if isDots s then seqLoopSaving env entries nImgs world saves
    else match env.load (env.pathIn ++ s) with
      | none => (⟨world, nImgs, true⟩, saves)
      | some img => match processImage env (env.pathOut ++ s) img env.watermark env.aVg world with
        | none => (⟨world, nImgs, true⟩, saves)
        | some world' => seqLoopSaving env entries (nImgs + 1) world' (saves ++ [savedAs env s img])

/-- The saves that `seq_wm` makes. -/
def seqSaves (env : Env) : List Save :=
  (seqLoopSaving env (env.dir.getD []) 0 World.empty []).2

theorem seqLoopSaving_fst (env : Env) (entries : List String) (nImgs : Nat) (world : World)
    (saves : List Save) :
    (seqLoopSaving env entries nImgs world saves).1 = seqLoop env entries nImgs world := by
  induction entries generalizing nImgs world saves with
  | nil => rfl
  | cons s entries ih =>
    cases hdots : isDots s with
    | true => simp [seqLoopSaving, seqLoop, hdots, ih]
    | false =>
      cases hload : env.load (env.pathIn ++ s) with
      | none => simp [seqLoopSaving, seqLoop, hdots, hload]
      | some img =>
        cases hsave : processImage env (env.pathOut ++ s) img env.watermark env.aVg world with
        | none => simp [seqLoopSaving, seqLoop, hdots, hload, hsave]
        | some world' => simp [seqLoopSaving, seqLoop, hdots, hload, hsave, ih]

theorem processImage_eq (env : Env) (name : String) (img : Img) (world : World) :
    processImage env (env.pathOut ++ name) img env.watermark env.aVg world =
      saveJpeg env (savedAs env name img) world := rfl

/-- The names before the first one whose save throws. -/
def savedNames (env : Env) (names : List String) : List String :=
  names.takeWhile fun s => !env.saveThrows (env.pathOut ++ s)

theorem savedNames_eq_self {env : Env} {names : List String}
    (hsave : ∀ name ∈ names, env.saveThrows (env.pathOut ++ name) = false) :
    savedNames env names = names := by
  rw [savedNames, List.takeWhile_eq_self_iff]
  intro name hname
  simp [hsave name hname]

/-- With loads succeeding, `seq_wm` saves the entries before the first one whose save throws. If
there is one, the exception leaves the function and nothing else is saved. -/
theorem seqLoopSaving_eq {env : Env} {load : String → Img} (hload : ∀ path, env.load path = some (load path))
    (stream : Stream) (entries : List String) (nImgs : Nat) (world : World) (saves : List Save) :
    seqLoopSaving env entries nImgs world saves =
      (⟨trySaves env stream ((savedNames env (entries.filter fun s => !isDots s)).map fun s =>
          savedAs env s (load (env.pathIn ++ s))) world,
        nImgs + (savedNames env (entries.filter fun s => !isDots s)).length,
        (entries.filter fun s => !isDots s).any fun s => env.saveThrows (env.pathOut ++ s)⟩,
        saves ++ (savedNames env (entries.filter fun s => !isDots s)).map fun s =>
          savedAs env s (load (env.pathIn ++ s))) := by
  induction entries generalizing nImgs world saves with
  | nil => simp [seqLoopSaving, savedNames, trySaves]
  | cons s entries ih =>
    cases hdots : isDots s with
    | true => simp [seqLoopSaving, hdots, ih]
    | false =>
      have hkept : (s :: entries).filter (fun s => !isDots s) = s :: entries.filter fun s => !isDots s :=
        List.filter_cons_of_pos (by simp [hdots])
      rw [hkept, seqLoopSaving, if_neg (by simp [hdots]), hload]
      cases hthrows : env.saveThrows (env.pathOut ++ s) with
      | true =>
        have hnone : savedNames env (s :: entries.filter fun s => !isDots s) = [] :=
          List.takeWhile_cons_of_neg (by simp [hthrows])
        have hsave : saveJpeg env (savedAs env s (load (env.pathIn ++ s))) world = none := if_pos hthrows
        simp [processImage_eq, hsave, hnone, trySaves, hthrows]
      | false =>
        have hfirst : savedNames env (s :: entries.filter fun s => !isDots s) =
            s :: savedNames env (entries.filter fun s => !isDots s) :=
          List.takeWhile_cons_of_pos (by simp [hthrows])
        have hsave : saveJpeg env (savedAs env s (load (env.pathIn ++ s))) world =
            some (trySave env stream (savedAs env s (load (env.pathIn ++ s))) world) :=
          saveJpeg_eq_trySave stream hthrows world
        simp only [processImage_eq, hsave, ih, hfirst, List.map_cons, List.length_cons, List.append_assoc,
          List.singleton_append, List.any_cons, hthrows, Bool.false_or]
        refine Prod.ext ?_ rfl
        simp only [trySaves, List.foldl_cons, SeqResult.mk.injEq, true_and, and_true]
        omega

/-- `seq_wm` with loads succeeding, whatever saves do. -/
theorem seqWm_eq_savedNames {env : Env} {load : String → Img}
    (hload : ∀ path, env.load path = some (load path)) (stream : Stream) (world : World) :
    seqWm env 0 world =
      ⟨trySaves env stream ((savedNames env env.listing).map fun s => savedAs env s (load (env.pathIn ++ s))) world,
        (savedNames env env.listing).length, env.listing.any fun s => env.saveThrows (env.pathOut ++ s)⟩ := by
  cases hdir : env.dir with
  | none => simp [seqWm, Env.listing, hdir, savedNames, trySaves]
  | some entries =>
    simp only [seqWm, Env.listing, hdir, Option.getD_some]
    rw [← seqLoopSaving_fst env entries 0 world [], seqLoopSaving_eq hload stream, Nat.zero_add]

theorem seqSaves_eq {env : Env} {load : String → Img} (hload : ∀ path, env.load path = some (load path)) :
    seqSaves env = (savedNames env env.listing).map fun s => savedAs env s (load (env.pathIn ++ s)) := by
  rw [seqSaves, seqLoopSaving_eq hload .cout, List.nil_append]
  rfl

/-- `seq_wm` with loads and saves succeeding: the whole listing is saved and counted. -/
theorem seqWm_eq {env : Env} {load : String → Img} (hload : ∀ path, env.load path = some (load path))
    (hsave : ∀ path, env.saveThrows path = false) (stream : Stream) (world : World) :
    seqWm env 0 world =
      ⟨trySaves env stream (env.listing.map fun s => savedAs env s (load (env.pathIn ++ s))) world,
        env.listing.length, false⟩ := by
  rw [seqWm_eq_savedNames hload stream, savedNames_eq_self fun name _ => hsave _]
  simp [hsave]

end ParallelWatermark
