import ParallelWatermark.Proof.Network.Outcome

/-!
# The folder while a network runs

In any state, and if an exception has ended the process as well: what is in the output folder are the
whole watermarked images of files that have been popped, and nothing that is there changes any more.
-/

namespace ParallelWatermark

open Process

/-! ### Saves of watermarked images -/

/-- The save of the watermarked image of a file that loads. -/
def Faithful (env : Env) (save : Save) : Prop :=
  ∃ name img, env.load (env.pathIn ++ name) = some img ∧ save = savedAs env name img

theorem Faithful.eq_of_path {env : Env} {save save' : Save} (hsave : Faithful env save) (hsave' : Faithful env save')
    (hpath : save.path = save'.path) : save = save' := by
  obtain ⟨name, img, hload, rfl⟩ := hsave
  obtain ⟨name', img', hload', rfl⟩ := hsave'
  obtain rfl := (String.append_right_inj _).mp hpath
  rw [hload, Option.some.injEq] at hload'
  rw [hload']

section Saves

variable {env : Env} {st : Stream} {saves more : List Save}

theorem mem_of_folder (hsaves : ∀ save ∈ saves, Faithful env save) {path : String} {img : Img} :
    (trySaves env st saves World.empty).folder path = some img ↔ ⟨path, img⟩ ∈ saves ∧ env.saveThrows path = false :=
  folder_trySaves fun save hmem save' hmem' => (hsaves save hmem).eq_of_path (hsaves save' hmem')

/-- More saves change no file. -/
theorem folder_kept (hsaves : ∀ save ∈ saves ++ more, Faithful env save) {path : String} {img : Img}
    (hsaved : (trySaves env st saves World.empty).folder path = some img) :
    (trySaves env st (saves ++ more) World.empty).folder path = some img := by
  rw [mem_of_folder fun save hmem => hsaves save (List.mem_append_left _ hmem)] at hsaved
  rw [mem_of_folder hsaves]
  exact ⟨List.mem_append_left _ hsaved.1, hsaved.2⟩

end Saves

/-! ### Any state of a network -/

section Runs

variable {τ : Type} {env : Env} {P : Nat} {C : Component String Save τ} {st : Stream}
  {evs : List (Farm.Event (Fin P) String Save τ (Option String))} {s : NetworkState env P C}

theorem attempts_faithful (hC : IsWorker env C) (hrun : NetworkHistory env P C st evs s) {save : Save}
    (hsave : save ∈ attempts evs) : ∃ name ∈ popped evs, attempt env name = some save := by
  have hsub := Farm.sends_subperm hC (Farm.split_of_history hrun)
  exact List.mem_filterMap.mp (hsub.subset hsave)

theorem faithful_of_attempt {name : String} {save : Save} (hattempt : attempt env name = some save) :
    Faithful env save := by
  obtain ⟨-, img, hload, rfl⟩ := attempt_eq_some.mp hattempt
  exact ⟨name, img, hload, rfl⟩

/-- In every state of a network, whether or not an exception has ended it: no popped name has more attempts
to save it than times it has been popped; a file in the output folder is the watermarked image of an entry
of the listing; and it stays as it is in every state that follows. -/
theorem network_folder_sound (hC : IsWorker env C) (hrun : NetworkHistory env P C st evs s) :
    (attempts evs).Subperm ((popped evs).filterMap (attempt env)) ∧
    (∀ path img, s.world.folder path = some img → env.saveThrows path = false ∧
      ∃ name ∈ env.listing, isEos name = false ∧ path = env.pathOut ++ name ∧
        ∃ loaded, env.load (env.pathIn ++ name) = some loaded ∧ img = pipeProcessImage loaded env.watermark env.aVg) ∧
    ∀ more s', NetworkHistory env P C st (evs ++ more) s' →
      ∀ path img, s.world.folder path = some img → s'.world.folder path = some img := by
  have hfaithful : ∀ {evs} {s : NetworkState env P C}, NetworkHistory env P C st evs s →
      ∀ save ∈ attempts evs, Faithful env save := by
    intro evs s hrun save hsave
    obtain ⟨name, -, hattempt⟩ := attempts_faithful hC hrun hsave
    exact faithful_of_attempt hattempt
  refine ⟨Farm.sends_subperm hC (Farm.split_of_history hrun), fun path img hsaved => ?_, fun more s' hmore path img hsaved => ?_⟩
  · rw [world_eq hrun, mem_of_folder (hfaithful hrun)] at hsaved
    obtain ⟨hmem, hok⟩ := hsaved
    obtain ⟨name, hpopped, hattempt⟩ := attempts_faithful hC hrun hmem
    obtain ⟨hname, loaded, hload, hsave⟩ := attempt_eq_some.mp hattempt
    have hlisted := (eos_or_mem_listing (popped_subset_stream hrun hpopped)).resolve_left (by simp [hname])
    exact ⟨hok, name, hlisted, hname, congrArg Save.path hsave, loaded, hload, congrArg Save.img hsave⟩
  · have hsplit : attempts (evs ++ more) = attempts evs ++ attempts more := by simp [attempts]
    have hall := hfaithful hmore
    rw [world_eq hrun] at hsaved
    rw [hsplit] at hall
    rw [world_eq hmore, hsplit]
    exact folder_kept hall hsaved

end Runs

/-- One image, in average mode. -/
def singleEnv : Env := uniformEnv ["a.jpg"] (Img.column 9 9) (Img.column 0 200) true

theorem network_folder_sound_inhabited :
    ∃ evs s, NetworkHistory singleEnv 1 (pipeline singleEnv) .cout evs s ∧
      ∃ img, s.world.folder "out/a.jpg" = some img ∧ ∃ name ∈ singleEnv.listing, "out/a.jpg" = "out/" ++ name := by
  have hC := pipeline_spec singleEnv
  obtain ⟨evs, s, hrun, hreturned⟩ := exists_returned hC (pipeline_ranked singleEnv) (by decide)
    (.nil : NetworkHistory singleEnv 1 (pipeline singleEnv) .cout [] _)
  have hattempts := attempts_perm hC hrun hreturned
  have hsaved : s.world.folder "out/a.jpg" = some (pipeProcessImage (Img.column 9 9) (Img.column 0 200) true) := by
    rw [world_eq hrun, folder_eq_some_iff hattempts]
    exact ⟨⟨"a.jpg", by decide, rfl⟩, rfl⟩
  obtain ⟨-, name, hlisted, -, hpath, -⟩ := (network_folder_sound hC hrun).2.1 _ _ hsaved
  exact ⟨_, s, hrun, _, hsaved, name, hlisted, hpath⟩

end ParallelWatermark
