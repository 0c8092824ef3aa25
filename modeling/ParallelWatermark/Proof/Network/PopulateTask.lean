import ParallelWatermark.Proof.Network.BoundedSource
import ParallelWatermark.Proof.Network.Limits

/-!
# `populate_task` and its consumers

`populate_task` pushes one `"EOS"` for each consumer, and none at all when the folder cannot be
opened. Then a consumer that pops until `"EOS"` waits forever, where `Source` would have released it.
-/

namespace ParallelWatermark

open Process

theorem items_populateLoop (nImgs : Int) (entries : List String) (i : Int) (taskQueue : Fifo String) :
    (populateLoop nImgs entries i taskQueue).items = taskQueue.items ++ namesFrom nImgs entries i := by
  induction entries generalizing i taskQueue with
  | nil => simp [populateLoop, namesFrom]
  | cons entry entries ih =>
    by_cases hlt : i < nImgs
    · cases hdots : isDots entry with
      | true => simp [populateLoop, hlt, hdots, ih, namesFrom_cons_of_dots]
      | false => simp [populateLoop, hlt, hdots, ih, namesFrom_cons]
    · simp [populateLoop, hlt, namesFrom_of_le _ (Int.not_lt.mp hlt)]

/-- `populate_task` pushes what its thread pushes, behind what the queue holds. -/
theorem items_populateTask (env : Env) (nImgs : Int) (parDeg : Nat) (taskQueue : Fifo String) :
    (populateTask env nImgs parDeg taskQueue).items = taskQueue.items ++ boundedStream env nImgs 0 parDeg := by
  cases hdir : env.dir with
  | none => simp [populateTask, boundedStream, hdir]
  | some entries =>
    simp [populateTask, boundedStream, hdir, Fifo.items_foldl_push, items_populateLoop, namesFrom, Env.listing]

/-- `populate_task` appends the names it is to append and one `"EOS"` for each consumer, and
consumers that pop until `"EOS"` return on every interleaving with it. -/
structure ReleasesConsumers (env : Env) (nImgs : Int) (parDeg : Nat) : Prop where
  appends : ∀ taskQueue : Fifo String, (populateTask env nImgs parDeg taskQueue).items =
    taskQueue.items ++ env.listing.take nImgs.toNat ++ List.replicate parDeg "EOS"
  finite : ∀ {β τ δ : Type} {C : Component String β τ} {cin cout : Nat} {rank : C.State → Nat},
    C.Ranked cin cout rank → ∀ effect : β → δ → δ,
    ¬ ∃ (state : Nat → Farm.State (Fin parDeg) δ (SharedQueue.feed (Fin parDeg) (populateTaskThread env nImgs parDeg)) C)
        (label : Nat → _), ∀ n, Farm.Step _ C effect (state n) (label n) (state (n + 1))
  returned : ∀ {β τ δ : Type} {C : Component String β τ} {g : String → Option β},
    C.Spec isEos g (fun _ => true) → ∀ (effect : β → δ → δ) (world : δ) evs
      (s : Farm.State (Fin parDeg) δ (SharedQueue.feed (Fin parDeg) (populateTaskThread env nImgs parDeg)) C),
    Farm.History _ C effect world evs s → Terminal (Farm.Step _ C effect) s → SharedQueue.Returned s

/-- The consumers of `populate_task` are released exactly if the folder can be opened or there are
none. -/
theorem populateTask_releases_iff (env : Env) (nImgs : Int) (parDeg : Nat) :
    ReleasesConsumers env nImgs parDeg ↔ env.dir.isSome = true ∨ parDeg = 0 := by
  constructor
  · intro hreleases
    cases hdir : env.dir with
    | some entries => exact Or.inl rfl
    | none =>
      right
      have happended := congrArg List.length (hreleases.appends Fifo.empty)
      rw [items_populateTask] at happended
      simpa [boundedStream, Env.listing, hdir] using happended
  · intro hcondition
    have hstream : boundedStream env nImgs 0 parDeg =
        env.listing.take nImgs.toNat ++ List.replicate parDeg "EOS" := by
      cases hdir : env.dir with
      | some entries => simp [boundedStream, hdir]
      | none =>
        have hnone : parDeg = 0 := by simpa [hdir] using hcondition
        simp [boundedStream, Env.listing, hdir, hnone]
    refine ⟨fun taskQueue => ?_, fun hrank effect => ?_, fun hC effect world evs s hrun hterminal => ?_⟩
    · rw [items_populateTask, hstream, List.append_assoc]
    · exact not_exists_infinite fun s e s' hstep =>
        SharedQueue.rank_lt (bounded_ranked env nImgs 0 parDeg _) hrank hstep
    · obtain ⟨final, hyields⟩ := bounded_yields env nImgs 0 parDeg
      refine SharedQueue.returned_of_terminal_of_ok hC hyields (Farm.split_of_history hrun) ?_ (fun _ _ => rfl) hterminal
      rw [hstream, List.countP_append, countP_replicate_eos, Fintype.card_fin]
      exact Nat.le_add_left _ _

/-- Where every image can be loaded, `stage1` and `stage123` are such consumers. -/
theorem ReleasesConsumers.stages {env : Env} {load : String → Img} {nImgs : Int} {parDeg : Nat}
    (hreleases : ReleasesConsumers env nImgs parDeg) (hload : ∀ path, env.load path = some (load path)) :
    (∀ {δ : Type} (effect : Pair → δ → δ) (world : δ) evs s,
      Farm.History (SharedQueue.feed (Fin parDeg) (populateTaskThread env nImgs parDeg)) (stage1 env)
        effect world evs s →
      Terminal (Farm.Step _ (stage1 env) effect) s → SharedQueue.Returned s) ∧
    ∀ {δ : Type} (effect : Save → δ → δ) (world : δ) evs s,
      Farm.History (SharedQueue.feed (Fin parDeg) (populateTaskThread env nImgs parDeg)) (stage123 env)
        effect world evs s →
      Terminal (Farm.Step _ (stage123 env) effect) s → SharedQueue.Returned s := by
  have hloads := loads_of_total hload
  constructor
  · exact hreleases.returned ((stage1_spec env).congr (fun _ => rfl) (fun _ => rfl) hloads)
  · exact hreleases.returned ((stage123_spec env).congr (fun _ => rfl) (fun _ => rfl) hloads)

/-- A folder that cannot be opened. -/
def unopenableEnv : Env := { plainEnv with dir := none }

/-- One thread running `stage123` beside `populate_task` on that folder: it waits for good. -/
theorem populateTask_unopenable :
    (populateTask unopenableEnv 5 1 Fifo.empty).items = [] ∧
    (∃ evs, ∃ s : Farm.State (Fin 1) World (SharedQueue.feed (Fin 1) (populateTaskThread unopenableEnv 5 1))
        (stage123 unopenableEnv),
      Farm.History _ (stage123 unopenableEnv) (trySave unopenableEnv .cerr) World.empty evs s ∧
      Terminal (Farm.Step _ (stage123 unopenableEnv) (trySave unopenableEnv .cerr)) s ∧ s.aborted = false ∧
      (stage123 unopenableEnv).halted (s.worker 0) = false) ∧
    ¬ ReleasesConsumers unopenableEnv 5 1 := by
  refine ⟨rfl, ?_, fun hreleases => ?_⟩
  · have hstart : Farm.History (SharedQueue.feed (Fin 1) (populateTaskThread unopenableEnv 5 1))
        (stage123 unopenableEnv) (trySave unopenableEnv .cerr) World.empty [] (Farm.start _ _ World.empty) := .nil
    have hopened := hstart.snoc (.feed (k := none) rfl ⟨_, rfl, rfl⟩)
    have hreturned := hopened.snoc (.feed (k := none) rfl ⟨_, rfl, rfl⟩)
    refine ⟨_, _, hreturned, ?_, rfl, rfl⟩
    intro e s' hstep
    cases hstep with
    | feed hlive hstep =>
      obtain ⟨e', hnext, -⟩ := hstep
      cases hnext
    | take hlive hoffer haccept => cases hoffer
    | move hlive hmove => cases hmove
    | abort hlive hfailing => cases hfailing
  · have happended := hreleases.appends Fifo.empty
    exact absurd happended (by decide)

end ParallelWatermark
