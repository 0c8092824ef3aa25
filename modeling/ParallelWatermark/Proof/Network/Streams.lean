import ParallelWatermark.Proof.Network.Complete

/-!
# The streams of a pipeline

What has gone through each queue of `cpp_watermark` in any reachable state, read off the positions
of the threads: every thread passes on what it has popped, in order, up to the one item it may be
holding.
-/

namespace ParallelWatermark

open Process

section Histories

variable {ι α β γ δ κ : Type} [DecidableEq ι]
  (evs : List (Farm.Event ι α δ (ChainMove (ChainMove Unit β Unit) γ Unit) κ)) (i : ι)

/-- What the first stage of worker `i` has popped and pushed. -/
def stage1Actions : List (Action α β Unit) :=
  Chain.leftActions (Chain.leftActions (Farm.workerActions i evs))

/-- What the second stage of worker `i` has popped and pushed. -/
def stage2Actions : List (Action β γ Unit) :=
  Chain.rightActions (Chain.leftActions (Farm.workerActions i evs))

/-- What the third stage of worker `i` has popped, and its attempts to save. -/
def stage3Actions : List (Action γ δ Unit) := Chain.rightActions (Farm.workerActions i evs)

theorem received_stage1Actions :
    received (stage1Actions evs i) = Farm.ofWorker i (Farm.takes evs) := by
  rw [stage1Actions, Chain.received_leftActions, Chain.received_leftActions, Farm.received_workerActions]

theorem sent_stage3Actions : sent (stage3Actions evs i) = Farm.ofWorker i (Farm.sends evs) := by
  rw [stage3Actions, Chain.sent_rightActions, Farm.sent_workerActions]

end Histories

/-- The streams through pipeline `i`: each thread has passed on what it is done with, in order, and
an `"EOS"` pair when it has returned; each queue holds what has been pushed into it and not yet
popped. -/
structure PipelineStreams {env : Env} {P : Nat} (load : String → Img)
    (evs : List (Farm.Event (Fin P) String Save PipelineMove (Option String)))
    (s : NetworkState env P (pipeline env)) (i : Fin P) : Prop where
  loaded : ∃ done, received (stage1Actions evs i) = done ++ (stage1Pc s i).held.toList ∧
    sent (stage1Actions evs i) =
      (done.filter fun name => !isEos name).map (fun name => (name, load (env.pathIn ++ name))) ++
        if (stage1Pc s i).isReturned then [eosPair] else []
  stage2Queue : sent (stage1Actions evs i) = received (stage2Actions evs i) ++ (stage2TaskQueue s i).items
  marked : ∃ done, received (stage2Actions evs i) = done ++ (stage2Pc s i).held.toList ∧
    sent (stage2Actions evs i) =
      (done.filter fun p => !isEos p.1).map (fun p => (p.1, pipeProcessImage p.2 env.watermark env.aVg)) ++
        if (stage2Pc s i).isReturned then [eosPair] else []
  stage3Queue : sent (stage2Actions evs i) = received (stage3Actions evs i) ++ (stage3TaskQueue s i).items
  saved : ∃ done, received (stage3Actions evs i) = done ++ (stage3Pc s i).held.toList ∧
    sent (stage3Actions evs i) = (done.filter fun p => !isEos p.1).map fun p => ⟨env.pathOut ++ p.1, p.2⟩

section Stages

variable {env : Env} {load : String → Img}

theorem stage1_streams (hload : ∀ path, env.load path = some (load path))
    {acts : List (Action String Pair Unit)}
    {s : Loop.Pc String} (hrun : (stage1 env).History acts s) :
    ∃ done, received acts = done ++ s.held.toList ∧
      sent acts = (done.filter fun name => !isEos name).map (fun name => (name, load (env.pathIn ++ name))) ++
        if s.isReturned then [eosPair] else [] := by
  refine Loop.sent_eq hrun (isLast_stage1 env) (output_stage1 env) _ (some eosPair) ?_ ?_
  · intro name hname
    simp [loadPair, hname, hload]
  · intro name _ hname
    simp [loadPair, hname]

theorem stage2_streams {acts : List (Action Pair Pair Unit)} {s : Loop.Pc Pair}
    (hrun : (stage2 env).History acts s)
    (heos : ∀ p ∈ received acts, isEos p.1 = true → p = eosPair) :
    ∃ done, received acts = done ++ s.held.toList ∧
      sent acts = (done.filter fun p => !isEos p.1).map (fun p => (p.1, pipeProcessImage p.2 env.watermark env.aVg)) ++
        if s.isReturned then [eosPair] else [] := by
  refine Loop.sent_eq hrun (isLast_stage2 env) (output_stage2 env) _ (some eosPair) ?_ ?_
  · intro p hp
    simp [markPair, hp]
  · intro p hmem hp
    simp [heos p hmem hp, markPair, eosPair]

theorem stage3_streams {acts : List (Action Pair Save Unit)} {s : Loop.Pc Pair}
    (hrun : (stage3 env).History acts s) :
    ∃ done, received acts = done ++ s.held.toList ∧
      sent acts = (done.filter fun p => !isEos p.1).map fun p => ⟨env.pathOut ++ p.1, p.2⟩ := by
  obtain ⟨done, hreceived, hsent⟩ := Loop.sent_eq hrun (isLast_stage3 env) (output_stage3 env)
    (fun p => ⟨env.pathOut ++ p.1, p.2⟩) none (fun p hp => by simp [savePair, hp]) (fun p _ hp => by simp [savePair, hp])
  exact ⟨done, hreceived, by simpa using hsent⟩

theorem pipelineStreams_of_history (hload : ∀ path, env.load path = some (load path)) {P : Nat}
    {st : Stream} {evs : List (Farm.Event (Fin P) String Save PipelineMove (Option String))}
    {s : NetworkState env P (pipeline env)}
    (hrun : NetworkHistory env P (pipeline env) st evs s) (i : Fin P) : PipelineStreams load evs s i := by
  have houter := Chain.split_of_history ((Farm.split_of_history hrun).worker i)
  have hinner := Chain.split_of_history houter.left
  have hloaded := stage1_streams hload hinner.left
  have hstage3 : sent (stage2Actions evs i) = received (stage3Actions evs i) ++ (stage3TaskQueue s i).items :=
    (Chain.sent_rightActions _).trans houter.queue
  refine ⟨hloaded, hinner.queue, stage2_streams hinner.right ?_, hstage3, stage3_streams houter.right⟩
  -- The pairs `stage1` makes of names keep those names, so an `"EOS"` pair is the one it pushes when it returns.
  intro p hp heos
  obtain ⟨done, -, hsent⟩ := hloaded
  have hmem : p ∈ sent (Chain.leftActions (Chain.leftActions (Farm.workerActions i evs))) := by
    rw [hinner.queue]
    exact List.mem_append_left _ hp
  rw [hsent, List.mem_append, List.mem_map] at hmem
  rcases hmem with ⟨name, hname, rfl⟩ | hmem
  · simp only [List.mem_filter, heos, Bool.not_true, Bool.false_eq_true, and_false] at hname
  · split at hmem
    · simpa using hmem
    · simp at hmem

end Stages

/-- In every reachable state of `cpp_watermark` there is an assignment of the names popped so far to
the workers from which everything that has gone through the private queues, and every attempt to
save, follows in order. -/
theorem cppWatermark_streams {env : Env} {P : Nat} {load : String → Img}
    (hload : ∀ path, env.load path = some (load path))
    {evs : List (Farm.Event (Fin P) String Save PipelineMove (Option String))}
    {s : NetworkState env P (pipeline env)}
    (hrun : NetworkHistory env P (pipeline env) .cout evs s) :
    SharedQueue.emits evs <+: stream env P ∧
    ∃ assigned : List (Fin P × String),
      assigned.map Prod.snd ++ (taskQueue s).items = SharedQueue.emits evs ∧
      ∀ i, Farm.ofWorker i assigned = received (stage1Actions evs i) ∧
        PipelineStreams load evs s i ∧
        Farm.ofWorker i (Farm.sends evs) = sent (stage3Actions evs i) := by
  obtain ⟨hqueue, hpre⟩ := popped_append_taskQueue hrun
  refine ⟨hpre, Farm.takes evs, hqueue, fun i => ⟨?_, ?_, ?_⟩⟩
  · exact (received_stage1Actions evs i).symm
  · exact pipelineStreams_of_history hload hrun i
  · exact (sent_stage3Actions evs i).symm

theorem cppWatermark_streams_inhabited :
    ∃ (evs : List (Farm.Event (Fin 2) String Save PipelineMove (Option String)))
      (s : NetworkState collidingEnv 2 (pipeline collidingEnv)),
      NetworkHistory collidingEnv 2 (pipeline collidingEnv) .cout evs s ∧ SharedQueue.Returned s ∧
      ∀ i, PipelineStreams (fun _ => Img.column 9 9) evs s i := by
  have hload : ∀ path, collidingEnv.load path = some (Img.column 9 9) := fun _ => rfl
  obtain ⟨evs, s, hrun, hreturned⟩ := exists_returned_of_total hload (pipeline_spec collidingEnv)
    (pipeline_ranked collidingEnv) 2 .cout
  obtain ⟨-, assigned, -, hstreams⟩ := cppWatermark_streams hload hrun
  exact ⟨evs, s, hrun, hreturned, fun i => (hstreams i).2.1⟩

end ParallelWatermark
