import ParallelWatermark.FastFlow
import ParallelWatermark.Proof.Network.Streams
import ParallelWatermark.Sequential

/-!
# The FastFlow farm computes what the sequential program does

The end of the stream travels out of band here, so no file name can be taken for it, and no `svc` of
the three stages returns `NULL`: every stage goes on until the end of its stream.
-/

namespace ParallelWatermark.FastFlow

open Process

/-! ### The emitter -/

/-- The emitter sends out the listing and counts it. -/
theorem source_yields (env : Env) :
    (source env).Yields (source env).start env.listing (⟨.returned, env.listing.length⟩ : SourceState) := by
  have hfailed (hdir : env.dir = none) :
      (source env).Yields (source env).start [] (⟨.returned, 0⟩ : SourceState) :=
    .skip (by simp [source, sourceNext, hdir]) (.halt rfl)
  have hyields := Emitter.Yields.of_opened env.dir (fun s => !isDots s) (source env).start
    (fun entries n => (⟨.reading entries, n⟩ : SourceState)) (fun n => (⟨.returned, n⟩ : SourceState)) hfailed
    ?_ ?_ ?_ fun n => .skip rfl (.halt rfl)
  · cases hdir : env.dir <;> simpa [Env.listing, hdir] using hyields
  · intro entries hdir
    simp [source, sourceNext, hdir]
  · intro entry entries n hdots
    exact if_pos (by simpa using hdots)
  · intro entry entries n hdots
    exact if_neg (by simpa using hdots)

/-- Units the emitter still has to spend, when each item it sends takes `c` away. -/
def sourceRank (env : Env) (c : Nat) (s : SourceState) : Nat :=
  match s.pc with
  | .opening => (c + 1) * (env.dir.getD []).length + 2
  | .reading entries => (c + 1) * entries.length + 1
  | .returned => 0

theorem sourceRank_lt {env : Env} (c : Nat) {s s' : SourceState} {out : Option String}
    (hnext : sourceNext env s = some (out, s')) : sourceRank env c s' + (out.elim 0 fun _ => c) < sourceRank env c s := by
  obtain ⟨pc, n⟩ := s
  cases pc with
  | opening =>
    cases hdir : env.dir with
    | none =>
      obtain ⟨rfl, rfl⟩ : none = out ∧ _ = s' := by simpa [sourceNext, hdir] using hnext
      simp [sourceRank]
    | some entries =>
      obtain ⟨rfl, rfl⟩ : none = out ∧ _ = s' := by simpa [sourceNext, hdir] using hnext
      simp [sourceRank, hdir]
  | reading entries =>
    cases entries with
    | nil =>
      obtain ⟨rfl, rfl⟩ : none = out ∧ _ = s' := by simpa [sourceNext] using hnext
      simp [sourceRank]
    | cons entry entries =>
      cases hdots : isDots entry with
      | true =>
        obtain ⟨rfl, rfl⟩ : none = out ∧ _ = s' := by simpa [sourceNext, hdots] using hnext
        simp only [sourceRank, List.length_cons, Nat.mul_add, Option.elim_none]
        omega
      | false =>
        obtain ⟨rfl, rfl⟩ : some entry = out ∧ _ = s' := by simpa [sourceNext, hdots] using hnext
        simp only [sourceRank, List.length_cons, Nat.mul_add, Option.elim_some]
        omega
  | returned => simp [sourceNext] at hnext

theorem source_ranked (env : Env) (c : Nat) : (source env).Ranked c (sourceRank env c) :=
  fun _ _ _ hnext => sourceRank_lt c hnext

/-! ### The stages -/

def loadPacket (env : Env) : Packet String → Option (Packet Pair)
  | .eos => some .eos
  | .item task => (env.load (env.pathIn ++ task)).map fun img => .item (task, img)

def markPacket (env : Env) : Packet Pair → Option (Packet Pair)
  | .eos => some .eos
  | .item p => some (.item (p.1, pipeProcessImage p.2 env.watermark env.aVg))

def savePacket (env : Env) : Packet Pair → Option Save
  | .eos => none
  | .item p => some ⟨env.pathOut ++ p.1, p.2⟩

/-- What a whole pipeline attempts to save. -/
def attemptPacket (env : Env) : Packet String → Option Save
  | .eos => none
  | .item task => (env.load (env.pathIn ++ task)).map fun img => savedAs env task img

def loadsPacket (env : Env) : Packet String → Bool
  | .eos => true
  | .item task => (env.load (env.pathIn ++ task)).isSome

section Nodes

variable (env : Env)

theorem firstNode_spec : (firstNode env).Spec Packet.isEos (loadPacket env) (loadsPacket env) := by
  refine (Loop.spec (nodeBody (stage1 env))).congr (fun p => ?_) (fun p => ?_) (fun p => ?_)
  all_goals
    cases p with
    | eos => rfl
    | item task =>
      cases hload : env.load (env.pathIn ++ task) <;>
        simp [Loop.isLast, Loop.output, Loop.accepts, nodeBody, stage1, hload, Outcome.stops,
          Outcome.out, Outcome.succeeds, Packet.isEos, loadPacket, loadsPacket]

theorem secondNode_spec : (secondNode env).Spec Packet.isEos (markPacket env) (fun _ => true) := by
  refine (Loop.spec (nodeBody fun p => some (stage2 env p))).congr (fun p => ?_) (fun p => ?_) (fun p => ?_)
  all_goals cases p <;> rfl

theorem thirdNode_spec : (thirdNode env).Spec Packet.isEos (savePacket env) (fun _ => true) := by
  refine (Loop.spec (lastBody (stage3 env))).congr (fun p => ?_) (fun p => ?_) (fun p => ?_)
  all_goals cases p <;> rfl

theorem forwards_firstNode : Chain.Forwards Packet.isEos (loadPacket env) Packet.isEos where
  token p htok := by
    cases p with
    | eos => exact ⟨.eos, rfl, rfl⟩
    | item task => cases htok
  data p q hdata hout := by
    cases p with
    | eos => cases hdata
    | item task =>
      obtain ⟨img, -, rfl⟩ := Option.map_eq_some_iff.mp hout
      rfl

theorem forwards_secondNode : Chain.Forwards Packet.isEos (markPacket env) Packet.isEos where
  token p htok := by
    cases p with
    | eos => exact ⟨.eos, rfl, rfl⟩
    | item p => cases htok
  data p q hdata hout := by
    cases p with
    | eos => cases hdata
    | item p =>
      obtain rfl := Option.some_inj.mp hout
      rfl

theorem pipe_spec : (pipe env).Spec Packet.isEos (attemptPacket env) (loadsPacket env) := by
  have hfirst := Chain.spec (firstNode_spec env) (secondNode_spec env) (forwards_firstNode env)
  have hspec := Chain.spec hfirst (thirdNode_spec env) ((forwards_firstNode env).comp (forwards_secondNode env))
  refine hspec.congr (fun _ => rfl) (fun p => ?_) (fun p => ?_)
  all_goals
    cases p with
    | eos => rfl
    | item task =>
      cases hload : env.load (env.pathIn ++ task) <;>
        simp [Chain.chainOk, loadPacket, markPacket, savePacket, attemptPacket, loadsPacket,
          savedAs, hload]

def pipeRank : (pipe env).State → Nat :=
  Chain.rank 2 (Chain.rank 4 (Loop.rank 4) (Loop.rank 2)) (Loop.rank 0)

theorem pipe_ranked : (pipe env).Ranked 6 0 (pipeRank env) :=
  Chain.ranked (Chain.ranked (Loop.ranked (nodeBody (stage1 env)) 4)
    (Loop.ranked (nodeBody fun p => some (stage2 env p)) 2)) (Loop.ranked (lastBody (stage3 env)) 0)

end Nodes

/-! ### Complete runs -/

section Runs

variable {env : Env} {P : Nat} {evs : List (FarmEvent P)} {s : FarmState env P}

theorem farm_world_eq (hrun : FarmHistory env P evs s) :
    s.world = trySaves env .cerr (attempts evs) World.empty := by
  rw [(Farm.split_of_history hrun).world, attempts, trySaves, List.foldl_map]

theorem farm_attempts_perm (hrun : FarmHistory env P evs s) (hreturned : Scatter.Returned s) :
    (attempts evs).Perm (env.listing.filterMap fun name => attemptPacket env (.item name)) :=
  Scatter.sends_perm (pipe_spec env) (source_yields env) rfl (Farm.split_of_history hrun) hreturned

theorem mem_listing_of_take (hrun : FarmHistory env P evs s) {i : Fin P} {name : String}
    (htake : (i, Packet.item name) ∈ Farm.takes evs) : name ∈ env.listing := by
  have hsplit := Farm.split_of_history hrun
  have hqueue := Scatter.inv_of_split (source_yields env) hsplit i
  have hmem : Packet.item name ∈ (Farm.ofWorker i (Scatter.assignment evs)).map Packet.item ++
      if s.feed.ended i then [.eos] else [] := by
    rw [← hqueue]
    exact List.mem_append_left _ (Farm.mem_ofWorker.mpr htake)
  have hassigned : name ∈ Farm.ofWorker i (Scatter.assignment evs) := by
    split at hmem <;> simpa using hmem
  obtain ⟨rest, -, hstream⟩ := (Scatter.feed_history (source_yields env) hsplit.feed).stream
  rw [← hstream]
  exact List.mem_append_left _ (List.mem_map.mpr ⟨(i, name), Farm.mem_ofWorker.mp hassigned, rfl⟩)

theorem farm_aborted_eq_false (hrun : FarmHistory env P evs s)
    (hload : ∀ name ∈ env.listing, (env.load (env.pathIn ++ name)).isSome = true) : s.aborted = false := by
  apply Farm.aborted_eq_false (pipe_spec env) (Farm.split_of_history hrun)
  intro p hp
  obtain ⟨i, packet⟩ := p
  cases packet with
  | eos => rfl
  | item name => exact hload name (mem_listing_of_take hrun hp)

theorem farm_rank_lt (env : Env) (P : Nat) (s : FarmState env P) (e : FarmEvent P)
    (s' : FarmState env P) (hstep : FarmStep env P s e s') :
    Farm.rank (Scatter.rank 6 (sourceRank env 6)) (pipeRank env) s' <
      Farm.rank (Scatter.rank 6 (sourceRank env 6)) (pipeRank env) s :=
  Scatter.rank_lt (source_ranked env 6) (pipe_ranked env) s e s' hstep

/-- In a farm that has returned, every stage of every worker has stopped at the end of its stream.
-/
theorem stages_received (hrun : FarmHistory env P evs s) (hreturned : Scatter.Returned s)
    (i : Fin P) :
    (∃ names : List String, received (stage1Actions evs i) = names.map .item ++ [.eos]) ∧
    (∃ pairs : List Pair, received (stage2Actions evs i) = pairs.map .item ++ [.eos]) ∧
    ∃ pairs : List Pair, received (stage3Actions evs i) = pairs.map .item ++ [.eos] := by
  have houter := Chain.split_of_history ((Farm.split_of_history hrun).worker i)
  have hinner := Chain.split_of_history houter.left
  obtain ⟨hhalted, hhalted₃⟩ := Chain.halted_iff.mp (hreturned.2.2 i)
  obtain ⟨hhalted₁, hhalted₂⟩ := Chain.halted_iff.mp hhalted
  obtain ⟨init₁, last₁, hinit₁, hfree₁, hlast₁⟩ :=
    (firstNode_spec env).received_of_halted hinner.left hhalted₁
  obtain ⟨init₂, last₂, hinit₂, hfree₂, hlast₂⟩ :=
    (secondNode_spec env).received_of_halted hinner.right hhalted₂
  obtain ⟨init₃, last₃, hinit₃, hfree₃, hlast₃⟩ :=
    (thirdNode_spec env).received_of_halted houter.right hhalted₃
  exact ⟨Packet.exists_items hinit₁ hfree₁ hlast₁, Packet.exists_items hinit₂ hfree₂ hlast₂,
    Packet.exists_items hinit₃ hfree₃ hlast₃⟩

end Runs

/-- Where nothing can happen in the farm of `ff_watermark` any more, every stage has stopped, and at
the end of its stream; every entry has had one attempt to save its own watermarked image, and
nothing else has been saved; and if no save has failed, the folder and the count are those of
`seq_wm`. -/
theorem ffWatermark_eq_seqWm {env : Env} {P : Nat} (hP : 0 < P) {load : String → Img}
    (hload : ∀ path, env.load path = some (load path)) {evs : List (FarmEvent P)}
    {s : FarmState env P}
    (hrun : FarmHistory env P evs s) (hterminal : Terminal (FarmStep env P) s) :
    Scatter.Returned s ∧
    (∀ i, (∃ names : List String, received (stage1Actions evs i) = names.map .item ++ [.eos]) ∧
      (∃ pairs : List Pair, received (stage2Actions evs i) = pairs.map .item ++ [.eos]) ∧
      ∃ pairs : List Pair, received (stage3Actions evs i) = pairs.map .item ++ [.eos]) ∧
    (attempts evs).Perm (env.listing.map fun name =>
      ⟨env.pathOut ++ name, pipeProcessImage (load (env.pathIn ++ name)) env.watermark env.aVg⟩) ∧
    (∀ path img, s.world.folder path = some img ↔ env.saveThrows path = false ∧ ∃ name ∈ env.listing,
      path = env.pathOut ++ name ∧
        img = pipeProcessImage (load (env.pathIn ++ name)) env.watermark env.aVg) ∧
    nImgs s = env.listing.length ∧
    ((∀ path, env.saveThrows path = false) → s.world.folder = (seqWm env 0 World.empty).world.folder ∧
      nImgs s = (seqWm env 0 World.empty).nImgs) := by
  have hlive : s.aborted = false := farm_aborted_eq_false hrun fun name _ => by simp [hload]
  have : Nonempty (Fin P) := ⟨⟨0, hP⟩⟩
  have hreturned := Scatter.returned_of_terminal (pipe_spec env) (source_yields env) (Farm.split_of_history hrun) hlive
    hterminal
  have hattempts : (attempts evs).Perm (env.listing.map fun name => savedAs env name (load (env.pathIn ++ name))) := by
    have hperm := farm_attempts_perm hrun hreturned
    simpa [attemptPacket, hload] using hperm
  have hfun := savedAs_functional env (fun name => load (env.pathIn ++ name)) env.listing
  have hn : nImgs s = env.listing.length := congrArg SourceState.nImgs
    (Scatter.assignment_eq_of_halted (source_yields env) (Farm.split_of_history hrun) hreturned.2.1).2
  refine ⟨hreturned, stages_received hrun hreturned, hattempts, ?_, hn, ?_⟩
  · intro path img
    rw [farm_world_eq hrun, folder_trySaves_perm .cerr .cerr hattempts hfun, folder_trySaves hfun,
      and_comm]
    apply and_congr_right
    intro _
    simp only [List.mem_map, savedAs, Save.mk.injEq, eq_comm (a := path), eq_comm (a := img)]
  · intro hsave
    rw [seqWm_eq hload hsave .cerr, farm_world_eq hrun]
    exact ⟨folder_trySaves_perm .cerr .cerr hattempts hfun, hn⟩

/-- A folder with an image called `"EOS"`, and one that cannot be saved. -/
def failingSaveEnv : Env where
  pathIn := "in/"
  pathOut := "out/"
  watermark := Img.column 0 200
  aVg := true
  dir := some [".", "..", "EOS", "b.jpg"]
  load _ := some (Img.column 9 9)
  saveThrows path := path == "out/b.jpg"

theorem ffWatermark_eq_seqWm_inhabited :
    ∃ evs, ∃ s : FarmState failingSaveEnv 2, FarmHistory failingSaveEnv 2 evs s ∧
      Scatter.Returned s ∧
      s.world.folder "out/EOS" = some (pipeProcessImage (Img.column 9 9) (Img.column 0 200) true) ∧
      s.world.folder "out/b.jpg" = none ∧ nImgs s = 2 := by
  have hload : ∀ path, failingSaveEnv.load path = some (Img.column 9 9) := fun _ => rfl
  obtain ⟨evs, s, hrun, hterminal⟩ := Run.exists_terminal (farm_rank_lt failingSaveEnv 2) .nil
  obtain ⟨hreturned, -, -, hfolder, hn, -⟩ := ffWatermark_eq_seqWm (by decide) hload hrun hterminal
  refine ⟨_, s, hrun, hreturned, ?_, ?_, hn⟩
  · exact (hfolder _ _).mpr ⟨by decide, "EOS", by decide, rfl, rfl⟩
  · rw [Option.eq_none_iff_forall_ne_some]
    intro img himg
    cases ((hfolder _ _).mp himg).1

end ParallelWatermark.FastFlow
