import ParallelWatermark.Proof.Network.CppWatermark
import ParallelWatermark.Proof.Network.Limits

/-!
# Complete runs of `cpp_watermark` on its blocking queues

What the network does once pushes and pops are taken as single steps it does on the monitors of
`util.cpp`, with `main` starting the threads while the first of them are at work, and with spurious
wake-ups at any time.
-/

namespace ParallelWatermark.CppWatermark

open Process

open BlockingQueue.Threads (abs label)

abbrev MonitorState (env : Env) (P : Nat) := BlockingQueue.Threads.State (program env P) World
abbrev MonitorEvent (P : Nat) := BlockingQueue.Threads.Event (Thread P) (Item P) (Option Save)

section Runs

variable {env : Env} {P : Nat} {evs : List (MonitorEvent P)} {s s' : MonitorState env P}

abbrev MonitorStep (env : Env) (P : Nat) : MonitorState env P → MonitorEvent P → MonitorState env P → Prop :=
  BlockingQueue.Threads.Step (saveEffect env)

abbrev MonitorHistory (evs : List (MonitorEvent P)) (s : MonitorState env P) : Prop :=
  BlockingQueue.Threads.History (program env P) (saveEffect env) World.empty evs s

/-- The steps of the network that a run on the monitors amounts to: each call is seen when it takes
effect, and `main` is not seen. -/
def networkEvents (evs : List (MonitorEvent P)) : List (Farm.Event (Fin P) String Save PipelineMove (Option String)) :=
  (evs.filterMap label).filterMap networkEvent

/-- Every run on the monitors is a run of the network. It has done the same to the folder, and a queue
of the network holds what the deque of the monitor does. -/
theorem monitors_refine_network (hrun : MonitorHistory evs s) :
    NetworkHistory env P (pipeline env) .cout (networkEvents evs) (networkOf (abs s)) ∧
    (networkOf (abs s)).world = s.shared ∧ (networkOf (abs s)).aborted = s.aborted ∧
    taskQueue (networkOf (abs s)) = (s.queue .task).deque ∧
    ∀ i, stage2TaskQueue (networkOf (abs s)) i = (s.queue (.stage2 i)).deque ∧
      stage3TaskQueue (networkOf (abs s)) i = (s.queue (.stage3 i)).deque :=
  ⟨network_of_run (BlockingQueue.Threads.abs_run hrun), rfl, rfl, rfl, fun _ => ⟨rfl, rfl⟩⟩

/-! ### Every step costs -/

theorem inv_of_run (hrun : MonitorHistory evs s) : BlockingQueue.Threads.Inv s :=
  (BlockingQueue.Threads.refines (program env P) (saveEffect env)).inv_of_run
    (BlockingQueue.Threads.inv_start (program env P) World.empty) hrun

theorem monitorRank_lt (hrun : MonitorHistory evs s) {e : MonitorEvent P} (hstep : MonitorStep env P s e s')
    (hspurious : e.isSpurious = false) :
    BlockingQueue.Threads.rank plainRank s' < BlockingQueue.Threads.rank plainRank s :=
  BlockingQueue.Threads.rank_lt (inv_of_run hrun) plainRank_lt hstep hspurious

theorem exists_quiet (hrun : MonitorHistory evs s) : ∃ more, ∃ s' : MonitorState env P,
    MonitorHistory (evs ++ more) s' ∧ (∀ e ∈ more, e.isSpurious = false) ∧ BlockingQueue.Threads.Quiet (saveEffect env) s' :=
  Run.exists_resting (fun _ _ _ _ hrun => monitorRank_lt hrun) hrun

theorem exists_quiet_run (env : Env) (P : Nat) : ∃ evs, ∃ s : MonitorState env P, MonitorHistory evs s ∧
    BlockingQueue.Threads.Quiet (saveEffect env) s := by
  have hstart : MonitorHistory [] (BlockingQueue.Threads.start (program env P) World.empty) := .nil
  obtain ⟨more, s, hrun, -, hquiet⟩ := exists_quiet hstart
  exact ⟨more, s, hrun, hquiet⟩

/-- Units a run on the monitors has to spend in the beginning. -/
def budget (env : Env) (P : Nat) : Nat :=
  BlockingQueue.Threads.rank plainRank (BlockingQueue.Threads.start (program env P) World.empty)

/-- Whatever the scheduler does, the steps of a run are bounded by a number that depends on the folder
only, and on how often threads are woken for nothing. From every state a run can reach, the steps of
the threads alone lead to one where nothing is left to do. -/
theorem monitors_terminate (hrun : MonitorHistory evs s) :
    evs.countP (fun e => !e.isSpurious) ≤ budget env P + 3 * evs.countP (fun e => e.isSpurious) ∧
    ∃ more, ∃ s' : MonitorState env P, MonitorHistory (evs ++ more) s' ∧ (∀ e ∈ more, e.isSpurious = false) ∧
      BlockingQueue.Threads.Quiet (saveEffect env) s' := by
  have hbound := Run.length_le (fun _ _ _ _ hrun => monitorRank_lt hrun)
    (fun evs s e s' hrun hstep hkind => BlockingQueue.Threads.rank_le_of_spurious (inv_of_run hrun) hstep hkind) hrun
  exact ⟨Nat.le_trans (Nat.le_add_right _ _) hbound, exists_quiet hrun⟩

theorem monitors_terminate_inhabited :
    ∃ more, ∃ s' : MonitorState collidingEnv 2, MonitorHistory more s' ∧ (∀ e ∈ more, e.isSpurious = false) ∧
      BlockingQueue.Threads.Quiet (saveEffect collidingEnv) s' :=
  (monitors_terminate .nil).2

theorem monitors_refine_network_inhabited :
    ∃ evs, ∃ s : MonitorState collidingEnv 2, BlockingQueue.Threads.Quiet (saveEffect collidingEnv) s ∧
      NetworkHistory collidingEnv 2 (pipeline collidingEnv) .cout (networkEvents evs) (networkOf (abs s)) := by
  obtain ⟨evs, s, hrun, hquiet⟩ := exists_quiet_run collidingEnv 2
  exact ⟨evs, s, hquiet, (monitors_refine_network hrun).1⟩

/-! ### Complete runs -/

/-- No thread is in a call and each has returned, `main` after all others. -/
structure AllReturned (s : MonitorState env P) : Prop where
  live : s.aborted = false
  returned : ∀ t, (program env P).instr t (s.thread t) = .returned
  idle : ∀ k t, (s.queue k).thread t = .idle

theorem returned_of_quiet (hrun : MonitorHistory evs s) (hlive : s.aborted = false)
    (hquiet : BlockingQueue.Threads.Quiet (saveEffect env) s) :
    AllReturned s ∧ SharedQueue.Returned (networkOf (abs s)) := by
  have hplain := BlockingQueue.Threads.abs_run hrun
  obtain ⟨⟨-, hinstr⟩, hnetwork⟩ := returned_of_terminal hplain hlive
    (BlockingQueue.Threads.terminal_of_quiet hrun hquiet)
  have hreturned : ∀ t, (program env P).instr t (s.thread t) = .returned := by
    intro t
    rw [← BlockingQueue.Threads.abs_thread_of_quiet hrun hquiet hlive t]
    exact hinstr t
  have hinv := (BlockingQueue.Threads.refines (program env P) (saveEffect env)).inv_of_run
    (BlockingQueue.Threads.inv_start (program env P) World.empty) hrun
  refine ⟨⟨hlive, hreturned, fun k t => ?_⟩, hnetwork⟩
  exact BlockingQueue.Threads.idle_of_no_call (hinv.consistent k t) (by simp [hreturned t]) (by simp [hreturned t])

/-- A run on the monitors in which nothing is left to happen, when every entry loads: no exception has
ended it, no thread is left waiting and `main` has returned. The folder holds what it holds after any
complete run of the network, and every entry has been counted. -/
theorem monitors_complete (hloads : ∀ name ∈ env.listing, loads env name = true) (hrun : MonitorHistory evs s)
    (hquiet : BlockingQueue.Threads.Quiet (saveEffect env) s) :
    AllReturned s ∧ popped (networkEvents evs) = processed env P ∧
    (∀ path img, s.shared.folder path = some img ↔
      (∃ name ∈ processed env P, attempt env name = some ⟨path, img⟩) ∧ env.saveThrows path = false) ∧
    nImgs (networkOf (abs s)) = env.listing.length := by
  have hnetwork := (monitors_refine_network hrun).1
  have hlive : s.aborted = false := aborted_eq_false (pipeline_spec env) hnetwork hloads
  obtain ⟨hall, hreturned⟩ := returned_of_quiet hrun hlive hquiet
  have hattempts := attempts_perm (pipeline_spec env) hnetwork hreturned
  refine ⟨hall, popped_eq (pipeline_spec env) hnetwork hreturned, fun path img => ?_, nImgs_eq hnetwork hreturned⟩
  rw [show s.shared = _ from world_eq hnetwork]
  exact folder_eq_some_iff hattempts

theorem monitors_complete_inhabited : ∃ evs : List (MonitorEvent 2), ∃ s : MonitorState collidingEnv 2, AllReturned s ∧
    popped (networkEvents evs) = ["a", "EOS", "b", "EOS"] ∧ nImgs (networkOf (abs s)) = 3 := by
  obtain ⟨evs, s, hrun, hquiet⟩ := exists_quiet_run collidingEnv 2
  obtain ⟨hall, hpopped, -, hn⟩ := monitors_complete (fun _ _ => by simp [loads, collidingEnv, uniformEnv]) hrun hquiet
  exact ⟨evs, s, hall, hpopped.trans (by decide), hn.trans (by decide)⟩

/-- Where moreover every load and every save succeeds and no entry is called `"EOS"`, the run has done
what `seq_wm` does. -/
theorem monitors_eq_seqWm {load : String → Img} (hload : ∀ path, env.load path = some (load path))
    (hsave : ∀ path, env.saveThrows path = false) (hP : 0 < P) (heos : "EOS" ∉ env.listing)
    (hrun : MonitorHistory evs s) (hquiet : BlockingQueue.Threads.Quiet (saveEffect env) s) :
    AllReturned s ∧ s.shared.folder = (seqWm env 0 World.empty).world.folder ∧
      nImgs (networkOf (abs s)) = (seqWm env 0 World.empty).nImgs := by
  have hnetwork := (monitors_refine_network hrun).1
  have hlive : s.aborted = false :=
    aborted_eq_false (pipeline_spec env) hnetwork fun name _ => loads_of_total hload name
  obtain ⟨hall, hreturned⟩ := returned_of_quiet hrun hlive hquiet
  have hattempts := attempts_perm (pipeline_spec env) hnetwork hreturned
  rw [filterMap_attempt_processed hP heos, filterMap_attempt_listing hload heos] at hattempts
  rw [show s.shared = _ from world_eq hnetwork, seqWm_eq hload hsave .cout]
  refine ⟨hall, ?_, nImgs_eq hnetwork hreturned⟩
  exact folder_trySaves_perm .cout .cout hattempts (savedAs_functional env (fun name => load (env.pathIn ++ name)) env.listing)

theorem monitors_eq_seqWm_inhabited : ∃ s : MonitorState plainEnv 2, AllReturned s ∧
    s.shared.folder = (seqWm plainEnv 0 World.empty).world.folder ∧ nImgs (networkOf (abs s)) = 2 := by
  have hload : ∀ path, plainEnv.load path = some (Img.column 9 9) := fun _ => rfl
  obtain ⟨evs, s, hrun, hquiet⟩ := exists_quiet_run plainEnv 2
  obtain ⟨hall, hfolder, hn⟩ := monitors_eq_seqWm hload (fun _ => rfl) (by decide) (by decide) hrun hquiet
  refine ⟨s, hall, hfolder, hn.trans ?_⟩
  rw [seqWm_eq hload (fun _ => rfl) .cout]
  decide

/-- An exception ends the run exactly on a folder with an entry that does not load: a run in which
nothing is left to happen has either had all its threads return or ended that way. -/
theorem monitors_aborted_iff (hP : 0 < P) (heos : "EOS" ∉ env.listing) (hrun : MonitorHistory evs s)
    (hquiet : BlockingQueue.Threads.Quiet (saveEffect env) s) :
    (s.aborted = true ↔ ∃ name ∈ env.listing, env.load (env.pathIn ++ name) = none) ∧
      (s.aborted = false → AllReturned s) := by
  have hnetwork := (monitors_refine_network hrun).1
  refine ⟨⟨fun haborted => ?_, fun hbad => ?_⟩, fun hlive => (returned_of_quiet hrun hlive hquiet).1⟩
  · by_contra hnone
    simp only [not_exists, not_and] at hnone
    have hlive := aborted_eq_false (pipeline_spec env) hnetwork fun name hname => by
      simp [loads, Option.isSome_iff_ne_none.mpr (hnone name hname)]
    rw [show s.aborted = false from hlive] at haborted
    cases haborted
  · obtain ⟨name, hname, hbad⟩ := hbad
    by_contra hlive
    obtain ⟨-, hreturned⟩ := returned_of_quiet hrun (by simpa using hlive) hquiet
    have hsome := isSome_load_of_loads heos hname (loads_of_returned hP heos hnetwork hreturned name hname)
    simp [hbad] at hsome

theorem monitors_aborted_iff_inhabited : ∃ s : MonitorState unreadableEnv 1,
    BlockingQueue.Threads.Quiet (saveEffect unreadableEnv) s ∧ s.aborted = true := by
  obtain ⟨evs, s, hrun, hquiet⟩ := exists_quiet_run unreadableEnv 1
  exact ⟨s, hquiet, (monitors_aborted_iff (by decide) (by decide) hrun hquiet).1.mpr ⟨"a.jpg", by decide, by decide⟩⟩

end Runs

end ParallelWatermark.CppWatermark
