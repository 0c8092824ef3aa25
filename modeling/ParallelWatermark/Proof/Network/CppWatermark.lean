import ParallelWatermark.CppWatermark
import ParallelWatermark.Proof.BlockingQueue.Rank
import ParallelWatermark.Proof.Network.Outcome

/-!
# `cpp_watermark` on its blocking queues

A run of the program's threads, `main` among them, is a run of the network once pushes and pops are
taken as one step each: `main` changes nothing the network sees, and a thread that has not been
started is one that has not moved. In the other direction a step of the network is one of the
program as soon as all threads have been started.
-/

namespace ParallelWatermark.CppWatermark

open Process

variable {env : Env} {P : Nat}

/-! ### The instructions of a thread -/

theorem loopInstr_cases {γ : Type} (k : Queue P) (body : Item P k → Outcome γ)
    (emit : Option γ → Loop.Pc (Item P k) → Next P (Loop.Pc (Item P k))) (pc : Loop.Pc (Item P k)) :
    (pc = .top ∧ loopInstr k body emit pc = .pop k .holding) ∨
    (∃ out next, (Loop.emit out, next) ∈ (loop body).moves pc ∧ loopInstr k body emit pc = emit out next) ∨
    ((loop body).failing pc = true ∧ loopInstr k body emit pc = .throw) ∨
    (pc = .returned ∧ loopInstr k body emit pc = .returned) := by
  cases pc with
  | top => exact Or.inl ⟨rfl, rfl⟩
  | returned => exact Or.inr (Or.inr (Or.inr ⟨rfl, rfl⟩))
  | holding b =>
    cases hbody : body b with
    | next out =>
      have hmove : (Loop.emit out, .top) ∈ (loop body).moves (.holding b) := Loop.mem_moves_iff.mpr
        ⟨b, rfl, by simp [Loop.accepts, hbody, Outcome.succeeds], by simp [Loop.output, hbody, Outcome.out],
          by simp [Loop.isLast, hbody, Outcome.stops]⟩
      exact Or.inr (Or.inl ⟨out, .top, hmove, by simp [loopInstr, hbody]⟩)
    | stop out =>
      have hmove : (Loop.emit out, .returned) ∈ (loop body).moves (.holding b) := Loop.mem_moves_iff.mpr
        ⟨b, rfl, by simp [Loop.accepts, hbody, Outcome.succeeds], by simp [Loop.output, hbody, Outcome.out],
          by simp [Loop.isLast, hbody, Outcome.stops]⟩
      exact Or.inr (Or.inl ⟨out, .returned, hmove, by simp [loopInstr, hbody]⟩)
    | throw =>
      exact Or.inr (Or.inr (Or.inl ⟨by simp [loop, hbody, Outcome.succeeds], by simp [loopInstr, hbody]⟩))

theorem sourceInstr_cases (env : Env) (pc : SourceState) :
    (∃ next, sourceNext env P pc = some (none, next) ∧ sourceInstr (P := P) env pc = .act none next) ∨
    (∃ name next, sourceNext env P pc = some (some name, next) ∧
      sourceInstr (P := P) env pc = .push (Queue.task : Queue P) name next) ∨
    (sourceNext env P pc = none ∧ sourceInstr (P := P) env pc = .returned) := by
  cases hnext : sourceNext env P pc with
  | none => exact Or.inr (Or.inr ⟨rfl, by simp [sourceInstr, hnext]⟩)
  | some moved =>
    obtain ⟨out, next⟩ := moved
    cases out with
    | none => exact Or.inl ⟨next, rfl, by simp [sourceInstr, hnext]⟩
    | some name => exact Or.inr (Or.inl ⟨name, next, rfl, by simp [sourceInstr, hnext]⟩)

/-! ### The network in a state of the program -/

abbrev PlainState (env : Env) (P : Nat) := Process.Threads.State (program env P) World
abbrev PlainEvent (P : Nat) := Process.Threads.Event (Thread P) (Item P) (Option Save)
abbrev PlainStep (env : Env) (P : Nat) : PlainState env P → PlainEvent P → PlainState env P → Prop :=
  Process.Threads.Step (saveEffect env)

def workerOf (s : PlainState env P) (i : Fin P) : (pipeline env).State :=
  ⟨⟨s.thread (.stage1 i), s.queue (.stage2 i), s.thread (.stage2 i)⟩, s.queue (.stage3 i), s.thread (.stage3 i)⟩

def networkOf (s : PlainState env P) : NetworkState env P (pipeline env) :=
  ⟨⟨s.thread .source, s.queue .task⟩, workerOf s, s.shared, s.aborted⟩

/-- What the network sees of a step of the program: nothing of those of `main`. -/
def networkEvent : PlainEvent P → Option (Farm.Event (Fin P) String Save PipelineMove (Option String))
  | .push .source .task name => some (.feed (some name))
  | .push (.stage1 i) (.stage2 _) p => some (.move i (.tau (.left (.push p))))
  | .push (.stage2 i) (.stage3 _) p => some (.move i (.tau (.push p)))
  | .pop (.stage1 i) .task name => some (.take i name)
  | .pop (.stage2 i) (.stage2 _) p => some (.move i (.tau (.left (.pop p))))
  | .pop (.stage3 i) (.stage3 _) p => some (.move i (.tau (.pop p)))
  | .act .source _ => some (.feed none)
  | .act (.stage1 i) _ => some (.move i (.tau (.left (.left ()))))
  | .act (.stage2 i) _ => some (.move i (.tau (.left (.right ()))))
  | .act (.stage3 i) (some save) => some (.move i (.send save))
  | .act (.stage3 i) none => some (.move i (.tau (.right ())))
  | .throw (.stage1 i) => some (.abort i)
  | .throw (.stage2 i) => some (.abort i)
  | .throw (.stage3 i) => some (.abort i)
  | _ => none

section Steps

variable {s s' : PlainState env P} {i : Fin P}

theorem workerOf_eq_iff {w : (pipeline env).State} : workerOf s i = w ↔
    s.thread (.stage1 i) = w.left.left ∧ s.queue (.stage2 i) = w.left.queue ∧
      s.thread (.stage2 i) = w.left.right ∧ s.queue (.stage3 i) = w.queue ∧ s.thread (.stage3 i) = w.right := by
  constructor
  · rintro rfl
    exact ⟨rfl, rfl, rfl, rfl, rfl⟩
  · intro heq
    obtain ⟨⟨left, queue, right⟩, queue', right'⟩ := w
    obtain ⟨rfl, rfl, rfl, rfl, rfl⟩ := heq
    rfl

/-- A worker whose threads and queues a step leaves alone. -/
theorem workerOf_other {t : Thread P} {next : (program env P).State t} {j : Fin P}
    (hthread : s'.thread = Function.update s.thread t next)
    (hne : t ≠ .stage1 j ∧ t ≠ .stage2 j ∧ t ≠ .stage3 j)
    (hqueue : s'.queue (.stage2 j) = s.queue (.stage2 j) ∧ s'.queue (.stage3 j) = s.queue (.stage3 j)) :
    workerOf s' j = workerOf s j := by
  obtain ⟨hne₁, hne₂, hne₃⟩ := hne
  refine workerOf_eq_iff.mpr ⟨?_, hqueue.1, ?_, hqueue.2, ?_⟩
  · rw [hthread, Function.update_of_ne hne₁.symm]
    rfl
  · rw [hthread, Function.update_of_ne hne₂.symm]
    rfl
  · rw [hthread, Function.update_of_ne hne₃.symm]
    rfl

theorem networkOf_worker {w : (pipeline env).State} (hself : workerOf s' i = w)
    (hother : ∀ j, j ≠ i → workerOf s' j = workerOf s j) : workerOf s' = Function.update (workerOf s) i w := by
  funext j
  by_cases hj : j = i
  · subst hj
    rw [hself, Function.update_self]
  · rw [hother j hj, Function.update_of_ne hj]

/-- A move of worker `i` alone, as the network sees it. -/
theorem step_move {m : Move Save PipelineMove} {w : (pipeline env).State} (hlive : s.aborted = false)
    (hmove : (m, w) ∈ (pipeline env).moves (workerOf s i)) (hself : workerOf s' i = w)
    (hother : ∀ j, j ≠ i → workerOf s' j = workerOf s j) (hfeed : (networkOf s').feed = (networkOf s).feed)
    (hworld : s'.shared = Farm.moveWorld (trySave env .cout) m s.shared) (haborted : s'.aborted = s.aborted) :
    NetworkStep env P (pipeline env) .cout (networkOf s) (.move i m) (networkOf s') := by
  have hstep : NetworkStep env P (pipeline env) .cout (networkOf s) (.move i m) _ := .move hlive hmove
  have heq : networkOf s' = { networkOf s with
      worker := Function.update (networkOf s).worker i w
      world := Farm.moveWorld (trySave env .cout) m (networkOf s).world } := by
    have hworker : (networkOf s').worker = _ := networkOf_worker hself hother
    change (⟨(networkOf s').feed, (networkOf s').worker, s'.shared, s'.aborted⟩ :
      NetworkState env P (pipeline env)) = _
    rw [hworker, hfeed, hworld, haborted]
    rfl
  rw [heq]
  exact hstep

theorem step_take {name : String} {queue' : Fifo String} (hlive : s.aborted = false)
    (hpop : (s.queue .task).pop = some (name, queue')) (htop : s.thread (.stage1 i) = .top)
    (hself : workerOf s' i = ⟨⟨.holding name, s.queue (.stage2 i), s.thread (.stage2 i)⟩, s.queue (.stage3 i), s.thread (.stage3 i)⟩)
    (hother : ∀ j, j ≠ i → workerOf s' j = workerOf s j) (hfeed : (networkOf s').feed = ⟨s.thread .source, queue'⟩)
    (hworld : s'.shared = s.shared) (haborted : s'.aborted = s.aborted) :
    NetworkStep env P (pipeline env) .cout (networkOf s) (.take i name) (networkOf s') := by
  have hoffer : (SharedQueue.feed (Fin P) (source env P)).offer (networkOf s).feed i =
      some (name, ⟨s.thread .source, queue'⟩) := Option.map_eq_some_iff.mpr ⟨_, hpop, rfl⟩
  have hfirst : (stage1 env).accept (workerOf s i).left.left name = some (.holding name) :=
    Loop.accept_eq_some_iff.mpr ⟨htop, rfl⟩
  have haccept : (pipeline env).accept (workerOf s i) name = some
      ⟨⟨.holding name, s.queue (.stage2 i), s.thread (.stage2 i)⟩, s.queue (.stage3 i), s.thread (.stage3 i)⟩ :=
    Option.map_eq_some_iff.mpr ⟨_, Option.map_eq_some_iff.mpr ⟨_, hfirst, rfl⟩, rfl⟩
  have hstep : NetworkStep env P (pipeline env) .cout (networkOf s) (.take i name) _ := .take hlive hoffer haccept
  have heq : networkOf s' = { networkOf s with
      feed := ⟨s.thread .source, queue'⟩
      worker := Function.update (networkOf s).worker i ⟨⟨.holding name, s.queue (.stage2 i), s.thread (.stage2 i)⟩,
        s.queue (.stage3 i), s.thread (.stage3 i)⟩ } := by
    have hworker : (networkOf s').worker = _ := networkOf_worker hself hother
    change (⟨(networkOf s').feed, (networkOf s').worker, s'.shared, s'.aborted⟩ :
      NetworkState env P (pipeline env)) = _
    rw [hworker, hfeed, hworld, haborted]
    rfl
  rw [heq]
  exact hstep

theorem instr_source (s : PlainState env P) :
    (∃ next, sourceNext env P (s.thread .source) = some (none, next) ∧
      (program env P).instr .source (s.thread .source) = .act none next) ∨
    (∃ name next, sourceNext env P (s.thread .source) = some (some name, next) ∧
      (program env P).instr .source (s.thread .source) = .push (Queue.task : Queue P) name next) ∨
    (sourceNext env P (s.thread .source) = none ∧
      (program env P).instr .source (s.thread .source) = .returned) :=
  sourceInstr_cases env (s.thread .source)

theorem instr_stage1 (s : PlainState env P) (i : Fin P) :
    (s.thread (.stage1 i) = .top ∧
      (program env P).instr (.stage1 i) (s.thread (.stage1 i)) = .pop (Queue.task : Queue P) .holding) ∨
    (∃ out, ∃ next : (program env P).State (.stage1 i), (Loop.emit out, next) ∈ (stage1 env).moves (s.thread (.stage1 i)) ∧
      (program env P).instr (.stage1 i) (s.thread (.stage1 i)) = pushIfAny (.stage2 i) out next) ∨
    ((stage1 env).failing (s.thread (.stage1 i)) = true ∧
      (program env P).instr (.stage1 i) (s.thread (.stage1 i)) = .throw) ∨
    (s.thread (.stage1 i) = .returned ∧
      (program env P).instr (.stage1 i) (s.thread (.stage1 i)) = .returned) :=
  loopInstr_cases .task (stage1Body env) (pushIfAny (.stage2 i)) (s.thread (.stage1 i))

theorem instr_stage2 (s : PlainState env P) (i : Fin P) :
    (s.thread (.stage2 i) = .top ∧
      (program env P).instr (.stage2 i) (s.thread (.stage2 i)) = .pop (Queue.stage2 i) .holding) ∨
    (∃ out, ∃ next : (program env P).State (.stage2 i), (Loop.emit out, next) ∈ (stage2 env).moves (s.thread (.stage2 i)) ∧
      (program env P).instr (.stage2 i) (s.thread (.stage2 i)) = pushIfAny (.stage3 i) out next) ∨
    ((stage2 env).failing (s.thread (.stage2 i)) = true ∧
      (program env P).instr (.stage2 i) (s.thread (.stage2 i)) = .throw) ∨
    (s.thread (.stage2 i) = .returned ∧
      (program env P).instr (.stage2 i) (s.thread (.stage2 i)) = .returned) :=
  loopInstr_cases (.stage2 i) (stage2Body env) (pushIfAny (.stage3 i)) (s.thread (.stage2 i))

theorem instr_stage3 (s : PlainState env P) (i : Fin P) :
    (s.thread (.stage3 i) = .top ∧
      (program env P).instr (.stage3 i) (s.thread (.stage3 i)) = .pop (Queue.stage3 i) .holding) ∨
    (∃ out, ∃ next : (program env P).State (.stage3 i), (Loop.emit out, next) ∈ (stage3 env).moves (s.thread (.stage3 i)) ∧
      (program env P).instr (.stage3 i) (s.thread (.stage3 i)) = .act out next) ∨
    ((stage3 env).failing (s.thread (.stage3 i)) = true ∧
      (program env P).instr (.stage3 i) (s.thread (.stage3 i)) = .throw) ∨
    (s.thread (.stage3 i) = .returned ∧
      (program env P).instr (.stage3 i) (s.thread (.stage3 i)) = .returned) :=
  loopInstr_cases (.stage3 i) (stage3Body env) .act (s.thread (.stage3 i))

theorem step_source {e : PlainEvent P} (hlive : s.aborted = false)
    (hperforms : Process.Threads.Performs (saveEffect env) s .source e s'
      ((program env P).instr .source (s.thread .source))) :
    ∃ ev, networkEvent e = some ev ∧ NetworkStep env P (pipeline env) .cout (networkOf s) ev (networkOf s') := by
  rcases instr_source s with ⟨next, hnext, hinstr⟩ | ⟨name, next, hnext, hinstr⟩ | ⟨-, hinstr⟩
  all_goals rw [hinstr] at hperforms
  · obtain ⟨rfl, rfl⟩ := hperforms
    exact ⟨_, rfl, .feed hlive ⟨next, hnext, rfl⟩⟩
  · obtain ⟨rfl, rfl⟩ := hperforms
    exact ⟨_, rfl, .feed hlive ⟨next, hnext, rfl⟩⟩
  · exact hperforms.elim

theorem step_stage1 {e : PlainEvent P} (hlive : s.aborted = false)
    (hperforms : Process.Threads.Performs (saveEffect env) s (.stage1 i) e s'
      ((program env P).instr (.stage1 i) (s.thread (.stage1 i)))) :
    ∃ ev, networkEvent e = some ev ∧ NetworkStep env P (pipeline env) .cout (networkOf s) ev (networkOf s') := by
  rcases instr_stage1 s i with ⟨htop, hinstr⟩ | ⟨out, next, hmove, hinstr⟩ | ⟨hfailing, hinstr⟩ | ⟨-, hinstr⟩
  all_goals rw [hinstr] at hperforms
  · obtain ⟨name, queue', hpop, rfl, rfl⟩ := hperforms
    refine ⟨_, rfl, step_take (i := i) hlive hpop htop ?_ ?_ rfl rfl rfl⟩
    · exact workerOf_eq_iff.mpr ⟨Function.update_self .., rfl, rfl, rfl, rfl⟩
    · exact fun j hj => workerOf_other rfl (by simp [hj.symm]) ⟨rfl, rfl⟩
  · cases out with
    | none =>
      obtain ⟨rfl, rfl⟩ := hperforms
      refine ⟨_, rfl, step_move (i := i) hlive (Chain.mem_moves_left (Chain.mem_moves_left hmove)) ?_ ?_ rfl rfl rfl⟩
      · exact workerOf_eq_iff.mpr ⟨Function.update_self .., rfl, rfl, rfl, rfl⟩
      · exact fun j hj => workerOf_other rfl (by simp [hj.symm]) ⟨rfl, rfl⟩
    | some p =>
      obtain ⟨rfl, rfl⟩ := hperforms
      refine ⟨_, rfl, step_move (i := i) hlive (Chain.mem_moves_left (Chain.mem_moves_push hmove)) ?_ ?_ rfl rfl rfl⟩
      · exact workerOf_eq_iff.mpr ⟨Function.update_self .., Function.update_self .., rfl, rfl, rfl⟩
      · exact fun j hj => workerOf_other rfl (by simp [hj.symm]) (by simp [hj])
  · obtain ⟨rfl, rfl⟩ := hperforms
    exact ⟨_, rfl, .abort hlive (by simp [networkOf, workerOf, pipeline, chain, hfailing])⟩
  · exact hperforms.elim

theorem step_stage2 {e : PlainEvent P} (hlive : s.aborted = false)
    (hperforms : Process.Threads.Performs (saveEffect env) s (.stage2 i) e s'
      ((program env P).instr (.stage2 i) (s.thread (.stage2 i)))) :
    ∃ ev, networkEvent e = some ev ∧ NetworkStep env P (pipeline env) .cout (networkOf s) ev (networkOf s') := by
  rcases instr_stage2 s i with ⟨htop, hinstr⟩ | ⟨out, next, hmove, hinstr⟩ | ⟨hfailing, hinstr⟩ | ⟨-, hinstr⟩
  all_goals rw [hinstr] at hperforms
  · obtain ⟨p, queue', hpop, rfl, rfl⟩ := hperforms
    have haccept : (stage2 env).accept (workerOf s i).left.right p = some (.holding p) :=
      Loop.accept_eq_some_iff.mpr ⟨htop, rfl⟩
    refine ⟨_, rfl, step_move (i := i) hlive (Chain.mem_moves_left (Chain.mem_moves_pop hpop haccept)) ?_ ?_ rfl rfl rfl⟩
    · exact workerOf_eq_iff.mpr ⟨rfl, Function.update_self .., Function.update_self .., rfl, rfl⟩
    · exact fun j hj => workerOf_other rfl (by simp [hj.symm]) (by simp [hj])
  · cases out with
    | none =>
      obtain ⟨rfl, rfl⟩ := hperforms
      refine ⟨_, rfl, step_move (i := i) hlive (Chain.mem_moves_left (Chain.mem_moves_right hmove)) ?_ ?_ rfl rfl rfl⟩
      · exact workerOf_eq_iff.mpr ⟨rfl, rfl, Function.update_self .., rfl, rfl⟩
      · exact fun j hj => workerOf_other rfl (by simp [hj.symm]) ⟨rfl, rfl⟩
    | some p =>
      obtain ⟨rfl, rfl⟩ := hperforms
      refine ⟨_, rfl, step_move (i := i) hlive (Chain.mem_moves_push (Chain.mem_moves_send hmove)) ?_ ?_ rfl rfl rfl⟩
      · exact workerOf_eq_iff.mpr ⟨rfl, rfl, Function.update_self .., Function.update_self .., rfl⟩
      · exact fun j hj => workerOf_other rfl (by simp [hj.symm]) (by simp [hj])
  · obtain ⟨rfl, rfl⟩ := hperforms
    exact ⟨_, rfl, .abort hlive (by simp [networkOf, workerOf, pipeline, chain, hfailing])⟩
  · exact hperforms.elim

theorem step_stage3 {e : PlainEvent P} (hlive : s.aborted = false)
    (hperforms : Process.Threads.Performs (saveEffect env) s (.stage3 i) e s'
      ((program env P).instr (.stage3 i) (s.thread (.stage3 i)))) :
    ∃ ev, networkEvent e = some ev ∧ NetworkStep env P (pipeline env) .cout (networkOf s) ev (networkOf s') := by
  rcases instr_stage3 s i with ⟨htop, hinstr⟩ | ⟨out, next, hmove, hinstr⟩ | ⟨hfailing, hinstr⟩ | ⟨-, hinstr⟩
  all_goals rw [hinstr] at hperforms
  · obtain ⟨p, queue', hpop, rfl, rfl⟩ := hperforms
    have haccept : (stage3 env).accept (workerOf s i).right p = some (.holding p) :=
      Loop.accept_eq_some_iff.mpr ⟨htop, rfl⟩
    refine ⟨_, rfl, step_move (i := i) hlive (Chain.mem_moves_pop hpop haccept) ?_ ?_ rfl rfl rfl⟩
    · exact workerOf_eq_iff.mpr ⟨rfl, rfl, rfl, Function.update_self .., Function.update_self ..⟩
    · exact fun j hj => workerOf_other rfl (by simp [hj.symm]) (by simp [hj])
  · cases out with
    | none =>
      obtain ⟨rfl, rfl⟩ := hperforms
      refine ⟨_, rfl, step_move (i := i) hlive (Chain.mem_moves_right hmove) ?_ ?_ rfl rfl rfl⟩
      · exact workerOf_eq_iff.mpr ⟨rfl, rfl, rfl, rfl, Function.update_self ..⟩
      · exact fun j hj => workerOf_other rfl (by simp [hj.symm]) ⟨rfl, rfl⟩
    | some save =>
      obtain ⟨rfl, rfl⟩ := hperforms
      refine ⟨_, rfl, step_move (i := i) hlive (Chain.mem_moves_send hmove) ?_ ?_ rfl rfl rfl⟩
      · exact workerOf_eq_iff.mpr ⟨rfl, rfl, rfl, rfl, Function.update_self ..⟩
      · exact fun j hj => workerOf_other rfl (by simp [hj.symm]) ⟨rfl, rfl⟩
  · obtain ⟨rfl, rfl⟩ := hperforms
    exact ⟨_, rfl, .abort hlive (by simp [networkOf, workerOf, pipeline, chain, hfailing])⟩
  · exact hperforms.elim

theorem mainInstr_cases (pc : MainPc P) :
    (∃ next, mainInstr pc = .act none next) ∨ (∃ t next, mainInstr pc = .spawn t next) ∨
    (∃ t next, mainInstr pc = .join t next) ∨ mainInstr pc = .returned := by
  rcases pc with (_ | ⟨t, left⟩) | (_ | ⟨t, left⟩) | _
  · exact Or.inl ⟨_, rfl⟩
  · exact Or.inr (Or.inl ⟨_, _, rfl⟩)
  · exact Or.inl ⟨_, rfl⟩
  · exact Or.inr (Or.inr (Or.inl ⟨_, _, rfl⟩))
  · exact Or.inr (Or.inr (Or.inr rfl))

/-- A step of `main`, which the network does not see. -/
theorem step_main {e : PlainEvent P}
    (hperforms : Process.Threads.Performs (saveEffect env) s .main e s' ((program env P).instr .main (s.thread .main))) :
    networkEvent e = none ∧ networkOf s' = networkOf s := by
  rcases mainInstr_cases (s.thread .main) with ⟨next, hinstr⟩ | ⟨t, next, hinstr⟩ | ⟨t, next, hinstr⟩ | hinstr
  all_goals rw [show (program env P).instr .main (s.thread .main) = _ from hinstr] at hperforms
  · obtain ⟨rfl, rfl⟩ := hperforms
    exact ⟨rfl, rfl⟩
  · obtain ⟨rfl, rfl⟩ := hperforms
    exact ⟨rfl, rfl⟩
  · obtain ⟨-, -, rfl, rfl⟩ := hperforms
    exact ⟨rfl, rfl⟩
  · exact hperforms.elim

/-- A step of any other thread is one of the network. -/
theorem step_other {e : PlainEvent P} {t : Thread P} (ht : t ≠ .main) (hlive : s.aborted = false)
    (hperforms : Process.Threads.Performs (saveEffect env) s t e s' ((program env P).instr t (s.thread t))) :
    ∃ ev, networkEvent e = some ev ∧ NetworkStep env P (pipeline env) .cout (networkOf s) ev (networkOf s') := by
  cases t with
  | main => exact absurd rfl ht
  | source => exact step_source hlive hperforms
  | stage1 i => exact step_stage1 hlive hperforms
  | stage2 i => exact step_stage2 hlive hperforms
  | stage3 i => exact step_stage3 hlive hperforms

theorem step_network {e : PlainEvent P} (hstep : PlainStep env P s e s') :
    AbstractStep (NetworkStep env P (pipeline env) .cout) (networkOf s) (networkEvent e) (networkOf s') := by
  obtain ⟨t, hlive, -, hperforms⟩ := Process.Threads.step_iff.mp hstep
  by_cases ht : t = .main
  · subst ht
    obtain ⟨hevent, hsame⟩ := step_main hperforms
    rw [hevent]
    exact hsame
  · obtain ⟨ev, hevent, hnetwork⟩ := step_other ht hlive hperforms
    rw [hevent]
    exact hnetwork

/-- The program refines the network. -/
theorem refines (env : Env) (P : Nat) : Refines (PlainStep env P)
    (NetworkStep env P (pipeline env) .cout) (fun _ => True) networkOf networkEvent where
  inv_step _ _ _ _ _ := trivial
  abs_step _ _ _ _ hstep := step_network hstep

/-! ### Where nothing can happen -/

theorem idle_source (hterminal : Terminal (PlainStep env P) s) (hlive : s.aborted = false)
    (hrunning : s.running .source = true) : sourceNext env P (s.thread .source) = none := by
  have hblocked := Process.Threads.blocked_of_terminal hterminal hlive hrunning
  rcases instr_source s with ⟨next, -, hinstr⟩ | ⟨name, next, -, hinstr⟩ | ⟨hnone, -⟩
  · rw [hinstr] at hblocked
    exact hblocked.elim
  · rw [hinstr] at hblocked
    exact hblocked.elim
  · exact hnone

theorem idle_stage1 (hterminal : Terminal (PlainStep env P) s) (hlive : s.aborted = false)
    (hrunning : s.running (.stage1 i) = true) :
    (s.thread (.stage1 i) = .top ∧ (s.queue .task).pop = none) ∨ s.thread (.stage1 i) = .returned := by
  have hblocked := Process.Threads.blocked_of_terminal hterminal hlive hrunning
  rcases instr_stage1 s i with ⟨htop, hinstr⟩ | ⟨out, next, -, hinstr⟩ | ⟨-, hinstr⟩ | ⟨hreturned, -⟩
  · rw [hinstr] at hblocked
    exact Or.inl ⟨htop, hblocked⟩
  · rw [hinstr] at hblocked
    cases out <;> exact hblocked.elim
  · rw [hinstr] at hblocked
    exact hblocked.elim
  · exact Or.inr hreturned

theorem idle_stage2 (hterminal : Terminal (PlainStep env P) s) (hlive : s.aborted = false)
    (hrunning : s.running (.stage2 i) = true) :
    (s.thread (.stage2 i) = .top ∧ (s.queue (.stage2 i)).pop = none) ∨ s.thread (.stage2 i) = .returned := by
  have hblocked := Process.Threads.blocked_of_terminal hterminal hlive hrunning
  rcases instr_stage2 s i with ⟨htop, hinstr⟩ | ⟨out, next, -, hinstr⟩ | ⟨-, hinstr⟩ | ⟨hreturned, -⟩
  · rw [hinstr] at hblocked
    exact Or.inl ⟨htop, hblocked⟩
  · rw [hinstr] at hblocked
    cases out <;> exact hblocked.elim
  · rw [hinstr] at hblocked
    exact hblocked.elim
  · exact Or.inr hreturned

theorem idle_stage3 (hterminal : Terminal (PlainStep env P) s) (hlive : s.aborted = false)
    (hrunning : s.running (.stage3 i) = true) :
    (s.thread (.stage3 i) = .top ∧ (s.queue (.stage3 i)).pop = none) ∨ s.thread (.stage3 i) = .returned := by
  have hblocked := Process.Threads.blocked_of_terminal hterminal hlive hrunning
  rcases instr_stage3 s i with ⟨htop, hinstr⟩ | ⟨out, next, -, hinstr⟩ | ⟨-, hinstr⟩ | ⟨hreturned, -⟩
  · rw [hinstr] at hblocked
    exact Or.inl ⟨htop, hblocked⟩
  · rw [hinstr] at hblocked
    exact hblocked.elim
  · rw [hinstr] at hblocked
    exact hblocked.elim
  · exact Or.inr hreturned

/-- A thread that waits for an empty queue, or has returned, does nothing. -/
theorem rest_of_idle {β γ : Type} (body : β → Outcome γ) {pc : Loop.Pc β} {queue : Fifo β}
    (hidle : (pc = .top ∧ queue.pop = none) ∨ pc = .returned) :
    (loop body).moves pc = [] ∧ (loop body).failing pc = false ∧
      ∀ b queue', queue.pop = some (b, queue') → (loop body).accept pc b = none := by
  rcases hidle with ⟨rfl, hpop⟩ | rfl
  · exact ⟨rfl, rfl, by simp [hpop]⟩
  · exact ⟨rfl, rfl, fun _ _ _ => rfl⟩

theorem stage_mem_tids (i : Fin P) :
    Thread.stage1 i ∈ tids P ∧ Thread.stage2 i ∈ tids P ∧ Thread.stage3 i ∈ tids P := by
  simp [tids]

theorem source_mem_tids : Thread.source ∈ tids P := by simp [tids]

/-- With all its threads started, the program is at rest only where the network is. -/
theorem terminal_network (hterminal : Terminal (PlainStep env P) s) (hlive : s.aborted = false)
    (hrunning : ∀ t ∈ tids P, s.running t = true) :
    Terminal (NetworkStep env P (pipeline env) .cout) (networkOf s) := by
  intro e s' hstep
  cases hstep with
  | feed _ hfeed =>
    obtain ⟨next, hnext, -⟩ := hfeed
    have hnone : sourceNext env P (s.thread .source) = none := idle_source hterminal hlive (hrunning _ source_mem_tids)
    rw [show (source env P).next (networkOf s).feed.emitter = none from hnone] at hnext
    cases hnext
  | @take i name feed' w _ hoffer haccept =>
    obtain ⟨popped, hpop, heq⟩ := Option.map_eq_some_iff.mp hoffer
    cases heq
    obtain ⟨first, hfirst, -⟩ := Option.map_eq_some_iff.mp haccept
    obtain ⟨left', hleft, -⟩ := Option.map_eq_some_iff.mp hfirst
    obtain ⟨-, -, hrest⟩ := rest_of_idle (stage1Body env)
      (idle_stage1 hterminal hlive (hrunning _ (stage_mem_tids i).1))
    have hnone : (stage1 env).accept ((networkOf s).worker i).left.left popped.1 = none := hrest popped.1 popped.2 hpop
    rw [hnone] at hleft
    cases hleft
  | @move i m w _ hmove =>
    obtain ⟨hmoves₁, -, -⟩ := rest_of_idle (stage1Body env)
      (idle_stage1 hterminal hlive (hrunning _ (stage_mem_tids i).1))
    obtain ⟨hmoves₂, -, hpop₂⟩ := rest_of_idle (stage2Body env)
      (idle_stage2 hterminal hlive (hrunning _ (stage_mem_tids i).2.1))
    obtain ⟨hmoves₃, -, hpop₃⟩ := rest_of_idle (stage3Body env)
      (idle_stage3 hterminal hlive (hrunning _ (stage_mem_tids i).2.2))
    have hnil : (pipeline env).moves (workerOf s i) = [] :=
      Chain.moves_eq_nil (Chain.moves_eq_nil hmoves₁ hmoves₂ hpop₂) hmoves₃ hpop₃
    rw [show (pipeline env).moves ((networkOf s).worker i) = [] from hnil] at hmove
    cases hmove
  | @abort i _ hfailing =>
    obtain ⟨-, hok₁, -⟩ := rest_of_idle (stage1Body env)
      (idle_stage1 hterminal hlive (hrunning _ (stage_mem_tids i).1))
    obtain ⟨-, hok₂, -⟩ := rest_of_idle (stage2Body env)
      (idle_stage2 hterminal hlive (hrunning _ (stage_mem_tids i).2.1))
    obtain ⟨-, hok₃, -⟩ := rest_of_idle (stage3Body env)
      (idle_stage3 hterminal hlive (hrunning _ (stage_mem_tids i).2.2))
    have hok : (pipeline env).failing (workerOf s i) = false :=
      Chain.failing_eq_false_iff.mpr ⟨Chain.failing_eq_false_iff.mpr ⟨hok₁, hok₂⟩, hok₃⟩
    rw [show (pipeline env).failing ((networkOf s).worker i) = false from hok] at hfailing
    cases hfailing

/-! ### The two loops of `main` -/

def MainPc.unstarted : MainPc P → List (Thread P)
  | .spawning left => left
  | _ => []

def MainPc.left : MainPc P → List (Thread P)
  | .spawning left => left
  | .joining left => left
  | .returned => []

/-- `main` runs, the threads it is done starting run, and it starts and waits for no others than those of
the network. -/
structure Started (s : PlainState env P) : Prop where
  main : s.running .main = true
  threads : ∀ t ∈ tids P, t ∉ MainPc.unstarted (s.thread .main) → s.running t = true
  left : ∀ t ∈ MainPc.left (s.thread .main), t ∈ tids P

theorem started_start : Started (Process.Threads.start (program env P) World.empty) where
  main := rfl
  threads _ hmem hnot := absurd hmem hnot
  left _ hmem := hmem

theorem started_main {e : PlainEvent P} (hinv : Started s)
    (hperforms : Process.Threads.Performs (saveEffect env) s .main e s' (mainInstr (s.thread .main))) :
    Started s' := by
  obtain ⟨hmain, hthreads, hleft⟩ := hinv
  have hmono := fun t => Process.Threads.running_of_performs (j := t) hperforms
  have hof : ∀ pc : MainPc P, s'.thread .main = pc →
      (∀ t ∈ tids P, t ∉ pc.unstarted → s'.running t = true) → (∀ t ∈ pc.left, t ∈ tids P) → Started s' := by
    intro pc hpc hthreads' hleft'
    exact ⟨hmono _ hmain, by rwa [hpc], by rwa [hpc]⟩
  generalize (s.thread .main : MainPc P) = pc at hperforms hthreads hleft
  rcases pc with (_ | ⟨t, left⟩) | (_ | ⟨t, left⟩) | _
  · obtain ⟨-, rfl⟩ := hperforms
    exact hof (.joining (tids P)) (s.goto_thread_self .main _) (fun u hu _ => hthreads u hu (by simp [MainPc.unstarted]))
      fun u hu => hu
  · obtain ⟨-, rfl⟩ := hperforms
    refine hof (.spawning left) (s.goto_thread_self .main _) (fun u hu hnot => ?_)
      fun u hu => hleft u (List.mem_cons_of_mem t hu)
    by_cases hsame : u = t
    · subst hsame
      exact Function.update_self ..
    · exact hmono u (hthreads u hu (by simpa [MainPc.unstarted, hsame] using hnot))
  · obtain ⟨-, rfl⟩ := hperforms
    exact hof .returned (s.goto_thread_self .main _) (fun u hu _ => hthreads u hu (by simp [MainPc.unstarted]))
      (by simp [MainPc.left])
  · obtain ⟨-, -, -, rfl⟩ := hperforms
    exact hof (.joining left) (s.goto_thread_self .main _) (fun u hu _ => hthreads u hu (by simp [MainPc.unstarted]))
      fun u hu => hleft u (List.mem_cons_of_mem t hu)
  · exact hperforms.elim

theorem started_step {e : PlainEvent P} (hinv : Started s) (hstep : PlainStep env P s e s') : Started s' := by
  obtain ⟨t, -, -, hperforms⟩ := Process.Threads.step_iff.mp hstep
  by_cases ht : t = .main
  · subst ht
    exact started_main hinv hperforms
  · have hsame : s'.thread .main = s.thread .main := Process.Threads.thread_of_performs hperforms (Ne.symm ht)
    obtain ⟨hmain, hthreads, hleft⟩ := hinv
    refine ⟨Process.Threads.running_of_performs hperforms hmain, fun u hu hnot => ?_, fun u hu => ?_⟩
    · rw [hsame] at hnot
      exact Process.Threads.running_of_performs hperforms (hthreads u hu hnot)
    · rw [hsame] at hu
      exact hleft u hu

end Steps

/-! ### Complete runs -/

section Runs

variable {evs : List (PlainEvent P)} {s : PlainState env P}

abbrev PlainHistory (evs : List (PlainEvent P)) (s : PlainState env P) : Prop :=
  Process.Threads.History (program env P) (saveEffect env) World.empty evs s

theorem started_of_run (hrun : PlainHistory evs s) : Started s :=
  hrun.invariant (motive := fun _ s => Started s) started_start fun _ _ _ _ _ hinv hstep => started_step hinv hstep

theorem network_of_run (hrun : PlainHistory evs s) :
    NetworkHistory env P (pipeline env) .cout (evs.filterMap networkEvent) (networkOf s) :=
  (refines env P).run trivial hrun

/-- Every thread has returned, `main` too, and none by an exception. -/
def Returned (s : PlainState env P) : Prop :=
  s.aborted = false ∧ ∀ t, (program env P).instr t (s.thread t) = .returned

theorem instr_of_returned (hreturned : SharedQueue.Returned (networkOf s)) {t : Thread P} (ht : t ≠ .main) :
    (program env P).instr t (s.thread t) = .returned := by
  obtain ⟨-, hsource, hworkers⟩ := hreturned
  have hstages : ∀ i, s.thread (.stage1 i) = .returned ∧ s.thread (.stage2 i) = .returned ∧
      s.thread (.stage3 i) = .returned := by
    intro i
    obtain ⟨hfirst, hthird⟩ := Chain.halted_iff.mp (hworkers i)
    obtain ⟨hone, htwo⟩ := Chain.halted_iff.mp hfirst
    exact ⟨Loop.halted_iff.mp hone, Loop.halted_iff.mp htwo, Loop.halted_iff.mp hthird⟩
  cases t with
  | main => exact absurd rfl ht
  | source =>
    have hnone : sourceNext env P (s.thread .source) = none := hsource
    rcases instr_source s with ⟨next, hnext, -⟩ | ⟨name, next, hnext, -⟩ | ⟨-, hinstr⟩
    · rw [hnone] at hnext
      cases hnext
    · rw [hnone] at hnext
      cases hnext
    · exact hinstr
  | stage1 i =>
    rw [(hstages i).1]
    rfl
  | stage2 i =>
    rw [(hstages i).2.1]
    rfl
  | stage3 i =>
    rw [(hstages i).2.2]
    rfl

theorem main_of_blocked (pc : MainPc P)
    (hblocked : Process.Threads.Blocked (i := Thread.main) s (mainInstr pc)) :
    pc = .returned ∨ ∃ t left, pc = .joining (t :: left) ∧
      ¬(s.running t = true ∧ (program env P).instr t (s.thread t) = .returned) := by
  rcases pc with (_ | ⟨t, left⟩) | (_ | ⟨t, left⟩) | _
  · exact hblocked.elim
  · exact hblocked.elim
  · exact hblocked.elim
  · exact Or.inr ⟨t, left, rfl, hblocked⟩
  · exact Or.inl rfl

/-- Where the program can do nothing more, and no exception has ended it, all its threads have
returned. -/
theorem returned_of_terminal (hrun : PlainHistory evs s) (hlive : s.aborted = false)
    (hterminal : Terminal (PlainStep env P) s) :
    Returned s ∧ SharedQueue.Returned (networkOf s) := by
  obtain ⟨hmain, hthreads, hleft⟩ := started_of_run hrun
  have hwhere := main_of_blocked (s.thread .main) (Process.Threads.blocked_of_terminal hterminal hlive hmain)
  have hspawned : MainPc.unstarted (s.thread .main) = [] := by
    rcases hwhere with hpc | ⟨t, left, hpc, -⟩
    · rw [hpc]
      rfl
    · rw [hpc]
      rfl
  have hrunning : ∀ t ∈ tids P, s.running t = true := fun t ht => hthreads t ht (by simp [hspawned])
  have hnetwork := ParallelWatermark.returned_of_terminal (pipeline_spec env) (network_of_run hrun) hlive
    (terminal_network hterminal hlive hrunning)
  refine ⟨⟨hlive, fun t => ?_⟩, hnetwork⟩
  by_cases ht : t = .main
  · subst ht
    rcases hwhere with hpc | ⟨u, left, hpc, hnot⟩
    · rw [hpc]
      rfl
    · -- The thread `main` is waiting for has returned.
      have hu : u ∈ tids P := hleft u (by rw [hpc]; exact List.mem_cons_self)
      exact absurd ⟨hrunning u hu, instr_of_returned hnetwork (by rintro rfl; simp [tids] at hu)⟩ hnot
  · exact instr_of_returned hnetwork ht

/-! ### Every step costs -/

/-- Steps that `main` still has to take. -/
def MainPc.rank : MainPc P → Nat
  | .spawning left => left.length + (tids P).length + 2
  | .joining left => left.length + 1
  | .returned => 0

def plainRank (s : PlainState env P) : Nat :=
  networkRank 6 (pipelineRank env) (networkOf s) + MainPc.rank (s.thread .main)

theorem mainRank_lt {s' : PlainState env P} {e : PlainEvent P} (pc : MainPc P)
    (hperforms : Process.Threads.Performs (i := Thread.main) (saveEffect env) s e s' (mainInstr pc)) :
    MainPc.rank (s'.thread .main) < pc.rank := by
  have hof : ∀ pc' : MainPc P, s'.thread .main = pc' → pc'.rank < pc.rank → MainPc.rank (s'.thread .main) < pc.rank := by
    intro pc' hpc' hlt
    rwa [hpc']
  rcases pc with (_ | ⟨t, left⟩) | (_ | ⟨t, left⟩) | _
  · obtain ⟨-, rfl⟩ := hperforms
    exact hof (.joining (tids P)) (s.goto_thread_self .main _) (by simp [MainPc.rank])
  · obtain ⟨-, rfl⟩ := hperforms
    exact hof (.spawning left) (s.goto_thread_self .main _) (by simp [MainPc.rank])
  · obtain ⟨-, rfl⟩ := hperforms
    exact hof .returned (s.goto_thread_self .main _) (by simp [MainPc.rank])
  · obtain ⟨-, -, -, rfl⟩ := hperforms
    exact hof (.joining left) (s.goto_thread_self .main _) (by simp [MainPc.rank])
  · exact hperforms.elim

theorem plainRank_lt (s : PlainState env P) (e : PlainEvent P) (s' : PlainState env P) (hstep : PlainStep env P s e s') :
    plainRank s' < plainRank s := by
  obtain ⟨t, hlive, -, hperforms⟩ := Process.Threads.step_iff.mp hstep
  by_cases ht : t = .main
  · subst ht
    have hmain := mainRank_lt (s.thread .main) hperforms
    rw [plainRank, plainRank, (step_main hperforms).2]
    exact Nat.add_lt_add_left hmain _
  · obtain ⟨ev, -, hnetwork⟩ := step_other ht hlive hperforms
    have hsame : s'.thread .main = s.thread .main := Process.Threads.thread_of_performs hperforms (Ne.symm ht)
    have hlt := networkRank_lt env P .cout (pipeline_ranked env) _ _ _ hnetwork
    rw [plainRank, plainRank, hsame]
    exact Nat.add_lt_add_right hlt _

end Runs

end ParallelWatermark.CppWatermark
