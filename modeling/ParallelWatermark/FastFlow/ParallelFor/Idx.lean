import ParallelWatermark.FastFlow.ParallelFor.Active
import ParallelWatermark.FastFlow.ParallelFor.Passive

/-!
# `parallel_for_idx`

What one call of `parallel_for_idx` on a new `ParallelFor` may do: the calls of `F`, and what they
leave of a shared value. If one worker is enough the caller calls `F` itself, for the whole loop.
Otherwise there is a scheduler thread if the workers have more than one task each and leave a core to
it.
-/

namespace ParallelWatermark.FastFlow.ParallelFor

variable {ε δ : Type}

/-- `DEF_MAX_NUM_WORKERS`. -/
def defMaxNumWorkers : Nat := 254

/-- The workers that the constructor creates. -/
def created (maxnw : Int) (numCores : Nat) : Nat := if maxnw ≤ 0 then numCores else maxnw.toNat

/-- The workers that a `ParallelFor` has. If there are too many `add_workers` adds none, and the constructor does
not look at what it returns. -/
def workersOf (maxnw : Int) (numCores : Nat) : Nat :=
  if defMaxNumWorkers < created maxnw numCores then 0 else created maxnw numCores

def startScheduler (sched : Scheduler) (numCores : Nat) : Prop := sched.nw < sched.totaltasks ∧ sched.nw < numCores

/-- `FF_PARFOR_STOP`. `wait_freezing` waits for the scheduler where there is one, and else for all
workers. -/
inductive Performs (loop : Loop ε δ) (numCores : Nat) (value : δ) : List ForallTask → δ → Prop
  | alone (hone : loop.sched.nw ≤ 1) :
      Performs loop numCores value [⟨loop.sched.start, loop.sched.stop⟩]
        ((loop.body ⟨loop.sched.start, loop.sched.stop⟩).foldl (fun v a => loop.effect a v) value)
  | active {evs : List (Active.Event ε)} {s : Active.State ε δ} (hmany : 1 < loop.sched.nw)
      (hsched : startScheduler loop.sched numCores) (hrun : Active.History loop value evs s)
      (hreturned : s.serving.returned = true) :
      Performs loop numCores value ((evs.flatMap Active.Event.calls).map Prod.snd) s.value
  | passive {evs : List (Passive.Event loop.sched ε)} {s : Passive.State loop.sched ε δ} (hmany : 1 < loop.sched.nw)
      (hsched : ¬ startScheduler loop.sched numCores) (hrun : Passive.History loop value evs s)
      (hout : ∀ w, s.pc w = .out) :
      Performs loop numCores value ((Passive.calls loop evs).map Prod.snd) s.value

def parallelForIdx (numCores : Nat) (maxnw first last step grain : Int) (body : ForallTask → List ε) (effect : ε → δ → δ)
    (value : δ) (calls : List ForallTask) (value' : δ) : Prop :=
  ∃ sched, setloop first last step (parforDynamic grain) (workersOf maxnw numCores) = some sched ∧
    Performs ⟨sched, body, effect⟩ numCores value calls value'

end ParallelWatermark.FastFlow.ParallelFor
