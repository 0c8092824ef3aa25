import Mathlib.Algebra.Order.Ring.Int
import Mathlib.Logic.Function.Basic
import ParallelWatermark.Arithmetic.Double

/-!
# The scheduler of the parallel for

The table of ranges that `setloop` fills, one entry for each worker, and the first tasks that
`sendTask` takes from it. How the workers come by the others depends on whether there is a scheduler
thread.
-/

namespace ParallelWatermark.FastFlow.ParallelFor

/-! ### The table -/

/-- A range `[start, stop)` of indexes; `stop` is the member `end`. -/
structure ForallTask where
  start : Int
  stop : Int
  deriving DecidableEq, Repr

structure DataPair where
  ntask : Int
  task : ForallTask
  deriving DecidableEq, Repr

/-- The vector `data`, by index. -/
abbrev Table := Nat → DataPair

def Table.empty : Table := fun _ => ⟨0, ⟨0, 0⟩⟩

/-- `std::lrint(std::ceil(a/(double)b))`. -/
def lrintCeil (a b : Int) : Int := ⌈Double.div a b⌉

/-- What the loop of `init_data` works on. -/
structure Filling where
  data : Table
  start : Int
  totalnumtasks : Int

/-- The loop of `init_data` at entry `i`. -/
def fillEntry (stop step chunk ntxw r : Int) (f : Filling) (i : Nat) : Filling :=
  if 0 < f.totalnumtasks then
    let t := ntxw + if 1 < r ∧ (i : Int) < r then 1 else 0
    let e := f.start + (t * chunk - 1) * step + 1
    let last := if e < stop then e else stop
    ⟨Function.update f.data i ⟨t, ⟨f.start, last⟩⟩, last - 1 + step, f.totalnumtasks - t⟩
  else f

/-- What `init_data` and `init_data_static` leave: the table, `_chunk` and the number of tasks. -/
structure Initialized where
  data : Table
  chunk : Int
  totaltasks : Int

/-- `init_data`; `none` when it divides by zero, having no workers, or its assertion fails. -/
def initData (nw : Nat) (start stop step chunk : Int) : Option Initialized :=
  let numtasks := lrintCeil (stop - start) step
  let totalnumtasks := lrintCeil numtasks chunk
  let few := totalnumtasks / nw = 0 ∧ 1 ≤ totalnumtasks % nw
  let ntxw := if few then 1 else totalnumtasks / nw
  let r := if few then 0 else totalnumtasks % nw
  let f := (List.range nw).foldl (fillEntry stop step chunk ntxw r) ⟨Table.empty, start, totalnumtasks⟩
  let last := f.data (nw - 1)
  if nw = 0 then none
  else if f.totalnumtasks = 0 then some ⟨f.data, chunk, totalnumtasks⟩
  else if f.totalnumtasks ≠ 1 then none
  else if 1 < ntxw then
    some ⟨Function.update f.data (nw - 1) ⟨last.ntask + f.totalnumtasks, ⟨last.task.start, stop⟩⟩, chunk, totalnumtasks⟩
  else some ⟨Function.update f.data (nw - 1) ⟨last.ntask, ⟨last.task.start, stop⟩⟩, chunk * 2, totalnumtasks - 1⟩

/-- The loop of `init_data_static` at entry `i`. -/
def fillStatic (stop step chunk r : Int) (f : Filling) (i : Nat) : Filling :=
  let e := f.start + (chunk - 1) * step + 1 + if (i : Int) < r then step else 0
  let last := if e < stop then e else stop
  ⟨Function.update f.data i ⟨1, ⟨f.start, last⟩⟩, last - 1 + step, f.totalnumtasks - 1⟩

/-- `init_data_static` with `_chunk == 0`: the loop is divided among the workers. The remainder is computed
without sign, the quotient with it. -/
def initDataEqually (nw : Nat) (start stop step : Int) : Option Initialized :=
  let numtasks := lrintCeil (stop - start) step
  let r := numtasks % 2 ^ 64 % nw
  let chunk := numtasks.tdiv nw
  let f := (List.range nw).foldl (fillStatic stop step chunk r) ⟨Table.empty, start, nw⟩
  if nw = 0 then none else some ⟨f.data, if r ≠ 0 then chunk + 1 else chunk, nw⟩

/-- `init_data_static` with `_chunk < 0`: entries for the first tasks only, whose bodies are to find the others. -/
def initDataRoundRobin (nw : Nat) (start stop step chunk : Int) : Initialized :=
  let totalnumtasks := lrintCeil (lrintCeil (stop - start) step) (-chunk)
  let ntxw := min nw (totalnumtasks % 2 ^ 64).toNat
  ⟨fun i => if i < ntxw then ⟨1, ⟨start + i * -chunk, stop⟩⟩ else Table.empty i, stop, ntxw⟩

/-- `init_data_static`; `none` when it divides by zero. -/
def initDataStatic (nw : Nat) (start stop step chunk : Int) : Option Initialized :=
  if chunk = 0 then initDataEqually nw start stop step else some (initDataRoundRobin nw start stop step chunk)

/-- `forall_Scheduler` between two loops. -/
structure Scheduler where
  data : Table
  size : Nat  -- of `data`
  start : Int
  stop : Int
  step : Int
  chunk : Int
  totaltasks : Int
  nw : Nat
  staticScheduling : Bool

/-- `PARFOR_DYNAMIC`. -/
def parforDynamic (grain : Int) : Int := if grain < 0 then -grain else grain

/-- `setloop` on a `ParallelFor` that has not been used yet; `none` when it divides by zero or an assertion
fails. -/
def setloop (start stop step chunk : Int) (nw : Nat) : Option Scheduler :=
  let init := if chunk ≤ 0 then initDataStatic nw start stop step chunk else initData nw start stop step chunk
  init.bind fun init =>
    if 1 ≤ init.totaltasks then
      some ⟨init.data, nw, start, stop, step, init.chunk, init.totaltasks,
        if Double.div init.totaltasks nw ≤ 1 ∨ init.totaltasks = 1 then init.totaltasks.toNat else nw, decide (chunk ≤ 0)⟩
    else none

namespace Scheduler

variable (s : Scheduler)

/-- How far a task reaches beyond its first index. -/
def endchunk : Int := (s.chunk - 1) * s.step + 1

/-- The next task of an entry. -/
def nextOf (d : DataPair) : ForallTask := ⟨d.task.start, min (d.task.start + s.endchunk) d.task.stop⟩

/-- The entry without that task, its count apart. -/
def advance (d : DataPair) : DataPair :=
  { d with task := { d.task with start := (s.nextOf d).stop - 1 + s.step } }

end Scheduler

/-! ### The first tasks -/

/-- What the loop of `sendTask` works on; the tasks sent, each with its worker, oldest first. -/
structure Sending where
  data : Table
  sent : List (Nat × ForallTask)
  skip1 : Bool

namespace Scheduler

variable (s : Scheduler)

/-- An entry after a task of it has been sent. -/
def sentOf (d : DataPair) : DataPair := { s.advance d with ntask := d.ntask - 1 }

/-- The loop of `sendTask` at worker `wid`. -/
def sendOne (f : Sending) (wid : Nat) : Sending :=
  let d := f.data wid
  if 0 < d.ntask then
    { f with data := Function.update f.data wid (s.sentOf d), sent := f.sent ++ [(wid, s.nextOf d)] }
  else { f with skip1 := true }

/-- `sendTask`; nobody uses its result. -/
def sendTask (skipmore : Bool) : Sending :=
  let f := (List.range s.nw).foldl s.sendOne ⟨s.data, [], false⟩
  if skipmore = false ∧ f.skip1 = false ∧ 4 * s.nw ≤ s.totaltasks then
    (List.range s.nw).foldl s.sendOne { f with skip1 := true }
  else f

end Scheduler

end ParallelWatermark.FastFlow.ParallelFor
