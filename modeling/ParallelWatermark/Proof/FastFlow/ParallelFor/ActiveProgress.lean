import ParallelWatermark.Proof.FastFlow.ParallelFor.Active

/-!
# The scheduler returns

A task pays for being sent, popped, performed and given back, and a worker that has not been sent
`GO_OUT` for that message. So every step costs, and every run comes to its end.
-/

namespace ParallelWatermark.FastFlow.ParallelFor.Active

open Buffer Process

variable {ε δ : Type} {loop : Loop ε δ} {value : δ} {evs : List (Event ε)} {s s' : State ε δ} {e : Event ε}

section Cost

variable (body : ForallTask → List ε)

def msgCost : Msg → Nat
  | .task task => 4 + (body task).length
  | .goOut => 1

def Pc.cost : Pc ε → Nat
  | .running _ todo => 3 + todo.length
  | _ => 0

def worksCost (ranges : List (Int × Int)) : Nat := (ranges.map fun call => 6 + (body ⟨call.1, call.2⟩).length).sum

/-- `GO_OUT` for a worker who has been sent it or has not been. -/
def goneCost (gone : Bool) : Nat := if gone then 0 else 3

/-- What is spent on the tasks that are out with a worker, and on its `GO_OUT`. -/
def State.cost (s : State ε δ) (w : Nat) : Nat :=
  ((s.pending w).map (msgCost body)).sum + (s.pc w).cost + 2 * (s.output w).length + goneCost (s.serving.eossent w)

end Cost

def rank (loop : Loop ε δ) (s : State ε δ) : Nat :=
  worksCost loop.body (worksOf loop.sched s.serving.data) + s.outbox.length +
    ∑ w ∈ Finset.range loop.sched.nw, s.cost loop.body w

theorem worksCost_calls (body : ForallTask → List ε) {task : ForallTask} (hone : task.calls.length = 1) :
    worksCost body task.calls = 6 + (body task).length := by
  rw [ForallTask.calls] at hone ⊢
  split_ifs at hone ⊢
  simp [worksCost]

/-- A step of a worker who has less to do after it. -/
theorem rank_move {w : Nat} (hw : w < loop.sched.nw) (hserving : s'.serving = s.serving) (hbox : s'.outbox = s.outbox)
    (hrest : ∀ v ≠ w, s'.cost loop.body v = s.cost loop.body v) (hself : s'.cost loop.body w < s.cost loop.body w) :
    rank loop s' < rank loop s := by
  have hsum := Active.sum_range_of_ne hw hrest
  simp only [rank, hserving, hbox]
  omega

theorem rank_serve {wid : Nat} {task : ForallTask} {rest : List ForallTask} (sent : List Msg) {t : Serving}
    (hwid : wid < loop.sched.nw) (hbox : s.outbox = []) (hout : s.output wid = task :: rest)
    (hothers : ∀ v ≠ wid, t.eossent v = s.serving.eossent v)
    (hpaid : worksCost loop.body (worksOf loop.sched t.data) + (sent.map (msgCost loop.body)).sum + sent.length +
        goneCost (t.eossent wid) <
      worksCost loop.body (worksOf loop.sched s.serving.data) + 2 + goneCost (s.serving.eossent wid)) :
    rank loop (s.serve wid rest sent t) < rank loop s := by
  have hrest : ∀ v ≠ wid, (s.serve wid rest sent t).cost loop.body v = s.cost loop.body v := by
    intro v hv
    rw [State.cost, State.cost, pending_serve_of_ne hbox sent t hv]
    simp [State.serve, Function.update_of_ne hv, hothers v hv]
  have hself : (s.serve wid rest sent t).cost loop.body wid + 2 + goneCost (s.serving.eossent wid) =
      s.cost loop.body wid + (sent.map (msgCost loop.body)).sum + goneCost (t.eossent wid) := by
    rw [State.cost, State.cost, pending_serve hbox sent t, hout, List.map_append, List.sum_append, List.length_cons]
    simp only [State.serve, Function.update_self]
    omega
  have hsum := sum_range_of_ne hwid hrest
  simp only [rank, hbox, List.length_nil]
  simp only [show (s.serve wid rest sent t).serving = t from rfl,
    show (s.serve wid rest sent t).outbox.length = sent.length from List.length_map _]
  omega

theorem rank_step (hready : Ready loop.sched) (hinv : Inv loop.sched s) (hstep : Step loop s e s') :
    rank loop s' < rank loop s := by
  cases hstep with
  | @send wid msg rest hbox =>
    have hcost : ∀ v, State.cost loop.body
        { s with outbox := rest, input := Function.update s.input wid (s.input wid ++ [msg]) } v = s.cost loop.body v := by
      intro v
      rw [State.cost, pending_send hbox]
      rfl
    simp only [rank, hcost, hbox, List.length_cons]
    omega
  | @collect wid task rest hbox hreturned hout =>
    have hwid := hinv.lt_of_outWith (w := wid) (by simp [State.outWith, hout])
    rcases svc_cases hinv.table wid with ⟨id, maxid, hopen, hmore, hsvc⟩ | ⟨maxid, hnone, hsvc⟩
    · obtain ⟨-, hone, hgive⟩ := hinv.table.give hready hopen
      have hworks : worksCost loop.body (worksOf loop.sched s.serving.data) = _ := (hgive.map _).sum_eq
      rw [List.map_append, List.sum_append] at hworks
      have hcall := worksCost_calls loop.body hone
      simp only [worksCost] at hworks hcall
      rw [hsvc]
      refine rank_serve [.task (loop.sched.nextOf (s.serving.data id))] hwid hbox hout (fun _ _ => rfl) ?_
      simp only [worksCost, List.map_singleton, List.sum_singleton, msgCost, List.length_singleton]
      omega
    · rw [hsvc]
      refine rank_serve _ hwid hbox hout (fun v hv => Function.update_of_ne hv _ _) ?_
      cases hgone : s.serving.eossent wid <;> simp [goOuts, msgCost, goneCost]
  | @pop wid msg rest hwid hpc hin =>
    refine rank_move hwid rfl rfl (fun v hv => ?_) ?_
    · simp [State.cost, State.pending, Function.update_of_ne hv]
    · cases msg <;> simp [State.cost, State.pending, hin, hpc, msgCost, Pc.cost, afterPop]
      omega
  | @act wid task a todo hpc =>
    have hwid := hinv.lt_of_outWith (w := wid) (by simp [State.outWith, hpc, Pc.held])
    refine rank_move hwid rfl rfl (fun v hv => ?_) ?_
    · simp [State.cost, State.pending, Function.update_of_ne hv]
    · simp [State.cost, State.pending, hpc, Pc.cost]
  | @giveBack wid task hpc =>
    have hwid := hinv.lt_of_outWith (w := wid) (by simp [State.outWith, hpc, Pc.held])
    refine rank_move hwid rfl rfl (fun v hv => ?_) ?_
    · simp [State.cost, State.pending, Function.update_of_ne hv]
    · simp [State.cost, State.pending, hpc, Pc.cost]
      omega

section Runs

variable (hready : Ready loop.sched) (hdynamic : loop.sched.staticScheduling = false)
include hready hdynamic

theorem rank_lt (hrun : History loop value evs s) (hstep : Step loop s e s') : rank loop s' < rank loop s :=
  rank_step hready (inv_of_history hready hdynamic hrun) hstep

/-- The number of steps of a run. -/
theorem length_le (hrun : History loop value evs s) : evs.length + rank loop s ≤ rank loop (start loop value) := by
  refine hrun.invariant (motive := fun evs (s : State ε δ) => evs.length + rank loop s ≤ rank loop (start loop value))
    (by simp) ?_
  intro evs s e s' hbefore hbound hstep
  have hlt := rank_lt hready hdynamic hbefore hstep
  rw [List.length_append, List.length_singleton]
  omega

theorem exists_terminal (hrun : History loop value evs s) :
    ∃ more t, History loop value (evs ++ more) t ∧ Terminal (Step loop) t := by
  have hdecr : ∀ evs s e s', History loop value evs s → Step loop s e s' → (fun _ => false) e = false →
      rank loop s' < rank loop s := fun _ _ _ _ hrun hstep _ => rank_lt hready hdynamic hrun hstep
  obtain ⟨more, t, hmore, -, hresting⟩ := Run.exists_resting hdecr hrun
  exact ⟨more, t, hmore, fun e t' hstep => absurd (hresting e t' hstep) (by simp)⟩

end Runs

end ParallelWatermark.FastFlow.ParallelFor.Active
