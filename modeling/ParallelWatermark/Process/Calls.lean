import ParallelWatermark.Process.Farm

/-!
# Workers that make calls

Each worker performs the actions of its calls one after the other. In a run, what it has performed and
what it still has to do are the bodies of the calls it has begun, and a value that only the actions
change is what they have made of it, in the order in which they were performed.
-/

namespace Process

namespace Farm

variable {ι ε τ π : Type} [DecidableEq ι]

/-- A step of worker `v`, in which it has performed actions and begun calls, seen from any worker. -/
theorem ofWorker_step (body : τ → List ε) (todo : π → List ε) {v : ι} {pc : ι → π} {pc' : π} (acts : List ε) (calls : List τ)
    (hown : acts ++ todo pc' = todo (pc v) ++ calls.flatMap body) (w : ι) :
    ofWorker w (acts.map fun a => (v, a)) ++ todo (Function.update pc v pc' w) =
      todo (pc w) ++ (ofWorker w (calls.map fun call => (v, call))).flatMap body := by
  have hmine : ∀ {χ : Type} (l : List χ), ofWorker v (l.map fun x => (v, x)) = l := by
    intro χ l
    simp [ofWorker, List.filterMap_map]
  by_cases hw : w = v
  · subst hw
    rw [hmine, hmine, Function.update_self, hown]
  · have hothers : ∀ {χ : Type} (l : List χ), ofWorker w (l.map fun x => (v, x)) = [] := by
      intro χ l
      simp [ofWorker, List.filterMap_map, Ne.symm hw]
    rw [hothers, hothers, Function.update_of_ne hw, List.nil_append, List.flatMap_nil, List.append_nil]

end Farm

section Run

variable {ι σ κ ε τ δ : Type} [DecidableEq ι] {step : σ → κ → σ → Prop} {s₀ s : σ} {evs : List κ}

/-- The actions of a worker so far and those left of its calls are the bodies of the calls it has begun. -/
theorem Run.acts_append_todo (body : τ → List ε) (todo : σ → ι → List ε) (acts : κ → List (ι × ε)) (calls : κ → List (ι × τ))
    (hstep : ∀ s e s', step s e s' → ∀ w,
      Farm.ofWorker w (acts e) ++ todo s' w = todo s w ++ (Farm.ofWorker w (calls e)).flatMap body)
    (hrun : Run step s₀ evs s) (w : ι) :
    Farm.ofWorker w (evs.flatMap acts) ++ todo s w =
      todo s₀ w ++ (Farm.ofWorker w (evs.flatMap calls)).flatMap body := by
  refine hrun.invariant (motive := fun evs s => Farm.ofWorker w (evs.flatMap acts) ++ todo s w =
    todo s₀ w ++ (Farm.ofWorker w (evs.flatMap calls)).flatMap body) (by simp [Farm.ofWorker]) ?_
  intro evs s e s' _ hinv hlast
  rw [List.flatMap_append, List.flatMap_singleton, Farm.ofWorker_append, List.append_assoc, hstep s e s' hlast w,
    ← List.append_assoc, hinv]
  simp

omit [DecidableEq ι] in
theorem Run.value_eq (value : σ → δ) (effect : ε → δ → δ) (acts : κ → List (ι × ε))
    (hstep : ∀ s e s', step s e s' → value s' = ((acts e).map Prod.snd).foldl (fun v a => effect a v) (value s))
    (hrun : Run step s₀ evs s) :
    value s = ((evs.flatMap acts).map Prod.snd).foldl (fun v a => effect a v) (value s₀) := by
  refine hrun.invariant (motive := fun evs s =>
    value s = ((evs.flatMap acts).map Prod.snd).foldl (fun v a => effect a v) (value s₀)) rfl ?_
  intro evs s e s' _ hinv hlast
  rw [List.flatMap_append, List.flatMap_singleton, List.map_append, List.foldl_append, ← hinv, hstep s e s' hlast]

end Run

end Process
