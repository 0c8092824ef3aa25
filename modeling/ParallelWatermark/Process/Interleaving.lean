import ParallelWatermark.Process.Farm

/-!
# Interleaving programs that act on a shared value

Each program is a list of actions; a step is the next action of some program. In a run that cannot
be continued every program has performed its actions, in its own order: what the run leaves is what
some merge of the programs leaves.
-/

namespace Process

namespace Interleaving

variable {ι ε δ : Type}

structure State (ι ε δ : Type) where
  todo : ι → List ε
  shared : δ

variable [DecidableEq ι]

inductive Step (effect : ε → δ → δ) : State ι ε δ → ι × ε → State ι ε δ → Prop
  | act {s : State ι ε δ} {i : ι} {a : ε} {rest : List ε} (htodo : s.todo i = a :: rest) :
      Step effect s (i, a) ⟨Function.update s.todo i rest, effect a s.shared⟩

/-- A run of the programs from a shared value. -/
abbrev History (effect : ε → δ → δ) (programs : ι → List ε) (shared : δ) (evs : List (ι × ε))
    (s : State ι ε δ) : Prop :=
  Run (Step effect) ⟨programs, shared⟩ evs s

variable {effect : ε → δ → δ} {programs : ι → List ε} {shared : δ} {evs : List (ι × ε)}
  {s : State ι ε δ}

theorem performed_append_todo (hrun : History effect programs shared evs s) (i : ι) :
    Farm.ofWorker i evs ++ s.todo i = programs i := by
  refine hrun.invariant (motive := fun evs (s : State ι ε δ) => Farm.ofWorker i evs ++ s.todo i = programs i) rfl ?_
  intro evs s e s' _ hinv hstep
  obtain ⟨htodo⟩ := hstep
  rename_i j a rest
  by_cases hj : j = i
  · subst hj
    simpa [htodo] using hinv
  · simpa [Farm.ofWorker_of_ne hj, Function.update_of_ne (Ne.symm hj)] using hinv

theorem shared_eq (hrun : History effect programs shared evs s) :
    s.shared = (evs.map Prod.snd).foldl (fun v a => effect a v) shared := by
  refine hrun.invariant (motive := fun evs (s : State ι ε δ) =>
    s.shared = (evs.map Prod.snd).foldl (fun v a => effect a v) shared) rfl ?_
  intro evs s e s' _ hinv hstep
  obtain ⟨htodo⟩ := hstep
  simp [hinv]

theorem todo_eq_nil_of_terminal (hterminal : Terminal (Step effect) s) (i : ι) : s.todo i = [] := by
  cases htodo : s.todo i with
  | nil => rfl
  | cons a rest => exact absurd (.act htodo) (hterminal _ _)

/-- A run that cannot be continued has performed the actions of any merge of the programs, in some
order. -/
theorem perm_of_terminal (hrun : History effect programs shared evs s)
    (hterminal : Terminal (Step effect) s)
    {l : List (ι × ε)} (hl : ∀ i, Farm.ofWorker i l = programs i) :
    (evs.map Prod.snd).Perm (l.map Prod.snd) := by
  refine (Farm.perm_of_ofWorker_eq fun i => ?_).map Prod.snd
  have hdone := performed_append_todo hrun i
  rw [todo_eq_nil_of_terminal hterminal, List.append_nil] at hdone
  rw [hdone, hl]

/-- What a worker does for each of its entries, read off what all do for theirs. -/
theorem ofWorker_flatMap {χ : Type} (g : χ → List ε) (l : List (ι × χ)) (i : ι) :
    Farm.ofWorker i (l.flatMap fun p => (g p.2).map fun a => (p.1, a)) = (Farm.ofWorker i l).flatMap g := by
  induction l with
  | nil => rfl
  | cons p l ih =>
    rw [List.flatMap_cons, Farm.ofWorker_append, ih]
    by_cases hi : p.1 = i
    · simp [Farm.ofWorker, List.filterMap_map, hi]
    · simp [Farm.ofWorker, List.filterMap_map, hi]

/-- Actions left to perform. -/
def rank [Fintype ι] (s : State ι ε δ) : Nat := ∑ i, (s.todo i).length

theorem rank_lt [Fintype ι] {s' : State ι ε δ} {e : ι × ε} (hstep : Step effect s e s') :
    rank s' < rank s := by
  obtain ⟨htodo⟩ := hstep
  rename_i i a rest
  have hsum := Farm.sum_update s.todo List.length i rest
  rw [htodo, List.length_cons] at hsum
  simp only [rank]
  omega

end Interleaving

end Process
