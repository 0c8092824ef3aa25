import ParallelWatermark.Process.Run

/-!
# Runs of one system seen as runs of another

An abstraction maps states to states and each label to a label of the abstract system, or to none
where the abstract state stands still. If every step is accounted for in this way then so is every
run, from the states that an invariant describes.
-/

namespace Process

variable {σ ε σ' ε' : Type*}

/-- A step seen through the abstraction: a step of the abstract system, or none at all. -/
def AbstractStep (step' : σ' → ε' → σ' → Prop) (s : σ') : Option ε' → σ' → Prop
  | some e, s' => step' s e s'
  | none, s' => s' = s

structure Refines (step : σ → ε → σ → Prop) (step' : σ' → ε' → σ' → Prop) (inv : σ → Prop)
    (abs : σ → σ') (label : ε → Option ε') : Prop where
  inv_step : ∀ s e s', inv s → step s e s' → inv s'
  abs_step : ∀ s e s', inv s → step s e s' → AbstractStep step' (abs s) (label e) (abs s')

namespace Refines

variable {step : σ → ε → σ → Prop} {step' : σ' → ε' → σ' → Prop} {inv : σ → Prop} {abs : σ → σ'}
  {label : ε → Option ε'} {s₀ s : σ} {evs : List ε}

theorem inv_of_run (hrefines : Refines step step' inv abs label) (hinit : inv s₀)
    (hrun : Run step s₀ evs s) : inv s :=
  hrun.invariant (motive := fun _ s => inv s) hinit fun _ s e s' _ hinv hstep => hrefines.inv_step s e s' hinv hstep

theorem run (hrefines : Refines step step' inv abs label) (hinit : inv s₀)
    (hrun : Run step s₀ evs s) : Run step' (abs s₀) (evs.filterMap label) (abs s) := by
  refine hrun.invariant (motive := fun evs s => Run step' (abs s₀) (evs.filterMap label) (abs s)) .nil ?_
  intro evs s e s' hbefore hrun' hstep
  have habs := hrefines.abs_step s e s' (hrefines.inv_of_run hinit hbefore) hstep
  cases hlabel : label e with
  | none =>
    rw [hlabel] at habs
    rw [List.filterMap_append, List.filterMap_cons_none hlabel, List.filterMap_nil, List.append_nil]
    rw [show abs s' = abs s from habs]
    exact hrun'
  | some e' =>
    rw [hlabel] at habs
    rw [List.filterMap_append, List.filterMap_cons_some hlabel, List.filterMap_nil]
    exact hrun'.snoc habs

end Refines

/-! ### Measures that some steps need not lower -/

section FreeSteps

variable {step : σ → ε → σ → Prop} {s₀ s : σ} {evs : List ε} {measure : σ → Nat} {free : ε → Bool}
  (hdecr : ∀ evs s e s', Run step s₀ evs s → step s e s' → free e = false → measure s' < measure s)
include hdecr

/-- A run whose steps all lower a measure, but for some that may raise it by no more than `c`, has
only as many of the others as these pay for. -/
theorem Run.length_le {c : Nat}
    (hfree : ∀ evs s e s', Run step s₀ evs s → step s e s' → free e = true → measure s' ≤ measure s + c)
    (hrun : Run step s₀ evs s) :
    evs.countP (fun e => !free e) + measure s ≤ measure s₀ + c * evs.countP free := by
  refine hrun.invariant (motive := fun evs s =>
    evs.countP (fun e => !free e) + measure s ≤ measure s₀ + c * evs.countP free) (by simp) ?_
  intro evs s e s' hbefore hbound hstep
  rw [List.countP_append, List.countP_append]
  cases hkind : free e with
  | false =>
    have hlt := hdecr evs s e s' hbefore hstep hkind
    simp only [List.countP_singleton, hkind, Bool.not_false, if_true, Bool.false_eq_true, if_false, Nat.add_zero]
    omega
  | true =>
    have hle := hfree evs s e s' hbefore hstep hkind
    simp only [List.countP_singleton, hkind, Bool.not_true, if_true, Bool.false_eq_true, if_false, Nat.mul_add,
      Nat.mul_one]
    omega

/-- Without the free steps, every run comes to a state where only these are left. -/
theorem Run.exists_resting (hrun : Run step s₀ evs s) : ∃ more s', Run step s₀ (evs ++ more) s' ∧
    (∀ e ∈ more, free e = false) ∧ ∀ e s'', step s' e s'' → free e = true := by
  induction hn : measure s using Nat.strongRecOn generalizing evs s with
  | _ n ih =>
    by_cases hresting : ∀ e s', step s e s' → free e = true
    · exact ⟨[], s, by simpa using hrun, by simp, hresting⟩
    · simp only [not_forall, Bool.not_eq_true] at hresting
      obtain ⟨e, s', hnext, hkind⟩ := hresting
      obtain ⟨more, final, hfinal, hall, hrest⟩ := ih _ (hn ▸ hdecr _ _ _ _ hrun hnext hkind) (hrun.snoc hnext) rfl
      exact ⟨e :: more, final, by simpa using hfinal, List.forall_mem_cons.mpr ⟨hkind, hall⟩, hrest⟩

end FreeSteps

end Process
