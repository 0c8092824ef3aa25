import Mathlib.Data.List.Basic
import Mathlib.Tactic.Common

/-!
# Runs of a labelled step relation

A run is the list of labels performed so far together with the state reached. The labels are the
history: everything that is said about what happened in a run is said about this list, so states
carry no ghost fields.
-/

namespace Process

variable {σ ε : Type*}

/-- A finite run from `s₀`: its labels, oldest first, and the state it reached. -/
inductive Run (step : σ → ε → σ → Prop) (s₀ : σ) : List ε → σ → Prop
  | nil : Run step s₀ [] s₀
  | snoc {evs : List ε} {s s' : σ} {e : ε} : Run step s₀ evs s → step s e s' → Run step s₀ (evs ++ [e]) s'

/-- A state in which nothing can happen any more. -/
def Terminal (step : σ → ε → σ → Prop) (s : σ) : Prop := ∀ e s', ¬ step s e s'

variable {step : σ → ε → σ → Prop} {s₀ s : σ} {evs : List ε}

/-- What holds initially and is preserved by every step holds in every state a run reaches. -/
theorem Run.invariant {motive : List ε → σ → Prop} (hinit : motive [] s₀)
    (hstep : ∀ evs s e s', Run step s₀ evs s → motive evs s → step s e s' → motive (evs ++ [e]) s')
    (hrun : Run step s₀ evs s) : motive evs s := by
  induction hrun with
  | nil => exact hinit
  | snoc hrun hlast ih => exact hstep _ _ _ _ hrun ih hlast

/-- Under a strictly decreasing measure every run extends to one that ends in a terminal state. -/
theorem Run.exists_terminal {measure : σ → Nat}
    (hdecr : ∀ s e s', step s e s' → measure s' < measure s) (hrun : Run step s₀ evs s) :
    ∃ more s', Run step s₀ (evs ++ more) s' ∧ Terminal step s' := by
  induction hn : measure s using Nat.strongRecOn generalizing evs s with
  | _ n ih =>
    by_cases hterminal : Terminal step s
    · exact ⟨[], s, by simpa using hrun, hterminal⟩
    · simp only [Terminal, not_forall, not_not] at hterminal
      obtain ⟨e, s', hnext⟩ := hterminal
      have hlt : measure s' < n := hn ▸ hdecr _ _ _ hnext
      obtain ⟨more, final, hfinal, hstuck⟩ := ih _ hlt (hrun.snoc hnext) rfl
      exact ⟨e :: more, final, by simpa using hfinal, hstuck⟩

/-- Under a strictly decreasing measure no execution goes on forever. -/
theorem not_exists_infinite {measure : σ → Nat} (hdecr : ∀ s e s', step s e s' → measure s' < measure s) :
    ¬ ∃ (state : Nat → σ) (label : Nat → ε), ∀ n, step (state n) (label n) (state (n + 1)) := by
  intro hinfinite
  obtain ⟨state, label, hsteps⟩ := hinfinite
  have hbound : ∀ n, n + measure (state n) ≤ measure (state 0) := by
    intro n
    induction n with
    | zero => simp
    | succ n ih =>
      have hlt := hdecr _ _ _ (hsteps n)
      omega
  have := hbound (measure (state 0) + 1)
  omega

end Process
