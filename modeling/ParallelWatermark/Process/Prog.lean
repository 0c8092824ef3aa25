import Mathlib.Logic.Relation
import Mathlib.Tactic.Common

/-!
# Programs whose accesses to a memory interleave

What a call does is a sequence of accesses to a memory that others access as well; an access is one step,
and between two of them the others may do whatever they do. A thread proves of its program what it leaves
behind from what it counts on: an invariant of the memory, and what the others keep.
-/

namespace Process

/-- Accesses to a memory `σ`, and what comes of them. Each reads the memory, writes it, and goes on with
what it has read. -/
inductive Prog (σ ρ : Type) where
  | done (r : ρ)
  | access (f : σ → σ) (next : σ → Prog σ ρ)

namespace Prog

variable {σ ρ τ : Type}

protected def bind : Prog σ ρ → (ρ → Prog σ τ) → Prog σ τ
  | .done r, k => k r
  | .access f next, k => .access f fun m => (next m).bind k

instance : Monad (Prog σ) where
  pure := .done
  bind := Prog.bind

def read (get : σ → ρ) : Prog σ ρ := .access id fun m => .done (get m)

def write (f : σ → σ) : Prog σ Unit := .access f fun _ => .done ()

/-- At most `n` accesses, whatever they read. -/
inductive Within : Nat → Prog σ ρ → Prop
  | done {n : Nat} {r : ρ} : Within n (.done r)
  | access {n : Nat} {f : σ → σ} {next : σ → Prog σ ρ} (hnext : ∀ m, Within n (next m)) : Within (n + 1) (.access f next)

end Prog

/-- What a thread counts on. The states `ε` record more than the memory, as the proof needs it. -/
structure Rely (σ ε : Type) where
  mem : ε → σ
  inv : ε → Prop
  keeps : ε → ε → Prop  -- what the steps of the others come to
  refl : ∀ e, keeps e e
  trans : ∀ e e' e'', keeps e e' → keeps e' e'' → keeps e e''

namespace Rely

variable {σ ε ρ τ : Type} (R : Rely σ ε) (allowed : ε → ε → Prop)

/-- Whatever the others do in between, each access is one that is allowed, and what the program returns
is as `post` says. -/
def Meets (post : ρ → ε → Prop) : Prog σ ρ → ε → Prop
  | .done r, e => ∀ e', R.inv e' → R.keeps e e' → post r e'
  | .access f next, e => ∀ e', R.inv e' → R.keeps e e' →
      ∃ e'', R.mem e'' = f (R.mem e') ∧ R.inv e'' ∧ allowed e' e'' ∧ Meets post (next (R.mem e')) e''

variable {R allowed} {post post' : ρ → ε → Prop} {p : Prog σ ρ} {e e' : ε}

theorem Meets.after (hmeets : R.Meets allowed post p e) (hkeeps : R.keeps e e') : R.Meets allowed post p e' := by
  cases p with
  | done r => exact fun e'' hinv hkeeps' => hmeets e'' hinv (R.trans _ _ _ hkeeps hkeeps')
  | access f next => exact fun e'' hinv hkeeps' => hmeets e'' hinv (R.trans _ _ _ hkeeps hkeeps')

theorem meets_of_forall (hmeets : ∀ e', R.inv e' → R.keeps e e' → R.Meets allowed post p e') :
    R.Meets allowed post p e := by
  cases p with
  | done r => exact fun e' hinv hkeeps => hmeets e' hinv hkeeps e' hinv (R.refl e')
  | access f next => exact fun e' hinv hkeeps => hmeets e' hinv hkeeps e' hinv (R.refl e')

theorem Meets.mono (hmeets : R.Meets allowed post p e) (hpost : ∀ r e', R.inv e' → post r e' → post' r e') :
    R.Meets allowed post' p e := by
  induction p generalizing e with
  | done r => exact fun e' hinv hkeeps => hpost r e' hinv (hmeets e' hinv hkeeps)
  | access f next ih =>
    intro e' hinv hkeeps
    obtain ⟨e'', hmem, hinv', hallowed, hnext⟩ := hmeets e' hinv hkeeps
    exact ⟨e'', hmem, hinv', hallowed, ih _ hnext⟩

theorem Meets.weaken {allowed' : ε → ε → Prop} (hmeets : R.Meets allowed post p e)
    (hallowed : ∀ e e', allowed e e' → allowed' e e') : R.Meets allowed' post p e := by
  induction p generalizing e with
  | done r => exact hmeets
  | access f next ih =>
    intro e' hinv hkeeps
    obtain ⟨e'', hmem, hinv', hstep, hnext⟩ := hmeets e' hinv hkeeps
    exact ⟨e'', hmem, hinv', hallowed _ _ hstep, ih _ hnext⟩

theorem Meets.bind {post : τ → ε → Prop} {k : ρ → Prog σ τ}
    (hmeets : R.Meets allowed (fun r e' => R.Meets allowed post (k r) e') p e) :
    R.Meets allowed post (p >>= k) e := by
  induction p generalizing e with
  | done r => exact meets_of_forall hmeets
  | access f next ih =>
    intro e' hinv hkeeps
    obtain ⟨e'', hmem, hinv', hallowed, hnext⟩ := hmeets e' hinv hkeeps
    exact ⟨e'', hmem, hinv', hallowed, ih _ hnext⟩

theorem meets_pure {r : ρ} (hpost : ∀ e', R.inv e' → R.keeps e e' → post r e') :
    R.Meets allowed post (pure r) e := hpost

/-- Reading changes nothing. -/
theorem meets_read {get : σ → τ} {k : τ → Prog σ ρ} (hrefl : ∀ e, allowed e e)
    (hnext : ∀ e', R.inv e' → R.keeps e e' → R.Meets allowed post (k (get (R.mem e'))) e') :
    R.Meets allowed post (Prog.read get >>= k) e :=
  fun e' hinv hkeeps => ⟨e', rfl, hinv, hrefl e', hnext e' hinv hkeeps⟩

theorem meets_write {f : σ → σ} {k : Unit → Prog σ ρ}
    (hnext : ∀ e', R.inv e' → R.keeps e e' →
      ∃ e'', R.mem e'' = f (R.mem e') ∧ R.inv e'' ∧ allowed e' e'' ∧ R.Meets allowed post (k ()) e'') :
    R.Meets allowed post (Prog.write f >>= k) e :=
  hnext

end Rely

end Process
