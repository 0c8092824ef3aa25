import Mathlib.Tactic.Common

/-!
# Emitters

A sequential program that does nothing but emit a stream of items. What it emits does not depend on
how its steps are interleaved with those of others.
-/

namespace Process

/-- A sequential program that emits a stream: each step emits an item or is silent; `none` when it
has returned. -/
structure Emitter (α : Type) where
  State : Type
  start : State
  next : State → Option (Option α × State)

namespace Emitter

variable {α : Type} (E : Emitter α)

/-- From the first state the emitter emits exactly `l`, and returns in the last. -/
inductive Yields : E.State → List α → E.State → Prop
  | halt {e : E.State} : E.next e = none → Yields e [] e
  | skip {e e' final : E.State} {l : List α} : E.next e = some (none, e') → Yields e' l final → Yields e l final
  | emit {e e' final : E.State} {a : α} {l : List α} :
      E.next e = some (some a, e') → Yields e' l final → Yields e (a :: l) final

/-- A rank that every step lowers, when an emitted item takes `cout` units away. -/
def Ranked (cout : Nat) (rank : E.State → Nat) : Prop :=
  ∀ e out e', E.next e = some (out, e') → rank e' + (out.elim 0 fun _ => cout) < rank e

variable {E}

theorem Yields.eq_of_halted {e final : E.State} {l : List α} (hyields : E.Yields e l final)
    (hhalted : E.next e = none) :
    l = [] ∧ e = final := by
  cases hyields with
  | halt _ => exact ⟨rfl, rfl⟩
  | skip hnext _ => simp [hhalted] at hnext
  | emit hnext _ => simp [hhalted] at hnext

theorem Yields.step {e e' final : E.State} {l : List α} {out : Option α}
    (hyields : E.Yields e l final)
    (hnext : E.next e = some (out, e')) : ∃ l', E.Yields e' l' final ∧ l = out.toList ++ l' := by
  cases hyields with
  | halt hnone => simp [hnone] at hnext
  | skip hskip hrest =>
    obtain ⟨rfl, rfl⟩ : none = out ∧ _ = e' := by simpa using hskip.symm.trans hnext
    exact ⟨l, hrest, rfl⟩
  | @emit _ _ _ a l' hemit hrest =>
    obtain ⟨rfl, rfl⟩ : some a = out ∧ _ = e' := by simpa using hemit.symm.trans hnext
    exact ⟨l', hrest, rfl⟩

/-- A loop over a list that emits the entries it keeps, counting them, and then goes on to `rest`.
-/
theorem Yields.of_loop (keep : α → Bool) (state : List α → Nat → E.State) (final : Nat → E.State)
    {rest : List α}
    (hskip : ∀ x l n, keep x = false → E.next (state (x :: l) n) = some (none, state l n))
    (hkeep : ∀ x l n, keep x = true → E.next (state (x :: l) n) = some (some x, state l (n + 1)))
    (hend : ∀ n, E.Yields (state [] n) rest (final n)) (l : List α) (n : Nat) :
    E.Yields (state l n) (l.filter keep ++ rest) (final (n + (l.filter keep).length)) := by
  induction l generalizing n with
  | nil => exact hend n
  | cons x l ih =>
    cases hx : keep x with
    | false =>
      rw [List.filter_cons_of_neg (by simp [hx])]
      exact .skip (hskip x l n hx) (ih n)
    | true =>
      rw [List.filter_cons_of_pos hx, List.length_cons, Nat.add_comm _ 1, ← Nat.add_assoc]
      exact .emit (hkeep x l n hx) (ih (n + 1))

/-- Such a loop over a list that has to be opened first, which may fail. -/
theorem Yields.of_opened (dir : Option (List α)) (keep : α → Bool) (start : E.State) (state : List α → Nat → E.State)
    (final : Nat → E.State) {failure rest : List α} (hfailed : dir = none → E.Yields start failure (final 0))
    (hopened : ∀ l, dir = some l → E.next start = some (none, state l 0))
    (hskip : ∀ x l n, keep x = false → E.next (state (x :: l) n) = some (none, state l n))
    (hkeep : ∀ x l n, keep x = true → E.next (state (x :: l) n) = some (some x, state l (n + 1)))
    (hend : ∀ n, E.Yields (state [] n) rest (final n)) :
    E.Yields start (dir.elim failure fun l => l.filter keep ++ rest) (final ((dir.getD []).filter keep).length) := by
  cases hdir : dir with
  | none => exact hfailed hdir
  | some l =>
    have hloop := Yields.of_loop keep state final hskip hkeep hend l 0
    rw [Nat.zero_add] at hloop
    exact .skip (hopened l hdir) hloop

end Emitter

end Process
