import ParallelWatermark.Process.Run
import ParallelWatermark.Process.TokenStream

/-!
# Components: what reads one stream and writes another

A component takes items of one stream, one at a time and only when it is ready for one, and sends
items of another. In between it may do silent work, and it may be about to let an exception escape.
A thread that pops, works and pushes is a component, and so is a chain of such threads with queues
between them.

`Component.Spec` says what a component makes of its input without saying when: in every run the
items sent are those that a partial function `g` gives for the items received, up to what is still
under way; the component stops at the first token it receives and at nothing else.
-/

namespace Process

/-- What a component does on its own: send an item, or silent work. -/
inductive Move (β τ : Type*) where
  | send (b : β)
  | tau (t : τ)
  deriving DecidableEq, Repr

/-- A step of a component: it receives an item, or makes a move of its own. -/
inductive Action (α β τ : Type*) where
  | recv (a : α)
  | move (m : Move β τ)
  deriving DecidableEq, Repr

structure Component (α β τ : Type) where
  State : Type
  start : State
  accept : State → α → Option State  -- taking an item off the input, where the component is ready for one
  moves : State → List (Move β τ × State)  -- everything the component can do on its own
  failing : State → Bool  -- an exception is about to escape
  halted : State → Bool  -- every thread of the component has returned

def Action.received {α β τ : Type} : Action α β τ → Option α
  | .recv a => some a
  | .move _ => none

def Action.sent {α β τ : Type} : Action α β τ → Option β
  | .move (.send b) => some b
  | _ => none

def received {α β τ : Type} (acts : List (Action α β τ)) : List α := acts.filterMap Action.received

def sent {α β τ : Type} (acts : List (Action α β τ)) : List β := acts.filterMap Action.sent

section Histories

variable {α β τ : Type} (acts acts' : List (Action α β τ))

@[simp] theorem received_append : received (acts ++ acts') = received acts ++ received acts' :=
  List.filterMap_append
@[simp] theorem sent_append : sent (acts ++ acts') = sent acts ++ sent acts' :=
  List.filterMap_append
@[simp] theorem received_recv (a : α) : received [(.recv a : Action α β τ)] = [a] := rfl
@[simp] theorem received_move (m : Move β τ) : received [(.move m : Action α β τ)] = [] := rfl
@[simp] theorem sent_recv (a : α) : sent [(.recv a : Action α β τ)] = [] := rfl
@[simp] theorem sent_send (b : β) : sent [(.move (.send b) : Action α β τ)] = [b] := rfl
@[simp] theorem sent_tau (t : τ) : sent [(.move (.tau t) : Action α β τ)] = [] := rfl

end Histories

namespace Component

variable {α β τ : Type}

def Step (C : Component α β τ) (s : C.State) : Action α β τ → C.State → Prop
  | .recv a, s' => C.accept s a = some s'
  | .move m, s' => (m, s') ∈ C.moves s

abbrev History (C : Component α β τ) (acts : List (Action α β τ)) (s : C.State) : Prop :=
  Run C.Step C.start acts s

/-- What a component makes of its input stream: tokens are told by `tok`, `g` is what it sends for
an item, and `ok` is false at the items it throws at. Nothing is received after a token. What has
been sent is what `g` gives, up to the items under way; a component that cannot move and does not
throw has nothing under way, and is ready for any item or has returned. It returns once it has met a
token, and then does nothing more; it throws only at an item that is not `ok`. -/
structure Spec (C : Component α β τ) (tok : α → Bool) (g : α → Option β) (ok : α → Bool) :
    Prop where
  received_endsAtToken : ∀ acts s, C.History acts s → EndsAtToken tok (received acts)
  sent_isPrefix : ∀ acts s, C.History acts s → sent acts <+: (received acts).filterMap g
  sent_of_idle : ∀ acts s, C.History acts s → C.moves s = [] → C.failing s = false →
    sent acts = (received acts).filterMap g ∧ ∀ a ∈ received acts, ok a = true
  ready_or_halted : ∀ acts s, C.History acts s → C.moves s = [] → C.failing s = false →
    (∀ a, (C.accept s a).isSome = true) ∨ C.halted s = true
  token_of_halted : ∀ acts s, C.History acts s → C.halted s = true → ∃ a ∈ received acts, tok a = true
  inert_of_halted : ∀ s, C.halted s = true → C.moves s = [] ∧ C.failing s = false ∧
    ∀ a, C.accept s a = none
  not_ok_of_failing : ∀ acts s, C.History acts s → C.failing s = true → ∃ a ∈ received acts, ok a = false

/-- A rank that every step lowers, when an input item brings `cin` units with it and an output item
takes `cout` away. -/
structure Ranked (C : Component α β τ) (cin cout : Nat) (rank : C.State → Nat) : Prop where
  accept : ∀ s a s', C.accept s a = some s' → rank s' < rank s + cin
  send : ∀ s b s', (.send b, s') ∈ C.moves s → rank s' + cout < rank s
  tau : ∀ s t s', (.tau t, s') ∈ C.moves s → rank s' < rank s

namespace Spec

variable {C : Component α β τ} {tok : α → Bool} {g : α → Option β} {ok : α → Bool}
  {acts : List (Action α β τ)}
  {s : C.State}

theorem congr {tok' : α → Bool} {g' : α → Option β} {ok' : α → Bool} (hC : C.Spec tok g ok)
    (htok : ∀ a, tok a = tok' a) (hg : ∀ a, g a = g' a) (hok : ∀ a, ok a = ok' a) : C.Spec tok' g' ok' := by
  obtain rfl := funext htok
  obtain rfl := funext hg
  obtain rfl := funext hok
  exact hC

/-- Once a token has been received nothing more is. -/
theorem accept_eq_none (hC : C.Spec tok g ok) (hrun : C.History acts s) {a : α}
    (ha : a ∈ received acts) (htok : tok a = true) (b : α) : C.accept s b = none := by
  cases haccept : C.accept s b with
  | none => rfl
  | some s' =>
    have hends := hC.received_endsAtToken _ _ (hrun.snoc (show C.Step s (.recv b) s' from haccept))
    simp only [received_append, received_recv, EndsAtToken, List.dropLast_concat] at hends
    exact absurd (hends a ha) (by simp [htok])

theorem sent_of_halted (hC : C.Spec tok g ok) (hrun : C.History acts s)
    (hhalted : C.halted s = true) :
    sent acts = (received acts).filterMap g ∧ ∀ a ∈ received acts, ok a = true := by
  obtain ⟨hidle, hok, _⟩ := hC.inert_of_halted s hhalted
  exact hC.sent_of_idle _ _ hrun hidle hok

theorem received_of_halted (hC : C.Spec tok g ok) (hrun : C.History acts s)
    (hhalted : C.halted s = true) :
    ∃ init a, received acts = init ++ [a] ∧ TokenFree tok init ∧ tok a = true := by
  obtain ⟨a, ha, htok⟩ := hC.token_of_halted _ _ hrun hhalted
  obtain ⟨init, hinit, hfree⟩ := (hC.received_endsAtToken _ _ hrun).eq_append ha htok
  exact ⟨init, a, hinit, hfree, htok⟩

end Spec

end Component

end Process
