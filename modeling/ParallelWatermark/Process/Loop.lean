import Mathlib.Data.List.Infix
import ParallelWatermark.Process.Component

/-!
# A thread that pops, works and pushes

`while (true) { x = in.pop(); ...; out.push(...); }`: the body looks at the item popped and either
pushes at most one item and goes round again, or pushes at most one item and returns, or lets an
exception escape. A pop and a push are one step each; between them the thread holds the item popped.
-/

namespace Process

/-- How the body of the loop ends for one item. -/
inductive Outcome (β : Type) where
  | next (out : Option β)  -- push `out`, if there is one, and go round again
  | stop (out : Option β)  -- push `out`, if there is one, and return
  | throw  -- an exception leaves the thread function
  deriving DecidableEq, Repr

namespace Outcome

variable {β : Type}

def out : Outcome β → Option β
  | .next out => out
  | .stop out => out
  | .throw => none

def stops : Outcome β → Bool
  | .stop _ => true
  | _ => false

def succeeds : Outcome β → Bool
  | .throw => false
  | _ => true

end Outcome

namespace Loop

/-- Where the thread is. -/
inductive Pc (α : Type) where
  | top  -- at the head of the loop, about to pop
  | holding (a : α)  -- holding the item it has popped
  | returned
  deriving DecidableEq, Repr

def Pc.held {α : Type} : Pc α → Option α
  | .holding a => some a
  | _ => none

def Pc.isReturned {α : Type} : Pc α → Bool
  | .returned => true
  | _ => false

variable {α β : Type}

/-- What a push does: nothing, silently, when there is nothing to push. -/
def emit : Option β → Move β Unit
  | some b => .send b
  | none => .tau ()

def moves (body : α → Outcome β) : Pc α → List (Move β Unit × Pc α)
  | .holding a =>
    match body a with
    | .next out => [(emit out, .top)]
    | .stop out => [(emit out, .returned)]
    | .throw => []
  | _ => []

end Loop

open Loop in
def loop {α β : Type} (body : α → Outcome β) : Component α β Unit where
  State := Pc α
  start := .top
  accept
    | .top, a => some (.holding a)
    | _, _ => none
  moves := moves body
  failing
    | .holding a => !(body a).succeeds
    | _ => false
  halted
    | .returned => true
    | _ => false

namespace Loop

variable {α β : Type} {body : α → Outcome β}

abbrev output (body : α → Outcome β) (a : α) : Option β := (body a).out
abbrev isLast (body : α → Outcome β) (a : α) : Bool := (body a).stops
abbrev accepts (body : α → Outcome β) (a : α) : Bool := (body a).succeeds

@[simp] theorem sent_emit {α : Type} (out : Option β) :
    sent [(.move (emit out) : Action α β Unit)] = out.toList := by
  cases out <;> rfl

theorem accept_eq_some_iff {s s' : Pc α} {a : α} :
    (loop body).accept s a = some s' ↔ s = .top ∧ s' = .holding a := by
  cases s with
  | top =>
    change some (Pc.holding a) = some s' ↔ _
    simp [eq_comm]
  | holding b => simp [loop]
  | returned => simp [loop]

theorem mem_moves_iff {s s' : Pc α} {m : Move β Unit} :
    (m, s') ∈ (loop body).moves s ↔
      ∃ a, s = .holding a ∧ accepts body a = true ∧ m = emit (output body a) ∧
      s' = if isLast body a then .returned else .top := by
  change (m, s') ∈ moves body s ↔ _
  cases s with
  | top => simp [moves]
  | returned => simp [moves]
  | holding a => cases hbody : body a <;> simp [moves, hbody, accepts, output, isLast, Outcome.succeeds, Outcome.out, Outcome.stops]

theorem moves_eq_nil_iff {s : Pc α} :
    (loop body).moves s = [] ↔ ∀ a, s = .holding a → accepts body a = false := by
  change moves body s = [] ↔ _
  cases s with
  | top => simp [moves]
  | returned => simp [moves]
  | holding a => cases hbody : body a <;> simp [moves, hbody, accepts, Outcome.succeeds]

theorem failing_iff {s : Pc α} :
    (loop body).failing s = true ↔ ∃ a, s = .holding a ∧ accepts body a = false := by
  cases s <;> simp [loop, accepts]

theorem halted_iff {s : Pc α} : (loop body).halted s = true ↔ s = .returned := by
  cases s <;> simp [loop]

theorem top_or_returned {s : Pc α} (hidle : (loop body).moves s = [])
    (hok : (loop body).failing s = false) :
    s = .top ∨ s = .returned := by
  cases s with
  | top => exact Or.inl rfl
  | returned => exact Or.inr rfl
  | holding a =>
    have hfailing := failing_iff.mpr ⟨a, rfl, moves_eq_nil_iff.mp hidle a rfl⟩
    rw [hok] at hfailing
    simp at hfailing

/-- The thread's history, read off its position: it has popped the items it is done with and at most
the one it holds, and has pushed the outputs of the items it is done with. Only the last of these
may have ended the loop, and has exactly if the thread has returned. -/
def Inv (body : α → Outcome β) (acts : List (Action α β Unit)) (s : Pc α) : Prop :=
  ∃ done, received acts = done ++ s.held.toList ∧ sent acts = done.filterMap (output body) ∧
    (∀ a ∈ done, accepts body a = true) ∧
    (s ≠ .returned → TokenFree (isLast body) done) ∧
    (s = .returned → ∃ init a, done = init ++ [a] ∧ TokenFree (isLast body) init ∧ isLast body a = true)

theorem inv_recv {acts : List (Action α β Unit)} {s s' : Pc α} {a : α} (hinv : Inv body acts s)
    (hstep : (loop body).accept s a = some s') : Inv body (acts ++ [.recv a]) s' := by
  obtain ⟨rfl, rfl⟩ := accept_eq_some_iff.mp hstep
  obtain ⟨done, hreceived, hsent, hok, hfree, -⟩ := hinv
  exact ⟨done, by simpa [Pc.held] using hreceived, by simpa using hsent, hok, fun _ => hfree (by simp), by simp⟩

theorem inv_move {acts : List (Action α β Unit)} {s s' : Pc α} {m : Move β Unit}
    (hinv : Inv body acts s)
    (hstep : (m, s') ∈ (loop body).moves s) : Inv body (acts ++ [.move m]) s' := by
  obtain ⟨a, rfl, haccepts, rfl, rfl⟩ := mem_moves_iff.mp hstep
  obtain ⟨done, hreceived, hsent, hok, hfree, -⟩ := hinv
  simp only [Pc.held, Option.toList_some] at hreceived
  have hdone : TokenFree (isLast body) done := hfree (by simp)
  refine ⟨done ++ [a], ?_, ?_, ?_, ?_, ?_⟩
  · cases hlast : isLast body a <;> simp [hreceived, Pc.held]
  · rw [sent_append, hsent, sent_emit, List.filterMap_append]
    cases hout : output body a <;> simp [hout]
  · simpa [or_imp, forall_and, haccepts] using hok
  · cases hlast : isLast body a <;> simp only [Bool.false_eq_true, if_false, if_true, ne_eq, not_true, false_imp_iff]
    intro _ b hb
    rcases List.mem_append.mp hb with hb | hb
    · exact hdone b hb
    · obtain rfl : b = a := by simpa using hb
      exact hlast
  · cases hlast : isLast body a
    · simp
    · exact fun _ => ⟨done, a, rfl, hdone, hlast⟩

theorem history_inv {acts : List (Action α β Unit)} {s : Pc α} (hrun : (loop body).History acts s) :
    Inv body acts s := by
  refine hrun.invariant (motive := Inv body) ⟨[], rfl, rfl, by simp, by simp [TokenFree], by simp [loop]⟩ ?_
  intro acts s e s' _ hinv hstep
  cases e with
  | recv a => exact inv_recv hinv hstep
  | move m => exact inv_move hinv hstep

/-- What a thread has sent, when it makes `data a` of an item `a` it goes on after and `last` of the
item it stops at. -/
theorem sent_eq {acts : List (Action α β Unit)} {s : Pc α} (hrun : (loop body).History acts s)
    {tok : α → Bool}
    {g : α → Option β} (htok : isLast body = tok) (hg : output body = g) (data : α → β)
    (last : Option β)
    (hdata : ∀ a, tok a = false → g a = some (data a)) (hlast : ∀ a ∈ received acts, tok a = true → g a = last) :
    ∃ done, received acts = done ++ s.held.toList ∧
      sent acts = (done.filter fun a => !tok a).map data ++ if s.isReturned then last.toList else [] := by
  obtain ⟨done, hreceived, hsent, -, hfree, hend⟩ := history_inv hrun
  rw [htok] at hfree hend
  rw [hg] at hsent
  have hmap : ∀ l, TokenFree tok l → l.filterMap g = (l.filter fun a => !tok a).map data := by
    intro l hl
    rw [List.filter_eq_self.mpr fun a ha => by simp [hl a ha], ← List.filterMap_eq_map]
    exact List.filterMap_congr fun a ha => hdata a (hl a ha)
  refine ⟨done, hreceived, ?_⟩
  rw [hsent]
  cases s with
  | top => simp [hmap done (hfree (by simp)), Pc.isReturned]
  | holding b => simp [hmap done (hfree (by simp)), Pc.isReturned]
  | returned =>
    obtain ⟨init, a, rfl, hinit, ha⟩ := hend rfl
    have hout := hlast a (by simp [hreceived]) ha
    rw [List.filterMap_append, hmap init hinit, List.filter_append]
    cases last <;> simp [ha, hout, Pc.isReturned]

theorem received_endsAtToken {acts : List (Action α β Unit)} {s : Pc α}
    (hrun : (loop body).History acts s) :
    EndsAtToken (isLast body) (received acts) := by
  obtain ⟨done, hreceived, -, -, hfree, hend⟩ := history_inv hrun
  rw [hreceived]
  cases s with
  | top =>
    intro a ha
    exact hfree (by simp) a (List.mem_of_mem_dropLast (by simpa [Pc.held] using ha))
  | holding a => exact (hfree (by simp)).endsAtToken_append a
  | returned =>
    obtain ⟨init, a, rfl, hfree, -⟩ := hend rfl
    simpa [Pc.held] using hfree.endsAtToken_append a

/-- The thread makes of its input what its body says, item by item, and stops at the first item its
body stops at. -/
theorem spec (body : α → Outcome β) :
    (loop body).Spec (isLast body) (output body) (accepts body) where
  received_endsAtToken _ _ := received_endsAtToken
  sent_isPrefix acts s hrun := by
    obtain ⟨done, hreceived, hsent, -, -⟩ := history_inv hrun
    rw [hreceived, hsent, List.filterMap_append]
    exact List.prefix_append _ _
  sent_of_idle acts s hrun hidle hok := by
    obtain ⟨done, hreceived, hsent, haccepts, -⟩ := history_inv hrun
    rcases top_or_returned hidle hok with rfl | rfl
    all_goals
      simp only [Pc.held, Option.toList_none, List.append_nil] at hreceived
      exact ⟨hreceived ▸ hsent, hreceived ▸ haccepts⟩
  ready_or_halted acts s _ hidle hok := by
    rcases top_or_returned hidle hok with rfl | rfl
    · exact Or.inl fun a => by simp [loop]
    · exact Or.inr rfl
  token_of_halted acts s hrun hhalted := by
    obtain ⟨done, hreceived, -, -, -, hend⟩ := history_inv hrun
    obtain rfl := halted_iff.mp hhalted
    obtain ⟨init, a, rfl, -, hlast⟩ := hend rfl
    exact ⟨a, by simp [hreceived], hlast⟩
  inert_of_halted s hhalted := by
    obtain rfl := halted_iff.mp hhalted
    exact ⟨rfl, rfl, fun _ => rfl⟩
  not_ok_of_failing acts s hrun hfailing := by
    obtain ⟨done, hreceived, -, -, -⟩ := history_inv hrun
    obtain ⟨a, rfl, hthrows⟩ := failing_iff.mp hfailing
    exact ⟨a, by simp [hreceived, Pc.held], hthrows⟩

/-- Units still to be spent by the thread itself: the push of the item it holds, and what the pushed
item brings on. -/
def rank (cout : Nat) : Pc α → Nat
  | .holding _ => cout + 1
  | _ => 0

theorem rank_move {cout : Nat} {s s' : Pc α} {m : Move β Unit}
    (hmove : (m, s') ∈ (loop body).moves s) :
    rank cout s' + cout < rank cout s := by
  obtain ⟨a, rfl, -, -, rfl⟩ := mem_moves_iff.mp hmove
  cases isLast body a <;> simp [rank]

theorem ranked (body : α → Outcome β) (cout : Nat) :
    (loop body).Ranked (cout + 2) cout (rank cout) where
  accept s a s' haccept := by
    obtain ⟨rfl, rfl⟩ := accept_eq_some_iff.mp haccept
    simp [rank]
  send s b s' hmove := rank_move hmove
  tau s t s' hmove := Nat.lt_of_le_of_lt (Nat.le_add_right _ _) (rank_move hmove)

end Loop

end Process
