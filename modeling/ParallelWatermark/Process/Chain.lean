import ParallelWatermark.Process.Component
import ParallelWatermark.Process.Fifo

/-!
# Two components with a queue between them

The left component sends into the queue, the right one receives from it, and the pair is again a
component: it receives what the left one receives and sends what the right one sends. A history of
the pair is an interleaving of a history of each, tied together by the queue: what the left one has
sent is what the right one has received followed by what the queue holds.
-/

namespace Process

/-- The silent moves of a chain: those of its two ends, and the traffic of the queue between them.
-/
inductive ChainMove (τ₁ β τ₂ : Type) where
  | left (t : τ₁)
  | push (b : β)
  | pop (b : β)
  | right (t : τ₂)
  deriving DecidableEq, Repr

variable {α β γ τ₁ τ₂ : Type}

namespace Chain

structure State (C₁ : Component α β τ₁) (C₂ : Component β γ τ₂) where
  left : C₁.State
  queue : Fifo β
  right : C₂.State

variable (C₁ : Component α β τ₁) (C₂ : Component β γ τ₂)

/-- A move of the left end: what it sends goes into the queue. -/
def moveLeft (s : State C₁ C₂) : Move β τ₁ × C₁.State → Move γ (ChainMove τ₁ β τ₂) × State C₁ C₂
  | (.send b, left') => (.tau (.push b), { s with left := left', queue := s.queue.push b })
  | (.tau t, left') => (.tau (.left t), { s with left := left' })

def moveRight (s : State C₁ C₂) : Move γ τ₂ × C₂.State → Move γ (ChainMove τ₁ β τ₂) × State C₁ C₂
  | (.send c, right') => (.send c, { s with right := right' })
  | (.tau t, right') => (.tau (.right t), { s with right := right' })

/-- The right end takes the oldest item of the queue, if there is one and it is ready for it. -/
def popMoves (s : State C₁ C₂) : List (Move γ (ChainMove τ₁ β τ₂) × State C₁ C₂) :=
  match s.queue.pop with
  | none => []
  | some (b, queue') => (C₂.accept s.right b).toList.map fun right' =>
      (.tau (.pop b), { s with queue := queue', right := right' })

end Chain

open Chain in
/-- `C₁` feeding `C₂` through a queue. -/
def chain (C₁ : Component α β τ₁) (C₂ : Component β γ τ₂) : Component α γ (ChainMove τ₁ β τ₂) where
  State := Chain.State C₁ C₂
  start := ⟨C₁.start, Fifo.empty, C₂.start⟩
  accept s a := (C₁.accept s.left a).map fun left' => { s with left := left' }
  moves s := (C₁.moves s.left).map (moveLeft C₁ C₂ s) ++ popMoves C₁ C₂ s ++ (C₂.moves s.right).map (moveRight C₁ C₂ s)
  failing s := C₁.failing s.left || C₂.failing s.right
  halted s := C₁.halted s.left && C₂.halted s.right

namespace Chain

/-- The part of a step of the chain that is a step of its left end. -/
def leftAction : Action α γ (ChainMove τ₁ β τ₂) → Option (Action α β τ₁)
  | .recv a => some (.recv a)
  | .move (.tau (.push b)) => some (.move (.send b))
  | .move (.tau (.left t)) => some (.move (.tau t))
  | _ => none

def rightAction : Action α γ (ChainMove τ₁ β τ₂) → Option (Action β γ τ₂)
  | .move (.tau (.pop b)) => some (.recv b)
  | .move (.send c) => some (.move (.send c))
  | .move (.tau (.right t)) => some (.move (.tau t))
  | _ => none

def leftActions (acts : List (Action α γ (ChainMove τ₁ β τ₂))) : List (Action α β τ₁) :=
  acts.filterMap leftAction
def rightActions (acts : List (Action α γ (ChainMove τ₁ β τ₂))) : List (Action β γ τ₂) :=
  acts.filterMap rightAction

section Histories

variable (acts acts' : List (Action α γ (ChainMove τ₁ β τ₂))) (a : α) (b : β) (c : γ) (t₁ : τ₁)
  (t₂ : τ₂)

@[simp] theorem leftActions_append :
    leftActions (acts ++ acts') = leftActions acts ++ leftActions acts' :=
  List.filterMap_append
@[simp] theorem rightActions_append :
    rightActions (acts ++ acts') = rightActions acts ++ rightActions acts' :=
  List.filterMap_append

@[simp] theorem leftActions_recv :
    leftActions [(.recv a : Action α γ (ChainMove τ₁ β τ₂))] = [.recv a] := rfl
@[simp] theorem leftActions_push :
    leftActions [(.move (.tau (.push b)) : Action α γ (ChainMove τ₁ β τ₂))] = [.move (.send b)] := rfl
@[simp] theorem leftActions_left :
    leftActions [(.move (.tau (.left t₁)) : Action α γ (ChainMove τ₁ β τ₂))] = [.move (.tau t₁)] := rfl
@[simp] theorem leftActions_pop :
    leftActions [(.move (.tau (.pop b)) : Action α γ (ChainMove τ₁ β τ₂))] = [] := rfl
@[simp] theorem leftActions_send :
    leftActions [(.move (.send c) : Action α γ (ChainMove τ₁ β τ₂))] = [] := rfl
@[simp] theorem leftActions_right :
    leftActions [(.move (.tau (.right t₂)) : Action α γ (ChainMove τ₁ β τ₂))] = [] := rfl

@[simp] theorem rightActions_recv :
    rightActions [(.recv a : Action α γ (ChainMove τ₁ β τ₂))] = [] := rfl
@[simp] theorem rightActions_push :
    rightActions [(.move (.tau (.push b)) : Action α γ (ChainMove τ₁ β τ₂))] = [] := rfl
@[simp] theorem rightActions_left :
    rightActions [(.move (.tau (.left t₁)) : Action α γ (ChainMove τ₁ β τ₂))] = [] := rfl
@[simp] theorem rightActions_pop :
    rightActions [(.move (.tau (.pop b)) : Action α γ (ChainMove τ₁ β τ₂))] = [.recv b] := rfl
@[simp] theorem rightActions_send :
    rightActions [(.move (.send c) : Action α γ (ChainMove τ₁ β τ₂))] = [.move (.send c)] := rfl
@[simp] theorem rightActions_right :
    rightActions [(.move (.tau (.right t₂)) : Action α γ (ChainMove τ₁ β τ₂))] = [.move (.tau t₂)] := rfl

end Histories

theorem received_leftActions (acts : List (Action α γ (ChainMove τ₁ β τ₂))) :
    received (leftActions acts) = received acts := by
  simp only [received, leftActions, List.filterMap_filterMap]
  congr 1
  ext act : 1
  rcases act with a | m | (t | b | b | t) <;> rfl

theorem sent_rightActions (acts : List (Action α γ (ChainMove τ₁ β τ₂))) :
    sent (rightActions acts) = sent acts := by
  simp only [sent, rightActions, List.filterMap_filterMap]
  congr 1
  ext act : 1
  rcases act with a | m | (t | b | b | t) <;> rfl

variable {C₁ : Component α β τ₁} {C₂ : Component β γ τ₂}

theorem move_cases {s s' : Chain.State C₁ C₂} {m : Move γ (ChainMove τ₁ β τ₂)}
    (hmove : (m, s') ∈ (chain C₁ C₂).moves s) :
    (∃ b left', m = .tau (.push b) ∧ (.send b, left') ∈ C₁.moves s.left ∧ s' = ⟨left', s.queue.push b, s.right⟩) ∨
    (∃ t left', m = .tau (.left t) ∧ (.tau t, left') ∈ C₁.moves s.left ∧ s' = ⟨left', s.queue, s.right⟩) ∨
    (∃ b queue' right', m = .tau (.pop b) ∧ s.queue.items = b :: queue'.items ∧ C₂.accept s.right b = some right' ∧
      s' = ⟨s.left, queue', right'⟩) ∨
    (∃ c right', m = .send c ∧ (.send c, right') ∈ C₂.moves s.right ∧ s' = ⟨s.left, s.queue, right'⟩) ∨
    ∃ t right', m = .tau (.right t) ∧ (.tau t, right') ∈ C₂.moves s.right ∧
      s' = ⟨s.left, s.queue, right'⟩ := by
  have hmem : (m, s') ∈ (C₁.moves s.left).map (moveLeft C₁ C₂ s) ++ popMoves C₁ C₂ s ++
      (C₂.moves s.right).map (moveRight C₁ C₂ s) := hmove
  rcases List.mem_append.mp hmem with hmem | hright
  · rcases List.mem_append.mp hmem with hleft | hpop
    · obtain ⟨⟨m₁ | t, left'⟩, hmoves, heq⟩ := List.mem_map.mp hleft
      · cases heq
        exact Or.inl ⟨m₁, left', rfl, hmoves, rfl⟩
      · cases heq
        exact Or.inr (Or.inl ⟨t, left', rfl, hmoves, rfl⟩)
    · cases hq : s.queue.pop with
      | none => simp [popMoves, hq] at hpop
      | some popped =>
        obtain ⟨b, queue'⟩ := popped
        simp only [popMoves, hq, List.mem_map, Option.mem_toList] at hpop
        obtain ⟨right', haccept, heq⟩ := hpop
        cases heq
        exact Or.inr (Or.inr (Or.inl ⟨b, queue', right', rfl, Fifo.pop_eq_some_iff.mp hq, haccept, rfl⟩))
  · obtain ⟨⟨c | t, right'⟩, hmoves, heq⟩ := List.mem_map.mp hright
    · cases heq
      exact Or.inr (Or.inr (Or.inr (Or.inl ⟨c, right', rfl, hmoves, rfl⟩)))
    · cases heq
      exact Or.inr (Or.inr (Or.inr (Or.inr ⟨t, right', rfl, hmoves, rfl⟩)))

section Moves

variable {s : Chain.State C₁ C₂} {left' : C₁.State} {right' : C₂.State}

theorem mem_moves_push {b : β} (hmove : (.send b, left') ∈ C₁.moves s.left) :
    (.tau (.push b), ⟨left', s.queue.push b, s.right⟩) ∈ (chain C₁ C₂).moves s :=
  List.mem_append_left _ (List.mem_append_left _ (List.mem_map.mpr ⟨_, hmove, rfl⟩))

theorem mem_moves_left {t : τ₁} (hmove : (.tau t, left') ∈ C₁.moves s.left) :
    (.tau (.left t), ⟨left', s.queue, s.right⟩) ∈ (chain C₁ C₂).moves s :=
  List.mem_append_left _ (List.mem_append_left _ (List.mem_map.mpr ⟨_, hmove, rfl⟩))

theorem mem_moves_pop {b : β} {queue' : Fifo β} (hpop : s.queue.pop = some (b, queue'))
    (haccept : C₂.accept s.right b = some right') :
    (.tau (.pop b), ⟨s.left, queue', right'⟩) ∈ (chain C₁ C₂).moves s := by
  have hmem : (.tau (.pop b), ⟨s.left, queue', right'⟩) ∈ popMoves C₁ C₂ s := by
    simp only [popMoves, hpop, List.mem_map, Option.mem_toList]
    exact ⟨right', haccept, rfl⟩
  exact List.mem_append_left _ (List.mem_append_right _ hmem)

theorem mem_moves_send {c : γ} (hmove : (.send c, right') ∈ C₂.moves s.right) :
    (.send c, ⟨s.left, s.queue, right'⟩) ∈ (chain C₁ C₂).moves s :=
  List.mem_append_right _ (List.mem_map.mpr ⟨_, hmove, rfl⟩)

theorem mem_moves_right {t : τ₂} (hmove : (.tau t, right') ∈ C₂.moves s.right) :
    (.tau (.right t), ⟨s.left, s.queue, right'⟩) ∈ (chain C₁ C₂).moves s :=
  List.mem_append_right _ (List.mem_map.mpr ⟨_, hmove, rfl⟩)

end Moves

theorem moves_eq_nil {s : Chain.State C₁ C₂} (hleft : C₁.moves s.left = []) (hright : C₂.moves s.right = [])
    (hpop : ∀ b queue', s.queue.pop = some (b, queue') → C₂.accept s.right b = none) : (chain C₁ C₂).moves s = [] := by
  have hnone : popMoves C₁ C₂ s = [] := by
    rw [popMoves]
    cases hq : s.queue.pop with
    | none => rfl
    | some popped => simp [hpop popped.1 popped.2 hq]
  change (C₁.moves s.left).map _ ++ popMoves C₁ C₂ s ++ (C₂.moves s.right).map _ = []
  rw [hleft, hright, hnone]
  rfl

theorem accept_cases {s s' : Chain.State C₁ C₂} {a : α} (haccept : (chain C₁ C₂).accept s a = some s') :
    ∃ left', C₁.accept s.left a = some left' ∧ s' = ⟨left', s.queue, s.right⟩ := by
  obtain ⟨left', hleft, heq⟩ := Option.map_eq_some_iff.mp haccept
  exact ⟨left', hleft, heq.symm⟩

theorem halted_iff {s : Chain.State C₁ C₂} :
    (chain C₁ C₂).halted s = true ↔ C₁.halted s.left = true ∧ C₂.halted s.right = true :=
  Bool.and_eq_true_iff

theorem failing_eq_false_iff {s : Chain.State C₁ C₂} :
    (chain C₁ C₂).failing s = false ↔ C₁.failing s.left = false ∧ C₂.failing s.right = false :=
  Bool.or_eq_false_iff

/-- A history of the chain seen from its two ends and from the queue between them. -/
structure Split (acts : List (Action α γ (ChainMove τ₁ β τ₂))) (s : Chain.State C₁ C₂) : Prop where
  left : C₁.History (leftActions acts) s.left
  right : C₂.History (rightActions acts) s.right
  queue : sent (leftActions acts) = received (rightActions acts) ++ s.queue.items

theorem split_of_history {acts : List (Action α γ (ChainMove τ₁ β τ₂))} {s : Chain.State C₁ C₂}
    (hrun : (chain C₁ C₂).History acts s) : Split acts s := by
  refine hrun.invariant (motive := Split) ⟨.nil, .nil, rfl⟩ ?_
  intro acts s e s' _ hsplit hstep
  obtain ⟨hleft, hright, hqueue⟩ := hsplit
  cases e with
  | recv a =>
    obtain ⟨left', haccept, rfl⟩ := accept_cases hstep
    refine ⟨?_, by simpa using hright, by simpa using hqueue⟩
    simpa using hleft.snoc (show C₁.Step _ (.recv a) _ from haccept)
  | move m =>
    rcases move_cases hstep with ⟨b, left', rfl, hmove, rfl⟩ | ⟨t, left', rfl, hmove, rfl⟩ |
      ⟨b, queue', right', rfl, hitems, haccept, rfl⟩ | ⟨c, right', rfl, hmove, rfl⟩ | ⟨t, right', rfl, hmove, rfl⟩
    · refine ⟨?_, by simpa using hright, by simp [hqueue]⟩
      simpa using hleft.snoc (show C₁.Step _ (.move (.send b)) _ from hmove)
    · refine ⟨?_, by simpa using hright, by simp [hqueue]⟩
      simpa using hleft.snoc (show C₁.Step _ (.move (.tau t)) _ from hmove)
    · refine ⟨by simpa using hleft, ?_, by simp [hqueue, hitems]⟩
      simpa using hright.snoc (show C₂.Step _ (.recv b) _ from haccept)
    · refine ⟨by simpa using hleft, ?_, by simp [hqueue]⟩
      simpa using hright.snoc (show C₂.Step _ (.move (.send c)) _ from hmove)
    · refine ⟨by simpa using hleft, ?_, by simp [hqueue]⟩
      simpa using hright.snoc (show C₂.Step _ (.move (.tau t)) _ from hmove)

/-! ### What the chain makes of its input -/

theorem idle_cases {s : Chain.State C₁ C₂} (hidle : (chain C₁ C₂).moves s = []) :
    C₁.moves s.left = [] ∧ C₂.moves s.right = [] ∧
      ∀ b queue', s.queue.pop = some (b, queue') → C₂.accept s.right b = none := by
  have hparts : ((C₁.moves s.left).map (moveLeft C₁ C₂ s) ++ popMoves C₁ C₂ s) ++
      (C₂.moves s.right).map (moveRight C₁ C₂ s) = [] := hidle
  simp only [List.append_eq_nil_iff, List.map_eq_nil_iff] at hparts
  obtain ⟨⟨hleft, hpop⟩, hright⟩ := hparts
  refine ⟨hleft, hright, fun b queue' hq => ?_⟩
  simpa [popMoves, hq] using hpop

variable {tok₁ : α → Bool} {tok₂ : β → Bool} {g₁ : α → Option β} {g₂ : β → Option γ}
  {ok₁ : α → Bool} {ok₂ : β → Bool}

/-- The left end passes a token on for a token and data for data. -/
structure Forwards (tok₁ : α → Bool) (g₁ : α → Option β) (tok₂ : β → Bool) : Prop where
  token : ∀ a, tok₁ a = true → ∃ b, g₁ a = some b ∧ tok₂ b = true
  data : ∀ a b, tok₁ a = false → g₁ a = some b → tok₂ b = false

theorem Forwards.tokenFree (hforwards : Forwards tok₁ g₁ tok₂) {as : List α}
    (hfree : TokenFree tok₁ as) :
    TokenFree tok₂ (as.filterMap g₁) := by
  intro b hb
  obtain ⟨a, ha, hout⟩ := List.mem_filterMap.mp hb
  exact hforwards.data a b (hfree a ha) hout

theorem Forwards.comp {tok₃ : γ → Bool} (h₁ : Forwards tok₁ g₁ tok₂) (h₂ : Forwards tok₂ g₂ tok₃) :
    Forwards tok₁ (fun a => (g₁ a).bind g₂) tok₃ where
  token a htok := by
    obtain ⟨b, hb, htok₂⟩ := h₁.token a htok
    obtain ⟨c, hc, htok₃⟩ := h₂.token b htok₂
    exact ⟨c, by simp [hb, hc], htok₃⟩
  data a c hdata hout := by
    obtain ⟨b, hb, hc⟩ := Option.bind_eq_some_iff.mp hout
    exact h₂.data b c (h₁.data a b hdata hb) hc

/-- The throwing items of a chain: those the left end throws at, and those it turns into one the
right end throws at. -/
def chainOk (ok₁ : α → Bool) (g₁ : α → Option β) (ok₂ : β → Bool) (a : α) : Bool :=
  ok₁ a && (g₁ a).all ok₂

theorem mem_received_of_rightActions (h₁ : C₁.Spec tok₁ g₁ ok₁)
    {acts : List (Action α γ (ChainMove τ₁ β τ₂))}
    {s : Chain.State C₁ C₂} (hsplit : Split acts s) {b : β} (hb : b ∈ received (rightActions acts)) :
    ∃ a ∈ received acts, g₁ a = some b := by
  have hsent : b ∈ sent (leftActions acts) := by simp [hsplit.queue, hb]
  rw [← received_leftActions]
  exact List.mem_filterMap.mp ((h₁.sent_isPrefix _ _ hsplit.left).subset hsent)

/-- A chain at rest has nothing between its ends. A right end that is ready would take what is
there; one that has returned has met a token, which is the last thing the left end sends. -/
theorem queue_eq_nil_of_idle (h₁ : C₁.Spec tok₁ g₁ ok₁) (h₂ : C₂.Spec tok₂ g₂ ok₂)
    (hforwards : Forwards tok₁ g₁ tok₂)
    {acts : List (Action α γ (ChainMove τ₁ β τ₂))} {s : Chain.State C₁ C₂} (hsplit : Split acts s)
    (hidle : (chain C₁ C₂).moves s = []) (hok₁ : C₁.failing s.left = false)
    (hok₂ : C₂.failing s.right = false) :
    s.queue.items = [] := by
  obtain ⟨hleft, hright, hqueue⟩ := hsplit
  obtain ⟨hidle₁, hidle₂, hpop⟩ := idle_cases hidle
  rcases h₂.ready_or_halted _ _ hright hidle₂ hok₂ with hready | hhalted
  · by_contra hne
    obtain ⟨b, queue', hq⟩ := Fifo.exists_pop hne
    have hsome := hready b
    rw [hpop b queue' hq] at hsome
    simp at hsome
  · obtain ⟨b, hb, htok⟩ := h₂.token_of_halted _ _ hright hhalted
    obtain ⟨a, ha, hout⟩ := mem_received_of_rightActions h₁ ⟨hleft, hright, hqueue⟩ hb
    rw [← received_leftActions] at ha
    have hlast : tok₁ a = true := by
      by_contra hdata
      have := hforwards.data a b (by simpa using hdata) hout
      simp [this] at htok
    obtain ⟨init, hinit, hfree⟩ := (h₁.received_endsAtToken _ _ hleft).eq_append ha hlast
    have hsent := (h₁.sent_of_idle _ _ hleft hidle₁ hok₁).1
    rw [hqueue, hinit, List.filterMap_append] at hsent
    simp only [List.filterMap_cons, hout, List.filterMap_nil] at hsent
    rcases List.eq_nil_or_concat s.queue.items with hnil | ⟨rest, last, hrest⟩
    · exact hnil
    · -- The token would lie strictly before the end of what the left end has sent.
      rw [hrest, List.concat_eq_append, ← List.append_assoc] at hsent
      have hbefore := (List.append_inj' hsent rfl).1
      have hmem : b ∈ init.filterMap g₁ := hbefore ▸ List.mem_append_left _ hb
      exact absurd htok (by simp [hforwards.tokenFree hfree b hmem])

/-- A chain of two components that each stop at their first token is such a component, and computes
the composition. -/
theorem spec (h₁ : C₁.Spec tok₁ g₁ ok₁) (h₂ : C₂.Spec tok₂ g₂ ok₂)
    (hforwards : Forwards tok₁ g₁ tok₂) :
    (chain C₁ C₂).Spec tok₁ (fun a => (g₁ a).bind g₂) (chainOk ok₁ g₁ ok₂) where
  received_endsAtToken acts s hrun := by
    rw [← received_leftActions]
    exact h₁.received_endsAtToken _ _ (split_of_history hrun).left
  sent_isPrefix acts s hrun := by
    obtain ⟨hleft, hright, hqueue⟩ := split_of_history hrun
    rw [← sent_rightActions, ← received_leftActions, ← List.filterMap_filterMap]
    have hmid : received (rightActions acts) <+: (received (leftActions acts)).filterMap g₁ :=
      (hqueue ▸ List.prefix_append _ _).trans (h₁.sent_isPrefix _ _ hleft)
    exact (h₂.sent_isPrefix _ _ hright).trans (hmid.filterMap g₂)
  sent_of_idle acts s hrun hidle hok := by
    have hsplit := split_of_history hrun
    obtain ⟨hok₁, hok₂⟩ := failing_eq_false_iff.mp hok
    have hempty := queue_eq_nil_of_idle h₁ h₂ hforwards hsplit hidle hok₁ hok₂
    obtain ⟨hleft, hright, hqueue⟩ := hsplit
    obtain ⟨hidle₁, hidle₂, -⟩ := idle_cases hidle
    obtain ⟨hsent₁, hall₁⟩ := h₁.sent_of_idle _ _ hleft hidle₁ hok₁
    obtain ⟨hsent₂, hall₂⟩ := h₂.sent_of_idle _ _ hright hidle₂ hok₂
    have hmid : received (rightActions acts) = (received acts).filterMap g₁ := by
      rw [← received_leftActions, ← hsent₁, hqueue, hempty, List.append_nil]
    refine ⟨by rw [← sent_rightActions, hsent₂, hmid, List.filterMap_filterMap], fun a ha => ?_⟩
    rw [chainOk, Bool.and_eq_true]
    refine ⟨hall₁ a (by rwa [received_leftActions]), ?_⟩
    cases hout : g₁ a with
    | none => rfl
    | some b => exact hall₂ b (hmid ▸ List.mem_filterMap.mpr ⟨a, ha, hout⟩)
  ready_or_halted acts s hrun hidle hok := by
    have hsplit := split_of_history hrun
    obtain ⟨hok₁, hok₂⟩ := failing_eq_false_iff.mp hok
    have hempty := queue_eq_nil_of_idle h₁ h₂ hforwards hsplit hidle hok₁ hok₂
    obtain ⟨hleft, hright, hqueue⟩ := hsplit
    obtain ⟨hidle₁, hidle₂, -⟩ := idle_cases hidle
    rcases h₁.ready_or_halted _ _ hleft hidle₁ hok₁ with hready₁ | hhalted₁
    · exact Or.inl fun a => by simpa [chain] using hready₁ a
    · -- The left end has passed its token on, and nothing is left in the queue: the right end has met it.
      obtain ⟨a, ha, htok₁⟩ := h₁.token_of_halted _ _ hleft hhalted₁
      obtain ⟨b, hout, htok₂⟩ := hforwards.token a htok₁
      have hb : b ∈ received (rightActions acts) := by
        rw [hempty, List.append_nil] at hqueue
        rw [← hqueue, (h₁.sent_of_halted hleft hhalted₁).1]
        exact List.mem_filterMap.mpr ⟨a, ha, hout⟩
      rcases h₂.ready_or_halted _ _ hright hidle₂ hok₂ with hready₂ | hhalted₂
      · have hsome := hready₂ b
        rw [h₂.accept_eq_none hright hb htok₂] at hsome
        simp at hsome
      · exact Or.inr (by simp [chain, hhalted₁, hhalted₂])
  token_of_halted acts s hrun hhalted := by
    rw [← received_leftActions]
    exact h₁.token_of_halted _ _ (split_of_history hrun).left (halted_iff.mp hhalted).1
  inert_of_halted s hhalted := by
    obtain ⟨hleft, hright⟩ := halted_iff.mp hhalted
    obtain ⟨hmoves₁, hok₁, haccept₁⟩ := h₁.inert_of_halted _ hleft
    obtain ⟨hmoves₂, hok₂, haccept₂⟩ := h₂.inert_of_halted _ hright
    refine ⟨?_, by simp [chain, hok₁, hok₂], fun a => by simp [chain, haccept₁]⟩
    simp only [chain, hmoves₁, hmoves₂, List.map_nil, List.nil_append, List.append_nil, popMoves]
    cases s.queue.pop with
    | none => rfl
    | some popped => simp [haccept₂]
  not_ok_of_failing acts s hrun hfailing := by
    have hsplit := split_of_history hrun
    rcases Bool.or_eq_true_iff.mp hfailing with hleft | hright
    · obtain ⟨a, ha, hbad⟩ := h₁.not_ok_of_failing _ _ hsplit.left hleft
      exact ⟨a, by rwa [received_leftActions] at ha, by simp [chainOk, hbad]⟩
    · obtain ⟨b, hb, hbad⟩ := h₂.not_ok_of_failing _ _ hsplit.right hright
      obtain ⟨a, ha, hout⟩ := mem_received_of_rightActions h₁ hsplit hb
      exact ⟨a, ha, by simp [chainOk, hout, hbad]⟩

theorem queue_eq_nil_of_halted (h₁ : C₁.Spec tok₁ g₁ ok₁) (h₂ : C₂.Spec tok₂ g₂ ok₂)
    (hforwards : Forwards tok₁ g₁ tok₂)
    {acts : List (Action α γ (ChainMove τ₁ β τ₂))} {s : Chain.State C₁ C₂}
    (hrun : (chain C₁ C₂).History acts s)
    (hhalted : (chain C₁ C₂).halted s = true) : s.queue.items = [] := by
  obtain ⟨hidle, hok, -⟩ := (spec h₁ h₂ hforwards).inert_of_halted s hhalted
  obtain ⟨hok₁, hok₂⟩ := failing_eq_false_iff.mp hok
  exact queue_eq_nil_of_idle h₁ h₂ hforwards (split_of_history hrun) hidle hok₁ hok₂

/-- Units still to be spent in a chain whose right end is paid `cmid` for each item of the queue. -/
def rank (cmid : Nat) (rank₁ : C₁.State → Nat) (rank₂ : C₂.State → Nat) (s : Chain.State C₁ C₂) :
    Nat :=
  rank₁ s.left + cmid * s.queue.items.length + rank₂ s.right

theorem ranked {cin cmid cout : Nat} {rank₁ : C₁.State → Nat} {rank₂ : C₂.State → Nat}
    (h₁ : C₁.Ranked cin cmid rank₁)
    (h₂ : C₂.Ranked cmid cout rank₂) : (chain C₁ C₂).Ranked cin cout (rank cmid rank₁ rank₂) where
  accept s a s' haccept := by
    obtain ⟨left', hleft, rfl⟩ := accept_cases haccept
    have := h₁.accept _ _ _ hleft
    simp only [rank]
    omega
  send s c s' hmove := by
    rcases move_cases hmove with ⟨_, _, h, _⟩ | ⟨_, _, h, _⟩ | ⟨_, _, _, h, _⟩ | ⟨c, right', h, hright, rfl⟩ | ⟨_, _, h, _⟩
    · cases h
    · cases h
    · cases h
    · cases h
      have := h₂.send _ _ _ hright
      simp only [rank]
      omega
    · cases h
  tau s t s' hmove := by
    rcases move_cases hmove with ⟨b, left', -, hleft, rfl⟩ | ⟨t, left', -, hleft, rfl⟩ |
      ⟨b, queue', right', -, hitems, haccept, rfl⟩ | ⟨c, right', h, -⟩ | ⟨t, right', -, hright, rfl⟩
    · have := h₁.send _ _ _ hleft
      simp only [rank, Fifo.items_push, List.length_append, List.length_singleton, Nat.mul_add,
        Nat.mul_one]
      omega
    · have := h₁.tau _ _ _ hleft
      simp only [rank]
      omega
    · have := h₂.accept _ _ _ haccept
      simp only [rank, hitems, List.length_cons, Nat.mul_add, Nat.mul_one]
      omega
    · cases h
    · have := h₂.tau _ _ _ hright
      simp only [rank]
      omega

end Chain

end Process
