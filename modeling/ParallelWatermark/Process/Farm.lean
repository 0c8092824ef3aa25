import Mathlib.Algebra.BigOperators.Group.Finset.Piecewise
import Mathlib.Data.List.Count
import Mathlib.Data.List.Perm.Subperm
import Mathlib.Logic.Function.Basic
import ParallelWatermark.Process.Component

/-!
# A farm: workers served by a feed

The workers are copies of one component. The feed hands them the items of a stream, by whatever
policy; what the workers send acts on the world they share. All of them run interleaved, one step at
a time. An exception that escapes from any worker ends the whole farm where it stands.
-/

namespace Process

/-- The side of a farm that serves the workers: steps of its own, and the item a given worker can
take now. -/
structure Feed (ι α κ : Type) where
  State : Type
  start : State
  step : State → κ → State → Prop
  offer : State → ι → Option (α × State)

inductive FeedAction (ι α κ : Type) where
  | own (k : κ)
  | give (i : ι) (a : α)
  deriving DecidableEq, Repr

namespace Feed

variable {ι α κ : Type}

def Step (F : Feed ι α κ) (s : F.State) : FeedAction ι α κ → F.State → Prop
  | .own k, s' => F.step s k s'
  | .give i a, s' => F.offer s i = some (a, s')

abbrev History (F : Feed ι α κ) (acts : List (FeedAction ι α κ)) (s : F.State) : Prop :=
  Run F.Step F.start acts s

def given? : FeedAction ι α κ → Option (ι × α)
  | .own _ => none
  | .give i a => some (i, a)

def given (acts : List (FeedAction ι α κ)) : List (ι × α) := acts.filterMap given?

@[simp] theorem given_append (acts acts' : List (FeedAction ι α κ)) :
    given (acts ++ acts') = given acts ++ given acts' :=
  List.filterMap_append
@[simp] theorem given_own (k : κ) : given [(.own k : FeedAction ι α κ)] = [] := rfl
@[simp] theorem given_give (i : ι) (a : α) : given [(.give i a : FeedAction ι α κ)] = [(i, a)] := rfl

end Feed

namespace Farm

variable {ι α β τ κ δ : Type}

inductive Event (ι α β τ κ : Type) where
  | feed (k : κ)
  | take (i : ι) (a : α)
  | move (i : ι) (m : Move β τ)
  | abort (i : ι)
  deriving DecidableEq, Repr

def Event.take? : Event ι α β τ κ → Option (ι × α)
  | .take i a => some (i, a)
  | _ => none

def Event.send? : Event ι α β τ κ → Option (ι × β)
  | .move i (.send b) => some (i, b)
  | _ => none

def Event.feedAction? : Event ι α β τ κ → Option (FeedAction ι α κ)
  | .feed k => some (.own k)
  | .take i a => some (.give i a)
  | _ => none

def Event.workerAction? [DecidableEq ι] (i : ι) : Event ι α β τ κ → Option (Action α β τ)
  | .take j a => if j = i then some (.recv a) else none
  | .move j m => if j = i then some (.move m) else none
  | _ => none

def takes (evs : List (Event ι α β τ κ)) : List (ι × α) := evs.filterMap Event.take?
def sends (evs : List (Event ι α β τ κ)) : List (ι × β) := evs.filterMap Event.send?
def feedActions (evs : List (Event ι α β τ κ)) : List (FeedAction ι α κ) :=
  evs.filterMap Event.feedAction?
def workerActions [DecidableEq ι] (i : ι) (evs : List (Event ι α β τ κ)) : List (Action α β τ) :=
  evs.filterMap (Event.workerAction? i)

/-- The entries of worker `i`, in order. -/
def ofWorker {χ : Type} [DecidableEq ι] (i : ι) (l : List (ι × χ)) : List χ :=
  l.filterMap fun p => if p.1 = i then some p.2 else none

section Histories

variable (evs evs' : List (Event ι α β τ κ)) (i : ι)

@[simp] theorem sends_append : sends (evs ++ evs') = sends evs ++ sends evs' :=
  List.filterMap_append
@[simp] theorem feedActions_append :
    feedActions (evs ++ evs') = feedActions evs ++ feedActions evs' :=
  List.filterMap_append

@[simp] theorem sends_feed (k : κ) : sends [(.feed k : Event ι α β τ κ)] = [] := rfl
@[simp] theorem sends_take (a : α) : sends [(.take i a : Event ι α β τ κ)] = [] := rfl
@[simp] theorem sends_send (b : β) : sends [(.move i (.send b) : Event ι α β τ κ)] = [(i, b)] := rfl
@[simp] theorem sends_tau (t : τ) : sends [(.move i (.tau t) : Event ι α β τ κ)] = [] := rfl
@[simp] theorem sends_abort : sends [(.abort i : Event ι α β τ κ)] = [] := rfl

@[simp] theorem feedActions_feed (k : κ) : feedActions [(.feed k : Event ι α β τ κ)] = [.own k] := rfl
@[simp] theorem feedActions_take (a : α) :
    feedActions [(.take i a : Event ι α β τ κ)] = [.give i a] := rfl
@[simp] theorem feedActions_move (m : Move β τ) :
    feedActions [(.move i m : Event ι α β τ κ)] = [] := rfl
@[simp] theorem feedActions_abort : feedActions [(.abort i : Event ι α β τ κ)] = [] := rfl

theorem given_feedActions : Feed.given (feedActions evs) = takes evs := by
  simp only [Feed.given, feedActions, takes, List.filterMap_filterMap]
  congr 1
  ext e : 1
  cases e <;> rfl

variable [DecidableEq ι]

@[simp] theorem workerActions_append :
    workerActions i (evs ++ evs') = workerActions i evs ++ workerActions i evs' :=
  List.filterMap_append
@[simp] theorem workerActions_feed (k : κ) : workerActions i [(.feed k : Event ι α β τ κ)] = [] := rfl
@[simp] theorem workerActions_abort (j : ι) : workerActions i [(.abort j : Event ι α β τ κ)] = [] := rfl
@[simp] theorem workerActions_take_self (a : α) :
    workerActions i [(.take i a : Event ι α β τ κ)] = [.recv a] := by
  simp [workerActions, Event.workerAction?]
@[simp] theorem workerActions_move_self (m : Move β τ) :
    workerActions i [(.move i m : Event ι α β τ κ)] = [.move m] := by
  simp [workerActions, Event.workerAction?]
theorem workerActions_take_of_ne {j : ι} (hj : j ≠ i) (a : α) :
    workerActions i [(.take j a : Event ι α β τ κ)] = [] := by
  simp [workerActions, Event.workerAction?, hj]
theorem workerActions_move_of_ne {j : ι} (hj : j ≠ i) (m : Move β τ) :
    workerActions i [(.move j m : Event ι α β τ κ)] = [] := by
  simp [workerActions, Event.workerAction?, hj]

theorem received_workerActions : received (workerActions i evs) = ofWorker i (takes evs) := by
  simp only [received, workerActions, ofWorker, takes, List.filterMap_filterMap]
  congr 1
  ext e : 1
  cases e with
  | feed k => rfl
  | abort j => rfl
  | take j a => by_cases hj : j = i <;> simp [Event.workerAction?, Event.take?, Action.received, hj]
  | move j m => by_cases hj : j = i <;> simp [Event.workerAction?, Event.take?, Action.received, hj]

theorem sent_workerActions : sent (workerActions i evs) = ofWorker i (sends evs) := by
  simp only [sent, workerActions, ofWorker, sends, List.filterMap_filterMap]
  congr 1
  ext e : 1
  cases e with
  | feed k => rfl
  | abort j => rfl
  | take j a => by_cases hj : j = i <;> simp [Event.workerAction?, Event.send?, Action.sent, hj]
  | move j m => cases m <;> by_cases hj : j = i <;> simp [Event.workerAction?, Event.send?, Action.sent, hj]

end Histories

structure State (ι δ : Type) (F : Feed ι α κ) (C : Component α β τ) where
  feed : F.State
  worker : ι → C.State
  world : δ
  aborted : Bool  -- an exception has escaped: the process is gone

variable [DecidableEq ι] (F : Feed ι α κ) (C : Component α β τ) (effect : β → δ → δ)

def moveWorld : Move β τ → δ → δ
  | .send b, world => effect b world
  | .tau _, world => world

inductive Step : State ι δ F C → Event ι α β τ κ → State ι δ F C → Prop
  | feed {s : State ι δ F C} {k : κ} {feed' : F.State} (hlive : s.aborted = false)
      (hstep : F.step s.feed k feed') : Step s (.feed k) { s with feed := feed' }
  | take {s : State ι δ F C} {i : ι} {a : α} {feed' : F.State} {w : C.State}
      (hlive : s.aborted = false)
      (hoffer : F.offer s.feed i = some (a, feed')) (haccept : C.accept (s.worker i) a = some w) :
      Step s (.take i a) { s with feed := feed', worker := Function.update s.worker i w }
  | move {s : State ι δ F C} {i : ι} {m : Move β τ} {w : C.State} (hlive : s.aborted = false)
      (hmove : (m, w) ∈ C.moves (s.worker i)) :
      Step s (.move i m) { s with worker := Function.update s.worker i w, world := moveWorld effect m s.world }
  | abort {s : State ι δ F C} {i : ι} (hlive : s.aborted = false)
      (hfailing : C.failing (s.worker i) = true) :
      Step s (.abort i) { s with aborted := true }

def start (world : δ) : State ι δ F C := ⟨F.start, fun _ => C.start, world, false⟩

abbrev History (world : δ) (evs : List (Event ι α β τ κ)) (s : State ι δ F C) : Prop :=
  Run (Step F C effect) (start F C world) evs s

variable {F C effect} {world : δ} {evs : List (Event ι α β τ κ)} {s : State ι δ F C}

/-- A history of the farm seen from the feed, from each worker, and from the world. -/
structure Split (effect : β → δ → δ) (world : δ) (evs : List (Event ι α β τ κ))
    (s : State ι δ F C) : Prop where
  feed : F.History (feedActions evs) s.feed
  worker : ∀ i, C.History (workerActions i evs) (s.worker i)
  world : s.world = (sends evs).foldl (fun w p => effect p.2 w) world
  live : s.aborted = true → ∃ i, C.failing (s.worker i) = true

theorem split_of_history (hrun : History F C effect world evs s) : Split effect world evs s := by
  refine hrun.invariant (motive := Split effect world) ⟨.nil, fun _ => .nil, rfl, by simp [start]⟩ ?_
  intro evs s e s' _ hsplit hstep
  obtain ⟨hfeed, hworker, hworld, -⟩ := hsplit
  cases hstep with
  | @feed k feed' hlive hstep =>
    refine ⟨?_, fun i => by simpa using hworker i, by simpa using hworld, by simp [hlive]⟩
    simpa using hfeed.snoc (show F.Step _ (.own k) _ from hstep)
  | @take i a feed' w hlive hoffer haccept =>
    refine ⟨?_, fun j => ?_, by simpa using hworld, by simp [hlive]⟩
    · simpa using hfeed.snoc (show F.Step _ (.give i a) _ from hoffer)
    · by_cases hj : i = j
      · subst hj
        simpa using (hworker i).snoc (show C.Step _ (.recv a) _ from haccept)
      · simpa [workerActions_take_of_ne j hj, Function.update_of_ne (Ne.symm hj)] using hworker j
  | @move i m w hlive hmove =>
    refine ⟨by simpa using hfeed, fun j => ?_, ?_, by simp [hlive]⟩
    · by_cases hj : i = j
      · subst hj
        simpa using (hworker i).snoc (show C.Step _ (.move m) _ from hmove)
      · simpa [workerActions_move_of_ne j hj, Function.update_of_ne (Ne.symm hj)] using hworker j
    · cases m with
      | send b => simp [moveWorld, hworld]
      | tau t => simpa [moveWorld] using hworld
  | @abort i hlive hfailing =>
    refine ⟨by simpa using hfeed, fun j => by simpa using hworker j, by simpa using hworld, ?_⟩
    exact fun _ => ⟨i, hfailing⟩

/-! ### Lists of entries by worker -/

section Fibers

variable {χ : Type}

@[simp] theorem ofWorker_append (i : ι) (l l' : List (ι × χ)) :
    ofWorker i (l ++ l') = ofWorker i l ++ ofWorker i l' :=
  List.filterMap_append
@[simp] theorem ofWorker_self (i : ι) (x : χ) : ofWorker i [(i, x)] = [x] := by simp [ofWorker]
theorem ofWorker_of_ne {i j : ι} (hj : j ≠ i) (x : χ) :
    ofWorker i [(j, x)] = [] := by simp [ofWorker, hj]

theorem mem_ofWorker {i : ι} {x : χ} {l : List (ι × χ)} : x ∈ ofWorker i l ↔ (i, x) ∈ l := by
  simp only [ofWorker, List.mem_filterMap]
  constructor
  · intro hentry
    obtain ⟨⟨j, y⟩, hmem, heq⟩ := hentry
    split at heq
    · next h => cases h; cases heq; exact hmem
    · cases heq
  · exact fun hmem => ⟨(i, x), hmem, by simp⟩

theorem count_ofWorker [DecidableEq χ] (l : List (ι × χ)) (i : ι) (x : χ) :
    l.count (i, x) = (ofWorker i l).count x := by
  induction l with
  | nil => rfl
  | cons p l ih =>
    obtain ⟨j, y⟩ := p
    by_cases hj : j = i
    · subst hj
      by_cases hy : y = x <;> simp_all [ofWorker]
    · simp_all [ofWorker]

/-- Lists with the same entries, in the same order, for every worker are permutations of each other.
-/
theorem perm_of_ofWorker_eq {l l' : List (ι × χ)} (heq : ∀ i, ofWorker i l = ofWorker i l') :
    l.Perm l' := by
  classical
  rw [List.perm_iff_count]
  intro entry
  obtain ⟨i, x⟩ := entry
  rw [count_ofWorker, count_ofWorker, heq]

theorem ofWorker_filterMap {χ' : Type} (g : χ → Option χ') (l : List (ι × χ)) (i : ι) :
    ofWorker i (l.filterMap fun p => (g p.2).map fun y => (p.1, y)) = (ofWorker i l).filterMap g := by
  simp only [ofWorker, List.filterMap_filterMap]
  congr 1
  ext p : 1
  by_cases hi : p.1 = i
  · cases hg : g p.2 <;> simp [hi, hg]
  · cases g p.2 <;> simp [hi]

theorem perm_filterMap_of_ofWorker {χ' : Type} {g : χ → Option χ'} {l : List (ι × χ)}
    {l' : List (ι × χ')} (heq : ∀ i, ofWorker i l' = (ofWorker i l).filterMap g) :
    l'.Perm (l.filterMap fun p => (g p.2).map fun y => (p.1, y)) := by
  apply perm_of_ofWorker_eq
  intro i
  rw [heq i, ofWorker_filterMap]

theorem perm_map_snd_of_ofWorker {χ' : Type} {g : χ → Option χ'} {l : List (ι × χ)}
    {l' : List (ι × χ')} (heq : ∀ i, ofWorker i l' = (ofWorker i l).filterMap g) :
    (l'.map Prod.snd).Perm ((l.map Prod.snd).filterMap g) := by
  have hsnd := (perm_filterMap_of_ofWorker heq).map Prod.snd
  simpa [List.map_filterMap, List.filterMap_map, Function.comp_def] using hsnd

/-- What holds of the numbers of occurrences for every worker holds for all of them together. -/
theorem subperm_map_snd_of_ofWorker {χ' : Type} {g : χ → Option χ'} {l : List (ι × χ)}
    {l' : List (ι × χ')} (hsub : ∀ i, (ofWorker i l').Subperm ((ofWorker i l).filterMap g)) :
    (l'.map Prod.snd).Subperm ((l.map Prod.snd).filterMap g) := by
  classical
  have hpairs : l'.Subperm (l.filterMap fun p => (g p.2).map fun y => (p.1, y)) := by
    rw [List.subperm_ext_iff]
    intro entry _
    obtain ⟨i, y⟩ := entry
    rw [count_ofWorker, count_ofWorker, ofWorker_filterMap]
    exact (hsub i).count_le y
  obtain ⟨part, hperm, hpart⟩ := hpairs
  have hsnd : (l'.map Prod.snd).Subperm ((l.filterMap fun p => (g p.2).map fun y => (p.1, y)).map Prod.snd) :=
    ⟨part.map Prod.snd, hperm.map _, hpart.map _⟩
  simpa [List.map_filterMap, List.filterMap_map, Function.comp_def] using hsnd

theorem countP_eq_sum_ofWorker [Fintype ι] (p : χ → Bool) (l : List (ι × χ)) :
    (l.map Prod.snd).countP p = ∑ i, (ofWorker i l).countP p := by
  induction l with
  | nil => simp [ofWorker]
  | cons entry l ih =>
    obtain ⟨j, x⟩ := entry
    have hcons : ∀ i, (ofWorker i ((j, x) :: l)).countP p =
        (ofWorker i l).countP p + if j = i then (if p x then 1 else 0) else 0 := by
      intro i
      by_cases hj : j = i
      · simp [ofWorker, hj, List.countP_cons]
      · simp [ofWorker, hj]
    simp only [List.map_cons, List.countP_cons, hcons, Finset.sum_add_distrib, Finset.sum_ite_eq,
      Finset.mem_univ, if_true, ih]

end Fibers

/-! ### What the workers make of what they take -/

section Workers

variable {tok : α → Bool} {g : α → Option β} {ok : α → Bool}

theorem ofWorker_takes_endsAtToken (hC : C.Spec tok g ok) (hsplit : Split effect world evs s)
    (i : ι) :
    EndsAtToken tok (ofWorker i (takes evs)) := by
  rw [← received_workerActions]
  exact hC.received_endsAtToken _ _ (hsplit.worker i)

theorem countP_ofWorker_takes_le_one (hC : C.Spec tok g ok) (hsplit : Split effect world evs s)
    (i : ι) :
    (ofWorker i (takes evs)).countP tok ≤ 1 := by
  by_cases hnone : TokenFree tok (ofWorker i (takes evs))
  · simp [hnone.countP_eq_zero]
  · simp only [TokenFree, not_forall] at hnone
    obtain ⟨a, ha, htok⟩ := hnone
    obtain ⟨init, hinit, hfree⟩ :=
      (ofWorker_takes_endsAtToken hC hsplit i).eq_append ha (by simpa using htok)
    rw [hinit, List.countP_append, hfree.countP_eq_zero]
    simpa using List.countP_le_length (p := tok) (l := [a])

/-- A worker that has returned has taken exactly one token, last, and has sent all it makes of what
it has taken. -/
theorem taken_of_halted (hC : C.Spec tok g ok) (hsplit : Split effect world evs s) {i : ι}
    (hhalted : C.halted (s.worker i) = true) :
    (∃ init a, ofWorker i (takes evs) = init ++ [a] ∧ TokenFree tok init ∧ tok a = true) ∧
      ofWorker i (sends evs) = (ofWorker i (takes evs)).filterMap g ∧
        ∀ a ∈ ofWorker i (takes evs), ok a = true := by
  obtain ⟨hsent, hok⟩ := hC.sent_of_halted (hsplit.worker i) hhalted
  have htaken := hC.received_of_halted (hsplit.worker i) hhalted
  rw [received_workerActions] at hsent hok htaken
  rw [sent_workerActions] at hsent
  exact ⟨htaken, hsent, hok⟩

theorem sends_perm (hC : C.Spec tok g ok) (hsplit : Split effect world evs s)
    (hhalted : ∀ i, C.halted (s.worker i) = true) :
    ((sends evs).map Prod.snd).Perm (((takes evs).map Prod.snd).filterMap g) :=
  perm_map_snd_of_ofWorker fun i => (taken_of_halted hC hsplit (hhalted i)).2.1

/-- At any time, what has been sent is a part of what is made of what has been taken. -/
theorem sends_subperm (hC : C.Spec tok g ok) (hsplit : Split effect world evs s) :
    ((sends evs).map Prod.snd).Subperm (((takes evs).map Prod.snd).filterMap g) := by
  refine subperm_map_snd_of_ofWorker fun i => ?_
  rw [← sent_workerActions, ← received_workerActions]
  exact (hC.sent_isPrefix _ _ (hsplit.worker i)).sublist.subperm

theorem aborted_eq_false (hC : C.Spec tok g ok) (hsplit : Split effect world evs s)
    (hok : ∀ p ∈ takes evs, ok p.2 = true) : s.aborted = false := by
  by_contra haborted
  obtain ⟨i, hfailing⟩ := hsplit.live (by simpa using haborted)
  obtain ⟨a, ha, hbad⟩ := hC.not_ok_of_failing _ _ (hsplit.worker i) hfailing
  rw [received_workerActions] at ha
  have := hok (i, a) (mem_ofWorker.mp ha)
  simp [hbad] at this

/-- Where nothing can happen and nothing has been aborted, every worker has returned or is ready
with nothing offered to it, and the feed is at rest. -/
theorem idle_of_terminal (hC : C.Spec tok g ok) (hsplit : Split effect world evs s)
    (hlive : s.aborted = false) (hterminal : Terminal (Step F C effect) s) :
    (∀ k feed', ¬ F.step s.feed k feed') ∧ ∀ i, C.halted (s.worker i) = true ∨
      ((∀ a, (C.accept (s.worker i) a).isSome = true) ∧ F.offer s.feed i = none) := by
  refine ⟨fun k feed' hstep => hterminal _ _ (.feed hlive hstep), fun i => ?_⟩
  have hidle : C.moves (s.worker i) = [] := by
    rw [List.eq_nil_iff_forall_not_mem]
    exact fun ⟨m, w⟩ hmove => hterminal _ _ (.move hlive hmove)
  have hok : C.failing (s.worker i) = false := by
    by_contra hfailing
    exact hterminal _ _ (.abort hlive (by simpa using hfailing))
  rcases hC.ready_or_halted _ _ (hsplit.worker i) hidle hok with hready | hhalted
  · refine Or.inr ⟨hready, ?_⟩
    cases hoffer : F.offer s.feed i with
    | none => rfl
    | some offered =>
      obtain ⟨a, feed'⟩ := offered
      obtain ⟨w, haccept⟩ := Option.isSome_iff_exists.mp (hready a)
      exact absurd (.take hlive hoffer haccept) (hterminal _ _)
  · exact Or.inl hhalted

end Workers

/-! ### Every step costs -/

section Rank

variable [Fintype ι]

/-- Units still to be spent in the farm: by the feed, by each worker, and one for an exception. -/
def rank (feedRank : F.State → Nat) (workerRank : C.State → Nat) (s : State ι δ F C) : Nat :=
  feedRank s.feed + (∑ i, workerRank (s.worker i)) + if s.aborted then 0 else 1

theorem sum_update {σ : Type} (f : ι → σ) (r : σ → Nat) (i : ι) (w : σ) :
    (∑ j, r (Function.update f i w j)) + r (f i) = (∑ j, r (f j)) + r w := by
  have hrest : ∀ j ∈ Finset.univ.erase i, r (Function.update f i w j) = r (f j) := by
    intro j hj
    rw [Function.update_of_ne (Finset.ne_of_mem_erase hj)]
  rw [← Finset.add_sum_erase _ _ (Finset.mem_univ i), ← Finset.add_sum_erase _ (fun j => r (f j)) (Finset.mem_univ i),
    Finset.sum_congr rfl hrest, Function.update_self]
  omega

/-- If the feed spends on its own steps and pays a worker for each item it hands over, every step of
the farm costs. -/
theorem rank_lt {feedRank : F.State → Nat} {workerRank : C.State → Nat} {cin cout : Nat}
    (hown : ∀ f k f', F.step f k f' → feedRank f' < feedRank f)
    (hgive : ∀ f i a f', F.offer f i = some (a, f') → feedRank f' + cin ≤ feedRank f)
    (hC : C.Ranked cin cout workerRank) {e : Event ι α β τ κ} {s s' : State ι δ F C}
    (hstep : Step F C effect s e s') :
    rank feedRank workerRank s' < rank feedRank workerRank s := by
  cases hstep with
  | feed hlive hstep =>
    have := hown _ _ _ hstep
    simp only [rank]
    omega
  | @take i a feed' w hlive hoffer haccept =>
    have hpay := hgive _ _ _ _ hoffer
    have hwork := hC.accept _ _ _ haccept
    have hsum := sum_update s.worker workerRank i w
    simp only [rank]
    omega
  | @move i m w hlive hmove =>
    have hwork : workerRank w < workerRank (s.worker i) := by
      cases m with
      | send b => exact Nat.lt_of_le_of_lt (Nat.le_add_right _ _) (hC.send _ _ _ hmove)
      | tau t => exact hC.tau _ _ _ hmove
    have hsum := sum_update s.worker workerRank i w
    simp only [rank]
    omega
  | abort hlive hfailing => simp [rank, hlive]

end Rank

end Farm

end Process
