import Mathlib.Algebra.Order.BigOperators.Group.Finset
import Mathlib.Data.Fintype.Card
import ParallelWatermark.Process.Emitter
import ParallelWatermark.Process.Farm
import ParallelWatermark.Process.Fifo

/-!
# Feeding a farm through one shared queue

An emitter pushes a finite stream into a queue from which all workers pop. Which worker gets which
item is decided by the interleaving, but when every worker stops at the first token it pops, the
items taken by all of them together are not: they are the shortest prefix of the stream with one
token for each worker.
-/

namespace Process

namespace SharedQueue

variable {ι α β τ δ : Type}

structure State (E : Emitter α) where
  emitter : E.State
  queue : Fifo α

def pushed (queue : Fifo α) : Option α → Fifo α
  | some a => queue.push a
  | none => queue

@[simp] theorem items_pushed (queue : Fifo α) (out : Option α) :
    (pushed queue out).items = queue.items ++ out.toList := by
  cases out <;> simp [pushed]

/-- The emitter and the queue it fills, which offers its oldest item to every worker. -/
def feed (ι : Type) (E : Emitter α) : Feed ι α (Option α) where
  State := State E
  start := ⟨E.start, Fifo.empty⟩
  step s out s' := ∃ e', E.next s.emitter = some (out, e') ∧ s' = ⟨e', pushed s.queue out⟩
  offer s _ := s.queue.pop.map fun popped => (popped.1, { s with queue := popped.2 })

variable {E : Emitter α}

theorem offer_eq_some {s s' : State E} {i : ι} {a : α} (hoffer : (feed ι E).offer s i = some (a, s')) :
    s.queue.items = a :: s'.queue.items ∧ s'.emitter = s.emitter := by
  obtain ⟨popped, hpop, heq⟩ := Option.map_eq_some_iff.mp hoffer
  obtain ⟨b, queue'⟩ := popped
  cases heq
  exact ⟨Fifo.pop_eq_some_iff.mp hpop, rfl⟩

theorem offer_eq_none {s : State E} {i : ι} (hoffer : (feed ι E).offer s i = none) :
    s.queue.items = [] :=
  Fifo.pop_eq_none_iff.mp (Option.map_eq_none_iff.mp hoffer)

def emitted? : FeedAction ι α (Option α) → Option α
  | .own out => out
  | .give _ _ => none

def emitted (acts : List (FeedAction ι α (Option α))) : List α := acts.filterMap emitted?

section Histories

variable (acts acts' : List (FeedAction ι α (Option α))) (i : ι) (a : α) (out : Option α)

@[simp] theorem emitted_append : emitted (acts ++ acts') = emitted acts ++ emitted acts' :=
  List.filterMap_append
@[simp] theorem emitted_own : emitted [(.own out : FeedAction ι α (Option α))] = out.toList := by cases out <;> rfl
@[simp] theorem emitted_give : emitted [(.give i a : FeedAction ι α (Option α))] = [] := rfl

end Histories

/-- Nothing is lost between the emitter and the workers: what has been given followed by what is
queued is what has been emitted, and what has been emitted followed by what is still to come is the
stream. -/
theorem feed_history {acts : List (FeedAction ι α (Option α))} {s : State E} {stream : List α}
    {final : E.State} (hyields : E.Yields E.start stream final) (hrun : (feed ι E).History acts s) :
    (Feed.given acts).map Prod.snd ++ s.queue.items = emitted acts ∧
      ∃ rest, E.Yields s.emitter rest final ∧ emitted acts ++ rest = stream := by
  refine hrun.invariant (motive := fun acts (s : State E) => (Feed.given acts).map Prod.snd ++ s.queue.items = emitted acts ∧
      ∃ rest, E.Yields s.emitter rest final ∧
        emitted acts ++ rest = stream) ⟨rfl, stream, hyields, rfl⟩ ?_
  intro acts s e s' _ hinv hstep
  obtain ⟨hqueue, rest, hrest, hstream⟩ := hinv
  cases e with
  | own out =>
    obtain ⟨e', hnext, rfl⟩ := hstep
    obtain ⟨rest', hrest', rfl⟩ := hrest.step hnext
    exact ⟨by simp [← hqueue], rest', hrest', by simpa using hstream⟩
  | give i a =>
    obtain ⟨hitems, hemitter⟩ := offer_eq_some hstep
    exact ⟨by simpa [hitems] using hqueue, rest, hemitter ▸ hrest, by simpa using hstream⟩

/-! ### The farm on a shared queue -/

/-- The items the emitter has pushed, in order. -/
def emits (evs : List (Farm.Event ι α β τ (Option α))) : List α :=
  emitted (Farm.feedActions evs)

variable [DecidableEq ι] {C : Component α β τ} {effect : β → δ → δ} {world : δ}

/-- Every thread has returned, and none by an exception. -/
def Returned (s : Farm.State ι δ (feed ι E) C) : Prop :=
  s.aborted = false ∧ E.next s.feed.emitter = none ∧ ∀ i, C.halted (s.worker i) = true

variable {evs : List (Farm.Event ι α β τ (Option α))} {s : Farm.State ι δ (feed ι E) C}
  {stream : List α}
  {final : E.State}

theorem takes_append_queue (hyields : E.Yields E.start stream final)
    (hsplit : Farm.Split effect world evs s) :
    (Farm.takes evs).map Prod.snd ++ s.feed.queue.items = emits evs ∧ emits evs <+: stream := by
  obtain ⟨hqueue, rest, -, hstream⟩ := feed_history hyields hsplit.feed
  rw [Farm.given_feedActions] at hqueue
  exact ⟨hqueue, rest, hstream⟩

theorem emits_eq_of_halted (hyields : E.Yields E.start stream final)
    (hsplit : Farm.Split effect world evs s)
    (hhalted : E.next s.feed.emitter = none) : emits evs = stream ∧ s.feed.emitter = final := by
  obtain ⟨-, rest, hrest, hstream⟩ := feed_history hyields hsplit.feed
  obtain ⟨rfl, hfinal⟩ := hrest.eq_of_halted hhalted
  exact ⟨by simpa [emits] using hstream, hfinal⟩

section Tokens

variable [Fintype ι] {tok : α → Bool} {g : α → Option β} {ok : α → Bool}

/-- Workers that have all returned have taken, together, the shortest prefix with one token for each
of them. -/
theorem takes_eq_upTo (hC : C.Spec tok g ok) (hyields : E.Yields E.start stream final)
    (hsplit : Farm.Split effect world evs s) (hhalted : ∀ i, C.halted (s.worker i) = true) :
    (Farm.takes evs).map Prod.snd = upTo tok (Fintype.card ι) stream := by
  obtain ⟨hqueue, hpre⟩ := takes_append_queue hyields hsplit
  apply eq_upTo
  · exact (hqueue ▸ List.prefix_append _ _ : _ <+: emits evs).trans hpre
  · rw [Farm.countP_eq_sum_ofWorker]
    have hone : ∀ i, (Farm.ofWorker i (Farm.takes evs)).countP tok = 1 := by
      intro i
      obtain ⟨⟨init, a, hinit, hfree, htok⟩, -⟩ := Farm.taken_of_halted hC hsplit (hhalted i)
      simp [hinit, hfree.countP_eq_zero, htok]
    simp [hone]
  · intro x hx
    rcases List.eq_nil_or_concat (Farm.takes evs) with hnil | ⟨init, ⟨i, a⟩, hinit⟩
    · simp [hnil] at hx
    · -- The worker that took the last item took nothing after it, and its own last item is a token.
      obtain ⟨⟨mine, t, hmine, -, htok⟩, -⟩ := Farm.taken_of_halted hC hsplit (hhalted i)
      rw [hinit] at hmine hx
      obtain rfl : a = x := by simpa using hx
      have hlast : Farm.ofWorker i (init.concat (i, a)) = Farm.ofWorker i init ++ [a] := by simp [Farm.ofWorker]
      obtain ⟨-, rfl⟩ := List.append_inj' (hlast.symm.trans hmine) rfl |>.imp id List.singleton_inj.mp
      exact htok

/-- A farm that cannot move has returned, if the stream has a token for every worker. -/
theorem returned_of_terminal (hC : C.Spec tok g ok) (hyields : E.Yields E.start stream final)
    (hsplit : Farm.Split effect world evs s) (htokens : Fintype.card ι ≤ stream.countP tok)
    (hlive : s.aborted = false)
    (hterminal : Terminal (Farm.Step (feed ι E) C effect) s) : Returned s := by
  obtain ⟨hfeed, hworkers⟩ := Farm.idle_of_terminal hC hsplit hlive hterminal
  have hhalted : E.next s.feed.emitter = none := by
    cases hnext : E.next s.feed.emitter with
    | none => rfl
    | some out => exact absurd ⟨out.2, hnext, rfl⟩ (hfeed out.1 _)
  refine ⟨hlive, hhalted, fun i => ?_⟩
  rcases hworkers i with hdone | ⟨hready, hoffer⟩
  · exact hdone
  · -- A worker still waiting has taken no token and the others at most one each, yet none is left in the queue.
    exfalso
    have hnone : (Farm.ofWorker i (Farm.takes evs)).countP tok = 0 := by
      rw [List.countP_eq_zero]
      intro a ha htok
      rw [← Farm.received_workerActions] at ha
      have hsome := hready a
      rw [hC.accept_eq_none (hsplit.worker i) ha htok] at hsome
      simp at hsome
    have hall : (Farm.takes evs).map Prod.snd = stream := by
      rw [← (emits_eq_of_halted hyields hsplit hhalted).1, ← (takes_append_queue hyields hsplit).1,
        offer_eq_none hoffer,
        List.append_nil]
    have hfewer : ∑ j, (Farm.ofWorker j (Farm.takes evs)).countP tok < ∑ _j : ι, 1 :=
      Finset.sum_lt_sum (fun j _ => Farm.countP_ofWorker_takes_le_one hC hsplit j)
        ⟨i, Finset.mem_univ i, by simp [hnone]⟩
    rw [← Farm.countP_eq_sum_ofWorker, hall] at hfewer
    simp at hfewer
    omega

/-- If moreover nothing in the stream makes a worker throw, a run that cannot be continued has
returned. -/
theorem returned_of_terminal_of_ok (hC : C.Spec tok g ok) (hyields : E.Yields E.start stream final)
    (hsplit : Farm.Split effect world evs s) (htokens : Fintype.card ι ≤ stream.countP tok)
    (hok : ∀ a ∈ stream, ok a = true) (hterminal : Terminal (Farm.Step (feed ι E) C effect) s) :
    Returned s := by
  refine returned_of_terminal hC hyields hsplit htokens (Farm.aborted_eq_false hC hsplit fun p hp => ?_) hterminal
  obtain ⟨hqueue, hpre⟩ := takes_append_queue hyields hsplit
  apply hok
  apply hpre.subset
  rw [← hqueue]
  exact List.mem_append_left _ (List.mem_map_of_mem hp)

/-- What the workers send is what they make of the shortest prefix with a token for each of them. -/
theorem sends_perm (hC : C.Spec tok g ok) (hyields : E.Yields E.start stream final)
    (hsplit : Farm.Split effect world evs s) (hreturned : Returned s) :
    ((Farm.sends evs).map Prod.snd).Perm ((upTo tok (Fintype.card ι) stream).filterMap g) := by
  rw [← takes_eq_upTo hC hyields hsplit hreturned.2.2]
  exact Farm.sends_perm hC hsplit hreturned.2.2

/-- Units still to be spent by the feed: those of the emitter, and `c` for every queued item. -/
def rank (c : Nat) (emitterRank : E.State → Nat) (s : State E) : Nat :=
  emitterRank s.emitter + c * s.queue.items.length

theorem rank_lt {c cout : Nat} {emitterRank : E.State → Nat} {workerRank : C.State → Nat}
    (hE : E.Ranked c emitterRank)
    (hC : C.Ranked c cout workerRank) {e : Farm.Event ι α β τ (Option α)}
    {s s' : Farm.State ι δ (feed ι E) C} (hstep : Farm.Step (feed ι E) C effect s e s') :
    Farm.rank (rank c emitterRank) workerRank s' < Farm.rank (rank c emitterRank) workerRank s := by
  refine Farm.rank_lt ?_ ?_ hC hstep
  · intro f out f' hown
    obtain ⟨e', hnext, rfl⟩ := hown
    have hpaid := hE _ _ _ hnext
    cases out with
    | none =>
      simp only [rank, pushed, Option.elim_none] at hpaid ⊢
      omega
    | some a =>
      simp only [rank, pushed, Option.elim_some, Fifo.items_push, List.length_append,
        List.length_singleton, Nat.mul_add, Nat.mul_one] at hpaid ⊢
      omega
  · intro f i a f' hoffer
    obtain ⟨hitems, hemitter⟩ := offer_eq_some hoffer
    simp only [rank, hitems, hemitter, List.length_cons, Nat.mul_add, Nat.mul_one]
    omega

end Tokens

end SharedQueue

end Process
