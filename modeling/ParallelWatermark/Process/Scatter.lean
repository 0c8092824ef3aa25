import Mathlib.Data.Fintype.Basic
import ParallelWatermark.Process.Emitter
import ParallelWatermark.Process.Farm
import ParallelWatermark.Process.Fifo

/-!
# Feeding a farm through one queue for each worker

A balancer puts every item of an emitter into the queue of some worker, by a policy that is left
open. When the emitter has returned, it puts an end of stream behind the items of each worker. The
end of the stream is no item, so that workers which stop at it, and only there, get all the items.
-/

namespace Process

inductive Packet (α : Type) where
  | item (a : α)
  | eos
  deriving DecidableEq, Repr

def Packet.isEos {α : Type} : Packet α → Bool
  | .item _ => false
  | .eos => true

/-- A stream whose one end of stream comes last. -/
theorem Packet.exists_items {α : Type} {packets init : List (Packet α)} {last : Packet α}
    (hpackets : packets = init ++ [last]) (hfree : TokenFree Packet.isEos init)
    (hlast : last.isEos = true) :
    ∃ items : List α, packets = items.map .item ++ [.eos] := by
  obtain rfl : last = .eos := by
    cases last with
    | item a => cases hlast
    | eos => rfl
  have hitems : ∀ packets, TokenFree Packet.isEos packets → ∃ items : List α, packets = items.map .item := by
    intro packets hfree
    induction packets with
    | nil => exact ⟨[], rfl⟩
    | cons p packets ih =>
      obtain ⟨items, rfl⟩ := ih fun q hq => hfree q (List.mem_cons_of_mem _ hq)
      cases p with
      | item a => exact ⟨a :: items, rfl⟩
      | eos => exact absurd (hfree .eos List.mem_cons_self) (by simp [Packet.isEos])
  obtain ⟨items, rfl⟩ := hitems init hfree
  exact ⟨items, hpackets⟩

namespace Scatter

variable {ι α β τ δ : Type}

structure State (ι : Type) (E : Emitter α) where
  emitter : E.State
  ended : ι → Bool  -- the workers behind whose items the end of the stream has been put
  queue : ι → Fifo (Packet α)

inductive Event (ι α : Type) where
  | skip
  | assign (i : ι) (a : α)
  | close (i : ι)
  deriving DecidableEq, Repr

variable [DecidableEq ι] {E : Emitter α}

inductive Step (E : Emitter α) : State ι E → Event ι α → State ι E → Prop
  | skip {s : State ι E} {e' : E.State} (hnext : E.next s.emitter = some (none, e')) :
      Step E s .skip { s with emitter := e' }
  | assign {s : State ι E} {i : ι} {a : α} {e' : E.State} (hnext : E.next s.emitter = some (some a, e')) :
      Step E s (.assign i a)
        { s with emitter := e', queue := Function.update s.queue i ((s.queue i).push (.item a)) }
  | close {s : State ι E} {i : ι} (hhalted : E.next s.emitter = none) (hopen : s.ended i = false) :
      Step E s (.close i)
        { s with ended := Function.update s.ended i true, queue := Function.update s.queue i ((s.queue i).push .eos) }

/-- The emitter, the balancer and the queues, each of which offers its oldest packet to its worker.
-/
def feed (ι : Type) [DecidableEq ι] (E : Emitter α) : Feed ι (Packet α) (Event ι α) where
  State := State ι E
  start := ⟨E.start, fun _ => false, fun _ => Fifo.empty⟩
  step := Step E
  offer s i := (s.queue i).pop.map fun popped => (popped.1, { s with queue := Function.update s.queue i popped.2 })

theorem offer_eq_some {s s' : State ι E} {i : ι} {p : Packet α}
    (hoffer : (feed ι E).offer s i = some (p, s')) :
    ∃ queue', (s.queue i).items = p :: queue'.items ∧
      s' = { s with queue := Function.update s.queue i queue' } := by
  obtain ⟨popped, hpop, heq⟩ := Option.map_eq_some_iff.mp hoffer
  obtain ⟨b, queue'⟩ := popped
  cases heq
  exact ⟨queue', Fifo.pop_eq_some_iff.mp hpop, rfl⟩

theorem offer_eq_none {s : State ι E} {i : ι} (hoffer : (feed ι E).offer s i = none) :
    (s.queue i).items = [] :=
  Fifo.pop_eq_none_iff.mp (Option.map_eq_none_iff.mp hoffer)

def assigned? : FeedAction ι (Packet α) (Event ι α) → Option (ι × α)
  | .own (.assign i a) => some (i, a)
  | _ => none

def assigned (acts : List (FeedAction ι (Packet α) (Event ι α))) : List (ι × α) :=
  acts.filterMap assigned?

section Histories

variable (acts acts' : List (FeedAction ι (Packet α) (Event ι α))) (i : ι)

omit [DecidableEq ι]

@[simp] theorem assigned_append : assigned (acts ++ acts') = assigned acts ++ assigned acts' :=
  List.filterMap_append
@[simp] theorem assigned_skip :
    assigned [(.own .skip : FeedAction ι (Packet α) (Event ι α))] = [] := rfl
@[simp] theorem assigned_assign (a : α) :
    assigned [(.own (.assign i a) : FeedAction ι (Packet α) (Event ι α))] = [(i, a)] := rfl
@[simp] theorem assigned_close :
    assigned [(.own (.close i) : FeedAction ι (Packet α) (Event ι α))] = [] := rfl
@[simp] theorem assigned_give (p : Packet α) :
    assigned [(.give i p : FeedAction ι (Packet α) (Event ι α))] = [] := rfl

end Histories

/-- What has gone into the queue of a worker is the items assigned to it and, once the emitter has
returned, one end of stream; and what has been assigned is what has been emitted. -/
structure Inv (stream : List α) (final : E.State) (acts : List (FeedAction ι (Packet α) (Event ι α)))
    (s : State ι E) : Prop where
  queue : ∀ i, Farm.ofWorker i (Feed.given acts) ++ (s.queue i).items =
    (Farm.ofWorker i (assigned acts)).map .item ++ if s.ended i then [.eos] else []
  halted : ∀ i, s.ended i = true → E.next s.emitter = none
  stream : ∃ rest, E.Yields s.emitter rest final ∧ (assigned acts).map Prod.snd ++ rest = stream

theorem inv_step {stream : List α} {final : E.State} {acts : List (FeedAction ι (Packet α) (Event ι α))}
    {s s' : State ι E} {k : Event ι α} (hinv : Inv stream final acts s) (hstep : Step E s k s') :
    Inv stream final (acts ++ [.own k]) s' := by
  obtain ⟨hqueue, hhalted, rest, hrest, hstream⟩ := hinv
  -- No worker has been sent the end of the stream while the emitter goes on.
  have hopen : ∀ out, E.next s.emitter = some out → ∀ i, s.ended i = false := by
    intro out hnext i
    by_contra hended
    simp [hhalted i (by simpa using hended)] at hnext
  cases hstep with
  | @skip e' hnext =>
    obtain ⟨rest', hrest', rfl⟩ := hrest.step hnext
    refine ⟨fun i => by simpa using hqueue i, fun i hended => ?_, _, hrest', by simpa using hstream⟩
    simp [hopen _ hnext i] at hended
  | @assign i a e' hnext =>
    obtain ⟨rest', hrest', rfl⟩ := hrest.step hnext
    refine ⟨fun j => ?_, fun j hended => ?_, rest', hrest', by simpa using hstream⟩
    · have hj := hqueue j
      by_cases hij : i = j
      · subst hij
        simp only [hopen _ hnext i, Bool.false_eq_true, if_false, List.append_nil] at hj ⊢
        simp [← hj]
      · simpa [Farm.ofWorker_of_ne hij, Function.update_of_ne (Ne.symm hij)] using hj
    · simp [hopen _ hnext j] at hended
  | @close i hnone hunended =>
    refine ⟨fun j => ?_, fun j _ => hnone, rest, hrest, by simpa using hstream⟩
    have hj := hqueue j
    by_cases hij : i = j
    · subst hij
      simp only [hunended, Bool.false_eq_true, if_false, List.append_nil] at hj
      simp [← hj]
    · simpa [Function.update_of_ne (Ne.symm hij)] using hj

theorem inv_give {stream : List α} {final : E.State} {acts : List (FeedAction ι (Packet α) (Event ι α))}
    {s s' : State ι E} {i : ι} {p : Packet α} (hinv : Inv stream final acts s)
    (hoffer : (feed ι E).offer s i = some (p, s')) : Inv stream final (acts ++ [.give i p]) s' := by
  obtain ⟨queue', hitems, rfl⟩ := offer_eq_some hoffer
  refine ⟨fun j => ?_, hinv.halted, by simpa using hinv.stream⟩
  have hj := hinv.queue j
  by_cases hij : i = j
  · subst hij
    simpa [hitems] using hj
  · simpa [Farm.ofWorker_of_ne hij, Function.update_of_ne (Ne.symm hij)] using hj

theorem feed_history {stream : List α} {final : E.State} {acts : List (FeedAction ι (Packet α) (Event ι α))}
    {s : State ι E} (hyields : E.Yields E.start stream final) (hrun : (feed ι E).History acts s) :
    Inv stream final acts s := by
  refine hrun.invariant (motive := Inv stream final) ⟨fun i => rfl, by simp [feed], stream, hyields, rfl⟩ ?_
  intro acts s e s' _ hinv hstep
  cases e with
  | own k => exact inv_step hinv hstep
  | give i p => exact inv_give hinv hstep

/-! ### The farm behind a balancer -/

def assignment (evs : List (Farm.Event ι (Packet α) β τ (Event ι α))) : List (ι × α) :=
  assigned (Farm.feedActions evs)

variable {C : Component (Packet α) β τ} {effect : β → δ → δ} {world : δ}
  {evs : List (Farm.Event ι (Packet α) β τ (Event ι α))} {s : Farm.State ι δ (feed ι E) C}
  {g : Packet α → Option β} {ok : Packet α → Bool} {stream : List α} {final : E.State}

/-- Every thread has returned, and none by an exception. -/
def Returned (s : Farm.State ι δ (feed ι E) C) : Prop :=
  s.aborted = false ∧ E.next s.feed.emitter = none ∧ ∀ i, C.halted (s.worker i) = true

theorem inv_of_split (hyields : E.Yields E.start stream final)
    (hsplit : Farm.Split effect world evs s) (i : ι) :
    Farm.ofWorker i (Farm.takes evs) ++ (s.feed.queue i).items =
      (Farm.ofWorker i (assignment evs)).map .item ++ if s.feed.ended i then [.eos] else [] := by
  rw [← Farm.given_feedActions]
  exact (feed_history hyields hsplit.feed).queue i

theorem eos_not_mem_items (items : List α) : Packet.eos ∉ items.map Packet.item := by simp

/-- A worker that has returned has taken all the items assigned to it, and the end of the stream. -/
theorem takes_of_halted (hC : C.Spec Packet.isEos g ok) (hyields : E.Yields E.start stream final)
    (hsplit : Farm.Split effect world evs s) {i : ι} (hhalted : C.halted (s.worker i) = true) :
    Farm.ofWorker i (Farm.takes evs) = (Farm.ofWorker i (assignment evs)).map .item ++ [.eos] := by
  obtain ⟨⟨init, p, htaken, hfree, htok⟩, -⟩ := Farm.taken_of_halted hC hsplit hhalted
  obtain rfl : p = .eos := by
    cases p with
    | item a => simp [Packet.isEos] at htok
    | eos => rfl
  have hqueue := inv_of_split hyields hsplit i
  have hended : s.feed.ended i = true := by
    by_contra hopen
    have hmem : Packet.eos ∈ (Farm.ofWorker i (assignment evs)).map Packet.item := by
      rw [if_neg hopen, List.append_nil] at hqueue
      rw [← hqueue, htaken]
      simp
    exact eos_not_mem_items _ hmem
  rw [if_pos hended] at hqueue
  rw [← hqueue]
  rcases List.eq_nil_or_concat (s.feed.queue i).items with hnil | ⟨rest, last, hrest⟩
  · rw [hnil, List.append_nil]
  · -- Otherwise the end of the stream the worker has taken would lie among the items.
    rw [hrest, htaken, List.concat_eq_append, ← List.append_assoc] at hqueue
    have hbefore := (List.append_inj' hqueue rfl).1
    have hmem : Packet.eos ∈ (Farm.ofWorker i (assignment evs)).map Packet.item := by
      rw [← hbefore]
      simp
    exact absurd hmem (eos_not_mem_items _)

theorem assignment_eq_of_halted (hyields : E.Yields E.start stream final)
    (hsplit : Farm.Split effect world evs s) (hhalted : E.next s.feed.emitter = none) :
    (assignment evs).map Prod.snd = stream ∧ s.feed.emitter = final := by
  obtain ⟨rest, hrest, hstream⟩ := (feed_history hyields hsplit.feed).stream
  obtain ⟨rfl, hfinal⟩ := hrest.eq_of_halted hhalted
  exact ⟨by simpa [assignment] using hstream, hfinal⟩

theorem sends_perm (hC : C.Spec Packet.isEos g ok) (hyields : E.Yields E.start stream final)
    (heos : g .eos = none) (hsplit : Farm.Split effect world evs s) (hreturned : Returned s) :
    ((Farm.sends evs).map Prod.snd).Perm (stream.filterMap fun a => g (.item a)) := by
  obtain ⟨-, hhalted, hworkers⟩ := hreturned
  rw [← (assignment_eq_of_halted hyields hsplit hhalted).1]
  apply Farm.perm_map_snd_of_ofWorker
  intro i
  rw [(Farm.taken_of_halted hC hsplit (hworkers i)).2.1, takes_of_halted hC hyields hsplit (hworkers i),
    List.filterMap_append, List.filterMap_map]
  simp [heos]

theorem returned_of_terminal [Nonempty ι] (hC : C.Spec Packet.isEos g ok)
    (hyields : E.Yields E.start stream final)
    (hsplit : Farm.Split effect world evs s) (hlive : s.aborted = false)
    (hterminal : Terminal (Farm.Step (feed ι E) C effect) s) : Returned s := by
  obtain ⟨hfeed, hworkers⟩ := Farm.idle_of_terminal hC hsplit hlive hterminal
  have hhalted : E.next s.feed.emitter = none := by
    cases hnext : E.next s.feed.emitter with
    | none => rfl
    | some next =>
      obtain ⟨out, e'⟩ := next
      cases out with
      | none => exact absurd (.skip hnext) (hfeed .skip _)
      | some a => exact absurd (.assign hnext) (hfeed (.assign (Classical.arbitrary ι) a) _)
  refine ⟨hlive, hhalted, fun i => ?_⟩
  have hended : s.feed.ended i = true := by
    by_contra hopen
    exact hfeed (.close i) _ (.close hhalted (by simpa using hopen))
  apply (hworkers i).resolve_right
  intro hwaiting
  obtain ⟨hready, hoffer⟩ := hwaiting
  -- With its queue empty, a waiting worker has taken the end of the stream, which stops it.
  have hqueue := inv_of_split hyields hsplit i
  rw [offer_eq_none hoffer, List.append_nil, if_pos hended] at hqueue
  have hmem : Packet.eos ∈ received (Farm.workerActions i evs) := by
    rw [Farm.received_workerActions, hqueue]
    simp
  have hsome := hready .eos
  rw [hC.accept_eq_none (hsplit.worker i) hmem rfl] at hsome
  cases hsome

/-! ### Every step costs -/

section Rank

variable [Fintype ι]

/-- Units still to be spent on one worker's queue, at `c` for each packet: the ones in it, and the
end of the stream. -/
def queueRank (c : Nat) (s : State ι E) (i : ι) : Nat :=
  c * (s.queue i).items.length + if s.ended i then 0 else c + 1

def rank (c : Nat) (emitterRank : E.State → Nat) (s : State ι E) : Nat :=
  emitterRank s.emitter + ∑ i, queueRank c s i

/-- A change to the emitter and to one queue costs what it costs there. -/
theorem rank_frame {c d : Nat} {emitterRank : E.State → Nat} {s s' : State ι E} {i : ι}
    (hother : ∀ j, j ≠ i → queueRank c s' j = queueRank c s j)
    (hshare : emitterRank s'.emitter + queueRank c s' i + d ≤ emitterRank s.emitter + queueRank c s i) :
    rank c emitterRank s' + d ≤ rank c emitterRank s := by
  have hrest : ∑ j ∈ Finset.univ.erase i, queueRank c s' j = ∑ j ∈ Finset.univ.erase i, queueRank c s j :=
    Finset.sum_congr rfl fun j hj => hother j (Finset.ne_of_mem_erase hj)
  rw [rank, rank, ← Finset.add_sum_erase _ _ (Finset.mem_univ i),
    ← Finset.add_sum_erase _ (queueRank c s) (Finset.mem_univ i), hrest]
  omega

theorem rank_step {c : Nat} {emitterRank : E.State → Nat} (hE : E.Ranked c emitterRank)
    {s s' : State ι E}
    {k : Event ι α} (hstep : Step E s k s') : rank c emitterRank s' < rank c emitterRank s := by
  cases hstep with
  | @skip e' hnext =>
    have hpaid := hE _ _ _ hnext
    exact Nat.add_lt_add_right hpaid _
  | @assign i a e' hnext =>
    have hpaid := hE _ _ _ hnext
    apply Nat.lt_of_lt_of_le (Nat.lt_add_one _)
    apply rank_frame (i := i) (fun j hj => by simp [queueRank, Function.update_of_ne hj])
    simp only [Option.elim_some] at hpaid
    simp only [queueRank, Function.update_self, Fifo.items_push, List.length_append,
      List.length_singleton, Nat.mul_add, Nat.mul_one]
    omega
  | @close i hhalted hopen =>
    apply Nat.lt_of_lt_of_le (Nat.lt_add_one _)
    apply rank_frame (i := i) (fun j hj => by simp [queueRank, Function.update_of_ne hj])
    simp only [queueRank, Function.update_self, Fifo.items_push, List.length_append,
      List.length_singleton, Nat.mul_add, Nat.mul_one, hopen, Bool.false_eq_true, if_false, if_true]
    omega

theorem rank_offer {c : Nat} {emitterRank : E.State → Nat} {s s' : State ι E} {i : ι} {p : Packet α}
    (hoffer : (feed ι E).offer s i = some (p, s')) : rank c emitterRank s' + c ≤ rank c emitterRank s := by
  obtain ⟨queue', hitems, rfl⟩ := offer_eq_some hoffer
  apply rank_frame (i := i) (fun j hj => by simp [queueRank, Function.update_of_ne hj])
  simp only [queueRank, Function.update_self, hitems, List.length_cons, Nat.mul_add, Nat.mul_one]
  omega

theorem rank_lt {c cout : Nat} {emitterRank : E.State → Nat} {workerRank : C.State → Nat}
    (hE : E.Ranked c emitterRank)
    (hC : C.Ranked c cout workerRank) (s : Farm.State ι δ (feed ι E) C)
    (e : Farm.Event ι (Packet α) β τ (Event ι α))
    (s' : Farm.State ι δ (feed ι E) C) (hstep : Farm.Step (feed ι E) C effect s e s') :
    Farm.rank (rank c emitterRank) workerRank s' < Farm.rank (rank c emitterRank) workerRank s :=
  Farm.rank_lt (fun _ _ _ hown => rank_step hE hown) (fun _ _ _ _ hoffer => rank_offer hoffer) hC hstep

end Rank

end Scatter

end Process
