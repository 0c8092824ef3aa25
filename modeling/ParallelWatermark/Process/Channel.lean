import ParallelWatermark.Process.Prog
import ParallelWatermark.Process.Run

/-!
# Channels from one thread to another

A channel hands on what is pushed to it, in order. Its two threads call `push` and `pop`; a push may be
refused by a channel that was full when it was called, and a pop by one that was empty. An implementation
is a program for each of the two, whose accesses to a memory interleave.
-/

namespace Process

/-- What has been pushed to a channel so far, and how much of it has been taken out again. -/
structure Log (α : Type) where
  pushed : List α
  taken : Nat

/-- What has been pushed stays where it is. -/
theorem item_kept {α : Type} {pushed pushed' : List α} {k : Nat} {a : α} (hpushed : pushed <+: pushed')
    (hitem : pushed[k]? = some a) : pushed'[k]? = some a := by
  obtain ⟨more, rfl⟩ := hpushed
  rw [List.getElem?_append_left (List.getElem?_eq_some_iff.mp hitem).1, hitem]

namespace Log

variable {α : Type}

def empty : Log α := ⟨[], 0⟩

def items (l : Log α) : List α := l.pushed.drop l.taken

def push (l : Log α) (a : α) : Log α := ⟨l.pushed ++ [a], l.taken⟩

def take (l : Log α) : Log α := ⟨l.pushed, l.taken + 1⟩

/-- A channel of this capacity, if it has one, has no room. -/
def full (capacity : Option Nat) (l : Log α) : Bool := capacity.any (· ≤ l.items.length)

structure Within (capacity : Option Nat) (l : Log α) : Prop where
  taken_le : l.taken ≤ l.pushed.length
  pushed_le : ∀ size ∈ capacity, l.pushed.length ≤ l.taken + size

end Log

namespace Channel

inductive Pushing (α : Type) where
  | idle
  | called (a : α) (full : Bool)  -- `full`: there was no room when the call was made
  | pushed

inductive Popping (α : Type) where
  | idle
  | called (empty : Bool)
  | took (a : α)

structure State (α : Type) where
  log : Log α
  pushing : Pushing α
  popping : Popping α

def start {α : Type} : State α := ⟨Log.empty, .idle, .idle⟩

/-- The calls and what they return. A pop that succeeds returns a pointer, which might be null. -/
inductive Call (α : Type) where
  | callPush (a : α)
  | returnPush (ok : Bool)
  | callPop
  | returnPop (r : Option (Option α))
  deriving DecidableEq

def Call.starts {α : Type} : Call α → Bool
  | .callPush _ | .callPop => true
  | _ => false

inductive Event (α : Type) where
  | call (c : Call α)
  | push (a : α)
  | pop (a : α)

def Event.call? {α : Type} : Event α → Option (Call α)
  | .call c => some c
  | _ => none

variable {α : Type} (capacity : Option Nat)

inductive Step : State α → Event α → State α → Prop
  | callPush {s : State α} (a : α) (hidle : s.pushing = .idle) :
      Step s (.call (.callPush a)) { s with pushing := .called a (s.log.full capacity) }
  | push {s : State α} {a : α} {full : Bool} (hcalled : s.pushing = .called a full)
      (hroom : s.log.full capacity = false) :
      Step s (.push a) { s with log := s.log.push a, pushing := .pushed }
  | returnPush {s : State α} (hpushed : s.pushing = .pushed) :
      Step s (.call (.returnPush true)) { s with pushing := .idle }
  | refusePush {s : State α} {a : α} (hcalled : s.pushing = .called a true) :
      Step s (.call (.returnPush false)) { s with pushing := .idle }
  | callPop {s : State α} (hidle : s.popping = .idle) :
      Step s (.call .callPop) { s with popping := .called s.log.items.isEmpty }
  | pop {s : State α} {a : α} {empty : Bool} (hcalled : s.popping = .called empty)
      (hnext : s.log.pushed[s.log.taken]? = some a) :
      Step s (.pop a) { s with log := s.log.take, popping := .took a }
  | returnPop {s : State α} {a : α} (htook : s.popping = .took a) :
      Step s (.call (.returnPop (some (some a)))) { s with popping := .idle }
  | refusePop {s : State α} (hcalled : s.popping = .called true) :
      Step s (.call (.returnPop none)) { s with popping := .idle }

abbrev History (evs : List (Event α)) (s : State α) : Prop := Run (Step capacity) start evs s

def calls (evs : List (Event α)) : List (Call α) := evs.filterMap Event.call?

/-- One more call: the items whose push has returned `true` so far, and the one whose push has not
returned yet. -/
def accept (pushes : List α × Option α) : Call α → List α × Option α
  | .callPush a => (pushes.1, some a)
  | .returnPush true => (pushes.1 ++ pushes.2.toList, none)
  | .returnPush false => (pushes.1, none)
  | _ => pushes

def pushes (calls : List (Call α)) : List α × Option α := calls.foldl accept ([], none)

def returnedPops (calls : List (Call α)) : List α := calls.filterMap fun
  | .returnPop (some r) => r
  | _ => none

/-- What a thread in this state has in common with the calls it has made. -/
def Pushing.Agrees (pushed : List α) (pushes : List α × Option α) : Pushing α → Prop
  | .idle => pushed = pushes.1 ∧ pushes.2 = none
  | .called a _ => pushed = pushes.1 ∧ pushes.2 = some a
  | .pushed => pushed = pushes.1 ++ pushes.2.toList

def Popping.inHand : Popping α → List α
  | .took a => [a]
  | _ => []

section Runs

variable {capacity} {evs : List (Event α)} {s s' : State α} {e : Event α}

@[simp] theorem calls_call (c : Call α) : calls [.call c] = [c] := rfl

@[simp] theorem calls_push (a : α) : calls [.push a] = [] := rfl

@[simp] theorem calls_pop (a : α) : calls [.pop a] = [] := rfl

theorem calls_append (evs evs' : List (Event α)) : calls (evs ++ evs') = calls evs ++ calls evs' :=
  List.filterMap_append ..

theorem pushes_append (cs cs' : List (Call α)) : pushes (cs ++ cs') = cs'.foldl accept (pushes cs) :=
  List.foldl_append ..

theorem returnedPops_append (cs cs' : List (Call α)) : returnedPops (cs ++ cs') = returnedPops cs ++ returnedPops cs' :=
  List.filterMap_append ..

theorem taken_le (hrun : History capacity evs s) : s.log.taken ≤ s.log.pushed.length := by
  refine hrun.invariant (motive := fun _ s => s.log.taken ≤ s.log.pushed.length) (Nat.le_refl _) ?_
  intro evs s e s' _ hle hstep
  cases hstep with
  | push _ _ => simpa [Log.push] using Nat.le_succ_of_le hle
  | pop _ hnext => exact (List.getElem?_eq_some_iff.mp hnext).1
  | _ => exact hle

/-- The pops have returned what has been taken, in the order in which it has been pushed. -/
theorem returnedPops_eq (hrun : History capacity evs s) :
    returnedPops (calls evs) ++ s.popping.inHand = s.log.pushed.take s.log.taken := by
  refine hrun.invariant (motive := fun evs (s : State α) =>
    returnedPops (calls evs) ++ s.popping.inHand = s.log.pushed.take s.log.taken) rfl ?_
  intro evs s e s' hrun heq hstep
  rw [calls_append, returnedPops_append]
  cases hstep with
  | callPush a hidle => simpa [returnedPops] using heq
  | push hcalled hroom =>
    rw [Log.push, List.take_append_of_le_length (taken_le hrun)]
    simpa [returnedPops] using heq
  | returnPush hpushed => simpa [returnedPops] using heq
  | refusePush hcalled => simpa [returnedPops] using heq
  | callPop hidle =>
    rw [hidle] at heq
    simpa [returnedPops, Popping.inHand] using heq
  | @pop a empty hcalled hnext =>
    rw [hcalled] at heq
    rw [Log.take, List.take_add_one, hnext, ← heq]
    simp [returnedPops, Popping.inHand]
  | returnPop htook =>
    rw [htook] at heq
    simpa [returnedPops, Popping.inHand] using heq
  | refusePop hcalled =>
    rw [hcalled] at heq
    simpa [returnedPops, Popping.inHand] using heq

theorem pushing_agrees (hrun : History capacity evs s) : s.pushing.Agrees s.log.pushed (pushes (calls evs)) := by
  have hstart : (start (α := α)).pushing.Agrees start.log.pushed (pushes (calls [])) := ⟨rfl, rfl⟩
  refine hrun.invariant (motive := fun evs (s : State α) => s.pushing.Agrees s.log.pushed (pushes (calls evs)))
    hstart ?_
  intro evs s e s' _ hagrees hstep
  rw [calls_append, pushes_append]
  cases hstep with
  | callPush a hidle =>
    rw [hidle] at hagrees
    exact ⟨hagrees.1, rfl⟩
  | @push a full hcalled hroom =>
    rw [hcalled] at hagrees
    change s.log.pushed ++ [a] = (pushes (calls evs)).1 ++ (pushes (calls evs)).2.toList
    rw [hagrees.1, hagrees.2, Option.toList_some]
  | returnPush hpushed =>
    rw [hpushed] at hagrees
    exact ⟨hagrees, rfl⟩
  | refusePush hcalled =>
    rw [hcalled] at hagrees
    exact ⟨hagrees.1, rfl⟩
  | _ => exact hagrees

/-- First in, first out: what the pops have returned is the beginning of what the pushes have been
accepted with, and nothing else but the item of a push under way. -/
theorem returnedPops_isPrefix (hrun : History capacity evs s) :
    returnedPops (calls evs) <+: (pushes (calls evs)).1 ++ (pushes (calls evs)).2.toList := by
  have hpops : returnedPops (calls evs) <+: s.log.pushed :=
    (List.prefix_append _ _).trans (returnedPops_eq hrun ▸ List.take_prefix _ _)
  refine hpops.trans ?_
  have hagrees := pushing_agrees hrun
  cases hpushing : s.pushing with
  | pushed =>
    rw [hpushing] at hagrees
    exact ⟨[], (List.append_nil _).trans hagrees⟩
  | _ =>
    rw [hpushing] at hagrees
    rw [hagrees.1]
    exact List.prefix_append _ _

end Runs

end Channel

/-- An implementation of a channel. -/
structure ChannelCode (σ α : Type) where
  start : σ
  push : α → Prog σ Bool
  pop : Prog σ (Option (Option α))

namespace ChannelCode

variable {σ α : Type}

structure State (σ α : Type) where
  mem : σ
  pushing : Option (Prog σ Bool)
  popping : Option (Prog σ (Option (Option α)))

inductive Event (α : Type) where
  | call (c : Channel.Call α)
  | pushAccess
  | popAccess

def Event.call? : Event α → Option (Channel.Call α)
  | .call c => some c
  | _ => none

inductive Step (code : ChannelCode σ α) : State σ α → Event α → State σ α → Prop
  | callPush {s : State σ α} (a : α) (hidle : s.pushing = none) :
      Step code s (.call (.callPush a)) { s with pushing := some (code.push a) }
  | pushAccess {s : State σ α} {f : σ → σ} {next : σ → Prog σ Bool} (hpushing : s.pushing = some (.access f next)) :
      Step code s .pushAccess { s with mem := f s.mem, pushing := some (next s.mem) }
  | returnPush {s : State σ α} {ok : Bool} (hpushing : s.pushing = some (.done ok)) :
      Step code s (.call (.returnPush ok)) { s with pushing := none }
  | callPop {s : State σ α} (hidle : s.popping = none) :
      Step code s (.call .callPop) { s with popping := some code.pop }
  | popAccess {s : State σ α} {f : σ → σ} {next : σ → Prog σ (Option (Option α))}
      (hpopping : s.popping = some (.access f next)) :
      Step code s .popAccess { s with mem := f s.mem, popping := some (next s.mem) }
  | returnPop {s : State σ α} {r : Option (Option α)} (hpopping : s.popping = some (.done r)) :
      Step code s (.call (.returnPop r)) { s with popping := none }

def calls (evs : List (Event α)) : List (Channel.Call α) := evs.filterMap Event.call?

abbrev History (code : ChannelCode σ α) (evs : List (Event α)) (s : State σ α) : Prop :=
  Run (Step code) ⟨code.start, none, none⟩ evs s

def Event.isAccess : Event α → Bool
  | .call _ => false
  | _ => true

/-- A thread that is in no call, or has at most `n` accesses to make until it returns. -/
def Left {ρ : Type} (n : Nat) (p : Option (Prog σ ρ)) : Prop := ∀ q ∈ p, q.Within n

theorem left_none {ρ : Type} : Left 0 (none : Option (Prog σ ρ)) := by
  simp [Left]

theorem left_some {ρ : Type} {n : Nat} {p : Prog σ ρ} (hp : p.Within n) : Left n (some p) := by
  simpa [Left] using hp

theorem Left.access {ρ : Type} {n : Nat} {f : σ → σ} {next : σ → Prog σ ρ} (hleft : Left n (some (.access f next)))
    (m : σ) : ∃ k, n = k + 1 ∧ Left k (some (next m)) := by
  cases hleft _ rfl with
  | @access k _ _ hnext => exact ⟨k, rfl, left_some (hnext m)⟩

/-- No call waits for the other thread. -/
theorem accesses_le {code : ChannelCode σ α} {bound : Nat} (hpush : ∀ a, (code.push a).Within bound)
    (hpop : code.pop.Within bound) {evs : List (Event α)} {s : State σ α} (hrun : code.History evs s) :
    evs.countP Event.isAccess ≤ bound * (calls evs).countP Channel.Call.starts := by
  suffices ∃ n m, Left n s.pushing ∧ Left m s.popping ∧
      evs.countP Event.isAccess + n + m ≤ bound * (calls evs).countP Channel.Call.starts by
    obtain ⟨n, m, -, -, hle⟩ := this
    omega
  refine hrun.invariant (motive := fun evs s => ∃ n m, Left n s.pushing ∧ Left m s.popping ∧
    evs.countP Event.isAccess + n + m ≤ bound * (calls evs).countP Channel.Call.starts)
    ⟨0, 0, left_none, left_none, Nat.zero_le _⟩ ?_
  rintro evs s e s' - ⟨n, m, hpushing, hpopping, hle⟩ hstep
  rw [calls, List.filterMap_append, List.countP_append, List.countP_append, ← calls, Nat.mul_add]
  -- The step adds so many accesses, and so many calls that begin.
  suffices ∃ n' m', Left n' s'.pushing ∧ Left m' s'.popping ∧
      [e].countP Event.isAccess + n' + m' ≤ n + m + bound * ([e].filterMap Event.call?).countP Channel.Call.starts by
    obtain ⟨n', m', hpushing', hpopping', hstep'⟩ := this
    exact ⟨n', m', hpushing', hpopping', by omega⟩
  cases hstep with
  | callPush a hidle =>
    refine ⟨bound, m, left_some (hpush a), hpopping, ?_⟩
    change 0 + bound + m ≤ n + m + bound * 1
    omega
  | pushAccess hcode =>
    rw [hcode] at hpushing
    obtain ⟨k, rfl, hleft⟩ := hpushing.access s.mem
    exact ⟨k, m, hleft, hpopping, (show 1 + k + m ≤ k + 1 + m by omega)⟩
  | returnPush hcode => exact ⟨0, m, left_none, hpopping, (show 0 + 0 + m ≤ n + m by omega)⟩
  | callPop hidle =>
    refine ⟨n, bound, hpushing, left_some hpop, ?_⟩
    change 0 + n + bound ≤ n + m + bound * 1
    omega
  | popAccess hcode =>
    rw [hcode] at hpopping
    obtain ⟨k, rfl, hleft⟩ := hpopping.access s.mem
    exact ⟨n, k, hpushing, hleft, (show 1 + n + k ≤ n + (k + 1) by omega)⟩
  | returnPop hcode => exact ⟨n, 0, hpushing, left_none, (show 0 + n + 0 ≤ n + m by omega)⟩

end ChannelCode

/-! ### What the two threads count on -/

inductive Side where
  | producer
  | consumer

/-- A memory with the log of the channel that it implements. -/
structure View (σ α : Type) where
  mem : σ
  log : Log α

/-- `ready` holds of the memory as far as it concerns a thread that is in no call, and `keeps` says what
the other leaves of it. -/
structure Contract (σ α : Type) where
  capacity : Option Nat
  inv : View σ α → Prop
  ready : Side → View σ α → Prop
  keeps : Side → View σ α → View σ α → Prop
  keeps_refl : ∀ side e, keeps side e e
  keeps_trans : ∀ side e e' e'', keeps side e e' → keeps side e' e'' → keeps side e e''

namespace Contract

variable {σ α : Type} (c : Contract σ α)

def Inv (e : View σ α) : Prop := e.log.Within c.capacity ∧ c.inv e

/-- What the steps of the other thread do to the log. -/
def Moved : Side → Log α → Log α → Prop
  | .producer, l, l' => l'.pushed = l.pushed ∧ l.taken ≤ l'.taken
  | .consumer, l, l' => l'.taken = l.taken ∧ l.pushed <+: l'.pushed

theorem moved_refl (side : Side) (l : Log α) : Moved side l l := by
  cases side with
  | producer => exact ⟨rfl, Nat.le_refl _⟩
  | consumer => exact ⟨rfl, List.prefix_refl _⟩

theorem moved_trans {side : Side} {l l' l'' : Log α} (h : Moved side l l') (h' : Moved side l' l'') :
    Moved side l l'' := by
  cases side with
  | producer => exact ⟨h'.1.trans h.1, Nat.le_trans h.2 h'.2⟩
  | consumer => exact ⟨h'.1.trans h.1, h.2.trans h'.2⟩

def rely (side : Side) : Rely σ (View σ α) where
  mem := View.mem
  inv := c.Inv
  keeps e e' := c.keeps side e e' ∧ Moved side e.log e'.log
  refl e := ⟨c.keeps_refl side e, moved_refl side e.log⟩
  trans e e' e'' h h' := ⟨c.keeps_trans side e e' e'' h.1 h'.1, moved_trans h.2 h'.2⟩

/-- The accesses of a push of `a`, called when `pushed` had been pushed. -/
def Pushes (a : α) (pushed : List α) (e e' : View σ α) : Prop :=
  c.keeps .consumer e e' ∧ (e'.log = e.log ∨ e.log.pushed = pushed ∧ e'.log = e.log.push a)

/-- The accesses of a pop, called when `taken` items had been taken. -/
def Pops (taken : Nat) (e e' : View σ α) : Prop :=
  c.keeps .producer e e' ∧ (e'.log = e.log ∨ e.log.taken = taken ∧ e'.log = e.log.take)

def Pushed (a : α) (before : Log α) (ok : Bool) (e : View σ α) : Prop :=
  c.ready .producer e ∧ if ok then e.log.pushed = before.pushed ++ [a]
    else e.log.pushed = before.pushed ∧ before.full c.capacity = true

def Popped (before : Log α) (r : Option (Option α)) (e : View σ α) : Prop :=
  c.ready .consumer e ∧ match r with
    | some v => ∃ a, v = some a ∧ e.log.pushed[before.taken]? = some a ∧ e.log.taken = before.taken + 1
    | none => e.log.taken = before.taken ∧ before.items = []

/-- The code does what a channel does, as far as one thread can tell that counts on the other. -/
structure Implements (code : ChannelCode σ α) : Prop where
  start : c.Inv ⟨code.start, Log.empty⟩ ∧ ∀ side, c.ready side ⟨code.start, Log.empty⟩
  ready_kept : ∀ side e e', c.Inv e → c.Inv e' → c.ready side e → (c.rely side).keeps e e' → c.ready side e'
  push : ∀ a e, c.Inv e → c.ready .producer e →
    (c.rely .producer).Meets (c.Pushes a e.log.pushed) (c.Pushed a e.log) (code.push a) e
  pop : ∀ e, c.Inv e → c.ready .consumer e →
    (c.rely .consumer).Meets (c.Pops e.log.taken) (c.Popped e.log) code.pop e

variable {c} {code : ChannelCode σ α}

/-- A thread that pushes, beside the channel that it acts on. -/
def PushSim (c : Contract σ α) (e : View σ α) : Option (Prog σ Bool) → Channel.Pushing α → Prop
  | none, state => state = .idle ∧ c.ready .producer e
  | some p, state => ∃ a before, (c.rely .producer).Meets (c.Pushes a before.pushed) (c.Pushed a before) p e ∧
      (state = .called a (before.full c.capacity) ∧ e.log.pushed = before.pushed ∨
        state = .pushed ∧ e.log.pushed = before.pushed ++ [a])

def PopSim (c : Contract σ α) (e : View σ α) : Option (Prog σ (Option (Option α))) → Channel.Popping α → Prop
  | none, state => state = .idle ∧ c.ready .consumer e
  | some p, state => ∃ before, (c.rely .consumer).Meets (c.Pops before.taken) (c.Popped before) p e ∧
      (state = .called before.items.isEmpty ∧ e.log.taken = before.taken ∨
        ∃ a, state = .took a ∧ e.log.pushed[before.taken]? = some a ∧ e.log.taken = before.taken + 1)

structure Sim (c : Contract σ α) (s : ChannelCode.State σ α) (t : Channel.State α) (e : View σ α) : Prop where
  mem : e.mem = s.mem
  log : t.log = e.log
  inv : c.Inv e
  push : PushSim c e s.pushing t.pushing
  pop : PopSim c e s.popping t.popping

theorem PushSim.after {e e' : View σ α} {p : Option (Prog σ Bool)} {state : Channel.Pushing α}
    (himpl : c.Implements code) (hinv : c.Inv e) (hinv' : c.Inv e') (hkeeps : (c.rely .producer).keeps e e')
    (hsim : PushSim c e p state) : PushSim c e' p state := by
  cases p with
  | none => exact ⟨hsim.1, himpl.ready_kept .producer e e' hinv hinv' hsim.2 hkeeps⟩
  | some p =>
    obtain ⟨a, before, hmeets, hstate⟩ := hsim
    refine ⟨a, before, hmeets.after hkeeps, ?_⟩
    rw [hkeeps.2.1]
    exact hstate

theorem PopSim.after {e e' : View σ α} {p : Option (Prog σ (Option (Option α)))} {state : Channel.Popping α}
    (himpl : c.Implements code) (hinv : c.Inv e) (hinv' : c.Inv e') (hkeeps : (c.rely .consumer).keeps e e')
    (hsim : PopSim c e p state) : PopSim c e' p state := by
  cases p with
  | none => exact ⟨hsim.1, himpl.ready_kept .consumer e e' hinv hinv' hsim.2 hkeeps⟩
  | some p =>
    obtain ⟨before, hmeets, hstate⟩ := hsim
    refine ⟨before, hmeets.after hkeeps, ?_⟩
    rw [hkeeps.2.1]
    exact hstate.imp_right fun ⟨a, htook, hnext, htaken⟩ => ⟨a, htook, item_kept hkeeps.2.2 hnext, htaken⟩

theorem Pushes.keeps {a : α} {pushed : List α} {e e' : View σ α} (hpushes : c.Pushes a pushed e e') :
    (c.rely .consumer).keeps e e' := by
  refine ⟨hpushes.1, ?_⟩
  rcases hpushes.2 with hlog | ⟨-, hlog⟩
  · exact hlog ▸ moved_refl .consumer _
  · rw [hlog]
    exact ⟨rfl, List.prefix_append _ _⟩

theorem Pops.keeps {taken : Nat} {e e' : View σ α} (hpops : c.Pops taken e e') : (c.rely .producer).keeps e e' := by
  refine ⟨hpops.1, ?_⟩
  rcases hpops.2 with hlog | ⟨-, hlog⟩
  · exact hlog ▸ moved_refl .producer _
  · rw [hlog]
    exact ⟨rfl, Nat.le_succ _⟩

/-- There was room for what has been pushed. -/
theorem full_of_within_push {capacity : Option Nat} {l : Log α} {a : α} (hl : l.taken ≤ l.pushed.length)
    (h : (l.push a).Within capacity) : l.full capacity = false := by
  cases capacity with
  | none => rfl
  | some size =>
    have := h.pushed_le size rfl
    simp only [Log.push, List.length_append, List.length_singleton] at this
    simp only [Log.full, Log.items, Option.any_some, List.length_drop, decide_eq_false_iff_not]
    omega

theorem sim_step (himpl : c.Implements code) {s s' : ChannelCode.State σ α} {t : Channel.State α} {e : View σ α}
    {ev : ChannelCode.Event α} (hsim : Sim c s t e) (hstep : code.Step s ev s') :
    ∃ evs t' e', (∀ evs₀, Channel.History c.capacity evs₀ t → Channel.History c.capacity (evs₀ ++ evs) t') ∧
      Channel.calls evs = ev.call?.toList ∧ Sim c s' t' e' := by
  obtain ⟨hmem, hlog, hinv, hpush, hpop⟩ := hsim
  cases hstep with
  | callPush a hidle =>
    rw [hidle] at hpush
    refine ⟨[.call (.callPush a)], _, e, fun _ hrun => hrun.snoc (.callPush a hpush.1), rfl, hmem, hlog, hinv, ?_, hpop⟩
    exact ⟨a, e.log, himpl.push a e hinv hpush.2, Or.inl ⟨by rw [hlog], rfl⟩⟩
  | @pushAccess f next hpushing =>
    rw [hpushing] at hpush
    obtain ⟨a, before, hmeets, hstate⟩ := hpush
    obtain ⟨e', hmem', hinv', hpushes, hnext⟩ := hmeets e hinv ((c.rely .producer).refl e)
    have hpop' := hpop.after himpl hinv hinv' hpushes.keeps
    have hmem'' : e'.mem = f s.mem := hmem ▸ hmem'
    rw [show (c.rely .producer).mem e = s.mem from hmem] at hnext
    rcases hpushes.2 with hsame | ⟨hbefore, hpushed⟩
    · refine ⟨[], t, e', fun _ hrun => by simpa using hrun, rfl, hmem'', hlog.trans hsame.symm, hinv', ?_, hpop'⟩
      exact ⟨a, before, hnext, by rw [hsame]; exact hstate⟩
    · have hcalled := hstate.resolve_right fun h => by simp [hbefore] at h
      have hroom : t.log.full c.capacity = false := by
        rw [hlog]
        exact full_of_within_push hinv.1.taken_le (hpushed ▸ hinv'.1)
      refine ⟨[.push a], _, e', fun _ hrun => hrun.snoc (.push hcalled.1 hroom), rfl, hmem'', ?_, hinv', ?_, hpop'⟩
      · rw [hpushed, hlog]
      · refine ⟨a, before, hnext, Or.inr ⟨rfl, ?_⟩⟩
        rw [hpushed, Log.push, hbefore]
  | @returnPush ok hpushing =>
    rw [hpushing] at hpush
    obtain ⟨a, before, hmeets, hstate⟩ := hpush
    obtain ⟨hready, hpost⟩ := hmeets e hinv ((c.rely .producer).refl e)
    cases ok with
    | true =>
      rw [if_pos rfl] at hpost
      have hpushed := hstate.resolve_left fun h => by simp [hpost] at h
      exact ⟨[.call (.returnPush true)], _, e, fun _ hrun => hrun.snoc (.returnPush hpushed.1), rfl, hmem, hlog, hinv,
        ⟨rfl, hready⟩, hpop⟩
    | false =>
      rw [if_neg Bool.false_ne_true] at hpost
      have hcalled := hstate.resolve_right fun h => by simp [hpost.1] at h
      rw [hpost.2] at hcalled
      exact ⟨[.call (.returnPush false)], _, e, fun _ hrun => hrun.snoc (.refusePush hcalled.1), rfl, hmem, hlog, hinv,
        ⟨rfl, hready⟩, hpop⟩
  | callPop hidle =>
    rw [hidle] at hpop
    refine ⟨[.call .callPop], _, e, fun _ hrun => hrun.snoc (.callPop hpop.1), rfl, hmem, hlog, hinv, hpush, ?_⟩
    exact ⟨e.log, himpl.pop e hinv hpop.2, Or.inl ⟨by rw [hlog], rfl⟩⟩
  | @popAccess f next hpopping =>
    rw [hpopping] at hpop
    obtain ⟨before, hmeets, hstate⟩ := hpop
    obtain ⟨e', hmem', hinv', hpops, hnext⟩ := hmeets e hinv ((c.rely .consumer).refl e)
    have hpush' := hpush.after himpl hinv hinv' hpops.keeps
    have hmem'' : e'.mem = f s.mem := hmem ▸ hmem'
    rw [show (c.rely .consumer).mem e = s.mem from hmem] at hnext
    rcases hpops.2 with hsame | ⟨hbefore, htaken⟩
    · refine ⟨[], t, e', fun _ hrun => by simpa using hrun, rfl, hmem'', hlog.trans hsame.symm, hinv', hpush', ?_⟩
      exact ⟨before, hnext, by rw [hsame]; exact hstate⟩
    · have hcalled := hstate.resolve_right fun ⟨_, _, _, h⟩ => by omega
      have hlt : e.log.taken < e.log.pushed.length := by
        have := hinv'.1.taken_le
        rw [htaken] at this
        exact this
      have ha : e.log.pushed[e.log.taken]? = some e.log.pushed[e.log.taken] := List.getElem?_eq_getElem hlt
      have ht : t.log.pushed[t.log.taken]? = some e.log.pushed[e.log.taken] := by
        rw [hlog]
        exact ha
      refine ⟨[.pop _], _, e', fun _ hrun => hrun.snoc (.pop hcalled.1 ht), rfl, hmem'', ?_, hinv', hpush', ?_⟩
      · rw [htaken, hlog]
      · refine ⟨before, hnext, Or.inr ⟨_, rfl, ?_, ?_⟩⟩
        · rw [htaken, ← hbefore]
          exact ha
        · rw [htaken, Log.take, hbefore]
  | @returnPop r hpopping =>
    rw [hpopping] at hpop
    obtain ⟨before, hmeets, hstate⟩ := hpop
    obtain ⟨hready, hpost⟩ := hmeets e hinv ((c.rely .consumer).refl e)
    cases r with
    | some v =>
      obtain ⟨a, rfl, hnext, htaken⟩ := hpost
      obtain ⟨a', htook, hnext', -⟩ := hstate.resolve_left fun h => by omega
      obtain rfl : a' = a := Option.some.inj (hnext'.symm.trans hnext)
      exact ⟨[.call (.returnPop (some (some a')))], _, e, fun _ hrun => hrun.snoc (.returnPop htook), rfl, hmem, hlog,
        hinv, hpush, ⟨rfl, hready⟩⟩
    | none =>
      have hcalled := hstate.resolve_right fun ⟨_, _, _, h⟩ => by
        have := hpost.1
        omega
      rw [hpost.2] at hcalled
      exact ⟨[.call (.returnPop none)], _, e, fun _ hrun => hrun.snoc (.refusePop hcalled.1), rfl, hmem, hlog,
        hinv, hpush, ⟨rfl, hready⟩⟩

/-- Whatever the order in which the accesses of the two threads are made: their calls return what the
calls to a channel return. -/
theorem Implements.simulates (himpl : c.Implements code) {evs : List (ChannelCode.Event α)}
    {s : ChannelCode.State σ α} (hrun : code.History evs s) :
    ∃ evs' t e, Channel.History c.capacity evs' t ∧
      Channel.calls evs' = ChannelCode.calls evs ∧ Sim c s t e := by
  refine hrun.invariant (motive := fun evs s => ∃ evs' t e, Channel.History c.capacity evs' t ∧
    Channel.calls evs' = ChannelCode.calls evs ∧ Sim c s t e) ?_ ?_
  · obtain ⟨hinv, hready⟩ := himpl.start
    exact ⟨[], Channel.start, ⟨code.start, Log.empty⟩, .nil, rfl, rfl, rfl, hinv, ⟨rfl, hready .producer⟩,
      ⟨rfl, hready .consumer⟩⟩
  · intro evs s ev s' _ hbefore hstep
    obtain ⟨evs₀, t, e, hhistory, hcalls, hsim⟩ := hbefore
    obtain ⟨more, t', e', hmore, hcalls', hsim'⟩ := sim_step himpl hsim hstep
    refine ⟨evs₀ ++ more, t', e', hmore evs₀ hhistory, ?_, hsim'⟩
    rw [Channel.calls_append, hcalls, hcalls', ChannelCode.calls, ChannelCode.calls, List.filterMap_append]
    cases hcall : ev.call? <;> simp [hcall]

end Contract

end Process
