import ParallelWatermark.Pipeline

/-!
# What the threads of the plain C++ networks do

The stream `Source` pushes, what each thread makes of the items it pops, and what a whole worker
does: of a file name it makes one attempt to save the watermarked image, and the `"EOS"` string ends
it. The chain of three threads and the fused thread are the same worker in this sense, so what
follows is stated once, for any such worker.
-/

namespace ParallelWatermark

open Process

/-! ### The stream -/

/-- What `Source` pushes: the listing and one `"EOS"` more than there are workers, or just one for
each worker when the folder cannot be opened. -/
def stream (env : Env) (P : Nat) : List String :=
  match env.dir with
  | none => List.replicate P "EOS"
  | some _ => env.listing ++ List.replicate (P + 1) "EOS"

theorem source_yields_sendingEos (env : Env) (P left n : Nat) :
    (source env P).Yields ⟨.sendingEos left, n⟩ (List.replicate left "EOS") ⟨.returned, n⟩ := by
  induction left with
  | zero => exact .skip rfl (.halt rfl)
  | succ left ih => exact .emit rfl ih

/-- `Source` pushes the stream, and has counted the listing when it returns. -/
theorem source_yields (env : Env) (P : Nat) :
    (source env P).Yields (source env P).start (stream env P) (⟨.returned, env.listing.length⟩ : SourceState) := by
  have hfailed (hdir : env.dir = none) :
      (source env P).Yields (source env P).start (List.replicate P "EOS") (⟨.returned, 0⟩ : SourceState) :=
    .skip (by simp [source, sourceNext, hdir]) (source_yields_sendingEos env P P 0)
  have hyields := Emitter.Yields.of_opened env.dir (fun s => !isDots s) (source env P).start
    (fun entries n => (⟨.reading entries, n⟩ : SourceState)) (fun n => (⟨.returned, n⟩ : SourceState)) hfailed
    ?_ ?_ ?_ fun n => .skip rfl (source_yields_sendingEos env P (P + 1) n)
  · cases hdir : env.dir <;> simpa [stream, Env.listing, hdir] using hyields
  · intro entries hdir
    simp [source, sourceNext, hdir]
  · intro entry entries n hdots
    exact if_pos (by simpa using hdots)
  · intro entry entries n hdots
    exact if_neg (by simpa using hdots)

theorem countP_replicate_eos (n : Nat) : (List.replicate n "EOS").countP isEos = n := by
  simp [List.countP_replicate, isEos]

/-- Enough strings `"EOS"`, whether or not the folder can be opened. -/
theorem le_countP_eos (dir : Option (List String)) (names : List String) {P onFailure atEnd : Nat}
    (hfailure : P ≤ onFailure) (hend : P ≤ atEnd) :
    P ≤ (match dir with
      | none => List.replicate onFailure "EOS"
      | some _ => names ++ List.replicate atEnd "EOS").countP isEos := by
  cases dir with
  | none => exact hfailure.trans_eq (countP_replicate_eos onFailure).symm
  | some entries =>
    rw [List.countP_append, countP_replicate_eos]
    omega

theorem le_countP_stream (env : Env) (P : Nat) : P ≤ (stream env P).countP isEos :=
  le_countP_eos env.dir env.listing (Nat.le_refl P) (Nat.le_succ P)

/-! ### The steps of a thread that reads the folder -/

/-- What one step can do: `onFailure` is the number of `"EOS"` to push when the folder cannot be
opened, `atEnd` the number to push after the loop. -/
inductive SourcePc.Moves (dir : Option (List String)) (onFailure atEnd : Nat) :
    SourcePc → Option String → SourcePc → Prop
  | failed (hdir : dir = none) : Moves dir onFailure atEnd .opening none (.sendingEos onFailure)
  | opened {entries : List String} (hdir : dir = some entries) :
      Moves dir onFailure atEnd .opening none (.reading entries)
  | skipped (entry : String) (entries : List String) :
      Moves dir onFailure atEnd (.reading (entry :: entries)) none (.reading entries)
  | pushed (entry : String) (entries : List String) :
      Moves dir onFailure atEnd (.reading (entry :: entries)) (some entry) (.reading entries)
  | ended (entries : List String) : Moves dir onFailure atEnd (.reading entries) none (.sendingEos atEnd)
  | sent (left : Nat) : Moves dir onFailure atEnd (.sendingEos (left + 1)) (some "EOS") (.sendingEos left)
  | done : Moves dir onFailure atEnd (.sendingEos 0) none .returned

/-- Units such a thread still has to spend, when each item it pushes takes `c` away and it pushes at
most `budget` strings `"EOS"`. -/
def SourcePc.rank (dir : Option (List String)) (budget atEnd c : Nat) : SourcePc → Nat
  | .opening => (c + 1) * (dir.getD []).length + (c + 1) * budget + 3
  | .reading entries => (c + 1) * entries.length + (c + 1) * atEnd + 2
  | .sendingEos left => (c + 1) * left + 1
  | .returned => 0

theorem SourcePc.Moves.rank_lt {dir : Option (List String)} {onFailure atEnd budget : Nat} (c : Nat)
    {pc pc' : SourcePc} {out : Option String} (hmoves : Moves dir onFailure atEnd pc out pc')
    (hfailure : onFailure ≤ budget) (hend : atEnd ≤ budget) :
    pc'.rank dir budget atEnd c + (out.elim 0 fun _ => c) < pc.rank dir budget atEnd c := by
  have hfailure' : (c + 1) * onFailure ≤ (c + 1) * budget := Nat.mul_le_mul_left _ hfailure
  have hend' : (c + 1) * atEnd ≤ (c + 1) * budget := Nat.mul_le_mul_left _ hend
  cases hmoves with
  | failed hdir =>
    simp only [SourcePc.rank, Option.elim_none]
    omega
  | opened hdir =>
    simp only [SourcePc.rank, hdir, Option.getD_some, Option.elim_none]
    omega
  | skipped entry entries =>
    simp only [SourcePc.rank, List.length_cons, Nat.mul_add, Option.elim_none]
    omega
  | pushed entry entries =>
    simp only [SourcePc.rank, List.length_cons, Nat.mul_add, Option.elim_some]
    omega
  | ended entries =>
    simp only [SourcePc.rank, Option.elim_none]
    omega
  | sent left =>
    simp only [SourcePc.rank, Nat.mul_add, Option.elim_some]
    omega
  | done => simp [SourcePc.rank]

theorem sourceNext_moves {env : Env} {P : Nat} {s s' : SourceState} {out : Option String}
    (hnext : sourceNext env P s = some (out, s')) : SourcePc.Moves env.dir P (P + 1) s.pc out s'.pc := by
  obtain ⟨pc, n⟩ := s
  cases pc with
  | opening =>
    cases hdir : env.dir with
    | none =>
      obtain ⟨rfl, rfl⟩ : none = out ∧ _ = s' := by simpa [sourceNext, hdir] using hnext
      exact .failed rfl
    | some entries =>
      obtain ⟨rfl, rfl⟩ : none = out ∧ _ = s' := by simpa [sourceNext, hdir] using hnext
      exact .opened rfl
  | reading entries =>
    cases entries with
    | nil =>
      obtain ⟨rfl, rfl⟩ : none = out ∧ _ = s' := by simpa [sourceNext] using hnext
      exact .ended []
    | cons entry entries =>
      cases hdots : isDots entry with
      | true =>
        obtain ⟨rfl, rfl⟩ : none = out ∧ _ = s' := by simpa [sourceNext, hdots] using hnext
        exact .skipped entry entries
      | false =>
        obtain ⟨rfl, rfl⟩ : some entry = out ∧ _ = s' := by simpa [sourceNext, hdots] using hnext
        exact .pushed entry entries
  | sendingEos left =>
    cases left with
    | zero =>
      obtain ⟨rfl, rfl⟩ : none = out ∧ _ = s' := by simpa [sourceNext] using hnext
      exact .done
    | succ left =>
      obtain ⟨rfl, rfl⟩ : some "EOS" = out ∧ _ = s' := by simpa [sourceNext] using hnext
      exact .sent left
  | returned => simp [sourceNext] at hnext

/-- Units `Source` still has to spend, when each item it pushes takes `c` away. -/
def sourceRank (env : Env) (P c : Nat) (s : SourceState) : Nat := s.pc.rank env.dir (P + 1) (P + 1) c

theorem sourceRank_lt {env : Env} {P : Nat} (c : Nat) {s s' : SourceState} {out : Option String}
    (hnext : sourceNext env P s = some (out, s')) :
    sourceRank env P c s' + (out.elim 0 fun _ => c) < sourceRank env P c s :=
  (sourceNext_moves hnext).rank_lt c (Nat.le_succ P) (Nat.le_refl _)

theorem source_ranked (env : Env) (P c : Nat) : (source env P).Ranked c (sourceRank env P c) :=
  fun _ _ _ hnext => sourceRank_lt c hnext

/-! ### The threads of a worker -/

@[simp] theorem isEos_eos : isEos "EOS" = true := rfl

/-- The pair `stage1` pushes when it returns. -/
def eosPair : Pair := ("EOS", Img.empty)

/-- The pair `stage1` pushes for a name it has popped; none where the file does not load. -/
def loadPair (env : Env) (name : String) : Option Pair :=
  if isEos name then some eosPair else (env.load (env.pathIn ++ name)).map fun img => (name, img)

/-- The pair `stage2` pushes for the one it has popped. -/
def markPair (env : Env) (p : Pair) : Pair :=
  if isEos p.1 then p else (p.1, pipeProcessImage p.2 env.watermark env.aVg)

/-- The attempt to save that `stage3` makes of a pair. -/
def savePair (env : Env) (p : Pair) : Option Save :=
  if isEos p.1 then none else some ⟨env.pathOut ++ p.1, p.2⟩

@[simp] theorem markPair_fst (env : Env) (p : Pair) : (markPair env p).1 = p.1 := by
  cases heos : isEos p.1 <;> simp [markPair, heos]

section Bodies

variable (env : Env)

theorem isLast_stage1 : Loop.isLast (stage1Body env) = isEos := by
  funext name
  cases heos : isEos name with
  | true => simp [Loop.isLast, stage1Body, heos, Outcome.stops]
  | false => cases hload : env.load (env.pathIn ++ name) <;> simp [Loop.isLast, stage1Body, heos, hload, Outcome.stops]

theorem output_stage1 : Loop.output (stage1Body env) = loadPair env := by
  funext name
  cases heos : isEos name with
  | true => simp [Loop.output, stage1Body, heos, Outcome.out, loadPair, eosPair]
  | false =>
    cases hload : env.load (env.pathIn ++ name) <;>
      simp [Loop.output, stage1Body, heos, hload, Outcome.out, loadPair]

/-- The items that do not make `stage1` throw. -/
def loads (name : String) : Bool := isEos name || (env.load (env.pathIn ++ name)).isSome

theorem accepts_stage1 : Loop.accepts (stage1Body env) = loads env := by
  funext name
  cases heos : isEos name with
  | true => simp [Loop.accepts, stage1Body, loads, heos, Outcome.succeeds]
  | false =>
    cases hload : env.load (env.pathIn ++ name) <;>
      simp [Loop.accepts, stage1Body, loads, heos, hload, Outcome.succeeds]

theorem isLast_stage2 : Loop.isLast (stage2Body env) = fun p => isEos p.1 := by
  funext p
  cases heos : isEos p.1 <;> simp [Loop.isLast, stage2Body, heos, Outcome.stops]

theorem output_stage2 : Loop.output (stage2Body env) = fun p => some (markPair env p) := by
  funext p
  cases heos : isEos p.1 <;> simp [Loop.output, stage2Body, heos, Outcome.out, markPair]

theorem accepts_stage2 : Loop.accepts (stage2Body env) = fun _ => true := by
  funext p
  cases heos : isEos p.1 <;> simp [Loop.accepts, stage2Body, heos, Outcome.succeeds]

theorem isLast_stage3 : Loop.isLast (stage3Body env) = fun p => isEos p.1 := by
  funext p
  cases heos : isEos p.1 <;> simp [Loop.isLast, stage3Body, heos, Outcome.stops]

theorem output_stage3 : Loop.output (stage3Body env) = savePair env := by
  funext p
  cases heos : isEos p.1 <;> simp [Loop.output, stage3Body, heos, Outcome.out, savePair]

theorem accepts_stage3 : Loop.accepts (stage3Body env) = fun _ => true := by
  funext p
  cases heos : isEos p.1 <;> simp [Loop.accepts, stage3Body, heos, Outcome.succeeds]

theorem stage1_spec : (stage1 env).Spec isEos (loadPair env) (loads env) := by
  have hspec := Loop.spec (stage1Body env)
  rwa [isLast_stage1, output_stage1, accepts_stage1] at hspec

theorem stage2_spec : (stage2 env).Spec (fun p => isEos p.1) (fun p => some (markPair env p)) (fun _ => true) := by
  have hspec := Loop.spec (stage2Body env)
  rwa [isLast_stage2, output_stage2, accepts_stage2] at hspec

theorem stage3_spec : (stage3 env).Spec (fun p => isEos p.1) (savePair env) (fun _ => true) := by
  have hspec := Loop.spec (stage3Body env)
  rwa [isLast_stage3, output_stage3, accepts_stage3] at hspec

end Bodies

/-! ### The workers -/

/-- The attempt to save that a worker makes of an item: none for `"EOS"` and for a file that does
not load. -/
def attempt (env : Env) (name : String) : Option Save :=
  if isEos name then none
  else (env.load (env.pathIn ++ name)).map fun img => savedAs env name img

/-- A worker that makes of its items what `cpp_watermark` makes of them. -/
abbrev IsWorker {τ : Type} (env : Env) (C : Component String Save τ) : Prop :=
  C.Spec isEos (attempt env) (loads env)

theorem forwards_stage1 (env : Env) :
    Chain.Forwards isEos (loadPair env) (fun p : Pair => isEos p.1) where
  token name heos := ⟨eosPair, by simp [loadPair, heos], by simp [eosPair]⟩
  data name p hdata hout := by
    obtain ⟨img, -, rfl⟩ := Option.map_eq_some_iff.mp (by simpa [loadPair, hdata] using hout)
    exact hdata

theorem forwards_stage2 (env : Env) :
    Chain.Forwards (fun p : Pair => isEos p.1) (fun p => some (markPair env p))
      (fun p : Pair => isEos p.1) where
  token p heos := ⟨markPair env p, rfl, by simpa using heos⟩
  data p p' hdata hout := by
    obtain rfl : markPair env p = p' := by simpa using hout
    simpa using hdata

/-- The three stages and the two queues of a pipeline make one attempt to save of each file name. -/
theorem pipeline_spec (env : Env) : IsWorker env (pipeline env) := by
  have hfirst := Chain.spec (stage1_spec env) (stage2_spec env) (forwards_stage1 env)
  have hspec := Chain.spec hfirst (stage3_spec env) ((forwards_stage1 env).comp (forwards_stage2 env))
  refine hspec.congr (fun _ => rfl) (fun name => ?_) (fun name => ?_)
  · cases heos : isEos name with
    | true => simp [attempt, loadPair, heos, savePair, markPair, eosPair]
    | false =>
      cases hload : env.load (env.pathIn ++ name) <;>
        simp [attempt, loadPair, heos, hload, savePair, markPair, savedAs]
  · cases hpair : loadPair env name <;> simp [Chain.chainOk, hpair]

theorem stage123_spec (env : Env) : IsWorker env (stage123 env) := by
  refine (Loop.spec (stage123Body env)).congr (fun name => ?_) (fun name => ?_) (fun name => ?_)
  all_goals
    cases heos : isEos name with
    | true =>
      simp [Loop.isLast, Loop.output, Loop.accepts, stage123Body, attempt, loads, heos,
        Outcome.stops, Outcome.out, Outcome.succeeds]
    | false =>
      cases hload : env.load (env.pathIn ++ name) <;>
        simp [Loop.isLast, Loop.output, Loop.accepts, stage123Body, attempt, loads, savedAs, heos,
          hload, Outcome.stops, Outcome.out, Outcome.succeeds]

/-- Units a pipeline still has to spend: an item costs it six steps at most. -/
def pipelineRank (env : Env) : (pipeline env).State → Nat :=
  Chain.rank 2 (Chain.rank 4 (Loop.rank 4) (Loop.rank 2)) (Loop.rank 0)

theorem pipeline_ranked (env : Env) : (pipeline env).Ranked 6 0 (pipelineRank env) :=
  Chain.ranked (Chain.ranked (Loop.ranked (stage1Body env) 4) (Loop.ranked (stage2Body env) 2))
    (Loop.ranked (stage3Body env) 0)

theorem stage123_ranked (env : Env) : (stage123 env).Ranked 2 0 (Loop.rank 0) :=
  Loop.ranked (stage123Body env) 0

end ParallelWatermark
