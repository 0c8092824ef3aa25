import ParallelWatermark.Buffer.Ranges
import ParallelWatermark.FastFlow
import ParallelWatermark.Proof.Image.Rows

/-!
# The parallel for and the fused nodes

`ff_process_image` runs over each range as many times as the range has rows, since its two row loops
are nested. Blackening a sample again does nothing, averaging it again does: it leaves the image of
`pipe_process_image` exactly when no sample is there to be averaged twice to another effect.
`stage12` and `stage123` do what the stages they replace do; `stage12_opt` also forgets the mode
when the parallel for is off.
-/

namespace ParallelWatermark.FastFlow

/-- The rows a call of the body visits, in order. -/
def visitedRows (call : Nat × Nat) : List Nat :=
  (List.replicate (call.2 - call.1) (List.range' call.1 (call.2 - call.1))).flatten

theorem mem_visitedRows {call : Nat × Nat} {r : Nat} (hr : r ∈ visitedRows call) :
    call.1 ≤ r ∧ r < call.2 := by
  obtain ⟨l, hl, hmem⟩ := List.mem_flatten.mp hr
  rw [List.eq_of_mem_replicate hl, List.mem_range'_1] at hmem
  omega

theorem count_visitedRows {call : Nat × Nat} {r : Nat} (hlo : call.1 ≤ r) (hhi : r < call.2) :
    (visitedRows call).count r = call.2 - call.1 := by
  have hone : (List.range' call.1 (call.2 - call.1)).count r = 1 := by
    have hnodup : (List.range' call.1 (call.2 - call.1)).Nodup := List.nodup_range'
    rw [hnodup.count, if_pos]
    rw [List.mem_range'_1]
    omega
  simp [visitedRows, List.count_flatten, hone]

theorem rangeBody_eq (watermark : Img) (average : Bool) (width start stop : Nat) (img : Img) :
    rangeBody watermark average width start stop img =
      watermarkRows watermark average width (visitedRows (start, stop)) img := by
  have hrepeat : ∀ (l : List Nat) (rows : List Nat) (img : Img),
      l.foldl (fun img _ => watermarkRows watermark average width rows img) img =
        watermarkRows watermark average width (List.replicate l.length rows).flatten img := by
    intro l rows
    induction l with
    | nil => exact fun _ => rfl
    | cons x l ih =>
      intro img
      rw [List.foldl_cons, ih, List.length_cons, List.replicate_succ, List.flatten_cons]
      simp [watermarkRows]
  rw [rangeBody, hrepeat, List.length_range']
  rfl

theorem ffProcessImage_eq (parallelForIdx : ParallelForIdx) (maxNw : Int) (img watermark : Img)
    (chunk : Int) (average : Bool) :
    ffProcessImage parallelForIdx maxNw img watermark chunk average =
      watermarkRows watermark average img.cols ((parallelForIdx maxNw 0 img.height 1 chunk).flatMap visitedRows) img := by
  simp only [ffProcessImage, rangeBody_eq]
  rw [watermarkRows, List.foldl_flatMap]
  rfl

/-- Every masked sample of the rows from `lo` to `hi` is -1, 0 or 1. -/
def FaintRows (img watermark : Img) (lo hi : Nat) : Prop :=
  ∀ r, lo ≤ r → r < hi → ∀ c < img.cols, ∀ ch < img.channels, watermark.at2 c r < 50 →
    -1 ≤ img.at4 c r 0 ch ∧ img.at4 c r 0 ch ≤ 1

theorem lt_of_mem_range (img : Img) : ∀ r ∈ List.range img.rows, r < img.rows :=
  fun _ => List.mem_range.mp

theorem count_range {n r : Nat} (hr : r < n) : (List.range n).count r = 1 := by
  rw [List.nodup_range.count, if_pos (List.mem_range.mpr hr)]

/-- The parallel watermark is the plain one exactly when it blackens, or each range is one row or
has nothing in it that averaging twice would change. Ranges that cut the rows of an image without
rows are none; the vendored `parallel_for_idx` does not get that far with a chunk other than zero, an
assertion of `setloop` fails. -/
theorem ffProcessImage_eq_iff {parallelForIdx : ParallelForIdx} {maxNw chunk : Int}
    {img watermark : Img} {average : Bool}
    (hcuts : Buffer.Cuts img.rows (parallelForIdx maxNw 0 img.height 1 chunk)) :
    ffProcessImage parallelForIdx maxNw img watermark chunk average = pipeProcessImage img watermark average ↔
      average = false ∨ ∀ call ∈ parallelForIdx maxNw 0 img.height 1 chunk,
        call.2 - call.1 = 1 ∨ FaintRows img watermark call.1 call.2 := by
  have hrows : ∀ r ∈ (parallelForIdx maxNw 0 img.height 1 chunk).flatMap visitedRows, r < img.rows := by
    intro r hr
    obtain ⟨call, hcall, hmem⟩ := List.mem_flatMap.mp hr
    exact (mem_visitedRows hmem).2.trans_le (hcuts.bounds hcall).2
  have hcount : ∀ call ∈ parallelForIdx maxNw 0 img.height 1 chunk, ∀ r, call.1 ≤ r → r < call.2 →
      ((parallelForIdx maxNw 0 img.height 1 chunk).flatMap visitedRows).count r = call.2 - call.1 := by
    intro call hcall r hlo hhi
    rw [hcuts.count_flatMap (fun _ _ => mem_visitedRows) hcall hlo hhi, count_visitedRows hlo hhi]
  rw [ffProcessImage_eq, pipeProcessImage, watermarkRows_eq_iff hrows (lt_of_mem_range img)]
  constructor
  · intro hsame
    by_cases havg : average = false
    · exact Or.inl havg
    · right
      intro call hcall
      by_cases hone : call.2 - call.1 = 1
      · exact Or.inl hone
      · right
        intro r hlo hhi c hc ch hch hmask
        have hbounds := hcuts.bounds hcall
        have hr : r < img.rows := hhi.trans_le hbounds.2
        have heq := hsame r hr c hc ch hch hmask
        rw [hcount call hcall r hlo hhi, count_range hr, Function.iterate_one, iterate_mark_eq_iff (by omega)] at heq
        exact (heq.resolve_left havg).resolve_left hone
  · intro hcond r hr c hc ch hch hmask
    obtain ⟨call, hcall, hlo, hhi⟩ := hcuts.exists_call hr
    have hbounds := hcuts.bounds hcall
    rw [hcount call hcall r hlo hhi, count_range hr, Function.iterate_one, iterate_mark_eq_iff (by omega)]
    apply hcond.imp_right
    intro hcalls
    exact (hcalls call hcall).imp_right fun hfaint => hfaint r hlo hhi c hc ch hch hmask

/-- One call for each row, as with a chunk of one. -/
def rowByRow : ParallelForIdx := fun _ _ last _ _ => (List.range last.toNat).map fun r => (r, r + 1)

/-- One call for all rows. -/
def allAtOnce : ParallelForIdx := fun _ _ last _ _ => [(0, last.toNat)]

theorem ffProcessImage_eq_iff_inhabited :
    ffProcessImage rowByRow 2 (Img.column 9 9) (Img.column 0 0) 1 true =
      pipeProcessImage (Img.column 9 9) (Img.column 0 0) true := by
  have hcuts : Buffer.Cuts (Img.column 9 9).rows (rowByRow 2 0 (Img.column 9 9).height 1 1) :=
    ⟨[(0, 1), (1, 2)], .cons (by decide) (.cons (by decide) (.nil 2)), by decide⟩
  rw [ffProcessImage_eq_iff hcuts]
  right
  intro call hcall
  left
  revert call
  decide

/-- Two rows in one range, in average mode: 9 becomes 5, and then 2. -/
theorem ffProcessImage_averages_twice :
    Buffer.Cuts (Img.column 9 9).rows (allAtOnce 1 0 (Img.column 9 9).height 1 2) ∧
    ffProcessImage allAtOnce 1 (Img.column 9 9) (Img.column 0 0) 2 true = Img.column 2 2 ∧
    pipeProcessImage (Img.column 9 9) (Img.column 0 0) true = Img.column 5 5 ∧
    ffProcessImage allAtOnce 1 (Img.column 9 9) (Img.column 0 0) 2 true ≠
      pipeProcessImage (Img.column 9 9) (Img.column 0 0) true :=
  ⟨⟨[(0, 2)], .cons (by decide) (.nil 2), by decide⟩, by decide, by decide, by decide⟩

/-! ### The fused nodes -/

/-- What the next `svc` makes of the task a stage returns; nothing when it returns none. -/
def handOn {β γ : Type} (svc : β → γ) : Option (Ret β) → Option γ
  | some (.out b) => some (svc b)
  | _ => none

section Unfused

variable {env : Env} {task : String} {img : Img} (hload : env.load (env.pathIn ++ task) = some img)
include hload

theorem handOn_stage1 : handOn (stage2 env) (stage1 env task) =
    some (.out (task, pipeProcessImage img env.watermark env.aVg)) := by
  simp [stage1, hload, handOn, stage2]

theorem stage12_eq : stage12 env task = handOn (stage2 env) (stage1 env task) := by
  rw [handOn_stage1 hload]
  simp [stage12, hload]

theorem stage123_eq : (stage123 env task).map (fun g => (g.save, g.handler)) =
    (handOn (stage3 env) (handOn (stage2 env) (stage1 env task))).map fun g => (g.save, g.handler) := by
  rw [handOn_stage1 hload]
  simp [stage123, hload, handOn, stage3]

end Unfused

/-- Plain mode leaves the image of the given mode when that is plain, or when every masked sample is
-1, 0 or 1. -/
theorem pipeProcessImage_false_eq_iff {img watermark : Img} {average : Bool} :
    pipeProcessImage img watermark false = pipeProcessImage img watermark average ↔
      average = false ∨ FaintRows img watermark 0 img.rows := by
  rw [pipeProcessImage, pipeProcessImage, watermarkRows_eq_iff (lt_of_mem_range img) (lt_of_mem_range img)]
  have honce : ∀ r < img.rows, ∀ v, ((mark false)^[(List.range img.rows).count r] v =
      (mark average)^[(List.range img.rows).count r] v ↔ average = false ∨ (-1 ≤ v ∧ v ≤ 1)) := by
    intro r hr v
    rw [count_range hr, Function.iterate_one, Function.iterate_one]
    cases average with
    | false => simp
    | true => simpa [mark, eq_comm (a := (0 : Int))] using average_eq_zero_iff
  constructor
  · intro hsame
    by_cases havg : average = false
    · exact Or.inl havg
    · right
      intro r _ hr c hc ch hch hmask
      exact ((honce r hr _).mp (hsame r hr c hc ch hch hmask)).resolve_left havg
  · intro hcond r hr c hc ch hch hmask
    exact (honce r hr _).mpr (hcond.imp_right fun hfaint => hfaint r (Nat.zero_le r) hr c hc ch hch hmask)

/-- The fused nodes all do what the stages they replace do exactly when the mode is plain, or
`stage12_opt` gets away with averaging twice where its parallel for is on, and with blackening where
it is off. An image without rows has to be taken with a chunk of zero where the parallel for is on:
the vendored `setloop` ends the program on any other. -/
theorem fused_eq_iff {parallelForIdx : ParallelForIdx} {env : Env} {opts : PfOptions}
    {task : String} {img : Img} (hload : env.load (env.pathIn ++ task) = some img)
    (hcuts : Buffer.Cuts img.rows (parallelForIdx opts.maxNw 0 img.height 1 opts.chunkSz)) :
    (stage12 env task = handOn (stage2 env) (stage1 env task) ∧
      stage12Opt parallelForIdx env opts task = handOn (stage2 env) (stage1 env task) ∧
      (stage123 env task).map (fun g => (g.save, g.handler)) =
        (handOn (stage3 env) (handOn (stage2 env) (stage1 env task))).map fun g => (g.save, g.handler)) ↔
    env.aVg = false ∨
      if opts.enablePf = "on" then
        ∀ call ∈ parallelForIdx opts.maxNw 0 img.height 1 opts.chunkSz,
          call.2 - call.1 = 1 ∨ FaintRows img env.watermark call.1 call.2
      else FaintRows img env.watermark 0 img.rows := by
  have hopt : stage12Opt parallelForIdx env opts task = handOn (stage2 env) (stage1 env task) ↔
      (if opts.enablePf = "on" then
        ffProcessImage parallelForIdx opts.maxNw img env.watermark opts.chunkSz env.aVg
      else pipeProcessImage img env.watermark false) = pipeProcessImage img env.watermark env.aVg := by
    rw [handOn_stage1 hload]
    simp [stage12Opt, hload]
  rw [hopt]
  simp only [stage12_eq hload, stage123_eq hload, true_and, and_true]
  by_cases hon : opts.enablePf = "on"
  · rw [if_pos hon, if_pos hon, ffProcessImage_eq_iff hcuts]
  · rw [if_neg hon, if_neg hon, pipeProcessImage_false_eq_iff]

/-- A folder of images whose samples are all 9, in average mode. -/
def averageEnv : Env := uniformEnv ["a.jpg"] (Img.column 9 9) (Img.column 0 200) true

theorem fused_eq_iff_inhabited :
    stage12Opt rowByRow averageEnv ⟨"on", 2, 1⟩ "a.jpg" = handOn (stage2 averageEnv) (stage1 averageEnv "a.jpg") := by
  have hcuts : Buffer.Cuts (Img.column 9 9).rows (rowByRow 2 0 (Img.column 9 9).height 1 1) :=
    ⟨[(0, 1), (1, 2)], .cons (by decide) (.cons (by decide) (.nil 2)), by decide⟩
  have hiff := @fused_eq_iff rowByRow averageEnv ⟨"on", 2, 1⟩ "a.jpg" (Img.column 9 9) rfl hcuts
  refine (hiff.mpr (Or.inr ?_)).2.1
  rw [if_pos rfl]
  intro call hcall
  left
  revert call
  decide

/-- With the parallel for off, `stage12_opt` blackens the pixel that the stages average. -/
theorem stage12Opt_forgets_mode :
    Buffer.Cuts (Img.column 9 9).rows (allAtOnce 1 0 (Img.column 9 9).height 1 2) ∧
    stage12Opt allAtOnce averageEnv ⟨"off", 1, 2⟩ "a.jpg" = some (.out ("a.jpg", Img.column 0 9)) ∧
    handOn (stage2 averageEnv) (stage1 averageEnv "a.jpg") = some (.out ("a.jpg", Img.column 5 9)) ∧
    stage12Opt allAtOnce averageEnv ⟨"off", 1, 2⟩ "a.jpg" ≠ handOn (stage2 averageEnv) (stage1 averageEnv "a.jpg") :=
  ⟨⟨[(0, 2)], .cons (by decide) (.nil 2), by decide⟩, by decide, by decide, by decide⟩

end ParallelWatermark.FastFlow
