import ParallelWatermark.FastFlow.ProcessImage
import ParallelWatermark.Proof.FastFlow.Fused
import ParallelWatermark.Proof.FastFlow.ParallelFor.Grain
import ParallelWatermark.Proof.Image.Orders

/-!
# What `ff_process_image` leaves

The ranges of the calls are a partition of the rows, so no sample belongs to two calls, and the image
is what the calls leave one after the other. It is the image of `pipe_process_image` when that blackens,
and when it averages if every range is one row: exactly then, unless some sample is -1, 0 or 1.
-/

namespace ParallelWatermark.FastFlow

open Buffer ParallelFor

variable {numCores : Nat} {maxNw chunk : Int} {img watermark img' : Img} {average : Bool} {calls : List ForallTask}

/-- The ranges on which `F` does something, as the rows they have. -/
def rowRanges (calls : List ForallTask) : List (Nat × Nat) := (calls.flatMap ForallTask.calls).map toNatRange

theorem rangeSamples_eq (img watermark : Img) (task : ForallTask) : rangeSamples img watermark task =
    (positions img.cols (visitedRows (task.start.toNat, task.stop.toNat))).flatMap (maskedSamples img watermark) := by
  have hrepeat : ∀ (l rows : List Nat), (l.flatMap fun _ => (positions img.cols rows).flatMap (maskedSamples img watermark)) =
      (positions img.cols (List.replicate l.length rows).flatten).flatMap (maskedSamples img watermark) := by
    intro l rows
    induction l with
    | nil => rfl
    | cons _ l ih =>
      rw [List.flatMap_cons, ih, List.length_cons, List.replicate_succ, List.flatten_cons, positions, positions, positions,
        ← List.flatMap_append, ← List.flatMap_append]
  rw [rangeSamples, hrepeat, List.length_range']
  rfl

theorem flatMap_rangeSamples (img watermark : Img) (calls : List ForallTask) : calls.flatMap (rangeSamples img watermark) =
    (positions img.cols ((rowRanges calls).flatMap visitedRows)).flatMap (maskedSamples img watermark) := by
  induction calls with
  | nil => rfl
  | cons task calls ih =>
    rw [List.flatMap_cons, ih, rangeSamples_eq, rowRanges, rowRanges, List.flatMap_cons, List.map_append,
      List.flatMap_append, positions, positions, positions, ← List.flatMap_append, ← List.flatMap_append]
    congr 3
    rw [ForallTask.calls]
    split_ifs with hlt
    · simp [toNatRange]
    · simp [visitedRows, show task.stop.toNat - task.start.toNat = 0 by omega]

/-- The rows of an image are few enough, and a chunk is an `int`. -/
theorem small_rows (img : Img) (hchunk : |chunk| ≤ 2 ^ 31) : Small 0 img.height 1 chunk := by
  have hheight : 2 * img.height < 2 ^ 32 := BitVec.two_mul_toInt_lt
  constructor <;> omega

theorem height_eq_rows (hrows : 0 < img.rows) : img.height = img.rows := by
  rw [Img.rows] at hrows ⊢
  omega

section Run

variable (hchunk : |chunk| ≤ 2 ^ 31) (hrows : 0 < img.rows)
  (hrun : FfProcessImage numCores maxNw img watermark chunk average calls img')
include hchunk hrows hrun

theorem cuts_of_run : Cuts img.rows (rowRanges calls) := by
  have hheight := height_eq_rows hrows
  obtain ⟨⟨ranges, hcut, hperm⟩, -⟩ := cut_of_parallelForIdx (small_rows img hchunk) (by decide) (by omega) hrun
  rw [hheight] at hcut
  exact hcut.cuts hperm

theorem img_of_run :
    img' = watermarkRows watermark average img.cols ((rowRanges calls).flatMap visitedRows) img := by
  have hheight := height_eq_rows hrows
  obtain ⟨-, acts, hacts, himg⟩ := cut_of_parallelForIdx (small_rows img hchunk) (by decide) (by omega) hrun
  rw [himg, watermarkRows_eq_markSamples, ← flatMap_rangeSamples]
  exact markSamples_perm average img hacts

end Run

/-! ### Rows visited more than once -/

theorem rows_eq_iff {rows : List Nat} (hrows : ∀ r ∈ rows, r < img.rows) (hall : ∀ r < img.rows, 0 < rows.count r) :
    watermarkRows watermark average img.cols rows img = pipeProcessImage img watermark average ↔
      ∀ r < img.rows, average = false ∨ rows.count r = 1 ∨ FaintRows img watermark r (r + 1) := by
  rw [pipeProcessImage, watermarkRows_eq_iff hrows (lt_of_mem_range img)]
  constructor
  · intro hsame r hr
    by_cases havg : average = false
    · exact Or.inl havg
    · by_cases hone : rows.count r = 1
      · exact Or.inr (Or.inl hone)
      · refine Or.inr (Or.inr fun r' hlo hhi c hc ch hch hmask => ?_)
        obtain rfl : r' = r := by omega
        have heq := hsame r' hr c hc ch hch hmask
        rw [count_range hr, Function.iterate_one, iterate_mark_eq_iff (hall r' hr)] at heq
        exact (heq.resolve_left havg).resolve_left hone
  · intro hcond r hr c hc ch hch hmask
    rw [count_range hr, Function.iterate_one, iterate_mark_eq_iff (hall r hr)]
    exact (hcond r hr).imp_right fun h => h.imp_right fun hfaint => hfaint r (Nat.le_refl r) (by omega) c hc ch hch hmask

section Cuts

variable {ranges : List (Nat × Nat)} (hcuts : Cuts img.rows ranges)
include hcuts

theorem lt_of_visited {r : Nat} (hr : r ∈ ranges.flatMap visitedRows) : r < img.rows := by
  obtain ⟨call, hcall, hmem⟩ := List.mem_flatMap.mp hr
  exact (mem_visitedRows hmem).2.trans_le (hcuts.bounds hcall).2

theorem count_visited {call : Nat × Nat} (hcall : call ∈ ranges) {r : Nat} (hlo : call.1 ≤ r) (hhi : r < call.2) :
    (ranges.flatMap visitedRows).count r = call.2 - call.1 := by
  rw [hcuts.count_flatMap (fun _ _ => mem_visitedRows) hcall hlo hhi, count_visitedRows hlo hhi]

theorem visited_pos {r : Nat} (hr : r < img.rows) : 0 < (ranges.flatMap visitedRows).count r := by
  obtain ⟨call, hcall, hlo, hhi⟩ := hcuts.exists_call hr
  rw [count_visited hcuts hcall hlo hhi]
  omega

/-- Every row is visited once if every range has one row. -/
theorem forall_count_iff : (∀ r < img.rows, (ranges.flatMap visitedRows).count r = 1) ↔
    ∀ call ∈ ranges, call.2 - call.1 ≤ 1 := by
  constructor
  · intro hall call hcall
    have hbounds := hcuts.bounds hcall
    have hone := hall call.1 (by omega)
    rw [count_visited hcuts hcall (Nat.le_refl _) hbounds.1] at hone
    omega
  · intro hall r hr
    obtain ⟨call, hcall, hlo, hhi⟩ := hcuts.exists_call hr
    have hle := hall call hcall
    rw [count_visited hcuts hcall hlo hhi]
    omega

end Cuts

/-! ### The samples of the calls -/

/-- Where the samples of a range lie in the buffer. -/
def rangeOffsets (img watermark : Img) (task : ForallTask) : List Nat :=
  (rangeSamples img watermark task).map fun s => img.offset s.c s.r 0 s.ch

theorem mem_rangeSamples {task : ForallTask} {s : Sample} (hs : s ∈ rangeSamples img watermark task) :
    s.c < img.cols ∧ s.ch < img.channels ∧ task.start.toNat ≤ s.r ∧ s.r < task.stop.toNat := by
  rw [rangeSamples_eq] at hs
  obtain ⟨p, hp, hs⟩ := List.mem_flatMap.mp hs
  obtain ⟨r, hr, hp⟩ := List.mem_flatMap.mp hp
  obtain ⟨c, hc, rfl⟩ := List.mem_map.mp hp
  have hrow := mem_visitedRows hr
  rw [maskedSamples] at hs
  split_ifs at hs
  · obtain ⟨ch, hch, rfl⟩ := List.mem_map.mp hs
    exact ⟨List.mem_range.mp hc, List.mem_range.mp hch, hrow⟩
  · simp at hs

/-- A call with samples has a range. -/
theorem mem_calls_of_sample {task : ForallTask} {s : Sample} (hs : s ∈ rangeSamples img watermark task) :
    (task.start.toNat, task.stop.toNat) ∈ task.calls.map toNatRange := by
  have hrow := mem_rangeSamples hs
  rw [ForallTask.calls, if_pos (by omega)]
  exact List.mem_singleton.mpr rfl

theorem disjoint_offsets (hcuts : Cuts img.rows (rowRanges calls)) :
    calls.Pairwise fun call call' => (rangeOffsets img watermark call).Disjoint (rangeOffsets img watermark call') := by
  have hapart := hcuts.pairwise
  have hrows : ∀ call ∈ calls, ∀ s ∈ rangeSamples img watermark call, s.r < img.rows := by
    intro call hcall s hs
    have hmem := List.mem_map.mp (mem_calls_of_sample hs)
    obtain ⟨range, hrange, heq⟩ := hmem
    have hbounds := hcuts.bounds (List.mem_map.mpr ⟨range, List.mem_flatMap.mpr ⟨call, hcall, hrange⟩, heq⟩)
    have := mem_rangeSamples hs
    omega
  rw [rowRanges, List.map_flatMap, List.pairwise_flatMap] at hapart
  refine hapart.2.imp_of_mem fun {call call'} hcall hcall' hranges i hi hi' => ?_
  obtain ⟨s, hs, rfl⟩ := List.mem_map.mp hi
  obtain ⟨s', hs', heq⟩ := List.mem_map.mp hi'
  obtain ⟨hc, hch, hr⟩ := mem_rangeSamples hs
  obtain ⟨hc', hch', hr'⟩ := mem_rangeSamples hs'
  have hsame := (offset_inj hc' (hrows call' hcall' s' hs') hch' hc (hrows call hcall s hs) hch heq).2.1
  have := hranges _ (mem_calls_of_sample hs) _ (mem_calls_of_sample hs')
  omega

/-! ### The image -/

section Run

variable (hchunk : |chunk| ≤ 2 ^ 31) (hrows : 0 < img.rows)
include hchunk hrows

theorem blackened_of_run (hrun : FfProcessImage numCores maxNw img watermark chunk false calls img') :
    img' = pipeProcessImage img watermark false := by
  have hcuts := cuts_of_run hchunk hrows hrun
  rw [img_of_run hchunk hrows hrun, rows_eq_iff (fun r => lt_of_visited hcuts) fun r => visited_pos hcuts]
  exact fun r _ => Or.inl rfl

/-- For an image with rows, whatever the chunk and the schedule, and with as many workers as there can be: the
image is what `ff_process_image` leaves when the calls are made one after the other, no sample is touched by two
of them, and a blackened image is the one of `pipe_process_image`. -/
theorem ffProcessImage_on_workers (hrun : FfProcessImage numCores maxNw img watermark chunk average calls img') :
    img' = ffProcessImage (fun _ _ _ _ _ => rowRanges calls) maxNw img watermark chunk average ∧
      calls.Pairwise (fun call call' => (rangeOffsets img watermark call).Disjoint (rangeOffsets img watermark call')) ∧
      (average = false → img' = pipeProcessImage img watermark average) := by
  refine ⟨?_, disjoint_offsets (cuts_of_run hchunk hrows hrun), fun hblack => ?_⟩
  · rw [ffProcessImage_eq]
    exact img_of_run hchunk hrows hrun
  · subst hblack
    exact blackened_of_run hchunk hrows hrun

/-- Every row is visited once for these numbers of rows and workers and these chunks, and for no others. -/
theorem visited_once_iff (hrun : FfProcessImage numCores maxNw img watermark chunk average calls img') :
    (∀ r < img.rows, ((rowRanges calls).flatMap visitedRows).count r = 1) ↔
      img.rows = 1 ∨ created maxNw numCores ≠ 1 ∧
        if chunk = 0 then img.rows ≤ created maxNw numCores
        else (chunk = 1 ∨ chunk = -1) ∧ img.rows ≠ created maxNw numCores + 1 := by
  have hheight := height_eq_rows hrows
  have hsmall := small_rows img hchunk
  obtain ⟨⟨ranges, ⟨next, hwalks, -⟩, hperm⟩, -⟩ := cut_of_parallelForIdx hsmall (by decide) (by omega) hrun
  have hone : ∀ a : Int, ceilDiv a 1 = a := fun a => by simp [ceilDiv]
  have hwidth : ∀ range ∈ calls.flatMap ForallTask.calls,
      (((strided 1 range.1 range.2).length : Int) ≤ 1 ↔ (toNatRange range).2 - (toNatRange range).1 ≤ 1) := by
    intro range hrange
    have hbounds := hwalks.bounds (by decide) (hperm.mem_iff.mp hrange)
    rw [length_strided_eq (by decide) hbounds.2.1, hone, toNatRange]
    simp only
    omega
  have hsingles := singles_iff hsmall (by decide) (by omega) hrun
  rw [forall_indexes_iff (by decide) (by decide) (List.Perm.refl _)] at hsingles
  have hgrain : parforDynamic chunk = 1 ↔ chunk = 1 ∨ chunk = -1 := by
    rw [parforDynamic]
    split_ifs <;> omega
  rw [forall_count_iff (cuts_of_run hchunk hrows hrun), rowRanges, List.forall_mem_map,
    ← forall₂_congr hwidth, hsingles, hone, hgrain, hheight, Int.sub_zero]
  norm_cast

/-- In average mode the image is the one of `pipe_process_image` for these numbers of rows and workers and
these chunks; for no others, if every row has a masked sample that averaging a second time would change. -/
theorem ffProcessImage_averages_iff (hrun : FfProcessImage numCores maxNw img watermark chunk true calls img') :
    ((img.rows = 1 ∨ created maxNw numCores ≠ 1 ∧
        if chunk = 0 then img.rows ≤ created maxNw numCores
        else (chunk = 1 ∨ chunk = -1) ∧ img.rows ≠ created maxNw numCores + 1) →
      img' = pipeProcessImage img watermark true) ∧
    ((∀ r < img.rows, ¬ FaintRows img watermark r (r + 1)) → img' = pipeProcessImage img watermark true →
      img.rows = 1 ∨ created maxNw numCores ≠ 1 ∧
        if chunk = 0 then img.rows ≤ created maxNw numCores
        else (chunk = 1 ∨ chunk = -1) ∧ img.rows ≠ created maxNw numCores + 1) := by
  have hcuts := cuts_of_run hchunk hrows hrun
  rw [← visited_once_iff hchunk hrows hrun, img_of_run hchunk hrows hrun,
    rows_eq_iff (fun r => lt_of_visited hcuts) fun r => visited_pos hcuts]
  refine ⟨fun honce r hr => Or.inr (Or.inl (honce r hr)), fun hsharp hsame r hr => ?_⟩
  exact ((hsame r hr).resolve_left (by decide)).resolve_right (hsharp r hr)

end Run

/-- Two rows for two workers. -/
theorem exists_twoRows (chunk : Int) (hchunk : |chunk| ≤ 2 ^ 31) (average : Bool) : ∃ calls img',
    FfProcessImage 2 2 (Img.column 9 9) (Img.column 0 0) chunk average calls img' :=
  exists_parallelForIdx (small_rows (Img.column 9 9) hchunk) (by decide) (by decide) (by decide) _ _ _

/-- They get both rows in one call, or one row each. -/
theorem ffProcessImage_on_workers_inhabited : ∃ calls img',
    FfProcessImage 2 2 (Img.column 9 9) (Img.column 0 0) 2 false calls img' ∧ img' = Img.column 0 0 := by
  obtain ⟨calls, img', hrun⟩ := exists_twoRows 2 (by decide) false
  refine ⟨calls, img', hrun, ?_⟩
  rw [(ffProcessImage_on_workers (by decide) (by decide) hrun).2.2 rfl]
  decide

theorem ffProcessImage_averages_iff_inhabited : ∃ calls img',
    FfProcessImage 2 2 (Img.column 9 9) (Img.column 0 0) 1 true calls img' ∧ img' = Img.column 5 5 := by
  obtain ⟨calls, img', hrun⟩ := exists_twoRows 1 (by decide) true
  refine ⟨calls, img', hrun, ?_⟩
  rw [(ffProcessImage_averages_iff (by decide) (by decide) hrun).1 (by decide)]
  decide

end ParallelWatermark.FastFlow
