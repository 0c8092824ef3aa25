import ParallelWatermark.Process.Interleaving
import ParallelWatermark.Proof.Image.Rows
import ParallelWatermark.Updates

/-!
# The order of the updates does not matter

Updates by one function commute, even where they hit the same sample. So whatever visits the
positions of an image once each, in whatever order and however many at a time, leaves the image that
`pipe_process_image` leaves.
-/

namespace ParallelWatermark

open Process

section Updates

variable (avg : Bool) (img watermark : Img)

theorem markSamples_eq (samples : List Sample) :
    markSamples avg samples img = img.update (mark avg) (samples.map fun s => img.offset s.c s.r 0 s.ch) := by
  rw [List.map_eq_flatMap]
  exact foldl_update (mark avg) img _ _ (fun _ _ => rfl) samples

theorem markSamples_perm {samples samples' : List Sample} (hperm : samples.Perm samples') :
    markSamples avg samples img = markSamples avg samples' img := by
  rw [markSamples_eq, markSamples_eq]
  exact Img.ext_data rfl rfl rfl rfl (Buffer.updateAt_perm (hperm.map _))

/-- Visiting positions in some order, as the body of the loops does. -/
theorem foldl_visits_eq (visited : List (Nat × Nat)) :
    visited.foldl (fun acc p => if watermark.at2 p.1 p.2 < 50 then applyWatermark avg acc p.1 p.2 else acc) img =
      markSamples avg (visited.flatMap (maskedSamples img watermark)) img := by
  rw [markSamples_eq, List.map_flatMap]
  refine foldl_update (mark avg) img _ _ (fun l p => ?_) visited
  by_cases hdark : watermark.at2 p.1 p.2 < 50
  · rw [if_pos hdark, maskedSamples, if_pos hdark, applyWatermark_eq, List.map_map]
    rfl
  · rw [if_neg hdark, maskedSamples, if_neg hdark, List.map_nil]
    rfl

theorem watermarkRows_eq_markSamples (width : Nat) (rows : List Nat) :
    watermarkRows watermark avg width rows img =
      markSamples avg ((positions width rows).flatMap (maskedSamples img watermark)) img := by
  rw [← foldl_visits_eq, positions, List.foldl_flatMap]
  simp only [List.foldl_map]
  rfl

theorem pipeProcessImageHalf_eq (isStage2 : Bool) :
    pipeProcessImageHalf img watermark avg isStage2 = markSamples avg (halfSamples img watermark isStage2) img :=
  watermarkRows_eq_markSamples avg img watermark img.cols (halfRows img isStage2)

theorem pipeProcessImage_eq_markSamples :
    pipeProcessImage img watermark avg =
      markSamples avg ((positions img.cols (List.range img.rows)).flatMap (maskedSamples img watermark)) img :=
  watermarkRows_eq_markSamples avg img watermark img.cols (List.range img.rows)

end Updates

/-- Programs of updates, interleaved to their end, leave what any merge of them leaves. -/
theorem shared_eq_markSamples {ι : Type} [DecidableEq ι] {avg : Bool} {img : Img}
    {programs : ι → List Sample} {evs : List (ι × Sample)} {s : Interleaving.State ι Sample Img}
    (hrun : Interleaving.History (markSample avg) programs img evs s)
    (hterminal : Terminal (Interleaving.Step (markSample avg)) s)
    {l : List (ι × Sample)} (hl : ∀ i, Farm.ofWorker i l = programs i) :
    s.shared = markSamples avg (l.map Prod.snd) img := by
  rw [Interleaving.shared_eq hrun]
  exact markSamples_perm avg img (Interleaving.perm_of_terminal hrun hterminal hl)

/-! ### Two halves -/

theorem toNat_half_le (height : Int) : (height.tdiv 2).toNat ≤ height.toNat := by
  by_cases hheight : 0 ≤ height
  · rw [Int.tdiv_eq_ediv_of_nonneg hheight]
    omega
  · have hneg : 0 ≤ (-height).tdiv 2 := Int.tdiv_nonneg (by omega) (by omega)
    rw [Int.neg_tdiv] at hneg
    omega

theorem halfRows_append (img : Img) : halfRows img true ++ halfRows img false = List.range img.rows := by
  have hle := toNat_half_le img.height
  simp only [halfRows, if_true, Bool.false_eq_true, if_false, List.range_eq_range', Img.rows]
  obtain ⟨rest, hrest⟩ := Nat.exists_eq_add_of_le hle
  rw [hrest, Nat.add_sub_cancel_left, ← List.range'_append_1, Nat.zero_add]

theorem halfSamples_append (img watermark : Img) :
    halfSamples img watermark true ++ halfSamples img watermark false =
      (positions img.cols (List.range img.rows)).flatMap (maskedSamples img watermark) := by
  rw [halfSamples, halfSamples, ← List.flatMap_append, positions, positions, ← List.flatMap_append,
    halfRows_append, positions]

/-- The two calls with `is_stage_2`, in either order or with their updates interleaved in any way,
leave the image that the call without it leaves. -/
theorem halves_compose (img watermark : Img) (average : Bool) :
    pipeProcessImageHalf (pipeProcessImageHalf img watermark average true) watermark average false =
      pipeProcessImage img watermark average ∧
    pipeProcessImageHalf (pipeProcessImageHalf img watermark average false) watermark average true =
      pipeProcessImage img watermark average ∧
    ∀ evs s, Interleaving.History (markSample average) (halfSamples img watermark) img evs s →
      Terminal (Interleaving.Step (markSample average)) s →
      s.shared = pipeProcessImage img watermark average := by
  have hwhole := pipeProcessImage_eq_markSamples average img watermark
  rw [← halfSamples_append] at hwhole
  have hcompose : ∀ isStage2, pipeProcessImageHalf (pipeProcessImageHalf img watermark average isStage2) watermark
      average (!isStage2) =
        markSamples average (halfSamples img watermark isStage2 ++ halfSamples img watermark (!isStage2)) img := by
    intro isStage2
    -- The second call finds the dimensions that the first one found.
    have hdims : halfSamples (markSamples average (halfSamples img watermark isStage2) img) watermark (!isStage2) =
        halfSamples img watermark (!isStage2) := by
      rw [markSamples_eq]
      rfl
    rw [pipeProcessImageHalf_eq, pipeProcessImageHalf_eq, hdims]
    exact List.foldl_append.symm
  refine ⟨?_, ?_, ?_⟩
  · rw [hwhole]
    exact hcompose true
  · rw [hwhole]
    exact (hcompose false).trans (markSamples_perm average img List.perm_append_comm)
  · intro evs s hrun hterminal
    have hmerge : ∀ isStage2, Farm.ofWorker isStage2
        ((halfSamples img watermark true).map (fun sample => (true, sample)) ++
          (halfSamples img watermark false).map fun sample => (false, sample)) =
        halfSamples img watermark isStage2 := by
      intro isStage2
      cases isStage2 <;> simp [Farm.ofWorker, List.filterMap_map]
    rw [hwhole, shared_eq_markSamples hrun hterminal hmerge]
    simp [Function.comp_def]

/-- Two calls whose updates are interleaved to their end, on an image of two samples. -/
theorem halves_compose_inhabited :
    ∃ evs s, Interleaving.History (markSample true) (halfSamples (Img.column 90 9) (Img.column 0 0))
      (Img.column 90 9) evs s ∧ s.shared = Img.column 50 5 := by
  obtain ⟨evs, s, hrun, hterminal⟩ := Run.exists_terminal (fun s _ s' hstep => Interleaving.rank_lt hstep)
    (Run.nil : Interleaving.History (markSample true) (halfSamples (Img.column 90 9) (Img.column 0 0))
      (Img.column 90 9) [] _)
  refine ⟨evs, s, hrun, ?_⟩
  rw [(halves_compose (Img.column 90 9) (Img.column 0 0) true).2.2 evs s hrun hterminal]
  decide

/-! ### Any enumeration, any workers -/

theorem mem_positions {width n c r : Nat} :
    (c, r) ∈ positions width (List.range n) ↔ c < width ∧ r < n := by
  simp [positions, and_comm]

theorem nodup_positions (width n : Nat) : (positions width (List.range n)).Nodup := by
  rw [positions, List.nodup_flatMap]
  constructor
  · intro r _
    exact List.nodup_range.map fun c c' heq => congrArg Prod.fst heq
  · apply List.nodup_range.imp
    intro r r' hne p hp hp'
    obtain ⟨c, -, rfl⟩ := List.mem_map.mp hp
    obtain ⟨c', -, heq⟩ := List.mem_map.mp hp'
    exact hne (congrArg Prod.snd heq).symm

/-- Let each position of the image be visited exactly once. Then the updates that `apply_watermark`
makes at the masked positions leave the image of `pipe_process_image`: in any order whatever, in the
order of the visits, and when any workers among whom the visits are divided make theirs
interleaved. -/
theorem visiting_order_irrelevant {ι : Type} [DecidableEq ι] (img watermark : Img) (average : Bool)
    {visits : List (ι × Nat × Nat)} (hnodup : (visits.map Prod.snd).Nodup)
    (hall : ∀ c r, (c, r) ∈ visits.map Prod.snd ↔ c < img.cols ∧ r < img.rows) :
    (∀ updates, updates.Perm ((visits.map Prod.snd).flatMap (maskedSamples img watermark)) →
      markSamples average updates img = pipeProcessImage img watermark average) ∧
    (visits.map Prod.snd).foldl (fun acc p => if watermark.at2 p.1 p.2 < 50 then applyWatermark average acc p.1 p.2
      else acc) img = pipeProcessImage img watermark average ∧
    ∀ evs s, Interleaving.History (markSample average)
        (fun i => (Farm.ofWorker i visits).flatMap (maskedSamples img watermark)) img evs s →
      Terminal (Interleaving.Step (markSample average)) s →
      s.shared = pipeProcessImage img watermark average := by
  have hperm : (visits.map Prod.snd).Perm (positions img.cols (List.range img.rows)) := by
    rw [List.perm_ext_iff_of_nodup hnodup (nodup_positions _ _)]
    intro p
    rw [hall, mem_positions]
  have hany : ∀ updates, updates.Perm ((visits.map Prod.snd).flatMap (maskedSamples img watermark)) →
      markSamples average updates img = pipeProcessImage img watermark average := by
    intro updates hupdates
    rw [pipeProcessImage_eq_markSamples]
    exact markSamples_perm average img (hupdates.trans (hperm.flatMap_right _))
  refine ⟨hany, ?_, ?_⟩
  · rw [foldl_visits_eq]
    exact hany _ (List.Perm.refl _)
  · intro evs s hrun hterminal
    rw [shared_eq_markSamples hrun hterminal (Interleaving.ofWorker_flatMap (maskedSamples img watermark) visits)]
    apply hany
    rw [List.map_flatMap, List.flatMap_map]
    simp [Function.comp_def]

/-- Two workers, one for each row, the lower row first. -/
theorem visiting_order_irrelevant_inhabited :
    ([(0, 1), (0, 0)] : List (Nat × Nat)).foldl (fun acc p =>
      if (Img.column 0 0).at2 p.1 p.2 < 50 then applyWatermark true acc p.1 p.2 else acc) (Img.column 90 9) =
        pipeProcessImage (Img.column 90 9) (Img.column 0 0) true := by
  have hall : ∀ c r, (c, r) ∈ ([(true, 0, 1), (false, 0, 0)] : List (Bool × Nat × Nat)).map Prod.snd ↔
      c < (Img.column 90 9).cols ∧ r < (Img.column 90 9).rows := by
    intro c r
    have hcols : (Img.column 90 9).cols = 1 := by decide
    have hrows : (Img.column 90 9).rows = 2 := by decide
    rw [hcols, hrows]
    simp only [List.map_cons, List.map_nil, List.mem_cons, List.not_mem_nil, or_false, Prod.mk.injEq]
    omega
  exact (visiting_order_irrelevant (Img.column 90 9) (Img.column 0 0) true (by decide) hall).2.1

end ParallelWatermark
