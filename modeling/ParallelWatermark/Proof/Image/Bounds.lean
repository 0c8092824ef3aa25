import ParallelWatermark.Accesses
import ParallelWatermark.Proof.Image.Orders
import ParallelWatermark.Sequential

/-!
# Where the loops stay within their buffers

The image is never left. The watermark is read at the positions of the image, in rows of its own
width, so the read that goes furthest is the one at the last position.
-/

namespace ParallelWatermark

section Accesses

variable {read : Nat → Nat → Int} {img watermark : Img} {width offset : Nat} {rows : List Nat}

theorem watermark_mem_accesses :
    .watermark offset ∈ watermarkRowsAccesses read img watermark width rows ↔
      ∃ r ∈ rows, ∃ c < width, watermark.offset2 c r = offset := by
  simp only [watermarkRowsAccesses, List.mem_flatMap, List.mem_range, positionAccesses, List.mem_cons,
    Access.watermark.injEq]
  constructor
  · intro hread
    obtain ⟨r, hr, c, hc, heq | happly⟩ := hread
    · exact ⟨r, hr, c, hc, heq.symm⟩
    · split at happly
      · simp [applyWatermarkAccesses] at happly
      · simp at happly
  · intro hread
    obtain ⟨r, hr, c, hc, heq⟩ := hread
    exact ⟨r, hr, c, hc, Or.inl heq.symm⟩

theorem img_mem_accesses (hmem : .img offset ∈ watermarkRowsAccesses read img watermark width rows) :
    ∃ r ∈ rows, ∃ c < width, ∃ ch < img.channels, img.offset c r 0 ch = offset := by
  simp only [watermarkRowsAccesses, List.mem_flatMap, List.mem_range, positionAccesses, List.mem_cons,
    reduceCtorEq, false_or] at hmem
  obtain ⟨r, hr, c, hc, happly⟩ := hmem
  split at happly
  · obtain ⟨ch, hch, heq⟩ := List.mem_map.mp happly
    exact ⟨r, hr, c, hc, ch, List.mem_range.mp hch, Access.img.inj heq⟩
  · simp at happly

theorem accesses_subset {rows' : List Nat} (hrows : rows ⊆ rows') :
    watermarkRowsAccesses read img watermark width rows ⊆ watermarkRowsAccesses read img watermark width rows' := by
  intro access hmem
  obtain ⟨r, hr, hrow⟩ := List.mem_flatMap.mp hmem
  exact List.mem_flatMap.mpr ⟨r, hrows hr, hrow⟩

/-- The samples touched at a position, with what the watermark holds there for what is read. -/
theorem touched_positionAccesses (c r : Nat) : touched (positionAccesses watermark.at2 img watermark c r) =
    if watermark.at2 c r < 50 then pixelOffsets img c r else [] := by
  by_cases hdark : watermark.at2 c r < 50
  · rw [touched, positionAccesses, if_pos hdark, if_pos hdark, List.filterMap_cons_none rfl, applyWatermarkAccesses,
      List.filterMap_map]
    exact congrFun (List.filterMap_eq_map (f := fun ch => img.offset c r 0 ch)) (List.range img.channels)
  · simp [touched, positionAccesses, hdark, Access.img?]

/-- The samples touched are those that `watermarkRows` updates. -/
theorem touched_accesses (width : Nat) (rows : List Nat) :
    touched (watermarkRowsAccesses watermark.at2 img watermark width rows) =
      rows.flatMap fun r => rowOffsets img watermark width r := by
  have hposition := fun c r => @touched_positionAccesses img watermark c r
  simp only [touched] at hposition
  simp only [touched, watermarkRowsAccesses, List.filterMap_flatMap, hposition]
  congr 1
  funext r
  rw [rowOffsets, maskedColumns]
  induction List.range width with
  | nil => rfl
  | cons c columns ih =>
    by_cases hdark : watermark.at2 c r < 50
    · simp [hdark, ih]
    · simp [hdark, ih]

/-- What the loops leave is what they do to the samples they touch. -/
theorem watermarkRows_eq_accesses (avg : Bool) (width : Nat) (rows : List Nat) :
    watermarkRows watermark avg width rows img =
      img.update (mark avg) (touched (watermarkRowsAccesses watermark.at2 img watermark width rows)) := by
  rw [touched_accesses, watermarkRows_eq]

/-- Nothing else of the watermark is looked at. -/
theorem watermarkRows_congr {watermark' : Img} (avg : Bool) (hwidth : watermark'._width = watermark._width)
    (hsame : ∀ offset, .watermark offset ∈ watermarkRowsAccesses read img watermark width rows →
      watermark'._data[offset]? = watermark._data[offset]?) :
    watermarkRows watermark' avg width rows img = watermarkRows watermark avg width rows img := by
  have hread : ∀ r ∈ rows, ∀ c ∈ List.range width, watermark'.at2 c r = watermark.at2 c r := by
    intro r hr c hc
    have hoffset : watermark'.offset2 c r = watermark.offset2 c r := by rw [Img.offset2, Img.offset2, hwidth]
    have hdata := hsame _ (watermark_mem_accesses.mpr ⟨r, hr, c, List.mem_range.mp hc, rfl⟩)
    rw [Img.at2, Img.at2, hoffset, List.getD_eq_getElem?_getD, List.getD_eq_getElem?_getD, hdata]
  rw [watermarkRows_eq, watermarkRows_eq]
  congr 1
  refine List.flatMap_congr fun r hr => ?_
  have hmasked : maskedColumns watermark' width r = maskedColumns watermark width r :=
    List.filter_congr fun c hc => by rw [hread r hr c hc]
  rw [rowOffsets, rowOffsets, hmasked]

end Accesses

theorem halfRows_subset {img : Img} {isStage2 : Bool} : halfRows img isStage2 ⊆ List.range img.rows := by
  rw [← halfRows_append]
  cases isStage2 with
  | true => exact List.subset_append_left _ _
  | false => exact List.subset_append_right _ _

section Watermark

variable {img watermark : Img}

/-- The reads of the watermark are the positions of the image, laid out in the watermark's rows. -/
theorem watermark_in_bounds_iff {read : Nat → Nat → Int} {n : Nat}
    (hindex : (img.cols - 1) + (img.rows - 1) * watermark._width.toNat < 2 ^ 32) :
    (∀ offset, .watermark offset ∈ pipeProcessImageAccesses read img watermark → offset < n) ↔
      img.cols = 0 ∨ img.rows = 0 ∨ (img.cols - 1) + (img.rows - 1) * watermark._width.toNat < n := by
  have hoffset : ∀ c < img.cols, ∀ r < img.rows, watermark.offset2 c r = c + r * watermark._width.toNat :=
    fun c hc r hr => (Img.offset2_eq_of_lt ((Buffer.grid_le_last hc hr).trans_lt hindex)).1
  rw [← Buffer.forall_grid_lt_iff]
  constructor
  · intro hall c hc r hr
    rw [← hoffset c hc r hr]
    exact hall _ (watermark_mem_accesses.mpr ⟨r, List.mem_range.mpr hr, c, hc, rfl⟩)
  · intro hgrid offset hread
    obtain ⟨r, hr, c, hc, rfl⟩ := watermark_mem_accesses.mp hread
    rw [hoffset c hc r (List.mem_range.mp hr)]
    exact hgrid c hc r (List.mem_range.mp hr)

/-- An image that is not empty has a position in a watermark of its width and height. -/
theorem last_lt_size (hwidth : watermark._width = img._width) (hheight : watermark._height = img._height)
    (hcols : img.cols ≠ 0) (hrows : img.rows ≠ 0) :
    (img.cols - 1) + (img.rows - 1) * watermark._width.toNat <
      watermark._width.toNat * watermark._height.toNat * watermark._depth.toNat * watermark._spectrum.toNat := by
  have hx : img.cols - 1 < watermark._width.toNat := by
    have hle := img.cols_le
    rw [hwidth]
    omega
  have hy : img.rows - 1 < watermark._height.toNat := by
    have hle := img.rows_le
    rw [hheight]
    omega
  have hlt := Img.position4_lt hx hy (Img.depth_pos hx) (Img.spectrum_pos hx)
  rw [← watermark.size_data]
  rw [Nat.mul_comm]
  calc (img.cols - 1) + watermark._width.toNat * (img.rows - 1)
      = (img.cols - 1) + watermark._width.toNat * ((img.rows - 1) + watermark._height.toNat *
          (0 + watermark._depth.toNat * 0)) := by simp
    _ < watermark._data.length := hlt

end Watermark

/-- These are the accesses of a loop: it updates the samples touched, in the order in which they are, and looks at
nothing of the watermark but the samples read. -/
def Makes (loop : Img → Img) (accesses : (Nat → Nat → Int) → Img → List Access) (avg : Bool) (img watermark : Img) : Prop :=
  loop watermark = img.update (mark avg) (touched (accesses watermark.at2 watermark)) ∧
  ∀ read watermark', watermark'._width = watermark._width →
    (∀ offset, .watermark offset ∈ accesses read watermark → watermark'._data[offset]? = watermark._data[offset]?) →
    loop watermark' = loop watermark

theorem makes_watermarkRows (avg : Bool) (width : Nat) (rows : List Nat) :
    Makes (fun watermark => watermarkRows watermark avg width rows img)
      (fun read watermark => watermarkRowsAccesses read img watermark width rows) avg img watermark :=
  ⟨watermarkRows_eq_accesses avg width rows, fun _ _ hwidth hsame => watermarkRows_congr avg hwidth hsame⟩

/-- The loops of `pipe_process_image` never leave the image, whatever the watermark and whatever is
read from it. They never leave the watermark exactly if there is no position to visit or the last
one lies in its buffer; with equal width and height they do not, and read the sample of the position
itself. The overload with `is_stage_2` and `process_image` make no other accesses. -/
theorem accesses_in_bounds (img watermark : Img) (read : Nat → Nat → Int) :
    (∀ offset, .img offset ∈ pipeProcessImageAccesses read img watermark →
      offset < img._width.toNat * img._height.toNat * img._depth.toNat * img._spectrum.toNat) ∧
    ((img.cols - 1) + (img.rows - 1) * watermark._width.toNat < 2 ^ 32 →
      ((∀ offset, .watermark offset ∈ pipeProcessImageAccesses read img watermark →
        offset < watermark._width.toNat * watermark._height.toNat * watermark._depth.toNat *
          watermark._spectrum.toNat) ↔
        img.cols = 0 ∨ img.rows = 0 ∨
          (img.cols - 1) + (img.rows - 1) * watermark._width.toNat <
            watermark._width.toNat * watermark._height.toNat * watermark._depth.toNat *
              watermark._spectrum.toNat) ∧
      (watermark._width = img._width → watermark._height = img._height →
        (∀ offset, .watermark offset ∈ pipeProcessImageAccesses read img watermark →
          offset < watermark._width.toNat * watermark._height.toNat * watermark._depth.toNat *
            watermark._spectrum.toNat) ∧
        ∀ c < img.cols, ∀ r < img.rows, watermark.offset2 c r = watermark.offset c r 0 0)) ∧
    (∀ isStage2, pipeProcessImageHalfAccesses read img watermark isStage2 ⊆
      pipeProcessImageAccesses read img watermark) ∧
    processImageAccesses read img watermark ⊆ pipeProcessImageAccesses read img watermark ∧
    ∀ avg,
      Makes (fun watermark => pipeProcessImage img watermark avg)
        (fun read watermark => pipeProcessImageAccesses read img watermark) avg img watermark ∧
      (∀ isStage2, Makes (fun watermark => pipeProcessImageHalf img watermark avg isStage2)
        (fun read watermark => pipeProcessImageHalfAccesses read img watermark isStage2) avg img watermark) ∧
      ∃ loop, Makes loop (fun read watermark => processImageAccesses read img watermark) avg img watermark ∧
        ∀ env fileName world, processImage env fileName img watermark avg world =
          saveJpeg env ⟨fileName, loop watermark⟩ world := by
  refine ⟨?_, fun hindex => ⟨watermark_in_bounds_iff hindex, fun hwidth hheight => ⟨?_, ?_⟩⟩, ?_, ?_, fun avg => ⟨?_, ?_, ?_⟩⟩
  · intro offset htouched
    obtain ⟨r, hr, c, hc, ch, hch, rfl⟩ := img_mem_accesses htouched
    rw [← img.size_data]
    exact Img.offset_lt (hc.trans_le img.cols_le) ((List.mem_range.mp hr).trans_le img.rows_le)
      (hch.trans_le img.channels_le)
  · rw [watermark_in_bounds_iff hindex]
    by_cases hcols : img.cols = 0
    · exact Or.inl hcols
    · by_cases hrows : img.rows = 0
      · exact Or.inr (Or.inl hrows)
      · exact Or.inr (Or.inr (last_lt_size hwidth hheight hcols hrows))
  · intro c hc r hr
    exact (Img.offset2_eq_of_lt ((Buffer.grid_le_last hc hr).trans_lt hindex)).2
  · exact fun isStage2 => accesses_subset halfRows_subset
  · exact accesses_subset (List.Subset.refl _)
  · exact makes_watermarkRows avg img.cols (List.range img.rows)
  · exact fun isStage2 => makes_watermarkRows avg img.cols (halfRows img isStage2)
  · exact ⟨_, makes_watermarkRows avg img.cols (List.range img.rows), fun env fileName world => rfl⟩

/-- A watermark of the size of the image, and an empty one. -/
theorem accesses_in_bounds_inhabited :
    (∀ offset, .watermark offset ∈ pipeProcessImageAccesses (fun _ _ => 0) (Img.column 90 9) (Img.column 0 200) →
      offset < 2) ∧
    ∃ offset, .watermark offset ∈ pipeProcessImageAccesses (fun _ _ => 0) (Img.column 90 9) Img.empty := by
  have hsame := (accesses_in_bounds (Img.column 90 9) (Img.column 0 200) fun _ _ => 0).2.1 (by decide)
  have hempty := ((accesses_in_bounds (Img.column 90 9) Img.empty fun _ _ => 0).2.1 (by decide)).1
  refine ⟨(hsame.2 rfl rfl).1, ?_⟩
  by_contra hnone
  have hbounded := hempty.mp fun offset hread => absurd ⟨offset, hread⟩ hnone
  exact absurd hbounded (by decide)

/-- An image wider than an `int` can say. -/
def tooWide : Img where
  _width := 0x80000000
  _height := 1
  _depth := 1
  _spectrum := 1
  _data := List.replicate 0x80000000 0
  size_data := List.length_replicate
  empty_or_pos := Or.inr (by decide)
  size_lt := by decide

/-- Its width is negative for the loops, so that they read nothing, although the last position does not lie in an
empty watermark. -/
theorem tooWide_reads_nothing :
    (tooWide._width.toNat - 1) + (tooWide._height.toNat - 1) * Img.empty._width.toNat < 2 ^ 32 ∧
    ¬ ((∀ offset, .watermark offset ∈ pipeProcessImageAccesses (fun _ _ => 0) tooWide Img.empty →
        offset < Img.empty._width.toNat * Img.empty._height.toNat * Img.empty._depth.toNat * Img.empty._spectrum.toNat) ↔
      tooWide._width.toNat = 0 ∨ tooWide._height.toNat = 0 ∨
        (tooWide._width.toNat - 1) + (tooWide._height.toNat - 1) * Img.empty._width.toNat <
          Img.empty._width.toNat * Img.empty._height.toNat * Img.empty._depth.toNat * Img.empty._spectrum.toNat) := by
  refine ⟨by decide, fun hiff => absurd (hiff.mp fun offset hread => ?_) (by decide)⟩
  have hcols : tooWide.cols = 0 := by decide
  obtain ⟨r, -, c, hc, -⟩ := watermark_mem_accesses.mp hread
  omega

end ParallelWatermark
