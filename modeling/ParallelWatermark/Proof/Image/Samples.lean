import ParallelWatermark.Objects
import ParallelWatermark.Proof.Image.Rows

/-!
# What watermarking leaves of each sample

A sample of the first slice is marked exactly once if the watermark masks its pixel; every other
sample is left as it was.
-/

namespace ParallelWatermark

section Samples

variable {img watermark : Img} {x y z ch : Nat}

/-- The loops never leave the first slice. -/
theorem count_offsets_of_slice {rows : List Nat} (hrows : ∀ r ∈ rows, r < img.rows)
    (hx : x < img._width.toNat) (hy : y < img._height.toNat) (hz : z < img._depth.toNat)
    (hch : ch < img._spectrum.toNat) (hslice : z ≠ 0) :
    (rows.flatMap fun r => rowOffsets img watermark img.cols r).count (img.offset x y z ch) = 0 := by
  rw [List.count_eq_zero, List.mem_flatMap]
  intro htouched
  obtain ⟨r, hr, hi⟩ := htouched
  obtain ⟨c, ch', hc, -, hch', heq⟩ := mem_rowOffsets.mp hi
  have hsame := Img.offset4_injective (hc.trans_le img.cols_le) ((hrows r hr).trans_le img.rows_le)
    (by omega) (hch'.trans_le img.channels_le) hx hy hz hch heq
  exact hslice hsame.2.2.1.symm

theorem at4_pipeProcessImage (hindexable : img.Indexable) (hwidth : watermark._width = img._width)
    (hheight : watermark._height = img._height)
    (hx : x < img._width.toNat) (hy : y < img._height.toNat) (hz : z < img._depth.toNat)
    (hch : ch < img._spectrum.toNat) (average : Bool) :
    (pipeProcessImage img watermark average).at4 x y z ch =
      if z = 0 ∧ watermark.at4 x y 0 0 < 50 then mark average (img.at4 x y z ch) else img.at4 x y z ch := by
  have hrows : ∀ r ∈ List.range img.rows, r < img.rows := fun r hr => List.mem_range.mp hr
  have hmask : watermark.at2 x y = watermark.at4 x y 0 0 := by
    have hoffset : watermark.offset2 x y = watermark.offset x y 0 0 :=
      Img.offset2_eq (hwidth ▸ hx) (hheight ▸ hy) (by rw [hwidth, hheight]; exact hindexable.plane_le)
    rw [Img.at2, Img.at4, hoffset]
  rw [pipeProcessImage, watermarkRows_eq, Img.at4_update _ _ (Img.offset4_lt hx hy hz hch)]
  by_cases hslice : z = 0
  · subst hslice
    have hc : x < img.cols := hindexable.cols_eq ▸ hx
    have hr : y < img.rows := hindexable.rows_eq ▸ hy
    have hs : ch < img.channels := hindexable.channels_eq ▸ hch
    have honce : (List.range img.rows).count y = 1 :=
      List.count_eq_one_of_mem List.nodup_range (List.mem_range.mpr hr)
    rw [count_offsets hrows hc hr hs, honce, hmask]
    by_cases hdark : watermark.at4 x y 0 0 < 50 <;> simp [hdark]
  · rw [count_offsets_of_slice hrows hx hy hz hch hslice]
    simp [hslice]

end Samples

/-- `pipe_process_image` on an image with a watermark of the same width and height: it keeps the
dimensions and every other object, and marks exactly the masked samples of the first slice, each
once. `process_image` saves the same image and leaves the caller's as it was. -/
theorem watermarking_exact {objects : Objects} {img : Nat} (himg : img < objects.length)
    (hindexable : (objects.image img).Indexable) {watermark : Nat}
    (hwidth : (objects.image watermark)._width = (objects.image img)._width)
    (hheight : (objects.image watermark)._height = (objects.image img)._height) (average : Bool)
    (env : Env) (fileName : String) (world : World) :
    ((objects.pipeProcessImage img watermark average).image img)._data.length = (objects.image img)._data.length ∧
    (((objects.pipeProcessImage img watermark average).image img)._width = (objects.image img)._width ∧
      ((objects.pipeProcessImage img watermark average).image img)._height = (objects.image img)._height ∧
      ((objects.pipeProcessImage img watermark average).image img)._depth = (objects.image img)._depth ∧
      ((objects.pipeProcessImage img watermark average).image img)._spectrum = (objects.image img)._spectrum) ∧
    (∀ x y z ch, x < (objects.image img)._width.toNat → y < (objects.image img)._height.toNat →
      z < (objects.image img)._depth.toNat → ch < (objects.image img)._spectrum.toNat →
      ((objects.pipeProcessImage img watermark average).image img).at4 x y z ch =
        if z = 0 ∧ (objects.image watermark).at4 x y 0 0 < 50 then
          if average then (5 * (objects.image img).at4 x y z ch).tdiv 9 else 0
        else (objects.image img).at4 x y z ch) ∧
    (∀ other, other ≠ img →
      (objects.pipeProcessImage img watermark average).image other = objects.image other) ∧
    objects.processImage env fileName img watermark average world =
      (objects, saveJpeg env ⟨fileName, (objects.pipeProcessImage img watermark average).image img⟩ world) := by
  have hmarked : (objects.pipeProcessImage img watermark average).image img =
      pipeProcessImage (objects.image img) (objects.image watermark) average := by
    rw [Objects.pipeProcessImage_eq objects himg, Objects.image_set himg]
  have hupdate : ∃ offsets, (objects.pipeProcessImage img watermark average).image img =
      (objects.image img).update (mark average) offsets :=
    ⟨_, hmarked.trans (watermarkRows_eq average (objects.image img) (objects.image watermark) _ _)⟩
  obtain ⟨offsets, hoffsets⟩ := hupdate
  refine ⟨?_, ?_, ?_, ?_, ?_⟩
  · rw [hoffsets]
    exact Buffer.length_updateAt _ _ _
  · rw [hoffsets]
    exact ⟨rfl, rfl, rfl, rfl⟩
  · intro x y z ch hx hy hz hch
    rw [hmarked, at4_pipeProcessImage hindexable hwidth hheight hx hy hz hch]
    rfl
  · intro other hother
    rw [Objects.pipeProcessImage_eq objects himg, Objects.image_set_of_ne (Ne.symm hother)]
  · rw [Objects.processImage_eq, hmarked]
    rfl

/-- An image, and a watermark that masks the upper of its two samples. -/
def maskedAbove : Objects := [Img.column 120 9, Img.column 0 200]

theorem watermarking_exact_inhabited :
    ((maskedAbove.pipeProcessImage 0 1 true).image 0).at4 0 0 0 0 = 66 ∧
    ((maskedAbove.pipeProcessImage 0 1 true).image 0).at4 0 1 0 0 = 9 := by
  have himg : 0 < maskedAbove.length := by decide
  have hindexable : (maskedAbove.image 0).Indexable := ⟨by decide, by decide, by decide, by decide⟩
  have hwidth : (maskedAbove.image 1)._width = (maskedAbove.image 0)._width := rfl
  have hsamples := (watermarking_exact himg hindexable hwidth rfl true
    (uniformEnv [] Img.empty Img.empty true) "out/a" World.empty).2.2.1
  exact ⟨hsamples 0 0 0 0 (by decide) (by decide) (by decide) (by decide),
    hsamples 0 1 0 0 (by decide) (by decide) (by decide) (by decide)⟩

end ParallelWatermark
