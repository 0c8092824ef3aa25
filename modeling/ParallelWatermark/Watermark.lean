import ParallelWatermark.Image

/-!
# Watermarking an image

The functions of `util.cpp` that change pixels. A pixel is marked where the watermark is darker than
50 in its first channel; marking a pixel touches all its channels in place, blackening them or, in
average mode, dividing them by 1.8.
-/

namespace ParallelWatermark

/-- `sample/(1.8)` stored back into an `int`: five ninths of the sample, truncated towards zero. For
a 32-bit sample the rounding of the division never shows: multiples of 9 divide exactly, and the
others are too far from an integer. -/
def average (sample : Int) : Int := (5 * sample).tdiv 9

/-- What `apply_watermark` leaves of one sample. -/
def mark (avg : Bool) (sample : Int) : Int := if avg then average sample else 0

def applyWatermark (avg : Bool) (img : Img) (c r : Nat) : Img :=
  (List.range img.channels).foldl (fun img ch => img.modify c r 0 ch (mark avg)) img

/-- The loop over columns and the test on the watermark, for each of the given rows in turn. -/
def watermarkRows (watermark : Img) (avg : Bool) (width : Nat) (rows : List Nat) (img : Img) :
    Img :=
  rows.foldl (fun img r => (List.range width).foldl (fun img c =>
    if watermark.at2 c r < 50 then applyWatermark avg img c r else img) img) img

/-- `pipe_process_image`, with all rows. -/
def pipeProcessImage (img watermark : Img) (avg : Bool) : Img :=
  watermarkRows watermark avg img.cols (List.range img.rows) img

/-- The rows of the overload with `is_stage_2`: those above `height/2`, or the rest. -/
def halfRows (img : Img) (isStage2 : Bool) : List Nat :=
  let limY := (img.height.tdiv 2).toNat
  if isStage2 then List.range limY else List.range' limY (img.height.toNat - limY)

/-- `pipe_process_image` with `is_stage_2`. -/
def pipeProcessImageHalf (img watermark : Img) (avg isStage2 : Bool) : Img :=
  watermarkRows watermark avg img.cols (halfRows img isStage2) img

end ParallelWatermark
