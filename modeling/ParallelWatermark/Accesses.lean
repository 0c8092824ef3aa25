import ParallelWatermark.Watermark

/-!
# The memory accesses of the loops

The offsets at which the loops read the watermark and touch the samples of the image, in order. What
a read of the watermark returns is a parameter: past the end of the buffer it can be anything, and
whether the image is touched depends on it.
-/

namespace ParallelWatermark

inductive Access where
  | watermark (offset : Nat)
  | img (offset : Nat)  -- a write, in average mode of what has just been read there
  deriving DecidableEq, Repr

def Access.img? : Access → Option Nat
  | .img offset => some offset
  | .watermark _ => none

/-- The offsets of the samples that are touched. -/
def touched (accesses : List Access) : List Nat := accesses.filterMap Access.img?

section Loops

variable (read : Nat → Nat → Int) (img watermark : Img)

/-- The accesses of `apply_watermark(average, img, c, r)`. -/
def applyWatermarkAccesses (c r : Nat) : List Access :=
  (List.range img.channels).map fun ch => .img (img.offset c r 0 ch)

/-- The body of the loop over columns, with what `watermark(c, r)` reads. -/
def positionAccesses (c r : Nat) : List Access :=
  .watermark (watermark.offset2 c r) :: if read c r < 50 then applyWatermarkAccesses img c r else []

def watermarkRowsAccesses (width : Nat) (rows : List Nat) : List Access :=
  rows.flatMap fun r => (List.range width).flatMap fun c => positionAccesses read img watermark c r

def pipeProcessImageAccesses : List Access :=
  watermarkRowsAccesses read img watermark img.cols (List.range img.rows)

def pipeProcessImageHalfAccesses (isStage2 : Bool) : List Access :=
  watermarkRowsAccesses read img watermark img.cols (halfRows img isStage2)

/-- The loops of `process_image`, on its copies of the two images. -/
def processImageAccesses : List Access :=
  watermarkRowsAccesses read img watermark img.cols (List.range img.rows)

end Loops

end ParallelWatermark
