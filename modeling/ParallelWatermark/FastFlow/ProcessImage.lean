import ParallelWatermark.FastFlow
import ParallelWatermark.FastFlow.ParallelFor.Idx
import ParallelWatermark.Updates

/-!
# `ff_process_image` on its workers

The function that `ff_process_image` hands to `parallel_for_idx` is a sequence of updates for each
range. They are performed one at a time, those of different workers in any order.
-/

namespace ParallelWatermark.FastFlow

open ParallelFor

/-- The updates for the rows of a range. The two loops over the rows are nested. -/
def rangeSamples (img watermark : Img) (task : ForallTask) : List Sample :=
  let rows := List.range' task.start.toNat (task.stop.toNat - task.start.toNat)
  rows.flatMap fun _r => (positions img.cols rows).flatMap (maskedSamples img watermark)

/-- `ff_process_image(img, watermark, chunk, average)` makes these calls and leaves `img'`. -/
def FfProcessImage (numCores : Nat) (maxNw : Int) (img watermark : Img) (chunk : Int) (average : Bool)
    (calls : List ForallTask) (img' : Img) : Prop :=
  parallelForIdx numCores maxNw 0 img.height 1 chunk (rangeSamples img watermark) (markSample average) img calls img'

end ParallelWatermark.FastFlow
