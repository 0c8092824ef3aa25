import ParallelWatermark.Watermark

/-!
# The loops as sequences of updates

What the loops of `pipe_process_image` do to the image is a sequence of updates, each of one sample.
Which samples they are depends on the dimensions of the image and on the watermark alone, and no
update changes either.
-/

namespace ParallelWatermark

/-- A sample of the first slice. -/
structure Sample where
  c : Nat
  r : Nat
  ch : Nat
  deriving DecidableEq, Repr

/-- The body of the loop of `apply_watermark`. -/
def markSample (avg : Bool) (s : Sample) (img : Img) : Img := img.modify s.c s.r 0 s.ch (mark avg)

def markSamples (avg : Bool) (samples : List Sample) (img : Img) : Img :=
  samples.foldl (fun img s => markSample avg s img) img

/-- The samples that the loops update at a position: those of `apply_watermark`, if the watermark is
dark there. -/
def maskedSamples (img watermark : Img) (position : Nat × Nat) : List Sample :=
  if watermark.at2 position.1 position.2 < 50 then
    (List.range img.channels).map fun ch => ⟨position.1, position.2, ch⟩
  else []

/-- The positions `(c, r)` that the loops visit, in their order. -/
def positions (width : Nat) (rows : List Nat) : List (Nat × Nat) :=
  rows.flatMap fun r => (List.range width).map fun c => (c, r)

/-- The updates of `pipe_process_image` with `is_stage_2`. -/
def halfSamples (img watermark : Img) (isStage2 : Bool) : List Sample :=
  (positions img.cols (halfRows img isStage2)).flatMap (maskedSamples img watermark)

end ParallelWatermark
