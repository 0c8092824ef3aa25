import ParallelWatermark.Sequential

/-!
# Images as objects

The image objects that exist while `pipe_process_image` or `process_image` runs, the caller's first. A
parameter taken by reference names one of the caller's objects; a parameter taken by value is a copy,
made after them and destroyed when the function is left, by an exception as by a return.
-/

namespace ParallelWatermark

abbrev Objects := List Img

namespace Objects

/-- The object at an address. -/
def image (objects : Objects) (address : Nat) : Img := objects.getD address Img.empty

/-- `apply_watermark(avg, img, c, r)`, with `img` by reference. -/
def applyWatermark (avg : Bool) (img c r : Nat) (objects : Objects) : Objects :=
  (List.range (objects.image img).channels).foldl
    (fun objects ch => objects.modify img fun image => image.modify c r 0 ch (mark avg)) objects

def watermarkRows (img watermark : Nat) (avg : Bool) (width : Nat) (rows : List Nat)
    (objects : Objects) : Objects :=
  rows.foldl (fun objects r => (List.range width).foldl (fun objects c =>
    if (objects.image watermark).at2 c r < 50 then applyWatermark avg img c r objects
    else objects) objects) objects

/-- `pipe_process_image`: the image by reference, the watermark by value. -/
def pipeProcessImage (img watermark : Nat) (average : Bool) (objects : Objects) : Objects :=
  (watermarkRows img objects.length average (objects.image img).cols
    (List.range (objects.image img).rows) (objects ++ [objects.image watermark])).take objects.length

/-- `process_image`: both images by value. The copy of the image is saved. -/
def processImage (env : Env) (fileName : String) (img watermark : Nat) (average : Bool)
    (objects : Objects) (world : World) : Objects × Option World :=
  let copies := objects ++ [objects.image img, objects.image watermark]
  let img := objects.length
  let marked := watermarkRows img (objects.length + 1) average (image copies img).cols
    (List.range (image copies img).rows) copies
  (marked.take objects.length, saveJpeg env ⟨fileName, image marked img⟩ world)

/-! ### What the functions leave of the objects -/

section Set

variable {objects : Objects} {img watermark : Nat} {avg : Bool}

theorem image_set (himg : img < objects.length) (image : Img) :
    Objects.image (objects.set img image) img = image := by
  simp [Objects.image, himg]

theorem image_set_of_ne (hne : img ≠ watermark) (image : Img) :
    Objects.image (objects.set img image) watermark = objects.image watermark := by
  simp [Objects.image, List.getElem?_set_ne hne]

theorem set_image (himg : img < objects.length) : objects.set img (objects.image img) = objects := by
  simp [Objects.image, himg]

theorem modify_set (f : Img → Img) (image : Img) :
    (objects.set img image).modify img f = objects.set img (f image) := by
  apply List.ext_getElem?
  intro i
  by_cases hi : img = i
  · subst hi
    by_cases himg : img < objects.length
    · simp [himg]
    · simp [himg]
  · simp [List.getElem?_set_ne hi, hi]

theorem applyWatermark_set (himg : img < objects.length) (image : Img) (c r : Nat) :
    applyWatermark avg img c r (objects.set img image) =
      objects.set img (ParallelWatermark.applyWatermark avg image c r) := by
  rw [applyWatermark, image_set himg, ParallelWatermark.applyWatermark]
  exact List.foldl_hom (fun image => objects.set img image) fun image ch => modify_set _ image

/-- The loops change the object they are given, as the functions on values say, and nothing else. -/
theorem watermarkRows_eq (himg : img < objects.length) (hne : img ≠ watermark) (width : Nat)
    (rows : List Nat) :
    watermarkRows img watermark avg width rows objects =
      objects.set img
        (ParallelWatermark.watermarkRows (objects.image watermark) avg width rows (objects.image img)) := by
  have hset : ∀ image : Img, watermarkRows img watermark avg width rows (objects.set img image) =
      objects.set img (ParallelWatermark.watermarkRows (objects.image watermark) avg width rows image) := by
    intro image
    refine List.foldl_hom (fun image => objects.set img image) fun image r => ?_
    refine List.foldl_hom (fun image => objects.set img image) fun image c => ?_
    rw [image_set_of_ne hne, applyWatermark_set himg]
    split <;> rfl
  have hown := hset (objects.image img)
  rwa [set_image himg] at hown

end Set

/-! ### Calls -/

variable (objects copies : Objects)

theorem image_append_left {a : Nat} (ha : a < objects.length) :
    image (objects ++ copies) a = objects.image a := by
  simp [image, List.getElem?_append_left ha]

theorem image_append_right (i : Nat) : image (objects ++ copies) (objects.length + i) = image copies i := by
  simp [image, List.getElem?_append_right (Nat.le_add_right _ i)]

/-- `pipe_process_image` changes the caller's image as the function on values says, and no other
object. -/
theorem pipeProcessImage_eq {img : Nat} (himg : img < objects.length) (watermark : Nat) (average : Bool) :
    pipeProcessImage img watermark average objects =
      objects.set img
        (ParallelWatermark.pipeProcessImage (objects.image img) (objects.image watermark) average) := by
  have hlt : img < (objects ++ [objects.image watermark]).length := by
    rw [List.length_append]
    omega
  have hcopy : image (objects ++ [objects.image watermark]) objects.length = objects.image watermark :=
    image_append_right objects [objects.image watermark] 0
  rw [pipeProcessImage, watermarkRows_eq hlt (by omega), hcopy, image_append_left _ _ himg,
    List.set_append_left _ _ himg]
  exact List.take_left' (by simp)

/-- `process_image` saves what `pipe_process_image` would have made of the image, and changes none
of the caller's objects. -/
theorem processImage_eq (env : Env) (fileName : String) (img watermark : Nat) (average : Bool)
    (world : World) :
    processImage env fileName img watermark average objects world =
      (objects, ParallelWatermark.processImage env fileName (objects.image img) (objects.image watermark)
        average world) := by
  have hlt : objects.length < (objects ++ [objects.image img, objects.image watermark]).length := by
    rw [List.length_append, List.length_cons]
    omega
  have hcopy : image (objects ++ [objects.image img, objects.image watermark]) objects.length = objects.image img :=
    image_append_right objects [objects.image img, objects.image watermark] 0
  have hcopy' : image (objects ++ [objects.image img, objects.image watermark]) (objects.length + 1) =
      objects.image watermark := image_append_right objects [objects.image img, objects.image watermark] 1
  simp only [processImage, hcopy]
  rw [watermarkRows_eq hlt (by omega), hcopy, hcopy', image_set hlt, List.set_append_right _ _ (Nat.le_refl _)]
  exact Prod.ext (List.take_left' (by simp)) rfl

end Objects

end ParallelWatermark
