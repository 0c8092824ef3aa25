import Mathlib.Data.List.Nodup
import ParallelWatermark.Watermark

/-!
# Which samples the row loops touch, and how often

Running the loop over columns for a list of rows marks every masked sample of a row once for each
time the row occurs in the list, and nothing else. So two lists of rows leave the same image exactly
when marking a masked sample as often as its row occurs in the one or in the other comes to the
same.
-/

namespace ParallelWatermark

/-! ### The loops as one list of updates -/

/-- The offsets that `apply_watermark` touches. -/
def pixelOffsets (img : Img) (c r : Nat) : List Nat :=
  (List.range img.channels).map fun ch => img.offset c r 0 ch

def maskedColumns (watermark : Img) (width r : Nat) : List Nat :=
  (List.range width).filter fun c => watermark.at2 c r < 50

def rowOffsets (img watermark : Img) (width r : Nat) : List Nat :=
  (maskedColumns watermark width r).flatMap fun c => pixelOffsets img c r

/-- Steps that each update the image at offsets of their own add up to one update. -/
theorem foldl_update {χ : Type} (f : Int → Int) (img : Img) (step : Img → χ → Img)
    (offsets : χ → List Nat)
    (hstep : ∀ l x, step (img.update f l) x = (img.update f l).update f (offsets x)) (xs : List χ) :
    xs.foldl step img = img.update f (xs.flatMap offsets) := by
  have hgeneral : ∀ l, xs.foldl step (img.update f l) = img.update f (l ++ xs.flatMap offsets) := by
    induction xs with
    | nil => simp
    | cons x xs ih =>
      intro l
      rw [List.foldl_cons, hstep, Img.update_update, ih, List.flatMap_cons, List.append_assoc]
  exact hgeneral []

section Loops

variable (avg : Bool) (img watermark : Img)

theorem applyWatermark_eq (c r : Nat) :
    applyWatermark avg img c r = img.update (mark avg) (pixelOffsets img c r) := by
  rw [pixelOffsets, List.map_eq_flatMap]
  exact foldl_update (mark avg) img _ _ (fun _ _ => rfl) _

theorem row_eq (width r : Nat) :
    (List.range width).foldl (fun acc c => if watermark.at2 c r < 50 then applyWatermark avg acc c r else acc) img =
      img.update (mark avg) (rowOffsets img watermark width r) := by
  have hfilter : (maskedColumns watermark width r).foldl (fun acc c => applyWatermark avg acc c r) img =
      (List.range width).foldl (fun acc c => if watermark.at2 c r < 50 then applyWatermark avg acc c r else acc) img := by
    simp only [maskedColumns, List.foldl_filter, decide_eq_true_eq]
  rw [← hfilter]
  exact foldl_update (mark avg) img _ _ (fun l c => applyWatermark_eq avg (img.update (mark avg) l) c r) _

theorem watermarkRows_eq (width : Nat) (rows : List Nat) :
    watermarkRows watermark avg width rows img =
      img.update (mark avg) (rows.flatMap fun r => rowOffsets img watermark width r) :=
  foldl_update (mark avg) img _ _ (fun l r => row_eq avg (img.update (mark avg) l) watermark width r) rows

end Loops

/-! ### How often a sample is touched -/

section Counts

variable {img watermark : Img} {r r' c ch : Nat}

theorem mem_maskedColumns : c ∈ maskedColumns watermark img.cols r ↔
    c < img.cols ∧ watermark.at2 c r < 50 := by
  simp [maskedColumns]

theorem mem_rowOffsets {i : Nat} : i ∈ rowOffsets img watermark img.cols r ↔
    ∃ c ch, c < img.cols ∧ watermark.at2 c r < 50 ∧ ch < img.channels ∧
      img.offset c r 0 ch = i := by
  simp only [rowOffsets, pixelOffsets, List.mem_flatMap, List.mem_map, List.mem_range,
    mem_maskedColumns]
  constructor
  · intro hi
    obtain ⟨c, ⟨hc, hmask⟩, ch, hch, rfl⟩ := hi
    exact ⟨c, ch, hc, hmask, hch, rfl⟩
  · intro hi
    obtain ⟨c, ch, hc, hmask, hch, rfl⟩ := hi
    exact ⟨c, ⟨hc, hmask⟩, ch, hch, rfl⟩

theorem offset_inj {c' ch' : Nat} (hc : c < img.cols) (hr : r < img.rows) (hch : ch < img.channels)
    (hc' : c' < img.cols)
    (hr' : r' < img.rows) (hch' : ch' < img.channels) (heq : img.offset c r 0 ch = img.offset c' r' 0 ch') :
    c = c' ∧ r = r' ∧ ch = ch' :=
  Img.offset_injective (hc.trans_le img.cols_le) (hr.trans_le img.rows_le) (hch.trans_le img.channels_le)
    (hc'.trans_le img.cols_le) (hr'.trans_le img.rows_le) (hch'.trans_le img.channels_le) heq

/-- The loop over a row touches no sample twice. -/
theorem nodup_rowOffsets (hr : r < img.rows) : (rowOffsets img watermark img.cols r).Nodup := by
  rw [rowOffsets, List.nodup_flatMap]
  constructor
  · intro c hc
    apply List.nodup_range.map_on
    intro ch hch ch' hch' heq
    have hcol := (mem_maskedColumns.mp hc).1
    exact (offset_inj hcol hr (List.mem_range.mp hch) hcol hr (List.mem_range.mp hch') heq).2.2
  · have hnodup : (maskedColumns watermark img.cols r).Nodup := List.nodup_range.filter _
    apply hnodup.imp_of_mem
    intro c c' hc hc' hne i hi hi'
    obtain ⟨ch, hch, rfl⟩ := List.mem_map.mp hi
    obtain ⟨ch', hch', heq⟩ := List.mem_map.mp hi'
    exact hne (offset_inj (mem_maskedColumns.mp hc).1 hr (List.mem_range.mp hch) (mem_maskedColumns.mp hc').1 hr
      (List.mem_range.mp hch') heq.symm).1

theorem count_rowOffsets (hc : c < img.cols) (hr : r < img.rows) (hch : ch < img.channels)
    (hr' : r' < img.rows) :
    (rowOffsets img watermark img.cols r').count (img.offset c r 0 ch) =
      if r' = r ∧ watermark.at2 c r < 50 then 1 else 0 := by
  rw [(nodup_rowOffsets hr').count]
  congr 1
  rw [mem_rowOffsets, eq_iff_iff]
  constructor
  · intro htouched
    obtain ⟨c', ch', hc', hmask, hch', heq⟩ := htouched
    obtain ⟨rfl, rfl, rfl⟩ := offset_inj hc' hr' hch' hc hr hch heq
    exact ⟨rfl, hmask⟩
  · intro hrow
    obtain ⟨rfl, hmask⟩ := hrow
    exact ⟨c, ch, hc, hmask, hch, rfl⟩

/-- A masked sample is touched once for each time its row is visited, and no other sample is. -/
theorem count_offsets {rows : List Nat} (hrows : ∀ r ∈ rows, r < img.rows) (hc : c < img.cols)
    (hr : r < img.rows) (hch : ch < img.channels) :
    (rows.flatMap fun r => rowOffsets img watermark img.cols r).count (img.offset c r 0 ch) =
      if watermark.at2 c r < 50 then rows.count r else 0 := by
  induction rows with
  | nil => simp
  | cons r' rows ih =>
    have hr' := hrows r' List.mem_cons_self
    rw [List.flatMap_cons, List.count_append, count_rowOffsets hc hr hch hr',
      ih fun r hr => hrows r (List.mem_cons_of_mem _ hr), List.count_cons]
    by_cases hmask : watermark.at2 c r < 50 <;> by_cases heq : r' = r <;> simp [hmask, heq, Nat.add_comm]

end Counts

/-- Two runs of the loops leave the same image exactly when they mark each masked sample to the same
effect. -/
theorem watermarkRows_eq_iff {avg avg' : Bool} {img watermark : Img} {rows rows' : List Nat}
    (hrows : ∀ r ∈ rows, r < img.rows) (hrows' : ∀ r ∈ rows', r < img.rows) :
    watermarkRows watermark avg img.cols rows img = watermarkRows watermark avg' img.cols rows' img ↔
      ∀ r < img.rows, ∀ c < img.cols, ∀ ch < img.channels, watermark.at2 c r < 50 →
        (mark avg)^[rows.count r] (img.at4 c r 0 ch) = (mark avg')^[rows'.count r] (img.at4 c r 0 ch) := by
  rw [watermarkRows_eq, watermarkRows_eq, Img.update_eq_iff]
  constructor
  · intro hsame r hr c hc ch hch hmask
    have hlt := Img.offset_lt (hc.trans_le img.cols_le) (hr.trans_le img.rows_le) (hch.trans_le img.channels_le)
    have heq := hsame _ _ (Img.getElem?_offset hlt)
    rwa [count_offsets hrows hc hr hch, count_offsets hrows' hc hr hch, if_pos hmask, if_pos hmask] at heq
  · intro hsame i v hv
    by_cases htouched : ∃ r < img.rows, ∃ c < img.cols, ∃ ch < img.channels, img.offset c r 0 ch = i
    · obtain ⟨r, hr, c, hc, ch, hch, rfl⟩ := htouched
      rw [count_offsets hrows hc hr hch, count_offsets hrows' hc hr hch]
      by_cases hmask : watermark.at2 c r < 50
      · have hat : img.at4 c r 0 ch = v := by rw [Img.at4, List.getD_eq_getElem?_getD, hv, Option.getD_some]
        rw [if_pos hmask, if_pos hmask, ← hat]
        exact hsame r hr c hc ch hch hmask
      · rw [if_neg hmask, if_neg hmask, Function.iterate_zero, Function.iterate_zero]
    · -- No loop reaches this sample.
      have hnone : ∀ rows : List Nat, (∀ r ∈ rows, r < img.rows) →
          (rows.flatMap fun r => rowOffsets img watermark img.cols r).count i = 0 := by
        intro rows hrows
        rw [List.count_eq_zero, List.mem_flatMap]
        intro hrow
        obtain ⟨r, hr, hi⟩ := hrow
        obtain ⟨c, ch, hc, -, hch, heq⟩ := mem_rowOffsets.mp hi
        exact htouched ⟨r, hrows r hr, c, hc, ch, hch, heq⟩
      rw [hnone rows hrows, hnone rows' hrows', Function.iterate_zero, Function.iterate_zero]

/-! ### Marking a sample more than once -/

theorem natAbs_average (v : Int) : (average v).natAbs = 5 * v.natAbs / 9 := by
  rw [average, Int.natAbs_tdiv, Int.natAbs_mul]
  rfl

theorem natAbs_iterate_average_le (n : Nat) (v : Int) : (average^[n] v).natAbs ≤ v.natAbs := by
  induction n with
  | zero => exact Nat.le_refl _
  | succ n ih =>
    rw [Function.iterate_succ_apply', natAbs_average]
    omega

theorem natAbs_iterate_average_lt (n : Nat) {v : Int} (hv : v ≠ 0) :
    (average^[n + 1] v).natAbs < v.natAbs := by
  have hle := natAbs_iterate_average_le n v
  rw [Function.iterate_succ_apply', natAbs_average]
  omega

theorem average_eq_zero_iff {v : Int} : average v = 0 ↔ -1 ≤ v ∧ v ≤ 1 := by
  have habs := natAbs_average v
  omega

/-- Marking a sample several times is marking it once when it is blackened, or averaged from -1, 0
or 1. -/
theorem iterate_mark_eq_iff {avg : Bool} {n : Nat} (hn : 0 < n) (v : Int) :
    (mark avg)^[n] v = mark avg v ↔ avg = false ∨ n = 1 ∨ (-1 ≤ v ∧ v ≤ 1) := by
  obtain ⟨n, rfl⟩ : ∃ m, n = m + 1 := ⟨n - 1, by omega⟩
  cases avg with
  | false =>
    rw [Function.iterate_succ_apply']
    simp [mark]
  | true =>
    have hmark : mark true = average := rfl
    rw [hmark, Function.iterate_succ_apply]
    have habs := natAbs_average v
    cases n with
    | zero => simp
    | succ n =>
      by_cases hsmall : -1 ≤ v ∧ v ≤ 1
      · rw [average_eq_zero_iff.mpr hsmall, Function.iterate_fixed (by rfl)]
        simp [hsmall]
      · have hlt := natAbs_iterate_average_lt n (v := average v) (by omega)
        simp only [hsmall, or_false, Bool.true_eq_false, Nat.add_eq_right, Nat.succ_ne_zero,
          iff_false]
        intro heq
        rw [heq] at hlt
        omega

end ParallelWatermark
