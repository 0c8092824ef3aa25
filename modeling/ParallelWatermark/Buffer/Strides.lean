import Mathlib.Algebra.Order.Ring.Int
import Mathlib.Tactic.Linarith
import Mathlib.Tactic.Ring
import ParallelWatermark.Buffer.Ranges

/-!
# Cutting a loop into loops

`for (i = lo; i < hi; i += step)` is the same as the loops over `[lo, mid)` and over
`[mid - 1 + step, hi)` one after the other, if `mid - 1` is an index of the loop. `Walks` says that a
list of ranges is such a decomposition, and `pieces` is the one in which every range but the last has
the same width.
-/

namespace Buffer

/-- The indexes of the loop from `lo` up to `hi`. -/
def strided (step lo hi : Int) : List Int :=
  (List.range (-(-(hi - lo) / step)).toNat).map fun k : Nat => lo + k * step

/-- Ranges that a loop up to `hi` can be cut into, from `lo` on; it goes on at `next`. -/
inductive Walks (step hi : Int) : Int → List (Int × Int) → Int → Prop
  | nil (lo : Int) : Walks step hi lo [] lo
  | cons {lo mid next : Int} {ranges : List (Int × Int)} (hlt : lo < mid) (hle : mid ≤ hi)
      (hlast : step ∣ mid - 1 - lo ∨ mid = hi) (hrest : Walks step hi (mid - 1 + step) ranges next) :
      Walks step hi lo ((lo, mid) :: ranges) next

/-- The loop from `lo` to `hi` as loops over these ranges. -/
def Cut (step lo hi : Int) (ranges : List (Int × Int)) : Prop := ∃ next, Walks step hi lo ranges next ∧ hi ≤ next

namespace Walks

variable {step hi lo mid next : Int} {ranges ranges' : List (Int × Int)} {call : Int × Int}

theorem append (hwalks : Walks step hi lo ranges mid) (hwalks' : Walks step hi mid ranges' next) :
    Walks step hi lo (ranges ++ ranges') next := by
  induction hwalks with
  | nil _ => exact hwalks'
  | cons hlt hle hlast _ ih => exact .cons hlt hle hlast (ih hwalks')

theorem bounds (hstep : 0 < step) (hwalks : Walks step hi lo ranges next) (hcall : call ∈ ranges) :
    lo ≤ call.1 ∧ call.1 < call.2 ∧ call.2 ≤ hi := by
  induction hwalks with
  | nil _ => simp at hcall
  | cons hlt hle _ _ ih =>
    rcases List.mem_cons.mp hcall with rfl | hcall
    · exact ⟨Int.le_refl _, hlt, hle⟩
    · have := ih hcall
      omega

end Walks

theorem length_strided (step lo hi : Int) : (strided step lo hi).length = (-(-(hi - lo) / step)).toNat := by
  simp [strided]

theorem strided_of_le {step lo hi : Int} (hstep : 0 < step) (hle : hi ≤ lo) : strided step lo hi = [] := by
  rw [← List.length_eq_zero_iff, length_strided]
  have : 0 ≤ -(hi - lo) / step := Int.ediv_nonneg (by omega) hstep.le
  omega

theorem strided_of_lt {step lo hi : Int} (hstep : 0 < step) (hlt : lo < hi) :
    strided step lo hi = lo :: strided step (lo + step) hi := by
  have hcount : -(-(hi - lo) / step) = -(-(hi - (lo + step)) / step) + 1 := by
    have heq : -(hi - (lo + step)) = -(hi - lo) + 1 * step := by ring
    rw [heq, Int.add_mul_ediv_right _ _ hstep.ne']
    ring
  have hnonneg : 0 ≤ -(-(hi - (lo + step)) / step) := by
    have := Int.ediv_lt_of_lt_mul hstep (show -(hi - (lo + step)) < 1 * step by omega)
    omega
  rw [strided, hcount, Int.toNat_add hnonneg (by decide), strided]
  simp only [Int.toNat_one, List.range_succ_eq_map, List.map_cons, List.map_map]
  congr 1
  · simp
  · apply List.map_congr_left
    intro k _
    simp only [Function.comp_apply, Nat.succ_eq_add_one]
    push_cast
    ring

theorem strided_append {step lo mid hi : Int} (hstep : 0 < step) (hlt : lo < mid) (hle : mid ≤ hi)
    (hlast : step ∣ mid - 1 - lo ∨ mid = hi) :
    strided step lo hi = strided step lo mid ++ strided step (mid - 1 + step) hi := by
  rcases hlast with ⟨k, hk⟩ | rfl
  · have hnonneg : 0 ≤ k := by
      by_contra hneg
      have : step * k < 0 := mul_neg_of_pos_of_neg hstep (by omega)
      omega
    obtain ⟨n, rfl⟩ := Int.eq_ofNat_of_zero_le hnonneg
    clear hnonneg
    induction n generalizing lo with
    | zero =>
      have hmid : mid = lo + 1 := by simp at hk; omega
      subst hmid
      rw [strided_of_lt hstep (show lo < hi by omega), strided_of_lt hstep (show lo < lo + 1 by omega),
        strided_of_le hstep (show lo + 1 ≤ lo + step by omega), show lo + 1 - 1 + step = lo + step by ring]
      rfl
    | succ n ih =>
      have hk' : mid - 1 - (lo + step) = step * n := by
        push_cast at hk
        linarith
      have hpos : 0 ≤ step * (n : Int) := mul_nonneg hstep.le (Int.natCast_nonneg n)
      rw [strided_of_lt hstep (show lo < hi by omega), strided_of_lt hstep (show lo < mid by omega),
        ih (by omega) hk']
      rfl
  · rw [strided_of_le hstep (show mid ≤ mid - 1 + step by omega), List.append_nil]

theorem Walks.flatMap_strided {step hi lo next : Int} {ranges : List (Int × Int)} (hstep : 0 < step)
    (hwalks : Walks step hi lo ranges next) :
    ranges.flatMap (fun call => strided step call.1 call.2) ++ strided step next hi = strided step lo hi := by
  induction hwalks with
  | nil _ => rfl
  | cons hlt hle hlast _ ih =>
    rw [List.flatMap_cons, List.append_assoc, ih, ← strided_append hstep hlt hle hlast]

/-- The ranges of a cut have the indexes of the loop between them, each once and in order. -/
theorem Cut.flatMap_strided {step lo hi : Int} {ranges : List (Int × Int)} (hstep : 0 < step)
    (hcut : Cut step lo hi ranges) :
    ranges.flatMap (fun call => strided step call.1 call.2) = strided step lo hi := by
  obtain ⟨next, hwalks, hend⟩ := hcut
  have hall := hwalks.flatMap_strided hstep
  rwa [strided_of_le hstep hend, List.append_nil] at hall

/-! ### Steps of one -/

def toNatRange (call : Int × Int) : Nat × Nat := (call.1.toNat, call.2.toNat)

theorem Walks.consecutive {hi lo next : Int} {ranges : List (Int × Int)} (hlo : 0 ≤ lo)
    (hwalks : Walks 1 hi lo ranges next) : Consecutive lo.toNat next.toNat (ranges.map toNatRange) := by
  induction hwalks with
  | nil _ => exact .nil _
  | @cons lo mid next ranges hlt hle hlast hrest ih =>
    refine .cons (show lo.toNat < mid.toNat by omega) ?_
    have hmid : mid - 1 + 1 = mid := by omega
    rw [hmid] at ih
    exact ih (by omega)

theorem Walks.next_le {hi lo next : Int} {ranges : List (Int × Int)} (hwalks : Walks 1 hi lo ranges next)
    (hle : lo ≤ hi) : next ≤ hi := by
  induction hwalks with
  | nil _ => exact hle
  | cons hlt hmid _ _ ih => exact ih (by omega)

/-- A loop in steps of one over `[0, n)`, cut into ranges that are performed in any order. -/
theorem Cut.cuts {n : Nat} {ranges calls : List (Int × Int)} (hcut : Cut 1 0 n ranges) (hperm : calls.Perm ranges) :
    Cuts n (calls.map toNatRange) := by
  obtain ⟨next, hwalks, hend⟩ := hcut
  have hnext := hwalks.next_le (Int.natCast_nonneg n)
  have hranges := hwalks.consecutive (Int.le_refl 0)
  rw [show next = n by omega] at hranges
  exact ⟨ranges.map toNatRange, by simpa using hranges, hperm.map _⟩

/-! ### Pieces of one width -/

/-- The ranges of the given width from `lo` on, the last of them cut off at `hi`. -/
def pieces (step width hi lo : Int) : List (Int × Int) :=
  if lo < hi ∧ 0 < width ∧ 0 < step then
    (lo, min (lo + width) hi) :: pieces step width hi (min (lo + width) hi - 1 + step)
  else []
termination_by (hi - lo).toNat

section Pieces

variable {step width hi lo : Int}

theorem pieces_of_le (hle : hi ≤ lo) : pieces step width hi lo = [] := by
  rw [pieces, if_neg (by omega)]

theorem pieces_of_lt (hstep : 0 < step) (hwidth : 0 < width) (hlt : lo < hi) : pieces step width hi lo =
    (lo, min (lo + width) hi) :: pieces step width hi (min (lo + width) hi - 1 + step) := by
  rw [pieces, if_pos ⟨hlt, hwidth, hstep⟩]

theorem snd_le_of_mem_pieces {call : Int × Int} (hcall : call ∈ pieces step width hi lo) : call.2 ≤ call.1 + width := by
  induction hn : (hi - lo).toNat using Nat.strongRecOn generalizing lo with
  | _ n ih =>
    rw [pieces] at hcall
    split_ifs at hcall with hmore
    · rcases List.mem_cons.mp hcall with rfl | hcall
      · exact min_le_left _ _
      · exact ih _ (by omega) hcall rfl
    · simp at hcall

end Pieces

theorem length_strided_le {step chunk lo hi : Int} (hstep : 0 < step) (hchunk : 0 ≤ chunk)
    (hle : hi ≤ lo + ((chunk - 1) * step + 1)) : ((strided step lo hi).length : Int) ≤ chunk := by
  have hexpand : (chunk - 1) * step = chunk * step - step := by ring
  have hlow : -chunk ≤ -(hi - lo) / step := Int.le_ediv_of_mul_le hstep (by
    have : -chunk * step = -(chunk * step) := by ring
    omega)
  rw [length_strided]
  omega

theorem length_flatMap_le {χ χ' : Type*} {f : χ → List χ'} {l : List χ} {c : Nat} (hle : ∀ x ∈ l, (f x).length ≤ c) :
    (l.flatMap f).length ≤ l.length * c := by
  induction l with
  | nil => simp
  | cons x l ih =>
    have hhead := hle x List.mem_cons_self
    have htail := ih fun y hy => hle y (List.mem_cons_of_mem _ hy)
    rw [List.flatMap_cons, List.length_append, List.length_cons, Nat.add_mul, Nat.one_mul]
    omega

/-- Where the index before the end of a range that is one piece at most lies beyond the full piece, it
is not an index of the loop. -/
theorem not_dvd_of_between {step chunk lo stop : Int} (hstep : 0 < step) (hmore : lo + (chunk - 1) * step + 1 < stop)
    (henough : stop ≤ lo + chunk * step) : ¬ step ∣ stop - 1 - lo := by
  rintro ⟨k, hk⟩
  have hlow : (chunk - 1) * step < k * step := by linarith
  have hhigh : k * step < chunk * step := by linarith
  have := lt_of_mul_lt_mul_right hlow hstep.le
  have := lt_of_mul_lt_mul_right hhigh hstep.le
  omega

/-- The pieces of `[lo, stop)`, each with `chunk` indexes and the last of them with fewer perhaps: `t + 1`
of them if `t` are not enough. -/
theorem walks_pieces {step chunk stop hi : Int} (hstep : 0 < step) (hchunk : 0 < chunk) (hle : stop ≤ hi) (t : Nat)
    {lo : Int} (hmore : lo + t * chunk * step < stop) (henough : stop ≤ lo + (t + 1) * chunk * step)
    (hlast : step ∣ stop - 1 - lo ∨ stop = hi) :
    ∃ next, Walks step hi lo (pieces step ((chunk - 1) * step + 1) stop lo) next ∧
      (pieces step ((chunk - 1) * step + 1) stop lo).length = t + 1 ∧ stop ≤ next ∧
      (step ∣ stop - 1 - lo → next = stop - 1 + step) := by
  have hnonneg : 0 ≤ (chunk - 1) * step := mul_nonneg (by omega) hstep.le
  have hwidth : 0 < (chunk - 1) * step + 1 := by omega
  have hfull : (chunk - 1) * step + step = chunk * step := by ring
  induction t generalizing lo with
  | zero =>
    simp only [Nat.cast_zero, zero_mul, add_zero, zero_add, one_mul] at hmore henough
    rw [pieces_of_lt hstep hwidth hmore]
    rcases lt_or_ge (lo + ((chunk - 1) * step + 1)) stop with hcut | hwhole
    · rw [min_eq_left hcut.le, pieces_of_le (by omega)]
      refine ⟨lo + chunk * step, .cons (by omega) (by omega) (Or.inl ⟨chunk - 1, by ring⟩) ?_, rfl, henough, ?_⟩
      · rw [show lo + ((chunk - 1) * step + 1) - 1 + step = lo + chunk * step by linarith]
        exact .nil _
      · exact fun hdvd => absurd hdvd (not_dvd_of_between hstep (by omega) henough)
    · rw [min_eq_right hwhole, pieces_of_le (by omega)]
      exact ⟨stop - 1 + step, .cons hmore hle hlast (.nil _), rfl, by omega, fun _ => rfl⟩
  | succ t ih =>
    push_cast at hmore henough
    have hpos : 0 ≤ (t : Int) * chunk * step := mul_nonneg (mul_nonneg (Int.natCast_nonneg t) hchunk.le) hstep.le
    have hexpand : ((t : Int) + 1) * chunk * step = t * chunk * step + chunk * step := by ring
    have hexpand' : ((t : Int) + 1 + 1) * chunk * step = (t + 1) * chunk * step + chunk * step := by ring
    have hnext : lo + ((chunk - 1) * step + 1) - 1 + step = lo + chunk * step := by linarith
    rw [pieces_of_lt hstep hwidth (by omega), min_eq_left (by omega), hnext]
    have hshift : step ∣ stop - 1 - lo → step ∣ stop - 1 - (lo + chunk * step) := by
      intro h
      rw [show stop - 1 - (lo + chunk * step) = stop - 1 - lo - step * chunk by ring]
      exact Int.dvd_sub h (Dvd.intro _ rfl)
    obtain ⟨next, hwalks, hlength, hend, hdvd⟩ :=
      @ih (lo + chunk * step) (by linarith) (by linarith) (hlast.imp_left hshift)
    exact ⟨next, .cons (by omega) (by omega) (Or.inl ⟨chunk - 1, by ring⟩) (by rwa [hnext]), by simp [hlength], hend,
      fun h => hdvd (hshift h)⟩

end Buffer
