import Mathlib.Tactic.Ring
import ParallelWatermark.Buffer.InPlace
import ParallelWatermark.Buffer.Layout

/-!
# Images

`Img` is `CImg<int>`: four dimensions kept as 32-bit unsigned integers and one flat buffer of
samples. The accessors `width()`, `height()` and `spectrum()` return the dimensions as `int`, and
the two ways of addressing a sample compute their offset in different integer types: `unsigned int`
for `(x, y)`, 64 bits for `(x, y, z, c)`.
-/

namespace ParallelWatermark

structure Img where
  _width : UInt32
  _height : UInt32
  _depth : UInt32
  _spectrum : UInt32
  _data : List Int
  size_data : _data.length = _width.toNat * _height.toNat * _depth.toNat * _spectrum.toNat
  /-- An image with an empty dimension is empty in all of them. -/
  empty_or_pos : (_width = 0 ∧ _height = 0 ∧ _depth = 0 ∧ _spectrum = 0) ∨
    (0 < _width ∧ 0 < _height ∧ 0 < _depth ∧ 0 < _spectrum)
  size_lt : _width.toNat * _height.toNat * _depth.toNat * _spectrum.toNat < 2 ^ 64
  deriving DecidableEq, Repr

namespace Img

/-- `CImg()`. -/
def empty : Img := ⟨0, 0, 0, 0, [], rfl, Or.inl ⟨rfl, rfl, rfl, rfl⟩, by decide⟩

/-- An image one pixel wide and two pixels high, with one channel. -/
def column (top bottom : Int) : Img :=
  ⟨1, 2, 1, 1, [top, bottom], rfl, Or.inr (by decide), by decide⟩

variable (img : Img)

def width : Int := img._width.toBitVec.toInt
def height : Int := img._height.toBitVec.toInt
def spectrum : Int := img._spectrum.toBitVec.toInt

/-- The offset of `(x, y)`, in `unsigned int`. -/
def offset2 (x y : Nat) : Nat := (x + y * img._width.toNat) % 2 ^ 32

/-- The offset of `(x, y, z, c)`, in 64 bits. -/
def offset (x y z c : Nat) : Nat :=
  (x + y * img._width.toNat + z * img._width.toNat * img._height.toNat +
    c * img._width.toNat * img._height.toNat * img._depth.toNat) % 2 ^ 64

/-- The sample read by `img(x, y)`. A read past the end of the buffer, which is undefined in the
source, is 0 here. -/
def at2 (x y : Nat) : Int := img._data.getD (img.offset2 x y) 0

def at4 (x y z c : Nat) : Int := img._data.getD (img.offset x y z c) 0

/-- The image with `f` applied in place at the given offsets, one after the other. -/
def update (f : Int → Int) (offsets : List Nat) : Img :=
  { img with
    _data := Buffer.updateAt f offsets img._data
    size_data := by rw [Buffer.length_updateAt, img.size_data] }

/-- `img(x, y, z, c) = f(img(x, y, z, c))`. -/
def modify (x y z c : Nat) (f : Int → Int) : Img := img.update f [img.offset x y z c]

section Update

variable (f : Int → Int) (offsets offsets' : List Nat)

variable {img}

theorem ext_data {img' : Img} (hw : img._width = img'._width) (hh : img._height = img'._height)
    (hd : img._depth = img'._depth) (hs : img._spectrum = img'._spectrum)
    (hdata : img._data = img'._data) :
    img = img' := by
  cases img
  cases img'
  simp_all

theorem update_update : (img.update f offsets).update f offsets' = img.update f (offsets ++ offsets') :=
  ext_data rfl rfl rfl rfl (Buffer.updateAt_append f offsets offsets' img._data).symm

theorem update_eq_iff {f' : Int → Int} {offsets offsets' : List Nat} :
    img.update f offsets = img.update f' offsets' ↔
    ∀ i v, img._data[i]? = some v → f^[offsets.count i] v = f'^[offsets'.count i] v := by
  rw [← Buffer.updateAt_eq_iff]
  constructor
  · intro heq
    exact congrArg Img._data heq
  · intro hdata
    exact ext_data rfl rfl rfl rfl hdata

end Update

/-! ### The loops' ranges and the offsets they reach -/

/-- The rows visited by `for (int r = 0; r < img.height(); r++)`, and so on for columns and
channels. -/
def rows : Nat := img.height.toNat
def cols : Nat := img.width.toNat
def channels : Nat := img.spectrum.toNat

theorem toNat_toInt_le (w : UInt32) : w.toBitVec.toInt.toNat ≤ w.toNat := by
  rw [BitVec.toInt_eq_toNat_cond]
  have : w.toBitVec.toNat = w.toNat := rfl
  split <;> omega

theorem rows_le : img.rows ≤ img._height.toNat := toNat_toInt_le _
theorem cols_le : img.cols ≤ img._width.toNat := toNat_toInt_le _
theorem channels_le : img.channels ≤ img._spectrum.toNat := toNat_toInt_le _

/-- The dimensions fit the `int` that the accessors return them in, and the offsets of `(x, y)` the
`unsigned int` they are computed in. -/
structure Indexable (img : Img) : Prop where
  width_lt : img._width.toNat < 2 ^ 31
  height_lt : img._height.toNat < 2 ^ 31
  spectrum_lt : img._spectrum.toNat < 2 ^ 31
  plane_le : img._width.toNat * img._height.toNat ≤ 2 ^ 32

theorem toNat_toInt_eq {w : UInt32} (hw : w.toNat < 2 ^ 31) : w.toBitVec.toInt.toNat = w.toNat := by
  rw [BitVec.toInt_eq_toNat_cond]
  have : w.toBitVec.toNat = w.toNat := rfl
  split <;> omega

variable {img}

theorem Indexable.cols_eq (hindexable : img.Indexable) : img.cols = img._width.toNat :=
  toNat_toInt_eq hindexable.width_lt

theorem Indexable.rows_eq (hindexable : img.Indexable) : img.rows = img._height.toNat :=
  toNat_toInt_eq hindexable.height_lt

theorem Indexable.channels_eq (hindexable : img.Indexable) : img.channels = img._spectrum.toNat :=
  toNat_toInt_eq hindexable.spectrum_lt

theorem depth_pos {x : Nat} (hx : x < img._width.toNat) : 0 < img._depth.toNat := by
  rcases img.empty_or_pos with ⟨hw, -⟩ | ⟨-, -, hd, -⟩
  · rw [hw] at hx
    simp at hx
  · exact UInt32.lt_iff_toNat_lt.mp hd

theorem spectrum_pos {x : Nat} (hx : x < img._width.toNat) : 0 < img._spectrum.toNat := by
  rcases img.empty_or_pos with ⟨hw, -⟩ | ⟨-, -, -, hs⟩
  · rw [hw] at hx
    simp at hx
  · exact UInt32.lt_iff_toNat_lt.mp hs

section Positions

variable {x y z c x' y' z' c' : Nat}

theorem position4_lt (hx : x < img._width.toNat) (hy : y < img._height.toNat)
    (hz : z < img._depth.toNat) (hc : c < img._spectrum.toNat) :
    x + img._width.toNat * (y + img._height.toNat * (z + img._depth.toNat * c)) < img._data.length := by
  have hlt := Buffer.digit_lt hx (Buffer.digit_lt hy (Buffer.digit_lt hz hc))
  rw [img.size_data]
  simpa only [Nat.mul_assoc] using hlt

theorem offset4_eq (hx : x < img._width.toNat) (hy : y < img._height.toNat)
    (hz : z < img._depth.toNat) (hc : c < img._spectrum.toNat) :
    img.offset x y z c = x + img._width.toNat * (y + img._height.toNat * (z + img._depth.toNat * c)) := by
  have hlt := position4_lt hx hy hz hc
  have hsize := img.size_lt
  rw [← img.size_data] at hsize
  have hplain : x + y * img._width.toNat + z * img._width.toNat * img._height.toNat +
      c * img._width.toNat * img._height.toNat * img._depth.toNat =
        x + img._width.toNat * (y + img._height.toNat * (z + img._depth.toNat * c)) := by ring
  rw [offset, hplain, Nat.mod_eq_of_lt (hlt.trans hsize)]

theorem offset4_lt (hx : x < img._width.toNat) (hy : y < img._height.toNat)
    (hz : z < img._depth.toNat) (hc : c < img._spectrum.toNat) :
    img.offset x y z c < img._data.length :=
  offset4_eq hx hy hz hc ▸ position4_lt hx hy hz hc

/-- Different samples lie at different offsets. -/
theorem offset4_injective (hx : x < img._width.toNat) (hy : y < img._height.toNat)
    (hz : z < img._depth.toNat) (hc : c < img._spectrum.toNat) (hx' : x' < img._width.toNat)
    (hy' : y' < img._height.toNat) (hz' : z' < img._depth.toNat) (hc' : c' < img._spectrum.toNat)
    (heq : img.offset x y z c = img.offset x' y' z' c') : x = x' ∧ y = y' ∧ z = z' ∧ c = c' := by
  rw [offset4_eq hx hy hz hc, offset4_eq hx' hy' hz' hc'] at heq
  obtain ⟨hcolumn, hrest⟩ := Buffer.digit_injective hx hx' heq
  obtain ⟨hrow, hrest⟩ := Buffer.digit_injective hy hy' hrest
  obtain ⟨hslice, hchannel⟩ := Buffer.digit_injective hz hz' hrest
  exact ⟨hcolumn, hrow, hslice, hchannel⟩

theorem offset_lt (hx : x < img._width.toNat) (hy : y < img._height.toNat)
    (hc : c < img._spectrum.toNat) : img.offset x y 0 c < img._data.length :=
  offset4_lt hx hy (depth_pos hx) hc

/-- Different samples of the first slice lie at different offsets. -/
theorem offset_injective (hx : x < img._width.toNat) (hy : y < img._height.toNat)
    (hc : c < img._spectrum.toNat) (hx' : x' < img._width.toNat) (hy' : y' < img._height.toNat)
    (hc' : c' < img._spectrum.toNat) (heq : img.offset x y 0 c = img.offset x' y' 0 c') :
    x = x' ∧ y = y' ∧ c = c' := by
  have hd := depth_pos hx
  obtain ⟨hcolumn, hrow, -, hchannel⟩ := offset4_injective hx hy hd hc hx' hy' hd hc' heq
  exact ⟨hcolumn, hrow, hchannel⟩

/-- Where `(x, y)` does not overflow it addresses the sample of the first slice and channel. -/
theorem offset2_eq_of_lt (hlt : x + y * img._width.toNat < 2 ^ 32) :
    img.offset2 x y = x + y * img._width.toNat ∧ img.offset2 x y = img.offset x y 0 0 := by
  have hplain : x + y * img._width.toNat + 0 * img._width.toNat * img._height.toNat +
      0 * img._width.toNat * img._height.toNat * img._depth.toNat = x + y * img._width.toNat := by ring
  rw [offset2, offset, hplain, Nat.mod_eq_of_lt hlt, Nat.mod_eq_of_lt (by omega)]
  exact ⟨rfl, rfl⟩

theorem offset2_eq (hx : x < img._width.toNat) (hy : y < img._height.toNat)
    (hindex : img._width.toNat * img._height.toNat ≤ 2 ^ 32) :
    img.offset2 x y = img.offset x y 0 0 := by
  apply (offset2_eq_of_lt _).2
  rw [Nat.mul_comm y]
  exact (Buffer.digit_lt hx hy).trans_le hindex

theorem getElem?_offset (hlt : img.offset x y z c < img._data.length) :
    img._data[img.offset x y z c]? = some (img.at4 x y z c) := by
  rw [at4, List.getD_eq_getElem?_getD, List.getElem?_eq_getElem hlt, Option.getD_some]

theorem at4_update (f : Int → Int) (offsets : List Nat) (hlt : img.offset x y z c < img._data.length) :
    (img.update f offsets).at4 x y z c = f^[offsets.count (img.offset x y z c)] (img.at4 x y z c) := by
  have hdata : (img.update f offsets)._data[img.offset x y z c]? =
      some (f^[offsets.count (img.offset x y z c)] (img.at4 x y z c)) := by
    rw [update, Buffer.getElem?_updateAt, getElem?_offset hlt]
    rfl
  have hoffset : (img.update f offsets).offset x y z c = img.offset x y z c := rfl
  rw [at4, hoffset, List.getD_eq_getElem?_getD, hdata, Option.getD_some]

end Positions

end Img

end ParallelWatermark
