import Mathlib.Data.List.Count
import Mathlib.Logic.Function.Iterate

/-!
# In-place updates of a flat buffer

`updateAt f offsets buf` applies `f` in place at each offset of a list, in order. What is left at an
offset depends only on how often the offset occurs in the list: updates by one function commute,
whatever the function and wherever they hit.
-/

namespace Buffer

variable {α : Type*}

def updateAt (f : α → α) (offsets : List Nat) (buf : List α) : List α :=
  offsets.foldl (fun buf offset => buf.modify offset f) buf

variable (f : α → α) (offsets offsets' : List Nat) (buf : List α)

@[simp] theorem updateAt_nil : updateAt f [] buf = buf := rfl

@[simp] theorem updateAt_cons (offset : Nat) :
    updateAt f (offset :: offsets) buf = updateAt f offsets (buf.modify offset f) := rfl

theorem updateAt_append : updateAt f (offsets ++ offsets') buf = updateAt f offsets' (updateAt f offsets buf) :=
  List.foldl_append

@[simp] theorem length_updateAt : (updateAt f offsets buf).length = buf.length := by
  induction offsets generalizing buf with
  | nil => rfl
  | cons offset offsets ih => rw [updateAt_cons, ih, List.length_modify]

theorem getElem?_updateAt (i : Nat) :
    (updateAt f offsets buf)[i]? = buf[i]?.map f^[offsets.count i] := by
  induction offsets generalizing buf with
  | nil => simp
  | cons offset offsets ih =>
    rw [updateAt_cons, ih, List.getElem?_modify]
    by_cases hi : offset = i
    · subst hi
      cases buf[offset]? <;> simp
    · cases buf[i]? <;> simp [hi, List.count_cons_of_ne hi]

variable {f offsets offsets' buf}

/-- Two update sequences leave the same buffer exactly when they agree at each sample on the
sample's own value. -/
theorem updateAt_eq_iff {f' : α → α} : updateAt f offsets buf = updateAt f' offsets' buf ↔
    ∀ i v, buf[i]? = some v → f^[offsets.count i] v = f'^[offsets'.count i] v := by
  constructor
  · intro heq i v hv
    have hi := congrArg (fun b : List α => b[i]?) heq
    simpa [getElem?_updateAt, hv] using hi
  · intro hagree
    apply List.ext_getElem?
    intro i
    rw [getElem?_updateAt, getElem?_updateAt]
    cases hv : buf[i]? with
    | none => rfl
    | some v => simp [hagree i v hv]

theorem updateAt_perm (hperm : offsets.Perm offsets') : updateAt f offsets buf = updateAt f offsets' buf := by
  rw [updateAt_eq_iff]
  intro i v _
  rw [hperm.count_eq]

end Buffer
