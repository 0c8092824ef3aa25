import ParallelWatermark.BoundedSource
import ParallelWatermark.Proof.Network.Outcome

/-!
# What the bounded emitters push

The first names of the listing, as many as `nImgs` allows, and then the `"EOS"` strings.
-/

namespace ParallelWatermark

open Process

/-- What a bounded emitter pushes. -/
def boundedStream (env : Env) (nImgs : Int) (onFailure atEnd : Nat) : List String :=
  match env.dir with
  | none => List.replicate onFailure "EOS"
  | some _ => env.listing.take nImgs.toNat ++ List.replicate atEnd "EOS"

/-- The names the loop pushes from a given count on. -/
def namesFrom (nImgs : Int) (entries : List String) (i : Int) : List String :=
  (entries.filter fun s => !isDots s).take (nImgs - i).toNat

section Names

variable {nImgs i : Int} {entry : String} (entries : List String)

theorem namesFrom_of_le (hle : nImgs ≤ i) : namesFrom nImgs entries i = [] := by
  rw [namesFrom, Int.toNat_of_nonpos (by omega), List.take_zero]

theorem namesFrom_cons_of_dots (hdots : isDots entry = true) :
    namesFrom nImgs (entry :: entries) i = namesFrom nImgs entries i := by
  simp [namesFrom, hdots]

theorem namesFrom_cons (hlt : i < nImgs) (hdots : isDots entry = false) :
    namesFrom nImgs (entry :: entries) i = entry :: namesFrom nImgs entries (i + 1) := by
  have hleft : (nImgs - i).toNat = (nImgs - (i + 1)).toNat + 1 := by omega
  simp [namesFrom, hdots, hleft]

end Names

section Emitter

variable {env : Env} {nImgs : Int} {onFailure atEnd : Nat}

theorem bounded_yields_sendingEos (left : Nat) (i : Int) :
    (boundedSource env nImgs onFailure atEnd).Yields (⟨.sendingEos left, i⟩ : BoundedState)
      (List.replicate left "EOS") (⟨.returned, i⟩ : BoundedState) := by
  induction left with
  | zero => exact .skip rfl (.halt rfl)
  | succ left ih => exact .emit rfl ih

/-- The loop is left where the entries or the count have come to their end. -/
theorem bounded_yields_of_done {entries : List String} {i : Int} (hnames : namesFrom nImgs entries i = [])
    (hnext : boundedNext env nImgs onFailure atEnd ⟨.reading entries, i⟩ = some (none, ⟨.sendingEos atEnd, i⟩)) :
    ∃ final, (boundedSource env nImgs onFailure atEnd).Yields (⟨.reading entries, i⟩ : BoundedState)
      (namesFrom nImgs entries i ++ List.replicate atEnd "EOS") final := by
  rw [hnames]
  exact ⟨(⟨.returned, i⟩ : BoundedState), .skip hnext (bounded_yields_sendingEos atEnd i)⟩

theorem bounded_yields_reading (entries : List String) (i : Int) :
    ∃ final, (boundedSource env nImgs onFailure atEnd).Yields (⟨.reading entries, i⟩ : BoundedState)
      (namesFrom nImgs entries i ++ List.replicate atEnd "EOS") final := by
  induction entries generalizing i with
  | nil => exact bounded_yields_of_done (by simp [namesFrom]) rfl
  | cons entry entries ih =>
    by_cases hlt : i < nImgs
    · cases hdots : isDots entry with
      | true =>
        have hnext : boundedNext env nImgs onFailure atEnd ⟨.reading (entry :: entries), i⟩ =
            some (none, ⟨.reading entries, i⟩) := by simp [boundedNext, hlt, hdots]
        obtain ⟨final, hrest⟩ := ih i
        rw [namesFrom_cons_of_dots entries hdots]
        exact ⟨final, .skip hnext hrest⟩
      | false =>
        have hnext : boundedNext env nImgs onFailure atEnd ⟨.reading (entry :: entries), i⟩ =
            some (some entry, ⟨.reading entries, i + 1⟩) := by simp [boundedNext, hlt, hdots]
        obtain ⟨final, hrest⟩ := ih (i + 1)
        rw [namesFrom_cons entries hlt hdots]
        exact ⟨final, .emit hnext hrest⟩
    · exact bounded_yields_of_done (namesFrom_of_le _ (by omega)) (if_neg hlt)

theorem bounded_yields (env : Env) (nImgs : Int) (onFailure atEnd : Nat) :
    ∃ final, (boundedSource env nImgs onFailure atEnd).Yields (boundedSource env nImgs onFailure atEnd).start
      (boundedStream env nImgs onFailure atEnd) final := by
  cases hdir : env.dir with
  | none =>
    have hnext : boundedNext env nImgs onFailure atEnd ⟨.opening, 0⟩ = some (none, ⟨.sendingEos onFailure, 0⟩) := by
      simp [boundedNext, hdir]
    simp only [boundedStream, hdir]
    exact ⟨(⟨.returned, 0⟩ : BoundedState), .skip hnext (bounded_yields_sendingEos onFailure 0)⟩
  | some entries =>
    have hnext : boundedNext env nImgs onFailure atEnd ⟨.opening, 0⟩ = some (none, ⟨.reading entries, 0⟩) := by
      simp [boundedNext, hdir]
    obtain ⟨final, hrest⟩ := @bounded_yields_reading env nImgs onFailure atEnd entries 0
    have hstream : boundedStream env nImgs onFailure atEnd =
        namesFrom nImgs entries 0 ++ List.replicate atEnd "EOS" := by
      simp [boundedStream, namesFrom, Env.listing, hdir]
    rw [hstream]
    exact ⟨final, .skip hnext hrest⟩

theorem boundedNext_moves {s s' : BoundedState} {out : Option String}
    (hnext : boundedNext env nImgs onFailure atEnd s = some (out, s')) :
    SourcePc.Moves env.dir onFailure atEnd s.pc out s'.pc := by
  obtain ⟨pc, i⟩ := s
  cases pc with
  | opening =>
    cases hdir : env.dir with
    | none =>
      obtain ⟨rfl, rfl⟩ : none = out ∧ _ = s' := by simpa [boundedNext, hdir] using hnext
      exact .failed rfl
    | some entries =>
      obtain ⟨rfl, rfl⟩ : none = out ∧ _ = s' := by simpa [boundedNext, hdir] using hnext
      exact .opened rfl
  | reading entries =>
    cases entries with
    | nil =>
      obtain ⟨rfl, rfl⟩ : none = out ∧ _ = s' := by simpa [boundedNext] using hnext
      exact .ended []
    | cons entry entries =>
      by_cases hlt : i < nImgs
      · cases hdots : isDots entry with
        | true =>
          obtain ⟨rfl, rfl⟩ : none = out ∧ _ = s' := by simpa [boundedNext, hlt, hdots] using hnext
          exact .skipped entry entries
        | false =>
          obtain ⟨rfl, rfl⟩ : some entry = out ∧ _ = s' := by simpa [boundedNext, hlt, hdots] using hnext
          exact .pushed entry entries
      · obtain ⟨rfl, rfl⟩ : none = out ∧ _ = s' := by simpa [boundedNext, hlt] using hnext
        exact .ended (entry :: entries)
  | sendingEos left =>
    cases left with
    | zero =>
      obtain ⟨rfl, rfl⟩ : none = out ∧ _ = s' := by simpa [boundedNext] using hnext
      exact .done
    | succ left =>
      obtain ⟨rfl, rfl⟩ : some "EOS" = out ∧ _ = s' := by simpa [boundedNext] using hnext
      exact .sent left
  | returned => simp [boundedNext] at hnext

/-- Units a bounded emitter still has to spend, when each item it pushes takes `c` away. -/
def boundedRank (env : Env) (onFailure atEnd c : Nat) (s : BoundedState) : Nat :=
  s.pc.rank env.dir (onFailure + atEnd) atEnd c

theorem bounded_ranked (env : Env) (nImgs : Int) (onFailure atEnd c : Nat) :
    (boundedSource env nImgs onFailure atEnd).Ranked c (boundedRank env onFailure atEnd c) :=
  fun _ _ _ hnext => (boundedNext_moves hnext).rank_lt c (Nat.le_add_right _ _) (Nat.le_add_left _ _)

end Emitter

end ParallelWatermark
