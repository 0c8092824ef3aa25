import Mathlib.Data.List.Basic
import Mathlib.Data.List.Count
import Mathlib.Tactic.Common

/-!
# Streams with in-band tokens

A stream carries data items and tokens, told apart by a test on the item itself. `upTo tok k l` is
the shortest prefix of `l` that contains `k` tokens: what `k` consumers take from a shared queue
when each of them stops at the first token it meets.
-/

namespace Process

variable {α : Type*} (tok : α → Bool)

/-- The shortest prefix with `k` tokens in it, or the whole list when it has fewer. -/
def upTo : Nat → List α → List α
  | 0, _ => []
  | _ + 1, [] => []
  | k + 1, x :: l => x :: upTo (if tok x then k else k + 1) l

def TokenFree (l : List α) : Prop := ∀ x ∈ l, tok x = false

/-- `p` is the shortest prefix of `l` with `k` tokens in it. -/
structure IsShortest (k : Nat) (l p : List α) : Prop where
  isPrefix : p <+: l
  count : p.countP tok = k
  le : ∀ q, q <+: l → q.countP tok = k → p.length ≤ q.length

/-- Only the last item of the list may be a token. -/
def EndsAtToken (l : List α) : Prop := TokenFree tok l.dropLast

variable {tok}

@[simp] theorem upTo_zero (l : List α) : upTo tok 0 l = [] := by
  cases l <;> rfl

theorem upTo_isPrefix (k : Nat) (l : List α) : upTo tok k l <+: l := by
  induction l generalizing k with
  | nil => cases k <;> simp [upTo]
  | cons x l ih =>
    cases k with
    | zero => simp
    | succ k => exact List.cons_prefix_cons.mpr ⟨rfl, ih _⟩

theorem countP_upTo {k : Nat} {l : List α} (hk : k ≤ l.countP tok) :
    (upTo tok k l).countP tok = k := by
  induction l generalizing k with
  | nil => cases k with
    | zero => simp
    | succ k => simp at hk
  | cons x l ih =>
    cases k with
    | zero => simp
    | succ k =>
      by_cases hx : tok x = true
      · simp only [List.countP_cons_of_pos hx, upTo, if_pos hx] at hk ⊢
        rw [ih (by omega)]
      · simp only [List.countP_cons_of_neg hx, upTo, if_neg hx] at hk ⊢
        rw [ih hk]

/-- A prefix with `k` tokens that ends in a token is the shortest one with `k` tokens. -/
theorem eq_upTo {k : Nat} {p l : List α} (hpre : p <+: l) (hcount : p.countP tok = k)
    (hlast : ∀ x ∈ p.getLast?, tok x = true) : p = upTo tok k l := by
  induction p generalizing k l with
  | nil =>
    obtain rfl : 0 = k := by simpa using hcount
    simp
  | cons x p ih =>
    obtain ⟨rest, rfl⟩ := hpre
    have hlast' : ∀ y ∈ p.getLast?, tok y = true := by
      intro y hy
      apply hlast
      cases p with
      | nil => simp at hy
      | cons z p => simpa using hy
    by_cases hx : tok x = true
    · rw [List.countP_cons_of_pos hx] at hcount
      subst hcount
      simp only [List.cons_append, upTo, if_pos hx]
      rw [← ih (List.prefix_append p rest) rfl hlast']
    · rw [List.countP_cons_of_neg hx] at hcount
      cases k with
      | zero =>
        -- Without a token after `x`, the prefix would end in a data item.
        exfalso
        obtain ⟨y, hy⟩ : ∃ y, (x :: p).getLast? = some y := by simp [List.getLast?_cons]
        have hmem : y ∈ x :: p := List.mem_of_getLast? hy
        have htok := hlast y hy
        rcases List.mem_cons.mp hmem with rfl | hmem
        · exact hx htok
        · exact absurd htok (by simpa using List.countP_eq_zero.mp hcount y hmem)
      | succ k =>
        simp only [List.cons_append, upTo, if_neg hx]
        rw [← ih (List.prefix_append p rest) hcount hlast']

theorem length_upTo_le {k : Nat} {p l : List α} (hpre : p <+: l) (hcount : p.countP tok = k) :
    (upTo tok k l).length ≤ p.length := by
  induction p generalizing k l with
  | nil =>
    obtain rfl : 0 = k := by simpa using hcount
    simp
  | cons x p ih =>
    obtain ⟨rest, rfl⟩ := hpre
    cases k with
    | zero => simp
    | succ k =>
      simp only [List.cons_append, upTo, List.length_cons]
      apply Nat.succ_le_succ
      apply ih (List.prefix_append p rest)
      by_cases hx : tok x = true
      · rw [List.countP_cons_of_pos hx] at hcount
        rw [if_pos hx]
        omega
      · rw [List.countP_cons_of_neg hx] at hcount
        rw [if_neg hx, hcount]

theorem upTo_isShortest {k : Nat} {l : List α} (hk : k ≤ l.countP tok) :
    IsShortest tok k l (upTo tok k l) :=
  ⟨upTo_isPrefix k l, countP_upTo hk, fun _ hpre hcount => length_upTo_le hpre hcount⟩

theorem upTo_append_of_tokenFree {k : Nat} {l rest : List α} (hk : 0 < k)
    (hfree : TokenFree tok l) :
    upTo tok k (l ++ rest) = l ++ upTo tok k rest := by
  obtain ⟨k, rfl⟩ : ∃ j, k = j + 1 := ⟨k - 1, by omega⟩
  induction l with
  | nil => rfl
  | cons x l ih =>
    have hx : tok x = false := hfree x (by simp)
    simp only [List.cons_append, upTo, hx, Bool.false_eq_true, if_false]
    rw [ih fun y hy => hfree y (by simp [hy])]

theorem upTo_replicate {k n : Nat} {x : α} (hx : tok x = true) (hk : k ≤ n) :
    upTo tok k (List.replicate n x) = List.replicate k x := by
  induction k generalizing n with
  | zero => simp
  | succ k ih =>
    obtain ⟨n, rfl⟩ : ∃ j, n = j + 1 := ⟨n - 1, by omega⟩
    simp only [List.replicate_succ, upTo, if_pos hx]
    rw [ih (by omega)]

theorem TokenFree.endsAtToken_append {l : List α} (hfree : TokenFree tok l) (x : α) :
    EndsAtToken tok (l ++ [x]) := by
  simpa [EndsAtToken] using hfree

theorem TokenFree.countP_eq_zero {l : List α} (hfree : TokenFree tok l) : l.countP tok = 0 := by
  rw [List.countP_eq_zero]
  intro x hx
  simp [hfree x hx]

/-- A list that ends at its token has exactly one, the last. -/
theorem EndsAtToken.eq_append {l : List α} (hends : EndsAtToken tok l) {x : α} (hx : x ∈ l)
    (htok : tok x = true) :
    ∃ init, l = init ++ [x] ∧ TokenFree tok init := by
  rcases List.eq_nil_or_concat l with rfl | ⟨init, last, rfl⟩
  · simp at hx
  · have hfree : TokenFree tok init := by simpa [EndsAtToken] using hends
    rcases List.mem_append.mp (show x ∈ init ++ [last] by simpa using hx) with hmem | hmem
    · exact absurd (hfree x hmem) (by simp [htok])
    · obtain rfl : x = last := by simpa using hmem
      exact ⟨init, by simp, hfree⟩

end Process
