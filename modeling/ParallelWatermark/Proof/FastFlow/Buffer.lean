import ParallelWatermark.FastFlow.Buffer
import ParallelWatermark.Process.Circular

/-!
# `SWSR_Ptr_Buffer` is a channel

The slots hold the items of the log. The writer knows `pwrite` and that a slot stays empty until it has
written it, the reader `pread` and that an item stays until it has been read.
-/

namespace ParallelWatermark.FastFlow.SwsrPtrBuffer

open Process

variable {α : Type} {size : Nat}

abbrev BufferView (α : Type) := View (SwsrPtrBuffer α) α

def bufferContract (α : Type) (size : Nat) : Contract (SwsrPtrBuffer α) α where
  capacity := some size
  inv e := Circular size e.mem.buf e.log
  ready
    | .producer, e => e.mem.pwrite = e.log.pushed.length % size
    | .consumer, e => e.mem.pread = e.log.taken % size
  keeps
    | .producer, e, e' => e'.mem.pwrite = e.mem.pwrite
    | .consumer, e, e' => e'.mem.pread = e.mem.pread
  keeps_refl side _ := by cases side <;> rfl
  keeps_trans side _ _ _ h h' := by cases side <;> exact h'.trans h

theorem next_mod (hsize : 0 < size) (n : Nat) : next size (n % size) (n % size) = (n + 1) % size := by
  have hlt := Nat.mod_lt n hsize
  rw [next, Nat.add_mod]
  rcases Nat.lt_or_ge 1 size with hone | hone
  · rw [Nat.mod_eq_of_lt hone]
    split_ifs with hlast
    · have : n % size + 1 = size := by omega
      rw [this, Nat.mod_self, Nat.sub_self]
    · exact (Nat.mod_eq_of_lt (by omega)).symm
  · obtain rfl : size = 1 := by omega
    simp [Nat.mod_one]

theorem pushes_refl (a : α) (pushed : List α) (e : BufferView α) : (bufferContract α size).Pushes a pushed e e :=
  ⟨rfl, Or.inl rfl⟩

theorem pops_refl (taken : Nat) (e : BufferView α) : (bufferContract α size).Pops taken e e := ⟨rfl, Or.inl rfl⟩

theorem ready_kept {side : Side} {e e' : BufferView α} (hready : (bufferContract α size).ready side e)
    (hkeeps : ((bufferContract α size).rely side).keeps e e') : (bufferContract α size).ready side e' := by
  cases side with
  | producer => exact hkeeps.1.trans (hkeeps.2.1 ▸ hready)
  | consumer => exact hkeeps.1.trans (hkeeps.2.1 ▸ hready)

/-- Reading leaves everything as it is. -/
abbrev Reads (e e' : BufferView α) : Prop := e' = e

section Writer

variable (hsize : 0 < size) {e e' : BufferView α}
include hsize

/-- The slot at `pwrite` tells whether there is room, and room that there is stays. -/
theorem available_meets (hready : (bufferContract α size).ready .producer e) :
    ((bufferContract α size).rely .producer).Meets Reads (fun ok e' => (bufferContract α size).ready .producer e' ∧
      e'.log.pushed = e.log.pushed ∧ if ok then e'.log.pushed.length < e'.log.taken + size
        else e.log.taken + size ≤ e.log.pushed.length) available e := by
  refine Rely.meets_read (fun _ => rfl) fun e₁ _ hkeeps₁ => ?_
  refine Rely.meets_read (fun _ => rfl) fun e₂ hinv₂ hkeeps₂ => ?_
  refine Rely.meets_pure fun e₃ _ hkeeps₃ => ?_
  have hready₂ := ready_kept (ready_kept hready hkeeps₁) hkeeps₂
  have hpushed₂ : e₂.log.pushed = e.log.pushed := hkeeps₂.2.1.trans hkeeps₁.2.1
  have htaken₂ : e.log.taken ≤ e₂.log.taken := Nat.le_trans hkeeps₁.2.2 hkeeps₂.2.2
  have hslot := hinv₂.2.back hsize hinv₂.1
  have hpwrite : e₁.mem.pwrite = e₂.log.pushed.length % size := hkeeps₂.1.symm.trans hready₂
  rw [← hpwrite] at hslot
  refine ⟨ready_kept hready₂ hkeeps₃, hkeeps₃.2.1.trans hpushed₂, ?_⟩
  change if (e₂.mem.buf e₁.mem.pwrite).isNone = true then _ else _
  cases hnone : (e₂.mem.buf e₁.mem.pwrite).isNone with
  | true =>
    have hroom := hslot.mp hnone
    have htaken₃ := hkeeps₃.2.2
    rw [if_pos rfl, hkeeps₃.2.1]
    omega
  | false =>
    rw [hnone, hpushed₂] at hslot
    simp only [Bool.false_eq_true, false_iff] at hslot
    rw [if_neg Bool.false_ne_true]
    omega

theorem push_meets (a : α) (hready : (bufferContract α size).ready .producer e) :
    ((bufferContract α size).rely .producer).Meets ((bufferContract α size).Pushes a e.log.pushed)
      ((bufferContract α size).Pushed a e.log) (push size a) e := by
  refine Rely.Meets.bind (((available_meets hsize hready).weaken fun e e' h => ?_).mono fun ok e₁ hinv₁ h => ?_)
  · rw [h]
    exact pushes_refl a _ e
  · obtain ⟨hready₁, hpushed₁, hroom⟩ := h
    cases ok with
    | false =>
      refine Rely.meets_pure fun e₂ _ hkeeps₂ => ⟨ready_kept hready₁ hkeeps₂, ?_⟩
      rw [if_neg Bool.false_ne_true] at hroom ⊢
      refine ⟨hkeeps₂.2.1.trans hpushed₁, ?_⟩
      simp only [bufferContract, Log.full, Log.items, Option.any_some, List.length_drop, decide_eq_true_eq]
      omega
    | true =>
      rw [if_pos rfl] at hroom
      simp only [if_true]
      refine Rely.meets_read (pushes_refl a _) fun e₂ hinv₂ hkeeps₂ => ?_
      refine Rely.meets_write fun e₃ hinv₃ hkeeps₃ => ?_
      have hready₃ := ready_kept (ready_kept hready₁ hkeeps₂) hkeeps₃
      have hpushed₃ : e₃.log.pushed = e.log.pushed := hkeeps₃.2.1.trans (hkeeps₂.2.1.trans hpushed₁)
      have htaken₃ := Nat.le_trans hkeeps₂.2.2 hkeeps₃.2.2
      have hroom₃ : e₃.log.pushed.length < e₃.log.taken + size := by
        rw [hpushed₁] at hroom
        rw [hpushed₃]
        omega
      have hpwrite : e₂.mem.pwrite = e₃.log.pushed.length % size := hkeeps₃.1.symm.trans hready₃
      refine ⟨⟨e₃.mem.store e₂.mem.pwrite (some a), e₃.log.push a⟩, rfl, ⟨⟨?_, ?_⟩, ?_⟩,
        ⟨rfl, Or.inr ⟨hpushed₃, rfl⟩⟩, ?_⟩
      · have := hinv₃.1.taken_le
        simp only [Log.push, List.length_append, List.length_singleton]
        omega
      · intro size' hsize'
        obtain rfl : size = size' := by simpa [bufferContract] using hsize'
        simp only [Log.push, List.length_append, List.length_singleton]
        omega
      · rw [hpwrite]
        exact hinv₃.2.push hinv₃.1.taken_le hroom₃
      · refine Rely.meets_read (pushes_refl a _) fun e₄ hinv₄ hkeeps₄ => ?_
        refine Rely.meets_read (pushes_refl a _) fun e₅ hinv₅ hkeeps₅ => ?_
        refine Rely.meets_write fun e₆ hinv₆ hkeeps₆ => ?_
        have hpushed₆ : e₆.log.pushed = e.log.pushed ++ [a] := by
          rw [hkeeps₆.2.1, hkeeps₅.2.1, hkeeps₄.2.1, Log.push, hpushed₃]
        have hpwrite₄ : e₄.mem.pwrite = e.log.pushed.length % size := by
          rw [hkeeps₄.1, ← hpushed₃]
          exact hready₃
        have hpwrite₅ : e₅.mem.pwrite = e.log.pushed.length % size := hkeeps₅.1.trans hpwrite₄
        refine ⟨{ e₆ with mem := { e₆.mem with pwrite := next size e₄.mem.pwrite e₅.mem.pwrite } }, rfl, hinv₆,
          ⟨rfl, Or.inl rfl⟩, ?_⟩
        refine Rely.meets_pure fun e₇ _ hkeeps₇ => ⟨ready_kept ?_ hkeeps₇, ?_⟩
        · change next size e₄.mem.pwrite e₅.mem.pwrite = e₆.log.pushed.length % size
          rw [hpwrite₄, hpwrite₅, next_mod hsize, hpushed₆, List.length_append, List.length_singleton]
        · rw [if_pos rfl]
          exact hkeeps₇.2.1.trans hpushed₆

end Writer

section Reader

variable (hsize : 0 < size) {e e' : BufferView α}
include hsize

/-- The slot at `pread` tells whether there is an item, and an item that there is stays. -/
theorem empty_meets (hready : (bufferContract α size).ready .consumer e) :
    ((bufferContract α size).rely .consumer).Meets Reads (fun none? e' => (bufferContract α size).ready .consumer e' ∧
      e'.log.taken = e.log.taken ∧ if none? then e.log.items = []
        else ∃ a, e'.log.pushed[e.log.taken]? = some a) empty e := by
  refine Rely.meets_read (fun _ => rfl) fun e₁ _ hkeeps₁ => ?_
  refine Rely.meets_read (fun _ => rfl) fun e₂ hinv₂ hkeeps₂ => ?_
  refine Rely.meets_pure fun e₃ _ hkeeps₃ => ?_
  have hready₂ := ready_kept (ready_kept hready hkeeps₁) hkeeps₂
  have htaken₂ : e₂.log.taken = e.log.taken := hkeeps₂.2.1.trans hkeeps₁.2.1
  have hpushed₂ : e.log.pushed <+: e₂.log.pushed := hkeeps₁.2.2.trans hkeeps₂.2.2
  have hpread : e₁.mem.pread = e₂.log.taken % size := hkeeps₂.1.symm.trans hready₂
  have hslot := hinv₂.2.front hsize
  rw [← hpread, htaken₂] at hslot
  refine ⟨ready_kept hready₂ hkeeps₃, hkeeps₃.2.1.trans htaken₂, ?_⟩
  change if (e₂.mem.buf e₁.mem.pread).isNone = true then _ else _
  rw [hslot]
  cases hnext : e₂.log.pushed[e.log.taken]? with
  | none =>
    have hle := List.getElem?_eq_none_iff.mp hnext
    exact List.drop_eq_nil_of_le (Nat.le_trans hpushed₂.length_le hle)
  | some a =>
    exact ⟨a, item_kept hkeeps₃.2.2 hnext⟩

/-- An item that the reader has found is there when it takes it. -/
theorem inc_meets {a : α} {taken : Nat} (hready : (bufferContract α size).ready .consumer e)
    (htaken : e.log.taken = taken) (hitem : e.log.pushed[taken]? = some a) :
    ((bufferContract α size).rely .consumer).Meets ((bufferContract α size).Pops taken)
      (fun ok e' => ok = true ∧ (bufferContract α size).ready .consumer e' ∧ e'.log.pushed[taken]? = some a ∧
        e'.log.taken = taken + 1) (inc size) e := by
  refine Rely.meets_read (pops_refl _) fun e₁ hinv₁ hkeeps₁ => ?_
  refine Rely.meets_write fun e₂ hinv₂ hkeeps₂ => ?_
  have htaken₂ : e₂.log.taken = taken := hkeeps₂.2.1.trans (hkeeps₁.2.1.trans htaken)
  have hready₂ := ready_kept (ready_kept hready hkeeps₁) hkeeps₂
  have hpread : e₁.mem.pread = e₂.log.taken % size := hkeeps₂.1.symm.trans hready₂
  have hitem₂ : e₂.log.pushed[taken]? = some a := item_kept (hkeeps₁.2.2.trans hkeeps₂.2.2) hitem
  have hlt : e₂.log.taken < e₂.log.pushed.length := htaken₂ ▸ (List.getElem?_eq_some_iff.mp hitem₂).1
  have hle := hinv₂.1.pushed_le size rfl
  refine ⟨⟨e₂.mem.store e₁.mem.pread none, e₂.log.take⟩, rfl, ⟨⟨hlt, ?_⟩, ?_⟩, ⟨rfl, Or.inr ⟨htaken₂, rfl⟩⟩, ?_⟩
  · intro size' hsize'
    obtain rfl : size = size' := by simpa [bufferContract] using hsize'
    simp only [Log.take]
    omega
  · rw [hpread]
    exact hinv₂.2.take hsize hle
  · refine Rely.meets_read (pops_refl _) fun e₃ hinv₃ hkeeps₃ => ?_
    refine Rely.meets_read (pops_refl _) fun e₄ hinv₄ hkeeps₄ => ?_
    refine Rely.meets_write fun e₅ hinv₅ hkeeps₅ => ?_
    have htaken₅ : e₅.log.taken = e₂.log.taken + 1 := hkeeps₅.2.1.trans (hkeeps₄.2.1.trans hkeeps₃.2.1)
    have hpread₃ : e₃.mem.pread = e₂.log.taken % size := hkeeps₃.1.trans hready₂
    have hpread₄ : e₄.mem.pread = e₂.log.taken % size := hkeeps₄.1.trans hpread₃
    refine ⟨{ e₅ with mem := { e₅.mem with pread := next size e₃.mem.pread e₄.mem.pread } }, rfl, hinv₅,
      ⟨rfl, Or.inl rfl⟩, ?_⟩
    refine Rely.meets_pure fun e₆ _ hkeeps₆ => ⟨rfl, ready_kept ?_ hkeeps₆, ?_, ?_⟩
    · change next size e₃.mem.pread e₄.mem.pread = e₅.log.taken % size
      rw [hpread₃, hpread₄, next_mod hsize, htaken₅]
    · exact item_kept (hkeeps₃.2.2.trans (hkeeps₄.2.2.trans (hkeeps₅.2.2.trans hkeeps₆.2.2))) hitem₂
    · rw [hkeeps₆.2.1, ← htaken₂]
      exact htaken₅

theorem pop_meets (hready : (bufferContract α size).ready .consumer e) :
    ((bufferContract α size).rely .consumer).Meets ((bufferContract α size).Pops e.log.taken)
      ((bufferContract α size).Popped e.log) (pop size) e := by
  refine Rely.Meets.bind (((empty_meets hsize hready).weaken fun e e' h => ?_).mono fun none? e₁ hinv₁ h => ?_)
  · rw [h]
    exact pops_refl _ e
  · obtain ⟨hready₁, htaken₁, hitem⟩ := h
    cases none? with
    | true =>
      refine Rely.meets_pure fun e₂ _ hkeeps₂ => ⟨ready_kept hready₁ hkeeps₂, hkeeps₂.2.1.trans htaken₁, ?_⟩
      rwa [if_pos rfl] at hitem
    | false =>
      rw [if_neg Bool.false_ne_true] at hitem
      obtain ⟨a, ha⟩ := hitem
      simp only [Bool.false_eq_true, if_false]
      refine Rely.meets_read (pops_refl _) fun e₂ hinv₂ hkeeps₂ => ?_
      refine Rely.meets_read (pops_refl _) fun e₃ hinv₃ hkeeps₃ => ?_
      have hready₃ := ready_kept (ready_kept hready₁ hkeeps₂) hkeeps₃
      have htaken₃ : e₃.log.taken = e.log.taken := hkeeps₃.2.1.trans (hkeeps₂.2.1.trans htaken₁)
      have hitem₃ : e₃.log.pushed[e.log.taken]? = some a := item_kept (hkeeps₂.2.2.trans hkeeps₃.2.2) ha
      have hpread : e₂.mem.pread = e₃.log.taken % size := hkeeps₃.1.symm.trans hready₃
      have hdata : e₃.mem.buf e₂.mem.pread = some a := by
        rw [hpread, hinv₃.2.front hsize, htaken₃, hitem₃]
      refine Rely.Meets.bind ((inc_meets hsize hready₃ htaken₃ hitem₃).mono fun ok e₄ _ h => ?_)
      obtain ⟨rfl, hready₄, hitem₄, htaken₄⟩ := h
      exact Rely.meets_pure fun e₅ _ hkeeps₅ =>
        ⟨ready_kept hready₄ hkeeps₅, a, hdata, item_kept hkeeps₅.2.2 hitem₄, hkeeps₅.2.1.trans htaken₄⟩

end Reader

/-- `SWSR_Ptr_Buffer` implements a channel with a capacity of `size`. -/
theorem implements (α : Type) (hsize : 0 < size) : (bufferContract α size).Implements (code size) where
  start := ⟨⟨⟨Nat.le_refl _, fun _ _ => Nat.zero_le _⟩, Circular.start size⟩, fun side => by
    cases side <;> exact (Nat.zero_mod size).symm⟩
  ready_kept _ _ _ _ _ hready hkeeps := ready_kept hready hkeeps
  push a _ _ hready := push_meets hsize a hready
  pop _ _ hready := pop_meets hsize hready

theorem push_within (size : Nat) (a : α) : (push size a).Within 9 := by
  refine .access fun m => .access fun m' => ?_
  change (if (m'.buf m.pwrite).isNone = true then _ else _ : Prog _ Bool).Within 7
  split_ifs
  · exact .access fun _ => .access fun _ => .access fun _ => .access fun _ => .access fun _ => .done
  · exact .done

theorem pop_within (size : Nat) : (pop size : Prog (SwsrPtrBuffer α) _).Within 9 := by
  refine .access fun m => .access fun m' => ?_
  change (if (m'.buf m.pread).isNone = true then _ else _ : Prog _ (Option (Option α))).Within 7
  split_ifs
  · exact .done
  · refine .access fun _ => .access fun _ => .access fun _ => .access fun _ => ?_
    exact .access fun _ => .access fun _ => .access fun _ => .done

/-- Without a lock, whatever the order in which the two threads access the memory: the calls return
what the calls to a channel of `size` places return, what the pops return is what has been pushed, in
order, and there are at most nine accesses for each call, so that no thread waits for the other. -/
theorem behaves_as_channel (hsize : 0 < size) {evs : List (ChannelCode.Event α)}
    {s : ChannelCode.State (SwsrPtrBuffer α) α} (hrun : (code size).History evs s) :
    (∃ evs' t, Channel.History (some size) evs' t ∧ Channel.calls evs' = ChannelCode.calls evs) ∧
    (let (accepted, underWay) := Channel.pushes (ChannelCode.calls evs)
     Channel.returnedPops (ChannelCode.calls evs) <+: accepted ++ underWay.toList) ∧
    evs.countP ChannelCode.Event.isAccess ≤ 9 * (ChannelCode.calls evs).countP Channel.Call.starts := by
  obtain ⟨evs', t, -, hhistory, hcalls, -⟩ := (implements α hsize).simulates hrun
  refine ⟨⟨evs', t, hhistory, hcalls⟩, ?_, ?_⟩
  · exact hcalls ▸ Channel.returnedPops_isPrefix hhistory
  · exact ChannelCode.accesses_le (push_within size) (pop_within size) hrun

/-- The reader looks while the writer has not stored the item yet. -/
theorem behaves_as_channel_inhabited : ∃ evs t, Channel.History (some 1) evs t ∧
    Channel.calls evs = [.callPush 5, .callPop, .returnPop none] := by
  have hstart : (code 1 : ChannelCode (SwsrPtrBuffer Nat) Nat).History [] _ := .nil
  have hcalled := ((hstart.snoc (.callPush 5 rfl)).snoc (.pushAccess rfl)).snoc (.callPop rfl)
  have hlooked := ((hcalled.snoc (.popAccess rfl)).snoc (.pushAccess rfl)).snoc (.popAccess rfl)
  exact (behaves_as_channel (by decide) (hlooked.snoc (.returnPop rfl))).1

end ParallelWatermark.FastFlow.SwsrPtrBuffer
