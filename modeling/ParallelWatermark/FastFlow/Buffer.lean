import Mathlib.Logic.Function.Basic
import ParallelWatermark.Process.Channel

/-!
# The bounded buffer of one writer and one reader

`SWSR_Ptr_Buffer` has no lock. The writer alone writes `pwrite` and the reader alone `pread`; what they
tell each other is in the slots, where `NULL` means that there is nothing. Each access to one of these is
a step, and the accesses take effect in the order of the program.
-/

namespace ParallelWatermark.FastFlow

open Process

/-- `SWSR_Ptr_Buffer`, but for its `size`, which does not change. -/
structure SwsrPtrBuffer (α : Type) where
  buf : Nat → Option α
  pread : Nat
  pwrite : Nat

namespace SwsrPtrBuffer

variable {α : Type}

def store (m : SwsrPtrBuffer α) (i : Nat) (data : Option α) : SwsrPtrBuffer α :=
  { m with buf := Function.update m.buf i data }

/-- `p += (p+1 >= size) ? (1-size) : 1`, where `p` is read for the test and once more for the sum. -/
def next (size tested p : Nat) : Nat := if tested + 1 ≥ size then p + 1 - size else p + 1

def empty : Prog (SwsrPtrBuffer α) Bool := do
  let pread ← .read (·.pread)
  let data ← .read (·.buf pread)
  return data.isNone

def available : Prog (SwsrPtrBuffer α) Bool := do
  let pwrite ← .read (·.pwrite)
  let data ← .read (·.buf pwrite)
  return data.isNone

def push (size : Nat) (data : α) : Prog (SwsrPtrBuffer α) Bool := do
  if ← available then
    let pwrite ← .read (·.pwrite)
    .write (·.store pwrite (some data))
    let tested ← .read (·.pwrite)
    let pwrite ← .read (·.pwrite)
    .write ({ · with pwrite := next size tested pwrite })
    return true
  else
    return false

def inc (size : Nat) : Prog (SwsrPtrBuffer α) Bool := do
  let pread ← .read (·.pread)
  .write (·.store pread none)
  let tested ← .read (·.pread)
  let pread ← .read (·.pread)
  .write ({ · with pread := next size tested pread })
  return true

def pop (size : Nat) : Prog (SwsrPtrBuffer α) (Option (Option α)) := do
  if ← empty then
    return none
  else
    let pread ← .read (·.pread)
    let data ← .read (·.buf pread)
    return if ← inc size then some data else none

/-- After `init`. -/
def start : SwsrPtrBuffer α := ⟨fun _ => none, 0, 0⟩

def code (size : Nat) : ChannelCode (SwsrPtrBuffer α) α := ⟨start, push size, pop size⟩

end SwsrPtrBuffer

end ParallelWatermark.FastFlow
