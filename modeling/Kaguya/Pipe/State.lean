import Kaguya.Lib.Buffer
import Kaguya.Lib.Ring
import Kaguya.Lib.Handles

/-!
# The ring of a pipe

`pipe.jh`: 4096 bytes that go round, read and written in at most two copies each, and the numbers of
open ends. `contents` is what the ring holds, oldest byte first; the two stream laws say that a read
takes what it returns from its front and that a write puts what it accepts behind its end.
-/

namespace Kaguya.Pipe

open List Buffer

def CAPACITY : Nat := 4096

/-- `raw.State`; `data` is the buffer its pointer leads to. -/
structure State where
  data : Buffer
  head : Nat
  length : Nat
  readers : Nat
  writers : Nat
  head_lt : head < CAPACITY
  length_le : length ≤ CAPACITY

namespace State

def init (data : Buffer) : State := ⟨data, 0, 0, 1, 1, by decide, by decide⟩

variable (state : State)

/-- `jihoo_pipe_read`: the result, the memory at `output` and the ring afterwards. -/
def read (output : Buffer) (length : Nat) : Int × Buffer × State :=
  if length = 0 then (0, output, state)
  else if state.length = 0 then (if state.writers = 0 then 0 else -1, output, state)
  else
    let count := if length < state.length then length else state.length
    let available := CAPACITY - state.head
    let first := if count < available then count else available
    let output := output.memCopy 0 state.data state.head first
    let output :=
      if count > first then output.memCopy first state.data 0 (count - first) else output
    (count, output, { state with
      head := (state.head + count) % CAPACITY
      length := state.length - count
      head_lt := Nat.mod_lt _ (by decide)
      length_le := Nat.le_trans (Nat.sub_le ..) state.length_le })

/-- `jihoo_pipe_write`: the result and the ring afterwards. -/
def write (input : Buffer) (length : Nat) : Int × State :=
  if length = 0 then (0, state)
  else if state.readers = 0 then (-2, state)
  else
    let available := CAPACITY - state.length
    if available = 0 then (-1, state)
    else
      let count := if length < available then length else available
      let tail := (state.head + state.length) % CAPACITY
      let first := if count < CAPACITY - tail then count else CAPACITY - tail
      let data := state.data.memCopy tail input 0 first
      let data := if count > first then data.memCopy 0 input first (count - first) else data
      (count, { state with
        data
        length := state.length + count
        length_le := by have := state.length_le; dsimp only [count, available]; split <;> omega })

def clone (writer : Bool) : State :=
  if writer then { state with writers := addOne state.writers }
  else { state with readers := addOne state.readers }

/-- `jihoo_pipe_close`: whether the last end of its kind is gone, and the ring afterwards. -/
def close (writer : Bool) : Bool × State :=
  if writer then
    let writers := subOne state.writers
    (writers == 0, { state with writers })
  else
    let readers := subOne state.readers
    (readers == 0, { state with readers })

def contents : List UInt8 :=
  Ring.read CAPACITY state.data state.head state.length

def ends (writer : Bool) : Nat := if writer then state.writers else state.readers

variable {state} {output input : Buffer} {length : Nat} {writer : Bool}

@[simp]
theorem length_contents : state.contents.length = state.length := Ring.length_read

theorem contents_eq_nil : state.contents = [] ↔ state.length = 0 := by
  rw [← length_eq_zero_iff, length_contents]

/-! ## Copying round the end of the buffer -/

variable {data : Buffer} {head count first : Nat}

theorem slice_copied (hhead : head < CAPACITY) (hcount : count ≤ CAPACITY)
    (hfirst : first = min count (CAPACITY - head)) :
    ((output.memCopy 0 data head first).memCopy first data 0 (count - first)).slice 0 count
      = Ring.read CAPACITY data head count := by
  apply map_congr_left
  intro i hi
  rw [mem_range] at hi
  unfold CAPACITY at *
  by_cases hwrapped : first ≤ i
  · rw [memCopy_of_mem (by omega) (by omega)]
    congr 1
    omega
  · rw [memCopy_of_not_mem (by omega), memCopy_of_mem (by omega) (by omega)]
    congr 1
    omega

theorem read_copied {held tail : Nat} (hhead : head < CAPACITY) (hroom : held + count ≤ CAPACITY)
    (htail : tail = (head + held) % CAPACITY) (hfirst : first = min count (CAPACITY - tail)) :
    Ring.read CAPACITY ((data.memCopy tail input 0 first).memCopy 0 input first (count - first))
        head (held + count) = Ring.read CAPACITY data head held ++ input.slice 0 count := by
  rw [Ring.read_add]
  unfold CAPACITY at *
  congr 1
  · apply map_congr_left
    intro i hi
    rw [mem_range] at hi
    rw [memCopy_of_not_mem (by omega), memCopy_of_not_mem (by omega)]
  apply map_congr_left
  intro i hi
  rw [mem_range] at hi
  by_cases hwrapped : first ≤ i
  · rw [memCopy_of_mem (by omega) (by omega)]
    congr 1
    omega
  · rw [memCopy_of_not_mem (by omega), memCopy_of_mem (by omega) (by omega)]
    congr 1
    omega

theorem memCopy_of_gt {buffer source : Buffer} {target start : Nat} :
    (if count > first then buffer.memCopy target source start (count - first) else buffer)
      = buffer.memCopy target source start (count - first) := by
  split
  · rfl
  · funext i
    rw [memCopy_of_not_mem (by omega)]

/-! ## Reading -/

theorem read_zero : state.read output 0 = (0, output, state) := if_pos rfl

theorem read_of_empty (hlength : length ≠ 0) (hempty : state.length = 0) :
    state.read output length = (if state.writers = 0 then 0 else -1, output, state) := by
  rw [read, if_neg hlength, if_pos hempty]

theorem read_fst_of_held (hlength : length ≠ 0) (hheld : state.length ≠ 0) :
    (state.read output length).1 = (min length state.length : Nat) := by
  rw [read, if_neg hlength, if_neg hheld]
  dsimp only
  rw [← min_def_lt]

/-- **What a read does to the stream.** The bytes it returns and what the ring then holds are what
the ring held. -/
theorem read_stream : (state.read output length).2.1.slice 0 (state.read output length).1.toNat
      ++ (state.read output length).2.2.contents = state.contents := by
  by_cases hlength : length = 0
  · rw [hlength, read_zero]
    rfl
  by_cases hempty : state.length = 0
  · rw [read_of_empty hlength hempty]
    by_cases hwriters : state.writers = 0
    · rw [if_pos hwriters]
      rfl
    · rw [if_neg hwriters]
      rfl
  have hle := state.length_le
  rw [read, if_neg hlength, if_neg hempty]
  dsimp only [contents]
  rw [← min_def_lt, ← min_def_lt, memCopy_of_gt, Int.toNat_natCast,
    slice_copied state.head_lt (by omega) rfl, Ring.read_mod, ← Ring.read_add,
    Nat.add_sub_cancel' (by omega)]

theorem length_read :
    (state.read output length).2.2.length = state.length - (state.read output length).1.toNat := by
  have hsum : ((state.read output length).2.1.slice 0 (state.read output length).1.toNat
      ++ (state.read output length).2.2.contents).length = state.length := by
    rw [read_stream, length_contents]
  rw [length_append, length_slice, length_contents] at hsum
  omega

theorem ends_read : (state.read output length).2.2.ends writer = state.ends writer := by
  unfold read
  split
  · rfl
  · split <;> rfl

/-! ## Writing -/

theorem write_zero : state.write input 0 = (0, state) := if_pos rfl

theorem write_of_broken (hlength : length ≠ 0) (hbroken : state.readers = 0) :
    state.write input length = (-2, state) := by
  rw [write, if_neg hlength, if_pos hbroken]

theorem write_of_full (hlength : length ≠ 0) (hreaders : state.readers ≠ 0)
    (hfull : state.length = CAPACITY) : state.write input length = (-1, state) := by
  rw [write, if_neg hlength, if_neg hreaders]
  rw [if_pos (by omega)]

theorem write_fst_of_room (hlength : length ≠ 0) (hreaders : state.readers ≠ 0)
    (hroom : state.length ≠ CAPACITY) :
    (state.write input length).1 = (min length (CAPACITY - state.length) : Nat) := by
  have hle := state.length_le
  rw [write, if_neg hlength, if_neg hreaders]
  rw [if_neg (by omega)]
  dsimp only
  rw [← min_def_lt]

/-- **What a write does to the stream.** The ring then holds what it held, followed by the bytes
accepted. -/
theorem write_stream :
    (state.write input length).2.contents = state.contents ++ input.slice 0
      (state.write input length).1.toNat := by
  by_cases hlength : length = 0
  · rw [hlength, write_zero]
    exact (append_nil _).symm
  by_cases hbroken : state.readers = 0
  · rw [write_of_broken hlength hbroken]
    exact (append_nil _).symm
  by_cases hfull : state.length = CAPACITY
  · rw [write_of_full hlength hbroken hfull]
    exact (append_nil _).symm
  have hle := state.length_le
  rw [write_fst_of_room hlength hbroken hfull, Int.toNat_natCast, write, if_neg hlength,
    if_neg hbroken]
  rw [if_neg (by omega)]
  dsimp only [contents]
  rw [← min_def_lt, ← min_def_lt, memCopy_of_gt]
  apply read_copied state.head_lt (by omega) rfl rfl

theorem length_write :
    (state.write input length).2.length = state.length + (state.write input length).1.toNat := by
  rw [← length_contents, write_stream, length_append, length_slice, length_contents]

theorem ends_write : (state.write input length).2.ends writer = state.ends writer := by
  unfold write
  split
  · rfl
  split
  · rfl
  · dsimp only
    split <;> rfl

/-! ## Opening and closing ends -/

theorem contents_clone : (state.clone writer).contents = state.contents := by
  cases writer <;> rfl

theorem length_clone : (state.clone writer).length = state.length := by
  cases writer <;> rfl

theorem ends_clone_self : (state.clone writer).ends writer = addOne (state.ends writer) := by
  cases writer <;> rfl

theorem ends_clone_other : (state.clone writer).ends (!writer) = state.ends (!writer) := by
  cases writer <;> rfl

theorem contents_close : (state.close writer).2.contents = state.contents := by
  cases writer <;> rfl

theorem length_close : (state.close writer).2.length = state.length := by
  cases writer <;> rfl

theorem ends_close_self : (state.close writer).2.ends writer = subOne (state.ends writer) := by
  cases writer <;> rfl

theorem ends_close_other : (state.close writer).2.ends (!writer) = state.ends (!writer) := by
  cases writer <;> rfl

theorem close_fst : (state.close writer).1 = ((state.close writer).2.ends writer == 0) := by
  cases writer <;> rfl

end State

end Kaguya.Pipe
