import Kaguya.Lib.Ring

/-!
# Byte queues

`net_bytes.jh`: a queue of bytes in a ring of fixed size. `toList` is the queue, oldest byte first,
and the lemmas say what each operation does to it.
-/

namespace Kaguya.Tcp

open List

structure Bytes where
  data : Nat → UInt8
  head : Nat
  length : Nat
  limit : Nat
  length_le : length ≤ limit

namespace Bytes

def new (limit : Nat) : Bytes := ⟨fun _ => 0, 0, 0, limit, Nat.zero_le limit⟩

variable (queue : Bytes)

def push (bytes : List UInt8) : Nat × Bytes :=
  let count := min bytes.length (queue.limit - queue.length)
  (count, { queue with
    data := Ring.store queue.limit queue.data (queue.head + queue.length) (bytes.take count)
    length := queue.length + count
    length_le := by have := queue.length_le; omega })

def copy (offset capacity : Nat) : List UInt8 :=
  if offset ≥ queue.length then []
  else Ring.read queue.limit queue.data (queue.head + offset) (min capacity (queue.length - offset))

def consume (bytes : Nat) : Bytes :=
  let count := min bytes queue.length
  { queue with
    head := (queue.head + count) % queue.limit
    length := queue.length - count
    length_le := by have := queue.length_le; omega }

def clear : Bytes :=
  { queue with head := 0, length := 0, length_le := Nat.zero_le _ }

def toList : List UInt8 :=
  Ring.read queue.limit queue.data queue.head queue.length

variable {queue} {bytes : List UInt8} {offset capacity n : Nat}

@[simp]
theorem length_toList : queue.toList.length = queue.length := Ring.length_read

theorem length_push :
    (queue.push bytes).2.length = queue.length + min bytes.length (queue.limit - queue.length) :=
  rfl

theorem toList_push :
    (queue.push bytes).2.toList = queue.toList ++ bytes.take (queue.limit - queue.length) := by
  have hle := queue.length_le
  obtain ⟨count, hcount⟩ : ∃ count, count = min bytes.length (queue.limit - queue.length) :=
    ⟨_, rfl⟩
  have htake : (bytes.take count).length = count := by
    rw [length_take]
    omega
  have happend : Ring.read queue.limit (Ring.store queue.limit queue.data
      (queue.head + queue.length) (bytes.take count)) queue.head
      (queue.length + (bytes.take count).length) = queue.toList ++ bytes.take count :=
      Ring.read_store_append (by omega)
  rw [htake] at happend
  rw [toList, push]
  dsimp only
  rw [← hcount, happend, take_eq_take_min (i := queue.limit - queue.length), Nat.min_comm, ← hcount]

theorem copy_eq : queue.copy offset capacity = (queue.toList.drop offset).take capacity := by
  unfold copy
  split
  · rename_i hbehind
    rw [drop_eq_nil_of_le (by rw [length_toList]; omega), take_nil]
  rw [toList, Ring.drop_read (by omega)]
  by_cases hcapacity : capacity ≤ queue.length - offset
  · rw [Ring.take_read hcapacity, Nat.min_eq_left hcapacity]
  · rw [take_of_length_le (by rw [Ring.length_read]; omega), Nat.min_eq_right (by omega)]

@[simp]
theorem length_consume : (queue.consume n).length = queue.length - n := by
  change queue.length - min n queue.length = _
  omega

theorem toList_consume : (queue.consume n).toList = queue.toList.drop n := by
  change Ring.read queue.limit queue.data ((queue.head + min n queue.length) % queue.limit)
    (queue.length - min n queue.length) = _
  rw [Ring.read_mod, ← Ring.drop_read (by omega)]
  by_cases hn : n ≤ queue.length
  · rw [Nat.min_eq_left hn, toList]
  · rw [Nat.min_eq_right (by omega), drop_eq_nil_of_le (by rw [Ring.length_read]),
      drop_eq_nil_of_le (by rw [length_toList]; omega)]

end Bytes

end Kaguya.Tcp
