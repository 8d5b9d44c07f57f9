import Mathlib.Data.Fin.Basic
import Kaguya.Lib.Laps

/-!
# The queues of the NVMe driver

Commands and queue pairs of `nvme_queue.jh`. A queue writes its commands round and round over the
submission ring and tells the controller by the tail doorbell. In the completion ring it knows a new
entry by the phase bit.

A ring is a function from the numbers of its words. The pages of the two rings and the doorbells do
not overlap.
-/

namespace Kaguya.Nvme

structure Command where
  words : Fin 16 → UInt32

namespace Command

def set (command : Command) (i : Fin 16) (word : UInt32) : Command :=
  ⟨Function.update command.words i word⟩

def new (opcode : UInt8) (id : UInt16) (namespaceId : UInt32) : Command :=
  let command : Command := ⟨fun _ => 0⟩
  let command := command.set 0 (opcode.toUInt32 ||| (id.toUInt32 <<< 16))
  command.set 1 namespaceId

def prp1 (command : Command) (address : UInt64) : Command :=
  (command.set 6 address.toUInt32).set 7 (address >>> 32).toUInt32

def prp2 (command : Command) (address : UInt64) : Command :=
  (command.set 8 address.toUInt32).set 9 (address >>> 32).toUInt32

def setRange (command : Command) (low high last : UInt32) : Command :=
  ((command.set 10 low).set 11 high).set 12 last

def id (command : Command) : UInt16 := (command.words 0 >>> 16).toUInt16

variable {command : Command} {address : UInt64}

theorem id_set {i : Fin 16} {word : UInt32} (h : i ≠ 0) : (command.set i word).id = command.id := by
  unfold id set
  dsimp only
  rw [Function.update_of_ne h.symm]

theorem id_new (opcode : UInt8) (id : UInt16) (namespaceId : UInt32) :
    (new opcode id namespaceId).id = id := by
  unfold new
  rw [id_set (by decide)]
  apply UInt16.eq_of_toBitVec_eq
  ext i hi
  simp [Command.id, set]
  grind

theorem id_prp1 : (command.prp1 address).id = command.id := by
  rw [prp1, id_set (by decide), id_set (by decide)]

theorem id_prp2 : (command.prp2 address).id = command.id := by
  rw [prp2, id_set (by decide), id_set (by decide)]

theorem id_setRange {low high last : UInt32} :
    (command.setRange low high last).id = command.id := by
  rw [setRange, id_set (by decide), id_set (by decide), id_set (by decide)]

end Command

abbrev PageList : Type := Nat → UInt64

def Command.prp (command : Command) (i : Fin 16) : Nat :=
  (command.words i).toNat + 2 ^ 32 * (command.words (i + 1)).toNat

/-- The address of byte `k` of a transfer of `bytes` bytes, by the rules for the two pointers;
`lists` has the page list at each address. -/
def Command.place (command : Command) (lists : Nat → PageList) (bytes k : Nat) : Nat :=
  let position := command.prp 6 % 4096 + k
  if position < 4096 then command.prp 6 + k
  else if command.prp 6 % 4096 + bytes ≤ 2 * 4096 then command.prp 8 + position % 4096
  else (lists (command.prp 8) (position / 4096 - 1)).toNat + position % 4096

/-- `set_prps`: whether the buffer can be described, the command and the page list. -/
def setPrps (command : Command) (buffer sectors list : Nat) (pages : PageList) :
    Bool × Command × PageList :=
  if buffer = 0 ∨ sectors = 0 ∨ 65536 < sectors then (false, command, pages)
  else
    let bytes := sectors * 512
    if 0xffffffffffffffff - bytes < buffer then (false, command, pages)
    else
      let first := buffer / 4096 * 4096
      let count := ((buffer - first) + bytes + 4095) / 4096
      if 513 < count then (false, command, pages)
      else
        let command := command.prp1 (UInt64.ofNat buffer)
        if count = 1 then (true, command.prp2 0, pages)
        else if count = 2 then (true, command.prp2 (UInt64.ofNat (first + 4096)), pages)
        else if list = 0 ∨ list % 4096 ≠ 0 then (false, command, pages)
        else
          (true, command.prp2 (UInt64.ofNat list), fun i =>
            if i + 1 < count then UInt64.ofNat (first + (i + 1) * 4096) else pages i)

theorem id_setPrps {command : Command} {buffer sectors list : Nat} {pages : PageList} :
    (setPrps command buffer sectors list pages).2.1.id = command.id := by
  unfold setPrps
  dsimp only
  split_ifs
  all_goals simp only [Command.id_prp1, Command.id_prp2]

structure Memory where
  submission : Nat → UInt32
  completion : Nat → UInt32
  tailDoorbell : Nat
  headDoorbell : Nat

structure Queue where
  size : Nat
  tail : Nat
  head : Nat
  phase : UInt32

namespace Queue

/-- `Queue.new`, for rings and doorbells at given places. -/
def new (size : Nat) : Queue := ⟨size, 0, 0, 1⟩

def writeCommand (submission : Nat → UInt32) (slot : Nat) (command : Command) : Nat → UInt32 :=
  fun word => if word / 16 = slot then command.words (Fin.ofNat 16 word) else submission word

/-- `none` where the source stops the machine. -/
def submit (q : Queue) (memory : Memory) (command : Command) : Option (Queue × Memory) :=
  if q.size < 2 ∨ q.size ≤ q.tail then none
  else
    let tail := if q.tail + 1 = q.size then 0 else q.tail + 1
    some ({ q with tail := tail }, { memory with
      submission := writeCommand memory.submission q.tail command
      tailDoorbell := tail })

def advance (q : Queue) : Queue :=
  if q.head + 1 = q.size then { q with head := 0, phase := q.phase ^^^ 1 }
  else { q with head := q.head + 1 }

def poll (q : Queue) (memory : Memory) (id : UInt16) : Option (Option UInt16 × Queue × Memory) :=
  if q.size < 2 ∨ q.size ≤ q.head then none
  else
    let tag := memory.completion (4 * q.head + 3)
    if (tag >>> 16) &&& 1 ≠ q.phase then some (none, q, memory)
    else
      let q := q.advance
      let memory := { memory with headDoorbell := q.head }
      if tag.toUInt16 ≠ id then some (none, q, memory)
      else some (some (tag >>> 17).toUInt16, q, memory)

variable {q : Queue} {memory : Memory} {command : Command} {count : Nat} {id : UInt16}

def phaseWord (bit : Bool) : UInt32 := if bit then 1 else 0

theorem writeCommand_self {submission : Nat → UInt32} {slot : Nat} (i : Fin 16) :
    writeCommand submission slot command (16 * slot + i) = command.words i := by
  have hslot : (16 * slot + i.val) / 16 = slot := by omega
  have hword : Fin.ofNat 16 (16 * slot + i.val) = i := by
    apply Fin.ext
    change (16 * slot + i.val) % 16 = i.val
    omega
  unfold writeCommand
  rw [if_pos hslot, hword]

theorem submit_eq (hsize : 2 ≤ q.size) (htail : q.tail = count % q.size) :
    q.submit memory command = some ({ q with tail := (count + 1) % q.size }, { memory with
      submission := writeCommand memory.submission (count % q.size) command
      tailDoorbell := (count + 1) % q.size }) := by
  have hlt := Nat.mod_lt count (Nat.zero_lt_of_lt hsize)
  unfold submit
  rw [if_neg (by omega), htail, Laps.next_mod (Nat.zero_lt_of_lt hsize)]

structure HasTaken (q : Queue) (count : Nat) : Prop where
  head : q.head = count % q.size
  phase : q.phase = phaseWord (Laps.bit q.size count)

theorem HasTaken.advance (h : q.HasTaken count) (hsize : 2 ≤ q.size) :
    q.advance.HasTaken (count + 1) ∧ q.advance.size = q.size ∧ q.advance.tail = q.tail := by
  have hpos : 0 < q.size := Nat.zero_lt_of_lt hsize
  unfold Queue.advance
  rw [h.head]
  split
  · rename_i hlast
    refine ⟨⟨(Laps.succ_mod_of_eq hlast).symm, ?_⟩, rfl, rfl⟩
    rw [Laps.bit_succ_of_eq hpos hlast, h.phase]
    cases Laps.bit q.size count with
    | false | true => rfl
  · rename_i hlast
    refine ⟨⟨(Laps.succ_mod_of_ne hpos hlast).symm, ?_⟩, rfl, rfl⟩
    rw [Laps.bit_succ_of_ne hpos hlast]
    exact h.phase

theorem poll_none (hsize : 2 ≤ q.size) (hhead : q.head < q.size)
    (hstale : (memory.completion (4 * q.head + 3) >>> 16) &&& 1 ≠ q.phase) :
    q.poll memory id = some (none, q, memory) := by
  unfold poll
  rw [if_neg (by omega)]
  exact if_pos hstale

theorem poll_some (hsize : 2 ≤ q.size) (hhead : q.head < q.size)
    (hphase : (memory.completion (4 * q.head + 3) >>> 16) &&& 1 = q.phase)
    (hid : (memory.completion (4 * q.head + 3)).toUInt16 = id) :
    q.poll memory id = some (some (memory.completion (4 * q.head + 3) >>> 17).toUInt16, q.advance,
      { memory with headDoorbell := q.advance.head }) := by
  unfold poll
  rw [if_neg (by omega)]
  rw [if_neg (not_not.mpr hphase), if_neg (not_not.mpr hid)]

end Queue

end Kaguya.Nvme
