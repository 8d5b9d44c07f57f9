import Kaguya.Lib.Buffer
import Mathlib.Logic.Function.Basic

/-!
# The kernel heap

The first three quarters of the memory are an arena for small allocations and the rest is a list of
large blocks. A small allocation has a word in front of it with the number of its size class, and a
large one has the address of its block there. Addresses are below `2 ^ 64` and address 0 is null.
-/

namespace Kaguya

structure Block where
  size : Nat
  next : Nat
  prev : Nat
  free : Bool

def CLASSES : List Nat := [8, 16, 32, 64, 128, 256, 512, 1024, 2048, 4096]

def HEADER : Nat := 32

namespace Block

def load (memory : Buffer) (address : Nat) : Block where
  size := memory.get address 8
  next := memory.get (address + 8) 8
  prev := memory.get (address + 16) 8
  free := memory (address + 24) != 0

def setSize (address size : Nat) (memory : Buffer) : Buffer := memory.put address size 8

def setNext (address next : Nat) (memory : Buffer) : Buffer := memory.put (address + 8) next 8

def setPrev (address prev : Nat) (memory : Buffer) : Buffer := memory.put (address + 16) prev 8

def setFree (address : Nat) (free : Bool) (memory : Buffer) : Buffer :=
  memory.put (address + 24) free.toNat 1

end Block

structure Heap where
  memory : Buffer
  free : Nat → Nat
  large : Nat
  arena : Nat
  arenaEnd : Nat

namespace Heap

open Block

def add (a b : Nat) : Nat := (a + b) % 2 ^ 64

def sub (a b : Nat) : Nat := (a + 2 ^ 64 - b) % 2 ^ 64

def init (start size : Nat) (memory : Buffer) : Heap :=
  let arenaBytes := size / 4 * 3
  let arenaEnd := add start arenaBytes
  let remaining := size - arenaBytes
  if HEADER < remaining then
    { memory := memory |> setSize arenaEnd (remaining - HEADER) |> setNext arenaEnd 0
        |> setPrev arenaEnd 0 |> setFree arenaEnd true
      free := fun _ => 0
      large := arenaEnd
      arena := start
      arenaEnd := arenaEnd }
  else { memory := memory, free := fun _ => 0, large := 0, arena := start, arenaEnd := arenaEnd }

def findFit (memory : Buffer) (needed : Nat) : Nat → Nat → Nat
  | 0, _ => 0
  | fuel + 1, current =>
    if current = 0 then 0
    else if (load memory current).free ∧ needed ≤ (load memory current).size then current
    else findFit memory needed fuel (load memory current).next

def relink (target block : Nat) (memory : Buffer) : Buffer :=
  if target ≠ 0 then setPrev target block memory else memory

def splitBlock (current needed : Nat) (memory : Buffer) : Buffer :=
  let next := add (add current HEADER) needed
  let memory := setSize next ((load memory current).size - needed - HEADER) memory
  let memory := setNext next (load memory current).next memory
  let memory := memory |> setPrev next current |> setFree next true
  let memory := relink (load memory next).next next memory
  memory |> setSize current needed |> setNext current next

def allocLarge (size : Nat) (h : Heap) : Nat × Heap :=
  if 2 ^ 64 - 1 - 7 < size then (0, h)
  else
    let needed := (size + 7) / 8 * 8
    -- a list of blocks has fewer members than there are addresses
    let current := findFit h.memory needed (2 ^ 64) h.large
    if current = 0 then (0, h)
    else
      let memory := if HEADER + 16 ≤ (load h.memory current).size - needed
        then splitBlock current needed h.memory else h.memory
      (add current HEADER, { h with memory := setFree current false memory })

def mergeNext (block : Nat) (memory : Buffer) : Buffer :=
  let next := (load memory block).next
  if next ≠ 0 ∧ (load memory next).free then
    let memory := setSize block
      (add (load memory block).size (add (load memory next).size HEADER)) memory
    let memory := setNext block (load memory next).next memory
    relink (load memory block).next block memory
  else memory

def mergePrev (block : Nat) (memory : Buffer) : Buffer :=
  let previous := (load memory block).prev
  if previous ≠ 0 ∧ (load memory previous).free then
    let memory := setSize previous
      (add (load memory previous).size (add (load memory block).size HEADER)) memory
    let memory := setNext previous (load memory block).next memory
    relink (load memory block).next previous memory
  else memory

def freeLarge (payload : Nat) (h : Heap) : Heap :=
  if payload = 0 then h
  else
    let block := sub payload HEADER
    if (load h.memory block).free then h
    else { h with
      memory := h.memory |> setFree block true |> mergeNext block |> mergePrev block }

def classSize (bucket : Nat) : Nat := CLASSES.getD bucket 0

def push (bucket block : Nat) (h : Heap) : Heap :=
  { h with
    memory := h.memory.put block (h.free bucket) 8
    free := Function.update h.free bucket block }

def exhausted (bucket : Nat) (h : Heap) : Prop :=
  h.free bucket = 0 ∧ ¬ (add h.arena 7 / 8 * 8 ≤ h.arenaEnd
    ∧ classSize bucket + 8 ≤ h.arenaEnd - add h.arena 7 / 8 * 8)

def allocSmall (bucket : Nat) (h : Heap) : Nat × Heap :=
  let total := classSize bucket + 8
  let head := h.free bucket
  if head ≠ 0 then
    (add head 8, { h with
      free := Function.update h.free bucket (h.memory.get head 8)
      memory := h.memory.put head bucket 8 })
  else
    let aligned := add h.arena 7 / 8 * 8
    if aligned ≤ h.arenaEnd ∧ total ≤ h.arenaEnd - aligned then
      (add aligned 8, { h with
        arena := add aligned total
        memory := h.memory.put aligned bucket 8 })
    else
      let (slab, h) := h.allocLarge (total * 32)
      if slab = 0 then (0, h)
      else
        let h := (List.range' 1 31).foldl (fun h i => h.push bucket (add slab (i * total))) h
        (add slab 8, { h with memory := h.memory.put slab bucket 8 })

def bucketFor (size alignment : Nat) : Option Nat :=
  if alignment ≤ 8 then CLASSES.findIdx? (fun bytes => size ≤ bytes) else none

def allocAligned (size alignment : Nat) (h : Heap) : Nat × Heap :=
  if 2 ^ 64 - 1 - 16 < alignment then (0, h)
  else
    let extra := alignment + 16
    if 2 ^ 64 - 1 - extra < size then (0, h)
    else
      let (raw, h) := h.allocLarge (size + extra)
      if raw = 0 then (0, h)
      else
        let candidate := add raw 16
        let remainder := candidate % alignment
        let padding := if remainder = 0 then 0 else alignment - remainder
        let aligned := add candidate padding
        (aligned, { h with
          memory := (h.memory.put (sub aligned 16) (2 ^ 64 - 1) 8).put (sub aligned 8)
            (sub raw HEADER) 8 })

def alloc (size alignment : Nat) (h : Heap) : Nat × Heap :=
  if alignment = 0 ∨ alignment &&& (alignment - 1) ≠ 0 then (0, h)
  else match bucketFor size alignment with
    | some bucket => h.allocSmall bucket
    | none => h.allocAligned size alignment

def freePayload (payload : Nat) (h : Heap) : Heap :=
  if payload = 0 then h
  else
    let tag := h.memory.get (sub payload 8) 8
    if tag < 10 then h.push tag (sub payload 8) else h.freeLarge (add tag HEADER)

def capacity (payload : Nat) (h : Heap) : Nat :=
  let tag := h.memory.get (sub payload 8) 8
  if tag < 10 then classSize tag
  else sub (add (add tag HEADER) (load h.memory tag).size) payload

def realloc (payload size alignment : Nat) (h : Heap) : Nat × Heap :=
  let (next, h) := h.alloc size alignment
  if next ≠ 0 ∧ payload ≠ 0 then
    let old := h.capacity payload
    let memory := h.memory.memCopy next h.memory payload (if size < old then size else old)
    (next, { h with memory := memory }.freePayload payload)
  else (next, h)

end Heap

end Kaguya
