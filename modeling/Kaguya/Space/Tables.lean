import Kaguya.Paging.Frames

/-!
# The tables of an address space

`address_space.jh`: page tables for one half of the user addresses, built on demand from frames of
the pool and given back by a walk over the tables. The frames an address space grows by are staged
in a list that goes through the frames themselves.
-/

namespace Kaguya.Space

open Paging

def USER_START : Nat := 0x400000000000
def USER_END : Nat := 0x800000000000
def HEAP_LIMIT : Nat := 0x700010000000

def userSlots : List Nat := List.range' 128 128

def spaceCreate (kernel : Nat) (m : Machine) : Nat × Machine :=
  let call := m.alloc
  let root := call.1
  if root = 0 then (0, call.2)
  else
    (root, (List.range 512).foldl (fun m i =>
      if i < 128 ∨ i ≥ 256 then m.setEntry root i (m.entry kernel i) else m) call.2)

def descend (address : Nat) : List Nat → Nat → Machine → Nat × Machine
  | [], table, m => (table, m)
  | shift :: shifts, table, m =>
    let index := slot shift address
    if m.entry table index &&& PRESENT = 0 then
      let call := m.alloc
      let frame := call.1
      if frame = 0 then (0, call.2)
      else
        let m := call.2.setEntry table index (frame ||| PRESENT ||| WRITABLE ||| USER)
        descend address shifts (m.entry table index &&& FRAME_MASK) m
    else descend address shifts (m.entry table index &&& FRAME_MASK) m

/-- `leaf`: the last table on the way to an address, or null. -/
def leaf (root address : Nat) (m : Machine) : Nat × Machine :=
  if address < USER_START ∨ address ≥ USER_END then (0, m)
  else descend address [39, 30, 21] root m

def map (root address entry : Nat) (m : Machine) : Bool × Machine :=
  let call := leaf root address m
  let table := call.1
  let m := call.2
  if table = 0 then (false, m)
  else
    let index := slot 12 address
    if m.entry table index &&& PRESENT ≠ 0 then (false, m)
    else (true, m.setEntry table index entry)

def spaceMap (root address flags : Nat) (m : Machine) : Nat × Machine :=
  let call := m.alloc
  let frame := call.1
  if frame = 0 then (0, call.2)
  else
    let mapped := map root address (frame ||| flags) call.2
    if mapped.1 then (frame, mapped.2) else (0, mapped.2.free frame)

/-! ## Growing

The three loops of `jihoo_space_grow` step through `pages` pages from `address` on. -/

def reserve (root : Nat) : Nat → Nat → Machine → Bool × Machine
  | 0, _, m => (true, m)
  | pages + 1, address, m =>
    let call := leaf root address m
    if call.1 = 0 then (false, call.2) else reserve root pages (address + 4096) call.2

def unstage : Nat → Nat → Machine → Machine
  | 0, _, m => m
  | fuel + 1, frames, m =>
    if frames ≠ 0 then unstage fuel (m.entry frames 0) (m.free frames) else m

def stage : Nat → Nat → Machine → Option Nat × Machine
  | 0, frames, m => (some frames, m)
  | pages + 1, frames, m =>
    let call := m.alloc
    let frame := call.1
    if frame = 0 then (none, unstage call.2.inUse.length frames call.2)
    else stage pages frame (call.2.setEntry frame 0 frames)

def place (root : Nat) : Nat → Nat → Nat → Machine → Bool × Machine
  | 0, _, _, m => (true, m)
  | pages + 1, address, frames, m =>
    let frame := frames
    let frames := m.entry frame 0
    let m := m.setEntry frame 0 0
    let mapped := map root address (frame ||| PRESENT ||| USER ||| WRITABLE ||| NX) m
    if mapped.1 then place root pages (address + 4096) frames mapped.2 else (false, mapped.2)

/-- `jihoo_space_grow`, with no result for a panic. -/
def spaceGrow (root old bytes : Nat) (m : Machine) : Option Nat × Machine :=
  if bytes > 0xffffffffffffffff - 4095 then (some 0, m)
  else
    let rounded := (bytes + 4095) / 4096 * 4096
    if old > HEAP_LIMIT ∨ rounded > HEAP_LIMIT - old then (some 0, m)
    else
      let pages := rounded / 4096
      let reserved := reserve root pages old m
      if reserved.1 = false then (some 0, reserved.2)
      else
        let staged := stage pages 0 reserved.2
        match staged.1 with
        | none => (some 0, staged.2)
        | some frames =>
          let placed := place root pages old frames staged.2
          if placed.1 then (some (old + rounded), placed.2) else (none, placed.2)

/-! ## Destroying -/

def freeTable : Nat → Nat → Machine → Machine
  | 0, entry, m =>
    if entry &&& PRESENT = 0 then m else m.free (entry &&& FRAME_MASK)
  | levels + 1, entry, m =>
    if entry &&& PRESENT = 0 then m
    else
      let frame := entry &&& FRAME_MASK
      ((List.range 512).foldl (fun m i => freeTable levels (m.entry frame i) m) m).free frame

def spaceDestroy (root : Nat) (m : Machine) : Machine :=
  (userSlots.foldl (fun m i => freeTable 3 (m.entry root i) m) m).free root

/-! ## What a space holds -/

def tree (m : Machine) (root : Nat) : List Nat :=
  Trie.span 512 childOf m.entry 3 root userSlots

/-- The frames in use are the root, the frames of its tree, each of them once, and the others; those
that were in use at the start or have been handed out since are in use or have been given back. -/
structure Holds (m : Machine) (root : Nat) (others start : List Nat) : Prop where
  nodup : m.inUse.Nodup
  usable : ∀ frame ∈ m.inUse, Usable frame
  account : m.inUse.Perm (root :: tree m root ++ others)
  ledger : (m.freed ++ m.inUse).Perm (m.allocated ++ start)

structure Kept (m m' : Machine) (root : Nat) (others : List Nat) : Prop where
  frames : ∀ frame ∈ others, Machine.SameFrame m m' frame
  slots : ∀ i < 512, i ∉ userSlots → m'.entry root i = m.entry root i

end Kaguya.Space
