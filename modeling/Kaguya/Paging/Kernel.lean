import Kaguya.Lib.Trie
import Kaguya.Paging.Frames

/-!
# The kernel's tables

`paging.jh` and the callers of it in `memory.jh`: the identity map made at boot from the firmware's
memory map, the mappings added for devices, firmware tables and the RAM disk, and the walk that
checks whether a range is mapped.
-/

namespace Kaguya.Paging

/-- The loop of `jihoo_page_map` over the levels, with any allocator. -/
def descendWith (allocate : Machine → Nat × Machine) (address : Nat) :
    List Nat → Nat → Machine → Option Nat × Machine
  | [], table, m => (some table, m)
  | shift :: shifts, table, m =>
    let index := slot shift address
    if m.entry table index &&& PRESENT = 0 then
      let call := allocate m
      let frame := call.1
      if frame = 0 then (none, call.2)
      else
        let m := (call.2.pageZero frame).setEntry table index (frame ||| PRESENT ||| USER ||| 2)
        descendWith allocate address shifts (m.entry table index &&& FRAME_MASK) m
    else if m.entry table index &&& HUGE ≠ 0 then (none, m)
    else descendWith allocate address shifts (m.entry table index &&& FRAME_MASK) m

def pageMapWith (allocate : Machine → Nat × Machine) (root address physical flags : Nat)
    (m : Machine) : Bool × Machine :=
  let walked := descendWith allocate address [39, 30, 21] root m
  match walked.1 with
  | none => (false, walked.2)
  | some table =>
    (true, walked.2.setEntry table (slot 12 address) (physical ||| flags ||| PRESENT))

/-- `jihoo_page_map` with the frames of the kernel. -/
def pageMap (root address physical flags : Nat) (m : Machine) : Bool × Machine :=
  pageMapWith Machine.alloc root address physical flags m

/-! ## The map made at boot -/

structure Descriptor where
  kind : Nat
  physicalStart : Nat
  pages : Nat

def Descriptor.mapped (descriptor : Descriptor) : Bool :=
  (1 ≤ descriptor.kind && descriptor.kind ≤ 7) || (9 ≤ descriptor.kind && descriptor.kind ≤ 12)

/-- A loop of `jihoo_paging_init` over the pages from `address` to `limit`. It goes round the
address space when the last page is the very last one, so that it need not end. -/
def mapIdentity (root limit : Nat) : Nat → Nat → Machine → Option (Bool × Machine)
  | 0, _, _ => none
  | fuel + 1, address, m =>
    if address < limit then
      let call := pageMap root address address 2 m
      if call.1 then mapIdentity root limit fuel ((address + 4096) % 2 ^ 64) call.2
      else some (false, call.2)
    else some (true, m)

def mapDescriptors (root fuel : Nat) : List Descriptor → Machine → Option (Bool × Machine)
  | [], m => some (true, m)
  | descriptor :: descriptors, m =>
    if descriptor.mapped then
      let address := descriptor.physicalStart
      let limit := (address + descriptor.pages * 4096) % 2 ^ 64
      (mapIdentity root limit fuel address m).bind fun result =>
        if result.1 then mapDescriptors root fuel descriptors result.2 else some (false, result.2)
    else mapDescriptors root fuel descriptors m

/-- `jihoo_paging_init`: the root, or 0, if the loops end. -/
def pagingInit (fuel : Nat) (descriptors : List Descriptor) (framebuffer framebufferSize : Nat)
    (m : Machine) : Option (Nat × Machine) :=
  let call := m.alloc
  let root := call.1
  if root = 0 then some (0, call.2)
  else
    (mapDescriptors root fuel descriptors (call.2.pageZero root)).bind fun described =>
      if described.1 then
        let limit := (framebuffer + framebufferSize) % 2 ^ 64
        (mapIdentity root limit fuel framebuffer described.2).bind fun result =>
          some (if result.1 then root else 0, result.2)
      else some (0, described.2)

/-! ## Checking a range -/

def presentFrom (m : Machine) (address required : Nat) : List Nat → Nat → Bool
  | [], _ => false
  | shift :: shifts, table =>
    let word := m.entry table (slot shift address)
    if word &&& required ≠ required then false
    else if shift = 12 then true
    else if word &&& HUGE ≠ 0 then shift ≠ 39
    else presentFrom m address required shifts (word &&& FRAME_MASK)

def pagePresent (m : Machine) (root address required : Nat) : Bool :=
  presentFrom m address required [39, 30, 21, 12] root

/-- The loop of `jihoo_range_mapped`, which has at most `pages` pages to look at. -/
def pagesPresent (m : Machine) (root last required : Nat) : Nat → Nat → Bool
  | 0, _ => false
  | pages + 1, address =>
    if pagePresent m root address required = false then false
    else if address = last then true
    else pagesPresent m root last required pages (address + 4096)

/-- `jihoo_range_mapped` -/
def rangeMapped (m : Machine) (root start length : Nat) (user : Bool) : Bool :=
  if length = 0 then true
  else if length > 0xffffffffffffffff - start then false
  else
    let limit := start + length
    let region := start >>> 47
    if region ≠ 0 ∧ region ≠ 0x1ffff then false
    else if (limit - 1) >>> 47 ≠ region then false
    else
      let required := if user then PRESENT ||| USER else PRESENT
      let address := start / 4096 * 4096
      let last := (limit - 1) / 4096 * 4096
      pagesPresent m root last required ((last - address) / 4096 + 1) address

/-! ## Later mappings -/

def mapDevice (root : Nat) : Nat → Nat → Machine → Bool × Machine
  | 0, _, m => (true, m)
  | pages + 1, page, m =>
    let call := pageMap root page page 0x8000000000000012 m
    if call.1 then mapDevice root pages (page + 4096) call.2 else (false, call.2)

def mapMmio (root base bytes : Nat) (m : Machine) : Bool × Machine :=
  if base &&& 4095 ≠ 0 ∨ bytes = 0 ∨ bytes &&& 4095 ≠ 0 ∨ base > 0xffffffffffffffff - bytes then
    (false, m)
  else mapDevice root (bytes / 4096) base m

def mapFirmware (root : Nat) : Nat → Nat → Machine → Bool × Machine
  | 0, _, m => (true, m)
  | pages + 1, page, m =>
    if rangeMapped m root page 4096 false then mapFirmware root pages (page + 4096) m
    else
      let call := pageMap root page page 0x8000000000000002 m
      if call.1 then mapFirmware root pages (page + 4096) call.2 else (false, call.2)

def firmwareRange (root base bytes : Nat) (m : Machine) : Bool × Machine :=
  if bytes = 0 ∨ base > 0x7ffffffff000 ∨ bytes > 0x7ffffffff000 - base then (false, m)
  else
    let page := base / 4096 * 4096
    let limit := (base + bytes + 4095) / 4096 * 4096
    mapFirmware root ((limit - page) / 4096) page m

def mapFresh (root address flags : Nat) (m : Machine) : Nat × Machine :=
  let call := m.alloc
  let physical := call.1
  if physical = 0 then (0, call.2)
  else
    let mapped := pageMap root address physical flags call.2
    if mapped.1 then (physical, mapped.2) else (0, mapped.2.free physical)

def RAM_BASE : Nat := 0xffffb00000000000

/-- The call of `map_fresh` for a page of the RAM disk. -/
def mapRamDisk (root page : Nat) (m : Machine) : Nat × Machine :=
  mapFresh root (RAM_BASE + page * 4096) 0x8000000000000002 m

end Kaguya.Paging
