import Mathlib.Data.List.Infix
import Kaguya.Lib.Laps
import Kaguya.Lib.Runs

/-!
# The producer ring of the xHCI driver

`enqueue` of `xhci_ring.jh` writes TRBs round and round over a stretch of memory whose last entry is
a link back to the first. The controller knows a new TRB by its cycle bit alone. It takes the TRBs
in the order in which they were enqueued, from the addresses that `enqueue` returned, as long as no
lap catches up with it and no TRB is itself a link.
-/

namespace Kaguya.Xhci

open Function List

structure Trb where
  parameter : UInt64
  status : UInt32
  control : UInt32
  deriving DecidableEq, Repr

namespace Trb

variable (trb : Trb)

def cycle : Bool := trb.control &&& 1 == 1

def isLink : Bool := trb.control &&& ((63 : UInt32) <<< 10) == (6 : UInt32) <<< 10

def toggles : Bool := trb.control &&& 2 == 2

def words : Trb := { trb with control := trb.control &&& ~~~1 }

end Trb

abbrev Memory : Type := Nat → Trb

namespace Memory

variable (memory : Memory)

def clear (base bytes : Nat) : Memory :=
  fun address => if base ≤ address ∧ address < base + bytes then ⟨0, 0, 0⟩ else memory address

def setParameter (address : Nat) (value : UInt64) : Memory :=
  update memory address { memory address with parameter := value }

def setStatus (address : Nat) (value : UInt32) : Memory :=
  update memory address { memory address with status := value }

def setControl (address : Nat) (value : UInt32) : Memory :=
  update memory address { memory address with control := value }

end Memory

def cycleBit (cycle : Bool) : UInt32 := if cycle then 1 else 0

/-- A ring in the memory of the machine: `usable` TRBs and the link behind them. -/
structure Ring where
  base : Nat
  usable : Nat
  index : Nat
  cycle : Bool
  base_ne_null : base ≠ 0
  fits : base + 16 * (usable + 1) ≤ 2 ^ 64
  inside : index < usable

namespace Ring

/-- `Ring.new` for a stretch of memory, which stops the machine if there is no room for a ring. -/
def new (base bytes : Nat) (fits : base + bytes ≤ 2 ^ 64) (memory : Memory) :
    Option (Ring × Memory) :=
  if h : base = 0 ∨ base % 64 ≠ 0 ∨ bytes < 32 ∨ bytes % 16 ≠ 0 then none
  else
    let link := base + 16 * (bytes / 16 - 1)
    let memory := memory.clear base bytes
    let memory := memory.setParameter link (UInt64.ofNat base)
    let memory := memory.setControl link (((6 : UInt32) <<< 10) ||| 2)
    some ({
      base := base
      usable := bytes / 16 - 1
      index := 0
      cycle := true
      base_ne_null := fun hnull => h (.inl hnull)
      fits := by omega
      inside := by omega }, memory)

/-- The index and the cycle bit after an enqueue. The sum does not overflow, since `usable` fits. -/
def advance (ring : Ring) : Ring :=
  if h : ring.index + 1 = ring.usable then
    { ring with
      index := 0
      cycle := !ring.cycle
      inside := by omega }
  else
    { ring with
      index := ring.index + 1
      inside := by have := ring.inside; omega }

def enqueue (ring : Ring) (memory : Memory) (trb : Trb) : Nat × Ring × Memory :=
  let destination := ring.base + 16 * ring.index
  let bit := cycleBit ring.cycle
  let memory := memory.setParameter destination trb.parameter
  let memory := memory.setStatus destination trb.status
  let memory := memory.setControl destination ((trb.control &&& ~~~1) ||| bit)
  let memory :=
    if ring.index + 1 = ring.usable then
      memory.setControl (ring.base + 16 * ring.usable) (((6 : UInt32) <<< 10) ||| 2 ||| bit)
    else memory
  (destination, ring.advance, memory)

def contains (ring : Ring) (pointer : Nat) : Bool :=
  ring.base ≠ 0 && ring.base ≤ pointer && pointer < ring.base + ring.usable * 16

end Ring

structure Controller where
  pointer : Nat
  state : Bool

/-- The ring and the controller, what was enqueued and what the controller has taken, with the
addresses. -/
structure System where
  ring : Ring
  memory : Memory
  controller : Controller
  enqueued : List (Nat × Trb)
  taken : List (Nat × Trb)

inductive Action where
  | enqueue (trb : Trb)
  | look

namespace System

variable {s : System} {base bytes : Nat} {memory memory' : Memory} {ring : Ring} {trb : Trb}

def start (ring : Ring) (memory : Memory) : System where
  ring := ring
  memory := memory
  controller := ⟨ring.base, true⟩
  enqueued := []
  taken := []

/-- The controller looks at the TRB its pointer is at. It stays there if the cycle bit is not the
one it waits for, follows a link and takes any other TRB. -/
def look (s : System) : System :=
  let trb := s.memory s.controller.pointer
  if trb.cycle ≠ s.controller.state then s
  else if trb.isLink then
    { s with controller := ⟨trb.parameter.toNat, s.controller.state ^^ trb.toggles⟩ }
  else
    { s with
      controller := ⟨s.controller.pointer + 16, s.controller.state⟩
      taken := s.taken ++ [(s.controller.pointer, trb)] }

def enqueue (s : System) (trb : Trb) : System :=
  let (address, ring, memory) := s.ring.enqueue s.memory trb
  { s with
    ring := ring
    memory := memory
    enqueued := s.enqueued ++ [(address, trb)] }

def step (s : System) : Action → System
  | .enqueue trb => s.enqueue trb
  | .look => s.look

abbrev run (s : System) (actions : List Action) : System := runAll step s actions

/-- An enqueue leaves at most `usable - 1` TRBs that are not consumed, and is not of a link. -/
def Admits (s : System) : Action → Prop
  | .enqueue trb =>
    s.enqueued.length + 1 ≤ s.taken.length + (s.ring.usable - 1) ∧ trb.isLink = false
  | .look => True

instance (s : System) : ∀ action, Decidable (s.Admits action)
  | .enqueue _ => inferInstanceAs (Decidable (_ ∧ _))
  | .look => inferInstanceAs (Decidable True)

def contents (entries : List (Nat × Trb)) : List (Nat × Trb) :=
  entries.map fun entry => (entry.1, entry.2.words)

/-- The controller has seen the first of the TRBs that were enqueued, it can go on if there are
more, and every address is in the ring. -/
structure Fifo (s : System) : Prop where
  seen : contents s.taken <+: contents s.enqueued
  goesOn : s.taken.length < s.enqueued.length → s.taken.length < s.look.look.taken.length
  contained : ∀ entry ∈ s.enqueued, s.ring.contains entry.1 = true

theorem and_marked (x bit mask : UInt32) :
    ((x &&& ~~~1) ||| bit) &&& mask = (x &&& (~~~1 &&& mask)) ||| (bit &&& mask) := by
  apply UInt32.eq_of_toBitVec_eq
  ext i
  simp [Bool.and_or_distrib_right, Bool.and_assoc]

def marked (cycle : Bool) (trb : Trb) : Trb :=
  { trb with control := (trb.control &&& ~~~1) ||| cycleBit cycle }

theorem cycle_marked (cycle : Bool) (trb : Trb) : (marked cycle trb).cycle = cycle := by
  unfold Trb.cycle marked
  rw [and_marked, show (~~~1 &&& 1 : UInt32) = 0 by decide, UInt32.and_zero, UInt32.zero_or]
  cases cycle <;> decide

theorem isLink_marked (cycle : Bool) (trb : Trb) : (marked cycle trb).isLink = trb.isLink := by
  have hbit : cycleBit cycle &&& ((63 : UInt32) <<< 10) = 0 := by cases cycle <;> decide
  have hmask : ~~~(1 : UInt32) &&& ((63 : UInt32) <<< 10) = (63 : UInt32) <<< 10 := by decide
  unfold Trb.isLink marked
  rw [and_marked, hbit, hmask, UInt32.or_zero]

theorem words_marked (cycle : Bool) (trb : Trb) : (marked cycle trb).words = trb.words := by
  have hbit : cycleBit cycle &&& ~~~1 = 0 := by cases cycle <;> decide
  unfold Trb.words marked
  rw [and_marked, hbit, UInt32.and_self, UInt32.or_zero]

def linkTo (base : Nat) (cycle : Bool) : Trb :=
  ⟨UInt64.ofNat base, 0, ((6 : UInt32) <<< 10) ||| 2 ||| cycleBit cycle⟩

def slot (base : Nat) (memory : Memory) (i : Nat) : Trb := memory (base + 16 * i)

theorem enqueue_memory : (ring.enqueue memory trb).2.2 = if ring.index + 1 = ring.usable then
      Memory.setControl
        (update memory (ring.base + 16 * ring.index) (marked ring.cycle trb))
        (ring.base + 16 * ring.usable) (((6 : UInt32) <<< 10) ||| 2 ||| cycleBit ring.cycle)
    else update memory (ring.base + 16 * ring.index) (marked ring.cycle trb) := by
  have hwords : Memory.setControl (Memory.setStatus (Memory.setParameter memory
        (ring.base + 16 * ring.index) trb.parameter) (ring.base + 16 * ring.index) trb.status)
        (ring.base + 16 * ring.index) ((trb.control &&& ~~~1) ||| cycleBit ring.cycle)
      = update memory (ring.base + 16 * ring.index) (marked ring.cycle trb) := by
    simp [Memory.setControl, Memory.setStatus, Memory.setParameter, marked]
  rw [← hwords]
  rfl

theorem slot_enqueue_index :
    slot ring.base (ring.enqueue memory trb).2.2 ring.index = marked ring.cycle trb := by
  rw [enqueue_memory]
  unfold slot
  split
  · rw [Memory.setControl, update_of_ne (by omega), update_self]
  · rw [update_self]

theorem slot_enqueue_of_ne {i : Nat} (hi : i < ring.usable) (hne : i ≠ ring.index) :
    slot ring.base (ring.enqueue memory trb).2.2 i = slot ring.base memory i := by
  rw [enqueue_memory]
  unfold slot
  split
  · rw [Memory.setControl, update_of_ne (by omega), update_of_ne (by omega)]
  · rw [update_of_ne (by omega)]

theorem slot_enqueue_usable
    (h : slot ring.base memory ring.usable = linkTo ring.base (!ring.cycle)) :
    slot ring.base (ring.enqueue memory trb).2.2 ring.usable = linkTo ring.base
      (!ring.advance.cycle) := by
  have hinside := ring.inside
  unfold slot at h
  rw [enqueue_memory]
  unfold slot Ring.advance
  split
  · rw [Memory.setControl, update_self, update_of_ne (by omega), h, Bool.not_not]
    rfl
  · rw [update_of_ne (by omega), h]

def AtSlot (s : System) : Prop :=
  s.controller = ⟨s.ring.base + 16 * (s.taken.length % s.ring.usable),
    Laps.bit s.ring.usable s.taken.length⟩

structure AtLink (s : System) : Prop where
  lap : s.taken.length % s.ring.usable = 0
  controller_eq : s.controller = ⟨s.ring.base + 16 * s.ring.usable,
    !Laps.bit s.ring.usable s.taken.length⟩

def written (usable : Nat) (entries : List (Nat × Trb)) : List Trb :=
  entries.mapIdx fun q entry => marked (Laps.bit usable q) entry.2

structure Invariant (s : System) : Prop where
  index : s.ring.index = s.enqueued.length % s.ring.usable
  cycle : s.ring.cycle = Laps.bit s.ring.usable s.enqueued.length
  holds : Laps.Holds s.ring.usable Trb.cycle (slot s.ring.base s.memory)
    (written s.ring.usable s.enqueued)
  link : slot s.ring.base s.memory s.ring.usable = linkTo s.ring.base (!s.ring.cycle)
  address : s.enqueued.map Prod.fst
    = (range s.enqueued.length).map fun q => s.ring.base + 16 * (q % s.ring.usable)
  plain : ∀ entry ∈ s.enqueued, entry.2.isLink = false
  controller : s.AtSlot ∨ s.AtLink
  seen : contents s.taken <+: contents s.enqueued
  room : s.enqueued.length ≤ s.taken.length + (s.ring.usable - 1)

theorem advance_base : ring.advance.base = ring.base := by
  unfold Ring.advance
  split <;> rfl

theorem advance_usable : ring.advance.usable = ring.usable := by
  unfold Ring.advance
  split <;> rfl

variable {p usable : Nat} {entry : Nat × Trb}

theorem advance_index (hindex : ring.index = p % ring.usable) :
    ring.advance.index = (p + 1) % ring.usable := by
  have hpos : 0 < ring.usable := Nat.zero_lt_of_lt ring.inside
  unfold Ring.advance
  split
  · rename_i hlast
    rw [hindex] at hlast
    exact (Laps.succ_mod_of_eq hlast).symm
  · rename_i hlast
    rw [hindex] at hlast
    rw [Laps.succ_mod_of_ne hpos hlast, ← hindex]

theorem advance_cycle (hindex : ring.index = p % ring.usable)
    (hcycle : ring.cycle = Laps.bit ring.usable p) :
    ring.advance.cycle = Laps.bit ring.usable (p + 1) := by
  have hpos : 0 < ring.usable := Nat.zero_lt_of_lt ring.inside
  unfold Ring.advance
  split
  · rename_i hlast
    rw [hindex] at hlast
    rw [Laps.bit_succ_of_eq hpos hlast, ← hcycle]
  · rename_i hlast
    rw [hindex] at hlast
    rw [Laps.bit_succ_of_ne hpos hlast, ← hcycle]

variable {entries : List (Nat × Trb)}

theorem length_written : (written usable entries).length = entries.length := length_mapIdx

theorem written_append :
    written usable (entries ++ [entry]) = written usable entries
      ++ [marked (Laps.bit usable entries.length) entry.2] :=
  mapIdx_concat

theorem contents_append :
    contents (entries ++ [entry]) = contents entries ++ [(entry.1, entry.2.words)] := map_append

theorem length_contents : (contents entries).length = entries.length := length_map _

theorem linkTo_control (base : Nat) (cycle : Bool) : (linkTo base cycle).cycle = cycle
    ∧ (linkTo base cycle).isLink = true ∧ (linkTo base cycle).toggles = true := by
  unfold linkTo Trb.cycle Trb.isLink Trb.toggles
  dsimp only
  cases cycle with
  | false | true => decide

section
variable (h : s.Invariant)
include h

theorem Invariant.enqueue (hroom : s.enqueued.length + 1 ≤ s.taken.length + (s.ring.usable - 1))
    (hplain : trb.isLink = false) : (s.enqueue trb).Invariant := by
  have hpos : 0 < s.ring.usable := Nat.zero_lt_of_lt s.ring.inside
  have hlength : (s.enqueue trb).enqueued.length = s.enqueued.length + 1 := length_append
  have hring : (s.enqueue trb).ring = s.ring.advance := rfl
  constructor
  · rw [hring, hlength, advance_usable]
    exact advance_index h.index
  · rw [hring, hlength, advance_usable]
    exact advance_cycle h.index h.cycle
  · rw [hring, advance_usable, advance_base]
    change Laps.Holds _ _ _ (written _ (s.enqueued ++ [_]))
    rw [written_append]
    apply h.holds.write hpos
    · rw [length_written]
      exact cycle_marked _ _
    · rw [length_written, ← h.index, ← h.cycle]
      exact slot_enqueue_index
    · intro i hi hne
      rw [length_written, ← h.index] at hne
      exact slot_enqueue_of_ne hi hne
  · rw [hring, advance_usable, advance_base]
    exact slot_enqueue_usable h.link
  · rw [hlength, hring, advance_usable, advance_base, range_succ, map_append, ← h.address]
    change (s.enqueued ++ [_]).map Prod.fst = _
    rw [map_append, map_singleton, map_singleton, ← h.index]
  · intro entry hmem
    rcases mem_append.mp hmem with hold | hnew
    · exact h.plain entry hold
    · rw [mem_singleton.mp hnew]
      exact hplain
  · unfold AtSlot
    rw [hring, advance_usable, advance_base]
    rcases h.controller with hslot | hlink
    · exact .inl hslot
    right
    constructor
    · rw [hring, advance_usable]
      exact hlink.lap
    · rw [hring, advance_usable, advance_base]
      exact hlink.controller_eq
  · apply h.seen.trans
    change contents s.enqueued <+: contents (s.enqueued ++ [_])
    rw [contents_append]
    exact prefix_append _ _
  · rw [hlength, hring, advance_usable]
    exact hroom

theorem Invariant.length_le : s.taken.length ≤ s.enqueued.length := by
  have hle := h.seen.length_le
  rwa [length_contents, length_contents] at hle

theorem Invariant.cycle_eq_iff : (slot s.ring.base s.memory (s.taken.length % s.ring.usable)).cycle
      = Laps.bit s.ring.usable s.taken.length ↔ s.taken.length < s.enqueued.length := by
  have hpos : 0 < s.ring.usable := Nat.zero_lt_of_lt s.ring.inside
  have hroom := h.room
  have hiff := h.holds.mark_eq_iff hpos (c := s.taken.length)
    (by rw [length_written]; exact h.length_le) (by rw [length_written]; omega)
  rwa [length_written] at hiff

theorem Invariant.slot_eq (hmore : s.taken.length < s.enqueued.length) :
    slot s.ring.base s.memory (s.taken.length % s.ring.usable)
      = marked (Laps.bit s.ring.usable s.taken.length) s.enqueued[s.taken.length].2 := by
  have hroom := h.room
  rw [h.holds.newest s.taken.length (by rwa [length_written]) (by rw [length_written]; omega)]
  exact getElem_mapIdx

theorem Invariant.address_eq {q : Nat} (hq : q < s.enqueued.length) :
    s.enqueued[q].1 = s.ring.base + 16 * (q % s.ring.usable) := by
  have hget := congrArg (fun addresses => addresses[q]?) h.address
  simpa [hq] using hget

theorem Invariant.look_takes (hmore : s.taken.length < s.enqueued.length) (hslot : s.AtSlot) :
    s.look = { s with
      controller :=
  ⟨s.ring.base + 16 * (s.taken.length % s.ring.usable) + 16, Laps.bit s.ring.usable s.taken.length⟩
      taken := s.taken ++ [(s.ring.base + 16 * (s.taken.length % s.ring.usable),
        marked (Laps.bit s.ring.usable s.taken.length) s.enqueued[s.taken.length].2)] } := by
  have hmemory : s.memory s.controller.pointer
      = marked (Laps.bit s.ring.usable s.taken.length) s.enqueued[s.taken.length].2 := by
    rw [hslot]
    exact h.slot_eq hmore
  unfold look
  dsimp only
  rw [hmemory, cycle_marked, isLink_marked, h.plain _ (getElem_mem hmore), hslot]
  simp

theorem Invariant.look_stays (hmore : ¬ s.taken.length < s.enqueued.length) (hslot : s.AtSlot) :
    s.look = s := by
  have hcycle := h.cycle_eq_iff.not.mpr hmore
  apply if_pos
  rw [hslot]
  exact hcycle

/-- The link is never in the way: while the TRBs beyond it are fewer than a lap, its bit is the one
the controller waits for. -/
theorem Invariant.look_follows (hlink : s.AtLink) : s.look = { s with
      controller := ⟨s.ring.base + 16 * (s.taken.length % s.ring.usable),
        Laps.bit s.ring.usable s.taken.length⟩ } := by
  have hpos : 0 < s.ring.usable := Nat.zero_lt_of_lt s.ring.inside
  have hroom := h.room
  have hfits := s.ring.fits
  have hbit : s.ring.cycle = Laps.bit s.ring.usable s.taken.length := by
    rw [h.cycle]
    exact Laps.bit_eq_of_lap hpos hlink.lap h.length_le (by omega)
  have hmemory : s.memory s.controller.pointer = linkTo s.ring.base (!s.ring.cycle) := by
    rw [hlink.controller_eq]
    exact h.link
  have hbase : (linkTo s.ring.base (!s.ring.cycle)).parameter.toNat = s.ring.base := by
    have hlt : s.ring.base < 2 ^ 64 := by omega
    exact UInt64.toNat_ofNat_of_lt hlt
  obtain ⟨hcycle, hislink, htoggles⟩ := linkTo_control s.ring.base (!s.ring.cycle)
  unfold look
  dsimp only
  rw [hmemory, hcycle, hislink, htoggles, hbase, hlink.controller_eq, hbit, hlink.lap]
  simp

theorem Invariant.takes (hmore : s.taken.length < s.enqueued.length) (hslot : s.AtSlot) :
    s.look.Invariant := by
  have hpos : 0 < s.ring.usable := Nat.zero_lt_of_lt s.ring.inside
  have hroom := h.room
  rw [h.look_takes hmore hslot]
  refine ⟨h.index, h.cycle, h.holds, h.link, h.address, h.plain, ?_, ?_, ?_⟩
  · by_cases hlast : s.taken.length % s.ring.usable + 1 = s.ring.usable
    · right
      constructor
      · rw [length_append, length_singleton]
        exact Laps.succ_mod_of_eq hlast
      · rw [length_append, length_singleton, Laps.bit_succ_of_eq hpos hlast, Bool.not_not,
          Nat.add_assoc, ← Nat.mul_succ, Nat.succ_eq_add_one, hlast]
    · left
      unfold AtSlot
      rw [length_append, length_singleton, Laps.bit_succ_of_ne hpos hlast,
        Laps.succ_mod_of_ne hpos hlast, Nat.add_assoc, Nat.mul_succ]
  · rw [contents_append, words_marked, ← h.address_eq hmore]
    have hnext := concat_get_prefix h.seen (by rwa [length_contents, length_contents])
    simpa [contents] using hnext
  · dsimp only
    rw [length_append]
    omega

theorem Invariant.follows (hlink : s.AtLink) :
    s.look.Invariant ∧ s.look.AtSlot ∧ s.look.taken = s.taken := by
  rw [h.look_follows hlink]
  exact ⟨⟨h.index, h.cycle, h.holds, h.link, h.address, h.plain, .inl rfl, h.seen, h.room⟩, rfl,
    rfl⟩

theorem Invariant.step {action : Action} (hadmits : s.Admits action) :
    (s.step action).Invariant := by
  cases action with
  | enqueue => exact h.enqueue hadmits.1 hadmits.2
  | look =>
    change s.look.Invariant
    rcases h.controller with hslot | hlink
    · by_cases hmore : s.taken.length < s.enqueued.length
      · exact h.takes hmore hslot
      · rw [h.look_stays hmore hslot]
        exact h
    · exact (h.follows hlink).1

end

theorem taken_length_le_look (s : System) : s.taken.length ≤ s.look.taken.length := by
  unfold look
  dsimp only
  split
  · exact Nat.le_refl _
  · split
    · exact Nat.le_refl _
    · simp

theorem Invariant.lt_look (h : s.Invariant) (hmore : s.taken.length < s.enqueued.length)
    (hslot : s.AtSlot) : s.taken.length < s.look.taken.length := by
  rw [h.look_takes hmore hslot]
  simp

theorem Invariant.fifo (h : s.Invariant) : s.Fifo where
  seen := h.seen
  goesOn := by
    intro hmore
    rcases h.controller with hslot | hlink
    · exact Nat.lt_of_lt_of_le (h.lt_look hmore hslot) (taken_length_le_look _)
    obtain ⟨hinvariant, hslot, htaken⟩ := h.follows hlink
    have hsame : s.look.enqueued = s.enqueued := by rw [h.look_follows hlink]
    rw [← htaken, ← hsame] at hmore
    have hlt := hinvariant.lt_look hmore hslot
    rwa [htaken] at hlt
  contained := by
    intro entry hmem
    have haddress : entry.1 ∈ s.enqueued.map Prod.fst := mem_map_of_mem hmem
    rw [h.address] at haddress
    obtain ⟨q, _, heq⟩ := mem_map.mp haddress
    have hmod := Nat.mod_lt q (Nat.zero_lt_of_lt s.ring.inside)
    have hnull := s.ring.base_ne_null
    rw [← heq]
    simp only [Ring.contains, Bool.and_eq_true, decide_eq_true_eq]
    omega

theorem Invariant.start {fits : base + bytes ≤ 2 ^ 64}
    (hnew : Ring.new base bytes fits memory = some (ring, memory')) :
    (start ring memory').Invariant := by
  unfold Ring.new at hnew
  split at hnew
  · cases hnew
  rename_i hvalid
  cases hnew
  have hpos : 0 < bytes / 16 - 1 := by omega
  have hbit : Laps.bit (bytes / 16 - 1) 0 = true := Laps.bit_of_lt hpos
  constructor
  · exact (Nat.zero_mod _).symm
  · exact hbit.symm
  · apply Laps.Holds.nil
    intro i hi
    change i < bytes / 16 - 1 at hi
    unfold slot System.start
    dsimp only
    rw [Memory.setControl, update_of_ne (by omega), Memory.setParameter,
      update_of_ne (by omega), Memory.clear, if_pos (by omega)]
    decide
  · unfold slot System.start
    dsimp only
    rw [Memory.setControl, update_self, Memory.setParameter, update_self, Memory.clear,
      if_pos (by omega)]
    rfl
  · rfl
  · intro entry hmem
    cases hmem
  · left
    unfold AtSlot System.start
    dsimp only
    rw [length_nil, Nat.zero_mod, hbit, Nat.mul_zero, Nat.add_zero]
  · exact prefix_refl _
  · exact Nat.zero_le _

/-- **The ring is a queue to the controller**, if no TRB that is enqueued is itself a link: what the
controller takes are the TRBs in their order, from the addresses that were returned. -/
theorem ring_is_fifo {fits : base + bytes ≤ 2 ^ 64} {actions : List Action}
    (hnew : Ring.new base bytes fits memory = some (ring, memory'))
    (hadmits : Along step Admits (start ring memory') actions) :
    ((start ring memory').run actions).Fifo := by
  have hinvariant : ((start ring memory').run actions).Invariant :=
    hadmits.invariant (Invariant.start hnew) fun _ _ _ h hadmits => h.step hadmits
  exact hinvariant.fifo

def smallRing : Ring × Memory :=
  (Ring.new 64 48 (by decide) fun _ => ⟨0, 0, 0⟩).get (by decide)

theorem new_smallRing :
    Ring.new 64 48 (by decide) (fun _ => ⟨0, 0, 0⟩) = some (smallRing.1, smallRing.2) := rfl

def threeTrbs : List Action :=
  [.enqueue ⟨7, 0, 0⟩, .look, .enqueue ⟨8, 0, 0⟩, .look, .enqueue ⟨9, 0, 0⟩, .look, .look]

theorem ring_is_fifo_smallRing : ((start smallRing.1 smallRing.2).run threeTrbs).Fifo
    ∧ ((start smallRing.1 smallRing.2).run threeTrbs).taken
      = [(64, ⟨7, 0, 1⟩), (80, ⟨8, 0, 1⟩), (64, ⟨9, 0, 0⟩)] :=
  ⟨ring_is_fifo new_smallRing (by decide), by decide⟩

theorem run_look_of_stays (h : s.look = s) (k : Nat) : s.run (replicate k .look) = s := by
  induction k with
  | zero => rfl
  | succ k ih =>
    rw [replicate_succ]
    change s.look.run _ = s
    rw [h, ih]

/-- A link that is enqueued is followed and never taken, and the controller comes back to it with
the other cycle bit. -/
theorem ring_never_yields_link : smallRing.1.usable = 2 ∧ ∀ k, ((start smallRing.1 smallRing.2).run
      (.enqueue ⟨64, 0, ((6 : UInt32) <<< 10) ||| 2⟩ :: replicate k .look)).taken = [] := by
  refine ⟨by decide, ?_⟩
  intro k
  cases k with
  | zero => rfl
  | succ k =>
    rw [replicate_succ, run, runAll_cons, runAll_cons]
    change (run _ _).taken = _
    rw [run_look_of_stays (if_pos (by decide)) k]
    decide

end System

end Kaguya.Xhci
