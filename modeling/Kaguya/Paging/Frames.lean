import Mathlib.Data.Nat.Bitwise
import Kaguya.Lib.Buffer
import Kaguya.Lib.Trie

/-!
# Physical frames

Physical memory is a buffer, of which `kaguya_alloc_frame` hands out frames of 4096 bytes, zeroed
and not in use, until it fails. Nothing else is known of the pool: which frame it picks, when it
runs out and which word it leaves in a frame it gets back are up to an oracle.
-/

namespace Kaguya.Paging

open List Buffer

def PRESENT : Nat := 1
def WRITABLE : Nat := 2
def USER : Nat := 4
def HUGE : Nat := 128
def NX : Nat := 0x8000000000000000
def FRAME_MASK : Nat := 0x000ffffffffff000

structure Usable (frame : Nat) : Prop where
  ne_zero : frame ≠ 0
  aligned : frame % 4096 = 0
  lt : frame < 2 ^ 52

instance (frame : Nat) : Decidable (Usable frame) :=
  decidable_of_iff (frame ≠ 0 ∧ frame % 4096 = 0 ∧ frame < 2 ^ 52)
    ⟨fun h => ⟨h.1, h.2.1, h.2.2⟩, fun h => ⟨h.1, h.2, h.3⟩⟩

/-- Physical memory and the frames of the pool that are in use. `supply` is what the pool would hand
out next and `links` what it leaves in the first word of a frame it gets back, call by call; the
frames handed out and taken back so far are listed, latest first. -/
structure Machine where
  memory : Buffer
  inUse : List Nat
  supply : Nat → Nat
  links : Nat → Nat
  calls : Nat
  allocated : List Nat
  freed : List Nat

def slot (shift address : Nat) : Nat := (address >>> shift) &&& 511

def slots (address : Nat) (shifts : List Nat) : List Nat := shifts.map (slot · address)

theorem slot_lt (shift address : Nat) : slot shift address < 512 := by
  rw [slot]
  exact Nat.and_lt_two_pow _ (by decide : 511 < 2 ^ 9)

theorem slots_lt {address : Nat} {shifts : List Nat} : ∀ i ∈ slots address shifts, i < 512 := by
  intro i hi
  obtain ⟨shift, -, rfl⟩ := mem_map.mp hi
  exact slot_lt shift address

namespace Machine

variable (m : Machine) {m' : Machine} {table i j frame value : Nat}

def entry (table i : Nat) : Nat := m.memory.get (table + 8 * i) 8

def setEntry (table i value : Nat) : Machine :=
  { m with memory := m.memory.put (table + 8 * i) value 8 }

/-- `kaguya_alloc_frame` -/
def alloc : Nat × Machine :=
  let frame := m.supply m.calls
  if Usable frame ∧ frame ∉ m.inUse then
    (frame, { m with
      memory := m.memory.memFill frame 0 4096
      inUse := frame :: m.inUse
      calls := m.calls + 1
      allocated := frame :: m.allocated })
  else (0, { m with calls := m.calls + 1 })

def pageZero (frame : Nat) : Machine :=
  { m with memory := m.memory.memFill frame 0 4096 }

def free (frame : Nat) : Machine :=
  { m with
    memory := m.memory.put frame (m.links m.calls) 8
    inUse := m.inUse.erase frame
    calls := m.calls + 1
    freed := frame :: m.freed }

def SameFrame (m m' : Machine) (frame : Nat) : Prop :=
  ∀ i, frame ≤ i → i < frame + 4096 → m'.memory i = m.memory i

variable {m}

theorem SameFrame.refl : SameFrame m m frame := fun _ _ _ => rfl

theorem SameFrame.trans {m'' : Machine} (h : SameFrame m m' frame) (h' : SameFrame m' m'' frame) :
    SameFrame m m'' frame := fun i hlo hhi => (h' i hlo hhi).trans (h i hlo hhi)

theorem SameFrame.entry (h : SameFrame m m' frame) (hi : i < 512) :
    m'.entry frame i = m.entry frame i := by
  apply get_congr
  intro k hk
  exact h _ (by omega) (by omega)

end Machine

/-- The frames in use are good, and agree with those handed out and given back. -/
structure Pool (m : Machine) (start : List Nat) : Prop where
  nodup : m.inUse.Nodup
  usable : ∀ frame ∈ m.inUse, Usable frame
  ledger : (m.freed ++ m.inUse).Perm (m.allocated ++ start)

variable {frame flags word : Nat}

theorem Usable.apart {other : Nat} (h : Usable frame) (h' : Usable other) (hne : frame ≠ other) :
    frame + 4096 ≤ other ∨ other + 4096 ≤ frame := by
  have haligned := h.aligned
  have haligned' := h'.aligned
  omega

/-! ## Table entries -/

theorem and_frameMask (haligned : frame % 4096 = 0) (hlt : frame < 2 ^ 52) :
    frame &&& FRAME_MASK = frame := by
  obtain ⟨k, rfl⟩ : ∃ k, frame = k * 2 ^ 12 := ⟨frame / 4096, by omega⟩
  have hk : k < 2 ^ 40 := by omega
  have hmask : FRAME_MASK = (2 ^ 40 - 1) * 2 ^ 12 := by decide
  apply Nat.eq_of_testBit_eq
  intro i
  rw [Nat.testBit_and, hmask, Nat.testBit_mul_two_pow, Nat.testBit_mul_two_pow,
    Nat.testBit_two_pow_sub_one]
  by_cases hi : 12 ≤ i
  · by_cases hlow : i - 12 < 40
    · simp [hi, hlow]
    · have hzero : k.testBit (i - 12) = false :=
        Nat.testBit_lt_two_pow (Nat.lt_of_lt_of_le hk (Nat.pow_le_pow_right (by decide) (by omega)))
      simp [hzero]
  · simp [hi]

theorem or_and_frameMask (h : Usable frame) (hflags : flags &&& FRAME_MASK = 0) :
    (frame ||| flags) &&& FRAME_MASK = frame := by
  rw [Nat.and_or_distrib_right, and_frameMask h.aligned h.lt, hflags, Nat.or_zero]

theorem or_and_of_low {bit : Nat} (h : Usable frame) (hbit : FRAME_MASK &&& bit = 0) :
    (frame ||| flags) &&& bit = flags &&& bit := by
  have hframe : frame &&& bit = 0 := by
    rw [← and_frameMask h.aligned h.lt, Nat.and_assoc, hbit, Nat.and_zero]
  rw [Nat.and_or_distrib_right, hframe, Nat.zero_or]

theorem or_lt (h : Usable frame) (hflags : flags < 2 ^ 64) : frame ||| flags < 2 ^ 64 :=
  Nat.or_lt_two_pow (Nat.lt_trans h.lt (by decide)) hflags

def childOf (word : Nat) : Option Nat :=
  if word &&& PRESENT = 0 then none else some (word &&& FRAME_MASK)

theorem childOf_or (h : Usable frame) (hflags : flags &&& FRAME_MASK = 0)
    (hpresent : flags &&& PRESENT ≠ 0) : childOf (frame ||| flags) = some frame := by
  rw [childOf, or_and_of_low h (by decide), if_neg hpresent, or_and_frameMask h hflags]

theorem childOf_eq_none : childOf word = none ↔ word &&& PRESENT = 0 := by
  unfold childOf
  split <;> simp_all

theorem childOf_eq_some (h : word &&& PRESENT ≠ 0) :
    childOf word = some (word &&& FRAME_MASK) := if_neg h

/-- The table a present entry leads to, unless it maps a large page. -/
def tableOf (word : Nat) : Option Nat :=
  if word &&& PRESENT = 0 ∨ word &&& HUGE ≠ 0 then none else some (word &&& FRAME_MASK)

theorem tableOf_eq_none_of_empty (h : word &&& PRESENT = 0) : tableOf word = none := if_pos (.inl h)

theorem tableOf_eq_some (hpresent : word &&& PRESENT ≠ 0) (hhuge : word &&& HUGE = 0) :
    tableOf word = some (word &&& FRAME_MASK) :=
  if_neg fun hor => hor.elim hpresent fun hne => hne hhuge

theorem tableOf_tableWord (h : Usable frame) :
    tableOf (frame ||| PRESENT ||| USER ||| 2) = some frame ∧ frame ||| PRESENT ||| USER ||| 2 < 2 ^
      64
      ∧ (frame ||| PRESENT ||| USER ||| 2) &&& HUGE = 0 := by
  rw [Nat.or_assoc, Nat.or_assoc]
  have hhuge : (frame ||| (PRESENT ||| (USER ||| 2))) &&& HUGE = 0 := by
    rw [or_and_of_low h (by decide)]
    decide
  have hpresent : (frame ||| (PRESENT ||| (USER ||| 2))) &&& PRESENT ≠ 0 := by
    rw [or_and_of_low h (by decide)]
    decide
  refine ⟨?_, or_lt h (by decide), hhuge⟩
  rw [tableOf_eq_some hpresent hhuge, or_and_frameMask h (by decide)]

namespace Machine

variable {m m' : Machine} {table i j frame other value : Nat}

theorem entry_setEntry_self (hvalue : value < 2 ^ 64) :
    (m.setEntry table i value).entry table i = value := get_put hvalue

theorem entry_setEntry_of_ne (hne : j ≠ i) :
    (m.setEntry table i value).entry table j = m.entry table j :=
  get_put_of_disjoint (by omega)

theorem sameFrame_setEntry (hframe : Usable frame) (htable : Usable table) (hi : i < 512)
    (hne : frame ≠ table) : SameFrame m (m.setEntry table i value) frame := by
  intro k hlo hhi
  have hapart := hframe.apart htable hne
  exact put_of_not_mem (by omega)

theorem entry_setEntry (hframe : Usable frame) (htable : Usable table) (hi : i < 512) (hj : j < 512)
    (hne : ¬ (frame = table ∧ j = i)) :
    (m.setEntry table i value).entry frame j = m.entry frame j := by
  by_cases hsame : frame = table
  · subst hsame
    exact entry_setEntry_of_ne fun hji => hne ⟨rfl, hji⟩
  · exact (sameFrame_setEntry hframe htable hi hsame).entry hj

theorem alloc_cases : (m.alloc.1 = 0 ∧ m.alloc.2 = { m with calls := m.calls + 1 })
    ∨ Usable m.alloc.1 ∧ m.alloc.1 ∉ m.inUse ∧ m.alloc.2 = { m with
        memory := m.memory.memFill m.alloc.1 0 4096
        inUse := m.alloc.1 :: m.inUse
        calls := m.calls + 1
        allocated := m.alloc.1 :: m.allocated } := by
  by_cases h : Usable (m.supply m.calls) ∧ m.supply m.calls ∉ m.inUse
  · right
    simp only [alloc, if_pos h]
    exact ⟨h.1, h.2, trivial⟩
  · left
    simp only [alloc, if_neg h]
    exact ⟨trivial, trivial⟩

theorem entry_memFill (hi : i < 512) :
    Machine.entry { m with memory := m.memory.memFill frame 0 4096 } frame i = 0 := by
  have hzero : (m.memory.memFill frame 0 4096).get (frame + 8 * i) 8 = Buffer.zeroed.get
      (frame + 8 * i) 8 := by
    apply get_congr
    intro k hk
    exact if_pos ⟨by omega, by omega⟩
  exact hzero.trans (get_zeroed _ _)

theorem sameFrame_free (hframe : Usable frame) (hother : Usable other) (hne : frame ≠ other) :
    SameFrame m (m.free other) frame := by
  intro k hlo hhi
  have hapart := hframe.apart hother hne
  exact put_of_not_mem (by omega)

theorem sameFrame_alloc (hused : frame ∈ m.inUse) (husable : Usable frame) :
    SameFrame m m.alloc.2 frame := by
  cases alloc_cases (m := m) with
  | inl hfailed =>
    rw [hfailed.2]
    exact SameFrame.refl
  | inr hgiven =>
    obtain ⟨hnew, hfree, hstate⟩ := hgiven
    have hne : frame ≠ m.alloc.1 := fun heq => hfree (heq ▸ hused)
    have hapart := husable.apart hnew hne
    rw [hstate]
    intro i hlo hhi
    exact if_neg (by omega)

theorem freed_alloc : m.alloc.2.freed = m.freed := by
  cases alloc_cases (m := m) with
  | inl hcase => rw [hcase.2]
  | inr hcase => rw [hcase.2.2]

theorem pageZero_alloc (hgiven : m.alloc.1 ≠ 0) : m.alloc.2.pageZero m.alloc.1 = m.alloc.2 := by
  cases alloc_cases (m := m) with
  | inl hfailed => exact absurd hfailed.1 hgiven
  | inr hcase =>
    rw [hcase.2.2, pageZero]
    congr 1
    funext i
    simp only [Buffer.memFill]
    split <;> rfl

theorem entry_alloc (hgiven : m.alloc.1 ≠ 0) (hi : i < 512) : m.alloc.2.entry m.alloc.1 i = 0 := by
  cases alloc_cases (m := m) with
  | inl hfailed => exact absurd hfailed.1 hgiven
  | inr hcase =>
    rw [hcase.2.2]
    exact entry_memFill hi

end Machine

/-- The words that a walk for an address reads, down to the first that leads no further. -/
def translation (m : Machine) (root address : Nat) : List Nat :=
  Trie.walk tableOf m.entry (slots address [39, 30, 21, 12]) root

variable {m : Machine} {start : List Nat}

theorem Pool.alloc (h : Pool m start) : Pool m.alloc.2 start := by
  cases Machine.alloc_cases (m := m) with
  | inl hfailed =>
    rw [hfailed.2]
    exact ⟨h.nodup, h.usable, h.ledger⟩
  | inr hcase =>
    obtain ⟨husable, hfree, hstate⟩ := hcase
    rw [hstate]
    constructor
    case nodup => exact nodup_cons.mpr ⟨hfree, h.nodup⟩
    case usable =>
      intro frame hframe
      cases mem_cons.mp hframe with
      | inl heq => rwa [heq]
      | inr hold => exact h.usable frame hold
    case ledger => exact perm_middle.trans (h.ledger.cons _)

theorem Pool.free (h : Pool m start) (hframe : frame ∈ m.inUse) :
    Pool (m.free frame) start where
  nodup := h.nodup.erase _
  usable other hother := h.usable other (mem_of_mem_erase hother)
  ledger := by
    have herase : m.inUse.Perm (frame :: m.inUse.erase frame) := perm_cons_erase hframe
    exact (perm_middle.symm.trans (herase.symm.append_left _)).trans h.ledger

end Kaguya.Paging
