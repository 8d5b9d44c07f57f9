import Kaguya.Heap.Allocator

/-!
# Block headers

The four fields in front of a large block are words of the memory. What the allocator does to them
is said here by what can be read back: storing a field, cutting a block in two, and joining two
blocks.
-/

namespace Kaguya.Heap

open Block Buffer

variable {memory memory' : Buffer} {a b v : Nat}

theorem load_congr (h : ∀ x, a ≤ x → x < a + HEADER → memory' x = memory x) :
    load memory' a = load memory a := by
  have hbytes : ∀ offset count : Nat, offset + count ≤ HEADER →
      memory'.get (a + offset) count = memory.get (a + offset) count := by
    intro offset count hcount
    exact get_congr fun i hi => h _ (by omega) (by omega)
  unfold load
  rw [h (a + 24) (by omega) (by unfold HEADER; omega)]
  have hsize := hbytes 0 8 (by decide)
  rw [Nat.add_zero] at hsize
  rw [hsize, hbytes 8 8 (by decide), hbytes 16 8 (by decide)]

section Setters
variable {x : Nat}

section
variable (hx : ¬ (a ≤ x ∧ x < a + HEADER))
include hx

theorem setSize_apply :
    setSize a v memory x = memory x := put_of_not_mem (by unfold HEADER at hx; omega)

theorem setNext_apply :
    setNext a v memory x = memory x := put_of_not_mem (by unfold HEADER at hx; omega)

theorem setPrev_apply :
    setPrev a v memory x = memory x := put_of_not_mem (by unfold HEADER at hx; omega)

theorem setFree_apply {free : Bool} :
    setFree a free memory x = memory x := put_of_not_mem (by unfold HEADER at hx; omega)

end

theorem load_setSize (hv : v < 2 ^ 64) :
    load (setSize a v memory) a = { load memory a with size := v } := by
  unfold load setSize
  rw [get_put hv, get_put_of_disjoint (by omega), get_put_of_disjoint (by omega),
    put_of_not_mem (by omega)]

theorem load_setNext (hv : v < 2 ^ 64) :
    load (setNext a v memory) a = { load memory a with next := v } := by
  unfold load setNext
  rw [get_put hv, get_put_of_disjoint (by omega), get_put_of_disjoint (by omega),
    put_of_not_mem (by omega)]

theorem load_setPrev (hv : v < 2 ^ 64) :
    load (setPrev a v memory) a = { load memory a with prev := v } := by
  unfold load setPrev
  rw [get_put hv, get_put_of_disjoint (by omega), get_put_of_disjoint (by omega),
    put_of_not_mem (by omega)]

theorem load_setFree (free : Bool) :
    load (setFree a free memory) a = { load memory a with free := free } := by
  have hbyte : (memory.put (a + 24) free.toNat 1) (a + 24) = UInt8.ofNat free.toNat := by
    simp [Buffer.put]
  unfold load setFree
  rw [get_put_of_disjoint (by omega), get_put_of_disjoint (by omega),
    get_put_of_disjoint (by omega), hbyte]
  cases free <;> rfl

def Clear (a b : Nat) : Prop := a + HEADER ≤ b ∨ b + HEADER ≤ a

variable (h : Clear a b)
include h

theorem Clear.symm : Clear b a := Or.symm h

theorem Clear.not_mem (hlo : b ≤ x) (hhi : x < b + HEADER) : ¬ (a ≤ x ∧ x < a + HEADER) := by
  unfold Clear at h
  omega

theorem load_setSize_of_clear : load (setSize a v memory) b = load memory b :=
  load_congr fun _ hlo hhi => setSize_apply (h.not_mem hlo hhi)

theorem load_setNext_of_clear : load (setNext a v memory) b = load memory b :=
  load_congr fun _ hlo hhi => setNext_apply (h.not_mem hlo hhi)

theorem load_setPrev_of_clear : load (setPrev a v memory) b = load memory b :=
  load_congr fun _ hlo hhi => setPrev_apply (h.not_mem hlo hhi)

theorem load_setFree_of_clear {free : Bool} : load (setFree a free memory) b = load memory b :=
  load_congr fun _ hlo hhi => setFree_apply (h.not_mem hlo hhi)

end Setters

theorem relink_apply {target x : Nat} (hx : target ≠ 0 → ¬ (target ≤ x ∧ x < target + HEADER)) :
    relink target a memory x = memory x := by
  unfold relink
  split
  · rename_i htarget
    exact setPrev_apply (hx htarget)
  · rfl

theorem load_relink {target : Nat} (htarget : target ≠ 0) (ha : a < 2 ^ 64) :
    load (relink target a memory) target = { load memory target with prev := a } := by
  unfold relink
  rw [if_pos htarget, load_setPrev ha]

theorem load_relink_of_clear {target : Nat} (h : target ≠ 0 → Clear target b) :
    load (relink target a memory) b = load memory b := by
  unfold relink
  split
  · rename_i htarget
    exact load_setPrev_of_clear (h htarget)
  · rfl

theorem add_of_lt (h : a + b < 2 ^ 64) : add a b = a + b := Nat.mod_eq_of_lt h

theorem sub_of_le (hle : b ≤ a) (ha : a < 2 ^ 64) : sub a b = a - b := by
  unfold sub
  have hsum : a + 2 ^ 64 - b = 2 ^ 64 + (a - b) := by omega
  rw [hsum, Nat.add_mod_left, Nat.mod_eq_of_lt (by omega)]

section Split
variable {current needed : Nat}

structure IsSplit (current needed : Nat) (memory memory' : Buffer) : Prop where
  front : load memory' current = { load memory current with
    size := needed, next := current + HEADER + needed }
  back : load memory' (current + HEADER + needed) =
    ⟨(load memory current).size - needed - HEADER, (load memory current).next, current, true⟩
  after : (load memory current).next ≠ 0 → load memory' (load memory current).next
    = { load memory (load memory current).next with prev := current + HEADER + needed }
  other : ∀ c, Clear current c → Clear (current + HEADER + needed) c →
    ((load memory current).next ≠ 0 → Clear (load memory current).next c) →
    load memory' c = load memory c
  bytes : ∀ x, ¬ (current ≤ x ∧ x < current + HEADER) →
    ¬ (current + HEADER + needed ≤ x ∧ x < current + HEADER + needed + HEADER) →
    ((load memory current).next ≠ 0 →
      ¬ ((load memory current).next ≤ x ∧ x < (load memory current).next + HEADER)) →
    memory' x = memory x

theorem isSplit_splitBlock (hfits : current + HEADER + needed < 2 ^ 64)
    (hclear : (load memory current).next ≠ 0 → Clear (load memory current).next current
      ∧ Clear (load memory current).next (current + HEADER + needed)) :
    IsSplit current needed memory (splitBlock current needed memory) := by
  have hadd : add (add current HEADER) needed = current + HEADER + needed := by
    rw [add_of_lt (by omega : current + HEADER < 2 ^ 64), add_of_lt hfits]
  have hsize : (load memory current).size < 2 ^ 64 := get_lt memory current 8
  have hnext : (load memory current).next < 2 ^ 64 := get_lt memory (current + 8) 8
  have hback : Clear (current + HEADER + needed) current := .inr (by omega)
  have hread : (load
    (setSize (current + HEADER + needed) ((load memory current).size - needed - HEADER) memory)
      current).next = (load memory current).next := by
    rw [load_setSize_of_clear hback]
  obtain ⟨cut, hcut⟩ : ∃ cut, cut = (memory |> setSize (current + HEADER + needed)
      ((load memory current).size - needed - HEADER)
      |> setNext (current + HEADER + needed) (load memory current).next
      |> setPrev (current + HEADER + needed) current |> setFree (current + HEADER + needed) true) :=
      ⟨_, rfl⟩
  -- the second part is complete before anything else is changed
  have hsecond : load cut (current + HEADER + needed) =
      ⟨(load memory current).size - needed - HEADER, (load memory current).next, current,
      true⟩ := by
    rw [hcut, load_setFree, load_setPrev (by omega), load_setNext hnext, load_setSize (by omega)]
  have hother : ∀ c, Clear (current + HEADER + needed) c → load cut c = load memory c := by
    intro c hc
    rw [hcut, load_setFree_of_clear hc, load_setPrev_of_clear hc, load_setNext_of_clear hc,
      load_setSize_of_clear hc]
  have hbytes : ∀ x, ¬ (current + HEADER + needed ≤ x ∧ x < current + HEADER + needed + HEADER) →
      cut x = memory x := by
    intro x hx
    rw [hcut, setFree_apply hx, setPrev_apply hx, setNext_apply hx, setSize_apply hx]
  have hsplit : splitBlock current needed memory = setNext current (current + HEADER + needed)
      (setSize current needed (relink (load memory current).next (current + HEADER + needed)
      cut)) := by
    unfold splitBlock
    rw [hadd]
    dsimp only
    rw [hread, ← hcut, hsecond]
  rw [hsplit]
  constructor
  · rw [load_setNext hfits, load_setSize (by omega), load_relink_of_clear fun h => (hclear h).1,
      hother current hback]
  · rw [load_setNext_of_clear hback.symm, load_setSize_of_clear hback.symm,
      load_relink_of_clear fun h => (hclear h).2, hsecond]
  · intro hafter
    have hfirst := (hclear hafter).1.symm
    rw [load_setNext_of_clear hfirst, load_setSize_of_clear hfirst, load_relink hafter hfits,
      hother _ (hclear hafter).2.symm]
  · intro c hfirst hsecond hafter
    rw [load_setNext_of_clear hfirst, load_setSize_of_clear hfirst, load_relink_of_clear hafter,
      hother c hsecond]
  · intro x hfirst hsecond hafter
    rw [setNext_apply hfirst, setSize_apply hfirst, relink_apply hafter, hbytes x hsecond]

end Split

def absorb (a b : Nat) (memory : Buffer) : Buffer :=
  memory |> setSize a ((load memory a).size + ((load memory b).size + HEADER))
    |> setNext a (load memory b).next |> relink (load memory b).next a

structure IsJoined (a b : Nat) (memory memory' : Buffer) : Prop where
  front : load memory' a = { load memory a with
    size := (load memory a).size + ((load memory b).size + HEADER), next := (load memory b).next }
  after : (load memory b).next ≠ 0 → load memory' (load memory b).next
    = { load memory (load memory b).next with prev := a }
  other : ∀ c, Clear a c → ((load memory b).next ≠ 0 → Clear (load memory b).next c) →
    load memory' c = load memory c
  bytes : ∀ x, ¬ (a ≤ x ∧ x < a + HEADER) → ((load memory b).next ≠ 0 →
    ¬ ((load memory b).next ≤ x ∧ x < (load memory b).next + HEADER)) → memory' x = memory x

section Join
variable (ha : a < 2 ^ 64) (hclear : (load memory b).next ≠ 0 → Clear (load memory b).next a)
variable (hsize : (load memory a).size + ((load memory b).size + HEADER) < 2 ^ 64)
include ha hclear hsize in
theorem isJoined_absorb : IsJoined a b memory (absorb a b memory) := by
  have hnext : (load memory b).next < 2 ^ 64 := get_lt memory (b + 8) 8
  unfold absorb
  constructor
  · rw [load_relink_of_clear hclear, load_setNext hnext, load_setSize hsize]
  · intro hafter
    have hfirst := (hclear hafter).symm
    rw [load_relink hafter ha, load_setNext_of_clear hfirst, load_setSize_of_clear hfirst]
  · intro c hfirst hafter
    rw [load_relink_of_clear hafter, load_setNext_of_clear hfirst, load_setSize_of_clear hfirst]
  · intro x hfirst hafter
    rw [relink_apply hafter, setNext_apply hfirst, setSize_apply hfirst]

include hsize in
theorem mergeNext_eq (hnext : (load memory a).next = b) (hb : b ≠ 0)
    (hfree : (load memory b).free = true) (hab : Clear a b) :
    mergeNext a memory = absorb a b memory := by
  unfold mergeNext absorb
  rw [hnext, if_pos ⟨hb, hfree⟩]
  dsimp only
  have hlt : (load memory b).next < 2 ^ 64 := get_lt memory (b + 8) 8
  rw [add_of_lt (by omega : (load memory b).size + HEADER < 2 ^ 64), add_of_lt hsize,
    load_setSize_of_clear hab, load_setNext hlt]

include hsize in
theorem mergePrev_eq (hprev : (load memory b).prev = a) (ha : a ≠ 0)
    (hfree : (load memory a).free = true) (hab : Clear a b) :
    mergePrev b memory = absorb a b memory := by
  unfold mergePrev absorb
  rw [hprev, if_pos ⟨ha, hfree⟩]
  dsimp only
  rw [add_of_lt (by omega : (load memory b).size + HEADER < 2 ^ 64), add_of_lt hsize,
    load_setSize_of_clear hab, load_setNext_of_clear hab, load_setSize_of_clear hab]

end Join

end Kaguya.Heap
