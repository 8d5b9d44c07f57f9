import Kaguya.FileSystem.FatSpec
import Mathlib.Data.List.Range

/-!
# What the directory calls do

The name stored in an entry is the bytes before the first NUL. `lookup` is the first slot in use
with a given stored name; `jihooDirFind` computes it, in as many requests as there are slots up to
it.
-/

namespace Kaguya.FileSystem

open Prog Device List

def storedName (entry : Buffer) : List UInt8 := entry.slice 0 (nameLength entry)

theorem nameLoop_spec (entry : Buffer) (n size : Nat) :
    size ≤ nameLoop entry n size ∧ nameLoop entry n size ≤ size + n
      ∧ (∀ i, size ≤ i → i < nameLoop entry n size → entry i ≠ 0)
      ∧ (nameLoop entry n size < size + n → entry (nameLoop entry n size) = 0) := by
  induction n generalizing size with
  | zero => exact ⟨le_rfl, le_rfl,
      fun i hi hlt => by simp only [nameLoop] at hlt; omega, by simp [nameLoop]⟩
  | succ n ih =>
    rw [nameLoop]
    split
    · rename_i hsize
      obtain ⟨hle, hge, hbefore, hafter⟩ := ih (size + 1)
      refine ⟨by omega, by omega, ?_, fun hlt => hafter (by omega)⟩
      intro i hi hlt
      by_cases his : i = size
      · rw [his]
        exact hsize
      · exact hbefore i (by omega) hlt
    · rename_i hsize
      refine ⟨le_rfl, by omega, fun i hi hlt => by omega, fun _ => ?_⟩
      simpa using hsize

theorem nameLength_le (entry : Buffer) : nameLength entry ≤ 22 := by
  have h := (nameLoop_spec entry 22 0).2.1
  simpa [nameLength] using h

variable {i n slot : Nat} {image : Image} {name : List UInt8}

theorem ne_zero_of_lt_nameLength {entry : Buffer} (hi : i < nameLength entry) : entry i ≠ 0 :=
  (nameLoop_spec entry 22 0).2.2.1 i (Nat.zero_le i) hi

theorem nameLength_eq {entry : Buffer} (hn : n < 22) (hbefore : ∀ i < n, entry i ≠ 0)
    (hend : entry n = 0) : nameLength entry = n := by
  have hzero : nameLength entry < 0 + 22 → entry (nameLength entry) = 0 :=
    (nameLoop_spec entry 22 0).2.2.2
  by_contra hne
  rcases Nat.lt_or_gt_of_ne hne with hlt | hgt
  · exact hbefore _ hlt (hzero (by omega))
  · exact ne_zero_of_lt_nameLength hgt hend

theorem sameName_iff (entry : Buffer) (name : List UInt8) :
    sameName entry name = true ↔ storedName entry = name := by
  unfold sameName
  rw [Bool.and_eq_true, beq_iff_eq, all_eq_true]
  constructor
  · rintro ⟨hlength, hbytes⟩
    refine ext_getElem (by rw [storedName, Buffer.length_slice, hlength]) ?_
    intro i hi hi'
    have hbyte := hbytes i (mem_range.mpr (by omega))
    rw [beq_iff_eq, getD_eq_getElem _ _ hi'] at hbyte
    rw [← hbyte]
    simp only [storedName, Buffer.getElem_slice, Nat.zero_add]
  · rintro rfl
    refine ⟨by rw [storedName, Buffer.length_slice], ?_⟩
    intro i hi
    have hlt : i < (storedName entry).length := by
      rw [storedName, Buffer.length_slice]
      exact mem_range.mp hi
    rw [beq_iff_eq, getD_eq_getElem _ _ hlt]
    simp only [storedName, Buffer.getElem_slice, Nat.zero_add]

namespace Image

variable (image name)

def Names (slot : Nat) : Prop :=
  image.InUse slot ∧ storedName (image.entry slot) = name

instance : DecidablePred (image.Names name) := fun slot =>
  inferInstanceAs (Decidable (image.InUse slot ∧ storedName (image.entry slot) = name))

def lookupFrom (start n : Nat) : Option Nat :=
  (range' start n).find? fun slot => image.Names name slot

def lookup : Option Nat := image.lookupFrom name 0 256

theorem inUse_lt {bytes : Buffer} (h : (FileSystem.image bytes).InUse slot) : slot < 256 := by
  by_contra hge
  simp only [InUse, FileSystem.image] at h
  rw [if_neg (show ¬ slot < rootEntries from hge)] at h
  exact absurd h (by decide)

end Image

/-- The requests a scan from `start` makes until it finds a slot, or passes `n` of them. -/
def scanCost (found : Option Nat) (start n : Nat) : Nat :=
  match found with
  | some slot => slot + 1 - start
  | none => n

variable {d : Device}

theorem lookupFrom_succ (image : Image) (name : List UInt8) (start n : Nat) :
    image.lookupFrom name start (n + 1)
      = if image.Names name start then some start else image.lookupFrom name (start + 1) n := by
  rw [Image.lookupFrom, range'_succ, List.find?_cons]
  by_cases h : image.Names name start <;> simp [h, Image.lookupFrom]

theorem lookupFrom_ge {start : Nat} (h : image.lookupFrom name start n = some slot) :
    start ≤ slot ∧ slot < start + n := by
  have hmem := mem_of_find?_eq_some h
  rw [mem_range'_1] at hmem
  exact hmem

theorem findLoop_wp (hs : 81 ≤ d.sectors) (hn : i + n ≤ rootEntries) :
    wp (findLoop name n i)
      (fun found d' => (match d.image.lookupFrom name i n with
          | some slot => found = (slot, d.image.entry slot)
          | none => found = (256, Buffer.zeroed))
        ∧ d'.bytes = d.bytes ∧ Served d d' (scanCost (d.image.lookupFrom name i n) i n))
      (d.Failed (scanCost (d.image.lookupFrom name i n) i n)) d := by
  induction n generalizing i d with
  | zero => exact ⟨rfl, rfl, Served.refl d⟩
  | succ n ih =>
    rw [findLoop, wp_bind]
    have hcost : 1 ≤ scanCost (d.image.lookupFrom name i (n + 1)) i (n + 1) := by
      cases hlookup : d.image.lookupFrom name i (n + 1) with
      | none => simp [scanCost]
      | some =>
        have hge := lookupFrom_ge hlookup
        simp only [scanCost]
        omega
    refine wp_mono (jihooDirRead_wp (by omega) hs) ?_ fun code d' hfailed => hfailed.mono hcost
    rintro entry d1 ⟨rfl, hbytes1, hserved1⟩
    have himage1 := Device.image_eq_of_bytes hbytes1
    have hs1 := hserved1.le_sectors hs
    by_cases hnames : d.image.Names name i
    · -- the slot has the name: the scan stops here
      have hlookup : d.image.lookupFrom name i (n + 1) = some i := by
        rw [lookupFrom_succ, if_pos hnames]
      have hinUse : d.image.entry i 28 = 1 := hnames.1
      rw [if_neg (not_not.mpr hinUse), if_pos ((sameName_iff _ _).mpr hnames.2), hlookup]
      refine ⟨rfl, hbytes1, ?_⟩
      rw [scanCost, Nat.add_sub_cancel_left]
      exact hserved1
    have hlookup : d.image.lookupFrom name i (n + 1) = d.image.lookupFrom name (i + 1) n := by
      rw [lookupFrom_succ, if_neg hnames]
    have hcostEq : scanCost (d.image.lookupFrom name i (n + 1)) i (n + 1)
        = 1 + scanCost (d.image.lookupFrom name (i + 1) n) (i + 1) n := by
      rw [hlookup]
      cases hrest : d.image.lookupFrom name (i + 1) n with
      | none => simp only [scanCost]; omega
      | some =>
        have hge := lookupFrom_ge hrest
        simp only [scanCost]
        omega
    have hrec := ih (d := d1) (i := i + 1) hs1 (by omega)
    rw [himage1] at hrec
    have hgoal : wp (findLoop name n (i + 1))
      (fun found d' => (match d.image.lookupFrom name i (n + 1) with
            | some slot => found = (slot, d.image.entry slot)
            | none => found = (256, Buffer.zeroed))
          ∧ d'.bytes = d.bytes
          ∧ Served d d' (scanCost (d.image.lookupFrom name i (n + 1)) i (n + 1)))
        (d.Failed (scanCost (d.image.lookupFrom name i (n + 1)) i (n + 1))) d1 := by
      rw [hcostEq, hlookup]
      refine wp_mono hrec ?_ fun code d' hfailed => hfailed.after hserved1 hbytes1
      rintro found d2 ⟨hfound, hbytes2, hserved2⟩
      exact ⟨hfound, hbytes2.trans hbytes1, hserved1.trans hserved2⟩
    by_cases hinUse : d.image.entry i 28 = 1
    · have hother : ¬ sameName (d.image.entry i) name = true := by
        intro hsame
        exact hnames ⟨hinUse, (sameName_iff _ _).mp hsame⟩
      rw [if_neg (not_not.mpr hinUse), if_neg hother]
      exact hgoal
    · rw [if_pos hinUse]
      exact hgoal

theorem lookup_eq_some_iff :
    image.lookup name = some slot ↔ slot < 256 ∧ image.Names name slot ∧ ∀ j < slot,
      ¬ image.Names name j := by
  rw [Image.lookup, Image.lookupFrom, List.find?_range'_eq_some]
  simp only [decide_eq_true_eq, Bool.not_eq_true', decide_eq_false_iff_not]
  constructor
  · rintro ⟨hnames, hmem, hbefore⟩
    rw [mem_range'_1] at hmem
    exact ⟨by omega, hnames, fun j hj => hbefore j (Nat.zero_le j) hj⟩
  rintro ⟨hlt, hnames, hbefore⟩
  refine ⟨hnames, ?_, fun j _ hj => hbefore j hj⟩
  rw [mem_range'_1]
  omega

theorem lookup_eq_none_iff : image.lookup name = none ↔ ∀ slot < 256, ¬ image.Names name slot := by
  rw [Image.lookup, Image.lookupFrom, List.find?_range'_eq_none]
  simp

theorem jihooDirFind_wp (hs : 81 ≤ d.sectors) (hname : ¬ (name.length = 0 ∨ name.length > 21)) :
    wp (jihooDirFind name)
      (fun found d' => (match d.image.lookup name with
          | some slot => found = (slot, d.image.entry slot)
          | none => found = (256, Buffer.zeroed))
        ∧ d'.bytes = d.bytes ∧ Served d d' (scanCost (d.image.lookup name) 0 256))
      (d.Failed (scanCost (d.image.lookup name) 0 256)) d := by
  rw [jihooDirFind, if_neg hname]
  exact findLoop_wp hs le_rfl

def Image.vacantFrom (image : Image) (start n : Nat) : Option Nat :=
  (range' start n).find? fun slot => image.entry slot 28 = 0

def Image.vacant (image : Image) : Option Nat := image.vacantFrom 0 256

theorem vacantFrom_succ (image : Image) (start n : Nat) :
    image.vacantFrom start (n + 1) = if image.entry start 28 = 0 then some start
      else image.vacantFrom (start + 1) n := by
  rw [Image.vacantFrom, range'_succ, List.find?_cons]
  by_cases h : image.entry start 28 = 0 <;> simp [h, Image.vacantFrom]

theorem freeSlotLoop_wp (hs : 81 ≤ d.sectors) (hn : i + n ≤ rootEntries) : wp (freeSlotLoop n i)
      (fun slot d' => slot = (d.image.vacantFrom i n).getD 256 ∧ d'.bytes = d.bytes ∧ Later d d')
      (fun code d' => code = -3 ∧ d'.bytes = d.bytes ∧ d.Faulted d') d := by
  induction n generalizing i d with
  | zero => exact ⟨rfl, rfl, Later.refl d⟩
  | succ n ih =>
    rw [freeSlotLoop]
    refine wp_seq (jihooDirRead_wp (by omega) hs) ?_ ?_
    · rintro entry d1 ⟨rfl, hbytes1, hserved1⟩
      have himage1 := Device.image_eq_of_bytes hbytes1
      have hs1 := hserved1.le_sectors hs
      rw [vacantFrom_succ, wp_ite]
      constructor
      · intro hvacant
        rw [if_pos hvacant]
        exact ⟨rfl, hbytes1, hserved1.later⟩
      intro htaken
      rw [if_neg htaken]
      have hrec := ih (d := d1) (i := i + 1) hs1 (by omega)
      rw [himage1] at hrec
      refine wp_mono hrec ?_ ?_
      · rintro slot d2 ⟨hslot, hbytes2, hlater2⟩
        exact ⟨hslot, hbytes2.trans hbytes1, hserved1.later.trans hlater2⟩
      · rintro code d2 ⟨hcode, hbytes2, hfaulted⟩
        exact ⟨hcode, hbytes2.trans hbytes1, hserved1.later.faulted hfaulted⟩
    · intro code d1 hfailed
      exact ⟨hfailed.1, hfailed.2.1, hfailed.faulted⟩

theorem vacant_eq_some_iff :
    image.vacant = some slot ↔ slot < 256 ∧ image.entry slot 28 = 0 ∧ ∀ j < slot,
      image.entry j 28 ≠ 0 := by
  rw [Image.vacant, Image.vacantFrom, List.find?_range'_eq_some]
  simp only [decide_eq_true_eq, Bool.not_eq_true', decide_eq_false_iff_not]
  constructor
  · rintro ⟨hvacant, hmem, hbefore⟩
    rw [mem_range'_1] at hmem
    exact ⟨by omega, hvacant, fun j hj => hbefore j (Nat.zero_le j) hj⟩
  rintro ⟨hlt, hvacant, hbefore⟩
  refine ⟨hvacant, ?_, fun j _ hj => hbefore j hj⟩
  rw [mem_range'_1]
  omega

theorem mark_ne_zero_of_vacant (h : image.vacant = none) (hslot : slot < 256) :
    image.entry slot 28 ≠ 0 := by
  intro hzero
  rw [Image.vacant, Image.vacantFrom, List.find?_eq_none] at h
  apply h slot
  · rw [mem_range'_1]
    omega
  · exact decide_eq_true hzero

end Kaguya.FileSystem
