import Kaguya.FileSystem.Directory
import Kaguya.Lib.Table

/-!
# What a volume stores

The contents of a file are the bytes of its size, read along its clusters. Slot by slot the
directory is then a table of names and contents, and as long as no name occurs twice that table
represents the map from names to contents that a caller sees.
-/

namespace Kaguya.FileSystem

open Function

namespace Image

variable (image : Image)

def logical (path : List Nat) (x : Nat) : UInt8 :=
  image.cluster (path.getD (x / 4096) 0) (x % 4096)

def chain (slot : Nat) : List Nat :=
  follow image.fat dataCluster fatEntries (image.first slot)

def contents (slot : Nat) : List UInt8 :=
  (List.range (image.size slot)).map (image.logical (image.chain slot))

def table : Table (List UInt8) (List UInt8) := fun slot =>
  if image.InUse slot then some (storedName (image.entry slot), image.contents slot) else none

def files (name : List UInt8) : Option (List UInt8) :=
  (image.lookup name).map image.contents

variable {image} {slot : Nat}

theorem table_eq_some_iff {name contents : List UInt8} :
    image.table slot = some (name, contents) ↔ image.Names name slot
      ∧ image.contents slot = contents := by
  rw [table, Names]
  by_cases hslot : image.InUse slot <;> simp [hslot]

theorem table_of_not_inUse (h : ¬ image.InUse slot) : image.table slot = none := if_neg h

theorem distinct_iff :
    image.table.Distinct ↔ ∀ s t name, image.Names name s → image.Names name t → s = t := by
  constructor
  · intro h s t name hs ht
    exact h s t name _ _ (table_eq_some_iff.mpr ⟨hs, rfl⟩) (table_eq_some_iff.mpr ⟨ht, rfl⟩)
  · intro h s t name x y hs ht
    exact h s t name (table_eq_some_iff.mp hs).1 (table_eq_some_iff.mp ht).1

end Image

variable {image : Image} {path : List Nat} {x : Nat}

theorem logical_eq {k : Nat} (hk : x / 4096 = k) (hlt : k < path.length) :
    image.logical path x = image.cluster (path[k]) (x - 4096 * k) := by
  rw [Image.logical, hk, List.getD_eq_getElem _ _ hlt]
  congr 1
  omega

theorem logical_congr {image' : Image} (hx : x < 4096 * path.length)
    (hcluster : ∀ c ∈ path, image'.cluster c = image.cluster c) :
    image'.logical path x = image.logical path x := by
  have hlt : x / 4096 < path.length := by omega
  rw [logical_eq rfl hlt, logical_eq rfl hlt, hcluster _ (List.getElem_mem hlt)]

section Lookup
variable {image : Image} {name : List UInt8} {slot : Nat}

theorem lookup_of_names (hlt : slot < 256) (hdistinct : image.table.Distinct)
    (hslot : image.Names name slot) : image.lookup name = some slot := by
  refine lookup_eq_some_iff.mpr ⟨hlt, hslot, fun j hj hnames => ?_⟩
  have heq := Image.distinct_iff.mp hdistinct j slot name hnames hslot
  omega

theorem represents_files (hlt : ∀ s, image.InUse s → s < 256) (hdistinct : image.table.Distinct) :
    image.table.Represents image.files := by
  intro name contents
  rw [Image.files, Option.map_eq_some_iff]
  constructor
  · rintro ⟨slot, hlookup, hcontents⟩
    exact ⟨slot, Image.table_eq_some_iff.mpr ⟨(lookup_eq_some_iff.mp hlookup).2.1, hcontents⟩⟩
  · rintro ⟨slot, hslot⟩
    obtain ⟨hnames, hcontents⟩ := Image.table_eq_some_iff.mp hslot
    exact ⟨slot, lookup_of_names (hlt slot hnames.1) hdistinct hnames, hcontents⟩

end Lookup

namespace Layout

variable {image image' : Image} {clusters : Nat} {paths paths' : Nat → List Nat} {slot : Nat}

variable (h : Layout image clusters paths)
include h

theorem chain_eq (hslot : image.InUse slot) : image.chain slot = paths slot :=
  (h.sound slot hslot).walk.follow_eq (h.sound slot hslot).length_le

theorem contents_eq (hslot : image.InUse slot) :
    image.contents slot = (List.range (image.size slot)).map (image.logical (paths slot)) := by
  rw [Image.contents, h.chain_eq hslot]

theorem table_congr (h' : Layout image' clusters paths')
    (hentry : image'.entry slot = image.entry slot)
    (hpath : image.InUse slot → paths' slot = paths slot)
    (hcluster : image.InUse slot → ∀ c ∈ paths slot, image'.cluster c = image.cluster c) :
    image'.table slot = image.table slot := by
  have hinUse : image'.InUse slot ↔ image.InUse slot := by
    rw [Image.InUse, Image.InUse, hentry]
  by_cases hslot : image.InUse slot
  · have hsize : image'.size slot = image.size slot := by rw [Image.size, Image.size, hentry]
    rw [Image.table, Image.table, if_pos hslot, if_pos (hinUse.mpr hslot), hentry,
      h.contents_eq hslot, h'.contents_eq (hinUse.mpr hslot), hsize, hpath hslot]
    have hmap : (List.range (image.size slot)).map (image'.logical (paths slot))
        = (List.range (image.size slot)).map (image.logical (paths slot)) := by
      refine List.map_congr_left fun x hx => logical_congr ?_ (hcluster hslot)
      exact (List.mem_range.mp hx).trans_le (h.long slot hslot)
    rw [hmap]
  · rw [Image.table_of_not_inUse hslot, Image.table_of_not_inUse (mt hinUse.mp hslot)]

/-- **The frame rule of the table.** When every slot but one keeps its entry and its clusters, only
that slot of the table changes. -/
theorem table_update {s : Nat} {path : List Nat}
    (h' : Layout image' clusters (Function.update paths s path))
    (hentry : ∀ t, t ≠ s → image'.entry t = image.entry t)
    (hcluster : ∀ t, t ≠ s → image.InUse t → ∀ c ∈ paths t, image'.cluster c = image.cluster c) :
    image'.table = Function.update image.table s (image'.table s) := by
  funext t
  by_cases hts : t = s
  · rw [hts, update_self]
  · rw [update_of_ne hts]
    exact h.table_congr h' (hentry t hts) (fun _ => update_of_ne hts ..) (hcluster t hts)

end Layout

end Kaguya.FileSystem
