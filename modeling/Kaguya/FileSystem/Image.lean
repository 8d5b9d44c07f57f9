import Kaguya.FileSystem.Volume

/-!
# What the bytes of a disk mean

The file system sees a disk as four things: the word that marks a volume as its own, the file
allocation table, the directory entries and the data clusters. `image` reads them off the bytes.
They do not overlap, so each of the three kinds of write changes one cell of one of them, and the
proofs above this module are about images only.
-/

namespace Kaguya.FileSystem

open Function Prog Buffer

@[ext]
structure Image where
  boot : Nat
  fat : Nat → Nat
  entry : Nat → Buffer
  cluster : Nat → Buffer

namespace Image

def setFat (image : Image) (c value : Nat) : Image :=
  { image with fat := update image.fat c value }

def setEntry (image : Image) (slot : Nat) (entry : Buffer) : Image :=
  { image with entry := update image.entry slot entry }

def setCluster (image : Image) (c : Nat) (contents : Buffer) : Image :=
  { image with cluster := update image.cluster c contents }

variable {image : Image} {slot t c x value : Nat} {entry contents : Buffer}

@[simp]
theorem setFat_fat_self : (image.setFat c value).fat c = value := update_self ..

theorem setFat_fat_of_ne (h : x ≠ c) :
    (image.setFat c value).fat x = image.fat x := update_of_ne h ..

@[simp]
theorem setEntry_entry_self : (image.setEntry slot entry).entry slot = entry := update_self ..

theorem setEntry_entry_of_ne (h : t ≠ slot) :
    (image.setEntry slot entry).entry t = image.entry t := update_of_ne h ..

@[simp]
theorem setCluster_cluster_self :
    (image.setCluster c contents).cluster c = contents := update_self ..

theorem setCluster_cluster_of_ne (h : x ≠ c) :
    (image.setCluster c contents).cluster x = image.cluster x := update_of_ne h ..

end Image

def image (bytes : Buffer) : Image where
  boot := bytes.get 0 8
  fat c := if c < fatEntries then bytes.get (512 + 2 * c) 2 else 0
  entry slot := if slot < rootEntries then Buffer.upTo (fun i => bytes (33280 + 32 * slot + i)) 32
    else Buffer.zeroed
  cluster c := if 2 ≤ c then Buffer.upTo (fun i => bytes (41472 + (c - 2) * 4096 + i)) 4096
    else Buffer.zeroed

def Device.image (d : Device) : Image := FileSystem.image d.bytes

section Congr
variable {bytes bytes' : Buffer}

theorem image_boot_congr (h : ∀ i < 512, bytes i = bytes' i) :
    (image bytes).boot = (image bytes').boot :=
  get_congr fun i hi => h (0 + i) (by omega)

theorem image_fat_congr {c : Nat}
    (h : c < fatEntries → ∀ i < 2, bytes (512 + 2 * c + i) = bytes' (512 + 2 * c + i)) :
    (image bytes).fat c = (image bytes').fat c := by
  simp only [image]
  split
  · rename_i hc
    exact get_congr (h hc)
  · rfl

theorem image_entry_congr {slot : Nat} (h : slot < rootEntries → ∀ i < 32,
    bytes (33280 + 32 * slot + i) = bytes' (33280 + 32 * slot + i)) :
    (image bytes).entry slot = (image bytes').entry slot := by
  simp only [image]
  split
  · rename_i hslot
    exact upTo_congr (h hslot)
  · rfl

theorem image_cluster_congr {c : Nat} (h : 2 ≤ c → ∀ i < 4096,
    bytes (41472 + (c - 2) * 4096 + i) = bytes' (41472 + (c - 2) * 4096 + i)) :
    (image bytes).cluster c = (image bytes').cluster c := by
  simp only [image]
  split
  · rename_i hc
    exact upTo_congr (h hc)
  · rfl

end Congr

theorem image_put_fat {bytes : Buffer} {c value : Nat} (hc : c < fatEntries)
    (hvalue : value < 65536) :
    image (bytes.put (512 + 2 * c) value 2) = (image bytes).setFat c value := by
  have hfatEntries : fatEntries = 16384 := rfl
  refine Image.ext ?_ ?_ ?_ ?_
  · exact image_boot_congr fun i _ => put_of_not_mem (by omega)
  · funext x
    by_cases hx : x = c
    · subst hx
      simp only [image, Image.setFat, update_self]
      rw [if_pos hc, get_put hvalue]
    · simp only [Image.setFat, update_of_ne hx]
      exact image_fat_congr fun _ i _ => put_of_not_mem (by omega)
  · funext slot
    exact image_entry_congr fun _ i _ => put_of_not_mem (by omega)
  · funext x
    exact image_cluster_congr fun _ i _ => put_of_not_mem (by omega)

theorem image_memCopy_entry {bytes entry : Buffer} {slot : Nat} (hslot : slot < rootEntries) :
    image (bytes.memCopy (33280 + 32 * slot) entry 0 32) = (image bytes).setEntry slot
      (entry.upTo 32) := by
  have hfatEntries : fatEntries = 16384 := rfl
  have hrootEntries : rootEntries = 256 := rfl
  refine Image.ext ?_ ?_ ?_ ?_
  · exact image_boot_congr fun i _ => memCopy_of_not_mem (by omega)
  · funext c
    exact image_fat_congr fun _ i _ => memCopy_of_not_mem (by omega)
  · funext x
    by_cases hx : x = slot
    · subst hx
      simp only [image, Image.setEntry, update_self]
      rw [if_pos hslot]
      refine upTo_congr fun i hi => ?_
      rw [memCopy_of_mem (by omega) (by omega)]
      congr 1
      omega
    · simp only [Image.setEntry, update_of_ne hx]
      exact image_entry_congr fun _ i _ => memCopy_of_not_mem (by omega)
  · funext c
    exact image_cluster_congr fun _ i _ => memCopy_of_not_mem (by omega)

theorem image_memCopy_cluster {bytes contents : Buffer} {c : Nat} (hc : 2 ≤ c) :
    image (bytes.memCopy (41472 + (c - 2) * 4096) contents 0 4096) = (image bytes).setCluster c
      (contents.upTo 4096) := by
  have hfatEntries : fatEntries = 16384 := rfl
  have hrootEntries : rootEntries = 256 := rfl
  refine Image.ext ?_ ?_ ?_ ?_
  · exact image_boot_congr fun i _ => memCopy_of_not_mem (by omega)
  · funext x
    exact image_fat_congr fun _ i _ => memCopy_of_not_mem (by omega)
  · funext slot
    exact image_entry_congr fun _ i _ => memCopy_of_not_mem (by omega)
  funext x
  by_cases hx : x = c
  · subst hx
    simp only [image, Image.setCluster, update_self]
    rw [if_pos hc]
    refine upTo_congr fun i hi => ?_
    rw [memCopy_of_mem (by omega) (by omega)]
    congr 1
    omega
  · simp only [Image.setCluster, update_of_ne hx]
    exact image_cluster_congr fun _ i _ => memCopy_of_not_mem (by omega)

/-! ### The transfers of one cell

Each of these counts its requests, and each leaves the disk alone when it fails. -/

/-- The call failed at one of its first `n` requests and the disk is as before. -/
def Device.Failed (d : Device) (n : Nat) (code : Int) (d' : Device) : Prop :=
  code = -3 ∧ d'.bytes = d.bytes ∧ ∃ k < n, Device.Broke d d' k

section Transfers

open Device

variable {d : Device}

variable {m n slot : Nat} {code : Int} {d' : Device}

theorem Device.Failed.mono (h : d.Failed m code d') (hmn : m ≤ n) : d.Failed n code d' := by
  obtain ⟨hcode, hbytes, k, hk, hbroke⟩ := h
  exact ⟨hcode, hbytes, k, by omega, hbroke⟩

theorem Device.Failed.after {d'' : Device} (h : Served d d' m) (hbytes : d'.bytes = d.bytes)
    (h' : d'.Failed n code d'') : d.Failed (m + n) code d'' := by
  obtain ⟨hcode, hbytes', k, hk, hbroke⟩ := h'
  exact ⟨hcode, hbytes'.trans hbytes, m + k, by omega, h.broke hbroke⟩

variable {lba c clusters : Nat}

theorem readSector_wp (h : lba < d.sectors) : wp (readSector lba)
      (fun sector d' => (∀ i < 512, sector i = d.bytes (lba * 512 + i))
        ∧ d'.bytes = d.bytes ∧ Served d d' 1) (d.Failed 1) d := by
  refine wp_mono (read_wp (by omega)) ?_ ?_
  · rintro sector d' ⟨hsector, hbytes, hserved⟩
    exact ⟨fun i hi => hsector i (by omega), hbytes, hserved⟩
  · rintro code d' ⟨hcode, hbytes, hbroke⟩
    exact ⟨hcode, hbytes, 0, by omega, hbroke⟩

theorem writeSector_wp {data : Buffer} (h : lba < d.sectors) : wp (writeSector lba data)
      (fun _ d' => d'.bytes = d.bytes.memCopy (lba * 512) data 0 512 ∧ Served d d' 1) (d.Failed 1)
        d := by
  refine wp_mono (write_wp (by omega)) ?_ ?_
  · rintro _ d' ⟨hbytes, hserved⟩
    exact ⟨hbytes, hserved⟩
  · rintro code d' ⟨hcode, hbytes, hbroke⟩
    exact ⟨hcode, hbytes, 0, by omega, hbroke⟩

theorem rewriteSector_wp {f : Buffer → Buffer} {bytes' : Buffer} (h : lba < d.sectors)
    (hin : ∀ sector : Buffer, (∀ i < 512, sector i = d.bytes (lba * 512 + i)) →
      d.bytes.memCopy (lba * 512) (f sector) 0 512 = bytes') :
    wp (do let sector ← readSector lba; writeSector lba (f sector))
      (fun _ d' => d'.bytes = bytes' ∧ Served d d' 2) (d.Failed 2) d := by
  refine wp_seq (readSector_wp h) ?_ fun code d' hfailed => hfailed.mono (by omega)
  rintro sector d1 ⟨hsector, hbytes1, hserved1⟩
  have hlba := hserved1.le_sectors h
  refine wp_mono (writeSector_wp hlba) ?_ fun code d' hfailed => hfailed.after hserved1 hbytes1
  rintro _ d2 ⟨hbytes2, hserved2⟩
  refine ⟨?_, hserved1.trans hserved2⟩
  rw [hbytes2, hbytes1, hin sector hsector]

theorem jihooFatRead_wp (hc : c < fatEntries) (hs : 81 ≤ d.sectors) :
    wp (jihooFatRead c) (fun value d' => value = d.image.fat c ∧ d'.bytes = d.bytes ∧ Served d d' 1)
      (d.Failed 1) d := by
  have hfatEntries : fatEntries = 16384 := rfl
  have hfatStart : fatStart = 1 := rfl
  unfold jihooFatRead
  rw [if_neg (by omega)]
  refine wp_seq (readSector_wp (by omega)) ?_ fun _ _ hfailed => hfailed
  rintro sector d' ⟨hsector, hbytes, hserved⟩
  refine ⟨?_, hbytes, hserved⟩
  have hlow : sector (c % 256 * 2) = d.bytes (512 + 2 * c + 0) := by
    rw [hsector _ (by omega)]
    congr 1
    omega
  have hhigh : sector (c % 256 * 2 + 1) = d.bytes (512 + 2 * c + 1) := by
    rw [hsector _ (by omega)]
    congr 1
    omega
  simp only [Device.image, image]
  rw [if_pos hc, hlow, hhigh, get_succ_or, get_succ_or, get_zero]
  simp

theorem jihooFatWrite_wp {value : Nat} (hc : c < fatEntries) (hs : 81 ≤ d.sectors) :
    wp (jihooFatWrite c value) (fun _ d' => d'.bytes = d.bytes.put (512 + 2 * c) value 2
      ∧ Served d d' 2) (d.Failed 2) d := by
  have hfatEntries : fatEntries = 16384 := rfl
  have hfatStart : fatStart = 1 := rfl
  unfold jihooFatWrite
  rw [if_neg (by omega)]
  refine rewriteSector_wp (by omega) fun sector hsector => ?_
  funext a
  by_cases ha : (fatStart + c / 256) * 512 ≤ a ∧ a < (fatStart + c / 256) * 512 + 512
  · rw [memCopy_of_mem ha.1 ha.2, Nat.zero_add]
    by_cases hhigh : a = 512 + 2 * c + 1
    · rw [Buffer.put, if_pos (by omega), update_apply, if_pos (by omega), hhigh,
        Nat.add_sub_cancel_left]
    rw [update_apply, if_neg (by omega), update_apply]
    by_cases hlow : a = 512 + 2 * c
    · rw [Buffer.put, if_pos (by omega), if_pos (by omega), hlow, Nat.sub_self]
      rfl
    · rw [put_of_not_mem (by omega), if_neg (by omega), hsector _ (by omega)]
      congr 1
      omega
  · rw [memCopy_of_not_mem ha, put_of_not_mem (by omega)]

theorem jihooDirRead_wp (hslot : slot < rootEntries) (hs : 81 ≤ d.sectors) : wp (jihooDirRead slot)
      (fun entry d' => entry = d.image.entry slot ∧ d'.bytes = d.bytes ∧ Served d d' 1) (d.Failed 1)
        d := by
  have hrootEntries : rootEntries = 256 := rfl
  have hrootStart : rootStart = 65 := rfl
  unfold jihooDirRead
  rw [if_neg (by omega)]
  refine wp_seq (readSector_wp (by omega)) ?_ fun _ _ hfailed => hfailed
  rintro sector d' ⟨hsector, hbytes, hserved⟩
  refine ⟨?_, hbytes, hserved⟩
  simp only [Device.image, image]
  rw [if_pos hslot]
  funext i
  by_cases hi : i < 32
  · rw [memCopy_of_mem (by omega) (by omega), hsector _ (by omega), upTo_of_lt hi]
    congr 1
    omega
  · rw [memCopy_of_not_mem (by omega)]
    simp [Buffer.upTo, hi, Buffer.zeroed]

theorem jihooDirWrite_wp {entry : Buffer} (hslot : slot < rootEntries) (hs : 81 ≤ d.sectors) :
    wp (jihooDirWrite slot entry)
      (fun _ d' => d'.bytes = d.bytes.memCopy (33280 + 32 * slot) entry 0 32 ∧ Served d d' 2)
        (d.Failed 2) d := by
  have hrootEntries : rootEntries = 256 := rfl
  have hrootStart : rootStart = 65 := rfl
  unfold jihooDirWrite
  rw [if_neg (by omega)]
  refine rewriteSector_wp (by omega) fun sector hsector => ?_
  funext a
  by_cases ha : (rootStart + slot / 16) * 512 ≤ a ∧ a < (rootStart + slot / 16) * 512 + 512
  · rw [memCopy_of_mem ha.1 ha.2, Nat.zero_add]
    by_cases hentry : 33280 + 32 * slot ≤ a ∧ a < 33280 + 32 * slot + 32
    · rw [memCopy_of_mem (by omega) (by omega), memCopy_of_mem (by omega) (by omega)]
      congr 1
      omega
    · rw [memCopy_of_not_mem (by omega), memCopy_of_not_mem (by omega), hsector _ (by omega)]
      congr 1
      omega
  · rw [memCopy_of_not_mem ha, memCopy_of_not_mem (by omega)]

variable (hs : 81 + 8 * clusters ≤ d.sectors)
include hs

theorem clusterLba_le (hc : 2 ≤ c) (hlast : c ≤ lastCluster clusters) :
    clusterLba c + 8 ≤ d.sectors := by
  rw [lastCluster_eq] at hlast
  unfold clusterLba
  omega

theorem readCluster_wp (hc : 2 ≤ c) (hlast : c ≤ lastCluster clusters) :
    wp (Device.read (clusterLba c) 8)
      (fun contents d' => (∀ i < 4096, contents i = d.image.cluster c i) ∧ d'.bytes = d.bytes
        ∧ Served d d' 1) (d.Failed 1) d := by
  refine wp_mono (read_wp (clusterLba_le hs hc hlast)) ?_ ?_
  · rintro contents d' ⟨hcontents, hbytes, hserved⟩
    refine ⟨fun i hi => ?_, hbytes, hserved⟩
    simp only [Device.image, image]
    rw [hcontents i (by omega), if_pos hc, upTo_of_lt hi]
    congr 1
    unfold clusterLba
    omega
  · rintro code d' ⟨hcode, hbytes, hbroke⟩
    exact ⟨hcode, hbytes, 0, by omega, hbroke⟩

theorem writeCluster_wp {contents : Buffer} (hc : 2 ≤ c) (hlast : c ≤ lastCluster clusters) :
    wp (Device.write (clusterLba c) 8 contents)
      (fun _ d' => d'.bytes = d.bytes.memCopy (41472 + (c - 2) * 4096) contents 0 4096
        ∧ Served d d' 1) (d.Failed 1) d := by
  refine wp_mono (write_wp (clusterLba_le hs hc hlast)) ?_ ?_
  · rintro _ d' ⟨hbytes, hserved⟩
    refine ⟨?_, hserved⟩
    rw [hbytes, show clusterLba c * 512 = 41472 + (c - 2) * 4096 by unfold clusterLba; omega]
  · rintro code d' ⟨hcode, hbytes, hbroke⟩
    exact ⟨hcode, hbytes, 0, by omega, hbroke⟩

end Transfers

end Kaguya.FileSystem
