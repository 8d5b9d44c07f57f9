import Kaguya.FileSystem.Queries

/-!
# Formatting

A format that succeeds leaves an empty volume, whatever was on the disk. It fails only if the device
does.
-/

namespace Kaguya.FileSystem

open Prog Device Buffer

namespace Volume

variable {v : Volume} {d : Device}

theorem clearLoop_wp {n lba : Nat} (hs : lba + n ≤ d.sectors) :
    wp (clearLoop n lba)
      (fun _ d' => (∀ i, d'.bytes i = if lba ≤ i / 512 ∧ i / 512 < lba + n then 0 else d.bytes i)
        ∧ Later d d') (fun _ d' => d.Faulted d') d := by
  induction n generalizing lba d with
  | zero =>
    refine ⟨fun i => ?_, Later.refl d⟩
    rw [if_neg (by omega)]
  | succ n ih =>
    rw [clearLoop]
    refine wp_seq (writeSector_wp (by omega)) ?_ fun code d' hfailed => hfailed.faulted
    rintro _ d1 ⟨hbytes1, hserved1⟩
    have hs1 : lba + 1 + n ≤ d1.sectors := by
      rw [hserved1.sectors]
      omega
    refine wp_mono (ih hs1) ?_ fun code d' hfaulted => hserved1.later.faulted hfaulted
    rintro _ d2 ⟨hbytes2, hlater2⟩
    refine ⟨fun i => ?_, hserved1.later.trans hlater2⟩
    rw [hbytes2, hbytes1]
    by_cases hrest : lba + 1 ≤ i / 512 ∧ i / 512 < lba + 1 + n
    · rw [if_pos hrest, if_pos (by omega)]
    rw [if_neg hrest]
    by_cases hfirst : i / 512 = lba
    · rw [if_pos (by omega), memCopy_of_mem (by omega) (by omega)]
      rfl
    · rw [if_neg (by omega), memCopy_of_not_mem (by omega)]

theorem get_magic_bootSector (clusters : Nat) : (bootSector clusters).get 0 8 = magic := by
  unfold bootSector
  iterate 8 rw [get_put_of_disjoint (by omega)]
  exact get_put (by decide)

theorem retire_generations_self (v : Volume) (slot : Nat) :
    (v.retire slot).generations slot = nextGeneration (v.generations slot) :=
  Function.update_self ..

theorem retire_generations_of_ne (v : Volume) {slot t : Nat} (h : t ≠ slot) :
    (v.retire slot).generations t = v.generations t := Function.update_of_ne h ..

theorem generations_foldl_retire (v : Volume) (n slot : Nat) :
    ((List.range n).foldl (fun v slot => v.retire slot) v).generations slot
      = if slot < n then nextGeneration (v.generations slot) else v.generations slot := by
  induction n with
  | zero => simp
  | succ n ih =>
    rw [List.range_succ, List.foldl_append, List.foldl_cons, List.foldl_nil]
    by_cases hslot : slot = n
    · subst hslot
      rw [retire_generations_self, ih, if_neg (by omega), if_pos (by omega)]
    rw [retire_generations_of_ne _ hslot, ih]
    by_cases hlt : slot < n
    · rw [if_pos hlt, if_pos (by omega)]
    · rw [if_neg hlt, if_neg (by omega)]

theorem retireAll_generations (v : Volume) (slot : Nat) : v.retireAll.generations slot
    = if slot < 256 then nextGeneration (v.generations slot) else v.generations slot :=
  generations_foldl_retire v 256 slot

theorem foldl_retire_device (v : Volume) (slots : List Nat) :
    (slots.foldl (fun v slot => v.retire slot) v).device = v.device
      ∧ (slots.foldl (fun v slot => v.retire slot) v).clusters = v.clusters := by
  induction slots generalizing v with
  | nil => exact ⟨rfl, rfl⟩
  | cons slot _ ih => exact ih (v.retire slot)

theorem retireAll_device (v : Volume) : v.retireAll.device = v.device := (foldl_retire_device v _).1

theorem retireAll_clusters (v : Volume) :
    v.retireAll.clusters = v.clusters := (foldl_retire_device v _).2

structure Empty (image : Image) : Prop where
  boot : image.boot = magic
  reserved : image.fat 0 = 0xfff8 ∧ image.fat 1 = 0xffff
  free : ∀ c, 2 ≤ c → image.fat c = 0
  entries : ∀ slot, image.entry slot = Buffer.zeroed

variable {image : Image}

theorem Empty.not_inUse (h : Empty image) (slot : Nat) : ¬ image.InUse slot := by
  rw [Image.InUse, h.entries]
  decide

theorem Empty.lookup (h : Empty image) (name : List UInt8) : image.lookup name = none :=
  lookup_eq_none_iff.mpr fun slot _ hnames => h.not_inUse slot hnames.1

theorem Empty.layout (h : Empty image) (clusters : Nat) : Layout image clusters fun _ => [] :=
  ⟨fun slot hslot => absurd hslot (h.not_inUse slot),
    fun slot hslot => absurd hslot (h.not_inUse slot), fun s _ hs =>
    absurd hs (h.not_inUse s), h.reserved⟩

theorem Empty.table (h : Empty image) : image.table = fun _ => none := by
  funext slot
  exact Image.table_of_not_inUse (h.not_inUse slot)

theorem empty_of_bytes {bytes : Buffer} {clusters : Nat}
    (hboot : ∀ i < 512, bytes i = bootSector clusters i)
    (hfat : ∀ i, 512 ≤ i → i < 33280 → bytes i = ((Buffer.zeroed.put 512 0xfff8 2).put 514 0xffff 2)
      i) (hroot : ∀ i, 33280 ≤ i → i < 41472 → bytes i = 0) : Empty (FileSystem.image bytes) := by
  have hfatEntries : fatEntries = 16384 := rfl
  have hrootEntries : rootEntries = 256 := rfl
  have hget : ∀ c < fatEntries, (FileSystem.image bytes).fat c
      = ((Buffer.zeroed.put 512 0xfff8 2).put 514 0xffff 2).get (512 + 2 * c) 2 := by
    intro c hc
    simp only [FileSystem.image]
    rw [if_pos hc]
    exact get_congr fun i hi => hfat _ (by omega) (by omega)
  refine ⟨?_, ⟨?_, ?_⟩, ?_, ?_⟩
  · rw [← get_magic_bootSector clusters]
    exact get_congr fun i hi => hboot _ (by omega)
  · rw [hget 0 (by omega), get_put_of_disjoint (by omega)]
    exact get_put (by omega)
  · rw [hget 1 (by omega)]
    exact get_put (by omega)
  · intro c hc
    by_cases hlt : c < fatEntries
    · rw [hget c hlt, get_put_of_disjoint (by omega), get_put_of_disjoint (by omega), get_zeroed]
    · simp only [FileSystem.image]
      rw [if_neg hlt]
  intro slot
  simp only [FileSystem.image]
  split
  · rename_i hslot
    rw [← upTo_zeroed 32]
    exact upTo_congr fun i hi => hroot _ (by omega) (by omega)
  · rfl

theorem format_wp (hs : 81 ≤ v.device.sectors) : wp format
      (fun _ v' => v.Same v' ∧ v'.generations = v.retireAll.generations ∧ Empty v'.image)
      (fun _ v' => v.Same v' ∧ v.device.Faulted v'.device) v := by
  have hfatEntries : fatEntries = 16384 := rfl
  have hfailed : ∀ {u : Volume} {d : Device} {d' : Device}, u.clusters = v.clusters →
      Later v.device d → d.Faulted d' → v.Same { u with device := d' } ∧ v.device.Faulted d' := by
    intro u d d' hclusters hlater hfaulted
    exact ⟨⟨hclusters, hlater.trans hfaulted.1⟩, hlater.faulted hfaulted⟩
  rw [format, wp_bind, wp_state, wp_bind, wp_onDevice]
  refine wp_mono (writeSector_wp (by omega)) ?_ fun code d hf =>
    hfailed rfl (Later.refl _) hf.faulted
  rintro _ d1 ⟨hbytes1, hserved1⟩
  have hlater1 := hserved1.later
  rw [wp_bind, wp_onDevice]
  refine wp_mono (clearLoop_wp (hlater1.le_sectors (by omega))) ?_ fun code d hf =>
    hfailed rfl hlater1 hf
  rintro _ d2 ⟨hbytes2, hlater2⟩
  replace hlater2 := hlater1.trans hlater2
  rw [wp_bind, wp_onDevice]
  refine wp_mono (jihooFatWrite_wp (by omega) (hlater2.le_sectors (by omega)))
    ?_ fun code d hf => hfailed rfl hlater2 hf.faulted
  rintro _ d3 ⟨hbytes3, hserved3⟩
  have hlater3 := hlater2.trans hserved3.later
  rw [wp_bind, wp_onDevice]
  refine wp_mono (jihooFatWrite_wp (by omega) (hlater3.le_sectors (by omega)))
    ?_ fun code d hf => hfailed rfl hlater3 hf.faulted
  rintro _ d4 ⟨hbytes4, hserved4⟩
  have hlater4 := hlater3.trans hserved4.later
  obtain ⟨u, hu⟩ : ∃ u, u = retireAll { v with device := d4 } := ⟨_, rfl⟩
  have hdevice : u.device = d4 := by rw [hu, retireAll_device]
  have hclusters : u.clusters = v.clusters := by rw [hu, retireAll_clusters]
  rw [wp_bind, wp_modify, ← hu, wp_onDevice, hdevice]
  refine wp_mono (clearLoop_wp (hlater4.le_sectors (by omega))) ?_ fun code d hf =>
    hfailed hclusters hlater4 hf
  rintro _ d5 ⟨hbytes5, hlater5⟩
  refine ⟨⟨hclusters, hlater4.trans hlater5⟩, ?_, ?_⟩
  · funext slot
    rw [hu, retireAll_generations, retireAll_generations]
  apply empty_of_bytes
  · intro i hi
    rw [hbytes5, if_neg (by omega), hbytes4, put_of_not_mem (by omega), hbytes3,
      put_of_not_mem (by omega), hbytes2, if_neg (by omega), hbytes1,
      memCopy_of_mem (by omega) (by omega)]
    congr 1
    omega
  · intro i hlo hhi
    have hclear : d2.bytes i = Buffer.zeroed i := by
      rw [hbytes2, if_pos (by omega)]
      rfl
    rw [hbytes5, if_neg (by omega), hbytes4, hbytes3]
    simp only [Buffer.put, hclear]
  · intro i hlo hhi
    rw [hbytes5, if_pos (by omega)]

theorem format_ok (hs : 81 ≤ v.device.sectors) (hnonFailing : v.device.NonFailing) :
    ∃ v', format v = (.ok (), v') ∧ v.Same v' ∧ v'.generations = v.retireAll.generations
      ∧ Empty v'.image := by
  obtain ⟨_, v', hrun, hformat⟩ := wp_returns (wp_mono (format_wp hs) (fun _ _ h => h)
    fun _ _ h => h.2.2 hnonFailing)
  exact ⟨v', hrun, hformat⟩

end Volume

end Kaguya.FileSystem
