import Kaguya.FileSystem.CreateSpec
import Kaguya.FileSystem.VolumeSpec
import Kaguya.FileSystem.Spec
import Mathlib.Data.List.TakeWhile

/-!
# Entries and the files behind them

Which file an entry stands for: the fields of the entries that the operations write, and what the
table of files is after a chain has been freed, emptied, grown or stored and the entry written.
-/

namespace Kaguya.FileSystem

open Function Prog Device List Buffer Image

variable {entry entry' : Buffer}

theorem nameLoop_congr {n size : Nat} (h : ∀ i, size ≤ i → i < size + n → entry i = entry' i) :
    nameLoop entry n size = nameLoop entry' n size := by
  induction n generalizing size with
  | zero => rfl
  | succ n ih =>
    rw [nameLoop, nameLoop, h size le_rfl (by omega), ih fun i hi hlt => h i (by omega) (by omega)]

theorem storedName_congr (h : ∀ i < 22, entry i = entry' i) :
    storedName entry = storedName entry' := by
  have hlength : nameLength entry = nameLength entry' := nameLoop_congr fun i _ hi => h i (by omega)
  have hle := nameLength_le entry'
  rw [storedName, storedName, hlength]
  exact slice_congr fun i hi => h _ (by omega)

theorem storedName_eq_takeWhile {name : List UInt8} (hlength : name.length ≤ 21)
    (hbytes : ∀ i < name.length, entry i = name.getD i 0) (hend : entry name.length = 0) :
    storedName entry = name.takeWhile (· ≠ 0) := by
  have hinit := takeWhile_prefix (l := name) (· ≠ 0)
  have hle := hinit.length_le
  have hget : ∀ i, i < (name.takeWhile (· ≠ 0)).length → entry i = (name.takeWhile (· ≠ 0)).getD i
      0 := by
    intro i hi
    rw [hbytes i (by omega), getD_eq_getElem _ _ hi, getD_eq_getElem _ _ (by omega)]
    exact (hinit.getElem hi).symm
  have hnonzero : ∀ i < (name.takeWhile (· ≠ 0)).length, entry i ≠ 0 := by
    intro i hi
    rw [hget i hi, getD_eq_getElem _ _ hi]
    have hmem := mem_takeWhile_imp (getElem_mem hi)
    simpa using hmem
  have hzero : entry (name.takeWhile (· ≠ 0)).length = 0 := by
    have hsplit := takeWhile_append_dropWhile (p := (· ≠ 0)) (l := name)
    have hstop := dropWhile_get_zero_not (· ≠ 0) name
    generalize name.takeWhile (· ≠ 0) = front at hsplit ⊢
    generalize name.dropWhile (· ≠ 0) = back at hsplit hstop
    subst hsplit
    cases back with
    | nil =>
      rw [append_nil] at hend
      exact hend
    | cons b =>
      have hb : b = 0 := by simpa using hstop
      rw [hbytes _ (by simp), getD_append_right _ _ _ _ le_rfl, Nat.sub_self, hb]
      rfl
  have hcount := nameLength_eq (by omega) hnonzero hzero
  refine ext_getElem (by rw [storedName, length_slice, hcount]) ?_
  intro i hi hi'
  simp only [storedName, getElem_slice, Nat.zero_add]
  rw [hget i hi', getD_eq_getElem _ _ hi']

section Fields
variable {entry : Buffer} {first size : Nat}

theorem get_first_put (hfirst : first < 65536) :
    (((entry.put 22 first 2).put 24 size 4).upTo 32).get 22 2 = first := by
  rw [get_upTo (by omega), get_put_of_disjoint (by omega), get_put (by omega)]

theorem get_size_put (hsize : size ≤ 0xffffffff) :
    (((entry.put 22 first 2).put 24 size 4).upTo 32).get 24 4 = size := by
  rw [get_upTo (by omega), get_put (by omega)]

theorem put_mark : ((entry.put 22 first 2).put 24 size 4) 28 = entry 28 := by
  rw [put_of_not_mem (by omega), put_of_not_mem (by omega)]

theorem storedName_put :
    storedName (((entry.put 22 first 2).put 24 size 4).upTo 32) = storedName entry := by
  refine storedName_congr fun i hi => ?_
  rw [upTo_of_lt (by omega), put_of_not_mem (by omega), put_of_not_mem (by omega)]

theorem storedName_emptied : storedName ((entry.put 22 0 6).upTo 32) = storedName entry := by
  refine storedName_congr fun i hi => ?_
  rw [upTo_of_lt (by omega), put_of_not_mem (by omega)]

end Fields

namespace Volume

section NewEntry
variable {name : List UInt8} {first size : Nat}

theorem newEntry_apply {i : Nat} (hi : i ≠ 28) : newEntry name first size i
    = ((Buffer.zeroed.memCopy 0 (Buffer.ofList name) 0 name.length).put 22 first 2).put 24 size 4
      i := update_of_ne hi ..

theorem newEntry_mark : newEntry name first size 28 = 1 := update_self ..

theorem get_first_newEntry (hfirst : first < 65536) :
    ((newEntry name first size).upTo 32).get 22 2 = first := by
  rw [get_upTo (by omega), get_congr fun i hi => newEntry_apply (by omega),
    get_put_of_disjoint (by omega), get_put (by omega)]

theorem get_size_newEntry (hsize : size ≤ 0xffffffff) :
    ((newEntry name first size).upTo 32).get 24 4 = size := by
  rw [get_upTo (by omega), get_congr fun i hi => newEntry_apply (by omega), get_put (by omega)]

theorem storedName_newEntry (hname : name.length ≤ 21) :
    storedName ((newEntry name first size).upTo 32) = name.takeWhile (· ≠ 0) := by
  have happly : ∀ i < 22, (newEntry name first size).upTo 32 i
      = Buffer.zeroed.memCopy 0 (Buffer.ofList name) 0 name.length i := by
    intro i hi
    rw [upTo_of_lt (by omega), newEntry_apply (by omega), put_of_not_mem (by omega),
      put_of_not_mem (by omega)]
  apply storedName_eq_takeWhile hname
  · intro i hi
    rw [happly i (by omega), memCopy_of_mem (by omega) (by omega), Nat.sub_zero, Nat.zero_add]
    rfl
  · rw [happly _ (by omega), memCopy_of_not_mem (by omega)]
    rfl

theorem newEntry_empty (hname : name.length ≤ 21) : newEntry name 0 0
    = update (Buffer.zeroed.memCopy 0 (Buffer.ofList name) 0 name.length) 28 1 := by
  have hput : ∀ (buffer : Buffer) (offset count : Nat),
      (∀ i, offset ≤ i → i < offset + count → buffer i = 0) → buffer.put offset 0 count
      = buffer := by
    intro buffer offset count hzero
    funext i
    by_cases hi : offset ≤ i ∧ i < offset + count
    · rw [Buffer.put, if_pos hi, hzero i hi.1 hi.2, Nat.zero_shiftRight]
      rfl
    · exact put_of_not_mem hi
  have hclear : ∀ i, 22 ≤ i → Buffer.zeroed.memCopy 0 (Buffer.ofList name) 0 name.length i = 0 := by
    intro i hi
    rw [memCopy_of_not_mem (by omega)]
    rfl
  rw [newEntry, hput _ 22 2 fun i hi _ => hclear i hi,
    hput _ 24 4 fun i hi _ => hclear i (by omega)]

end NewEntry

section Removed
variable {image : Image} {clusters slot : Nat} {paths : Nat → List Nat}

theorem table_removed (h : Layout image clusters paths) (hslot : image.InUse slot) :
    ((image.clear (paths slot)).setEntry slot Buffer.zeroed).table = update image.table slot
      none := by
  have hlayout := layout_removed h hslot
  have htable := h.table_update hlayout (fun t ht => setEntry_entry_of_ne ht)
    fun t _ _ c _ => rfl
  rw [htable, table_of_not_inUse]
  rw [Image.InUse, setEntry_entry_self]
  decide

theorem table_emptied {freed : List Nat} (h : Layout image clusters paths)
    (hslot : image.InUse slot) (hfreed : freed ⊆ paths slot) :
    (emptied image slot freed).table = update image.table slot
      (some (storedName (image.entry slot), [])) := by
  have hlayout := layout_emptied h hslot hfreed
  have htable := h.table_update hlayout (fun t ht => setEntry_entry_of_ne ht)
    fun t _ _ c _ => rfl
  have hentry : (emptied image slot freed).entry slot = ((image.entry slot).put 22 0 6).upTo 32 :=
    setEntry_entry_self
  have hsize : (emptied image slot freed).size slot = 0 := by
    rw [Image.size, hentry, get_size_emptied]
  have hnames : (emptied image slot freed).Names (storedName (image.entry slot)) slot := by
    rw [Image.Names, Image.InUse, hentry, storedName_emptied]
    refine ⟨?_, rfl⟩
    rw [upTo_of_lt (by omega), put_of_not_mem (by omega)]
    exact hslot
  rw [htable, table_eq_some_iff.mpr ⟨hnames, rfl⟩, Image.contents, hsize]
  rfl

end Removed

end Volume

namespace Job

variable {job : Job} {path : List Nat} {w : WriteState} {paths : Nat → List Nat} {s t : Nat}

theorem Progress.disjoint (h : job.Progress path w) (hlayout : Layout job.before job.clusters paths)
    (ht : job.before.InUse t) (hold : job.old.Disjoint (paths t)) : path.Disjoint (paths t) := by
  intro c hc hct
  by_cases hmem : c ∈ job.old
  · exact hold hmem hct
  · exact hlayout.not_mem_of_free ht (h.fresh c hc hmem) hct

variable {c : Nat} {entry : Buffer}

variable (h : job.Progress path w) (hlayout : Layout job.before job.clusters paths)
include h

theorem Progress.fat_eq (hc : c ∉ path) (hused : job.before.fat c ≠ 0) :
    w.device.image.fat c = job.before.fat c := by
  rcases h.fat c hc with heq | hzero
  · exact heq
  · exact absurd hzero hused

section

include hlayout

theorem Progress.reserved :
    w.device.image.fat 0 = job.before.fat 0 ∧ w.device.image.fat 1 = job.before.fat 1 := by
  have hsmall : ∀ c, c < 2 → c ∉ path := by
    intro c hc hmem
    have := h.sound.two_le hmem
    omega
  constructor
  · apply h.fat_eq (hsmall 0 (by omega))
    rw [hlayout.reserved.1]
    decide
  · apply h.fat_eq (hsmall 1 (by omega))
    rw [hlayout.reserved.2]
    decide

theorem Progress.fat_of_mem (ht : job.before.InUse t) (hold : job.old.Disjoint (paths t))
    (hc : c ∈ paths t) : w.device.image.fat c = job.before.fat c :=
  h.fat_eq (fun hmem => h.disjoint hlayout ht hold hmem hc) ((hlayout.sound t ht).fat_ne_zero hc)

theorem Progress.cluster_of_mem (ht : job.before.InUse t) (hold : job.old.Disjoint (paths t))
    (hc : c ∈ paths t) :
    w.device.image.cluster c = job.before.cluster c :=
  h.cluster c fun hmem => h.disjoint hlayout ht hold hmem hc

theorem Progress.layout_setEntry
    (hold : ∀ t, t ≠ s → job.before.InUse t → job.old.Disjoint (paths t))
    (hfirst : entry.get 22 2 = w.first) (hlong : entry.get 24 4 ≤ 4096 * path.length) :
    Layout (w.device.image.setEntry s entry) job.clusters (update paths s path) := by
  refine hlayout.update s path ?_ ?_ (h.reserved hlayout) ?_ ?_ ?_
  · intro t ht
    rw [setEntry_entry_of_ne ht, h.entry]
  · intro t ht hinUse c hc
    exact h.fat_of_mem hlayout hinUse (hold t ht hinUse) hc
  · intro _
    rw [Image.first, setEntry_entry_self, hfirst]
    exact h.sound
  · intro _
    rw [Image.size, setEntry_entry_self]
    exact hlong
  · intro _ t ht hinUse
    exact h.disjoint hlayout hinUse (hold t ht hinUse)

theorem Progress.table_setEntry
    (hold : ∀ t, t ≠ s → job.before.InUse t → job.old.Disjoint (paths t))
    (hfirst : entry.get 22 2 = w.first) (hlong : entry.get 24 4 ≤ 4096 * path.length)
    (hmark : entry 28 = 1) : (w.device.image.setEntry s entry).table = update job.before.table s
      (some (storedName entry, (range (entry.get 24 4)).map (w.device.image.logical path))) := by
  have hlayout' := h.layout_setEntry hlayout hold hfirst hlong
  have htable := hlayout.table_update hlayout' (fun t ht => by
      rw [setEntry_entry_of_ne ht, h.entry]) fun t ht hinUse c hc =>
    h.cluster_of_mem hlayout hinUse (hold t ht hinUse) hc
  have hentry : (w.device.image.setEntry s entry).entry s = entry := setEntry_entry_self
  have hinUse : (w.device.image.setEntry s entry).InUse s := by
    rw [Image.InUse, hentry]
    exact hmark
  have hnames : (w.device.image.setEntry s entry).Names (storedName entry) s :=
    ⟨hinUse, by rw [hentry]⟩
  rw [htable, table_eq_some_iff.mpr ⟨hnames, rfl⟩, hlayout'.contents_eq hinUse, Image.size, hentry,
    update_self]
  rfl

end

theorem Progress.setEntry_self (s : Nat) :
    w.device.image.setEntry s (job.before.entry s) = w.device.image := by
  refine Image.ext rfl rfl ?_ rfl
  rw [← h.entry]
  exact update_eq_self s _

theorem Progress.first_lt : w.first < 65536 := by
  have hfatEntries : fatEntries = 16384 := rfl
  by_cases hnil : path = []
  · rw [h.sound.empty hnil]
    omega
  have hmem := h.sound.walk.iterate_mem (length_pos_iff.mpr hnil)
  have hlt := h.sound.lt_fatEntries hmem
  change w.first < fatEntries at hlt
  omega

include hlayout

theorem Progress.layout_unlinked (hold : job.old = []) :
    Layout w.device.image job.clusters paths := by
  have hdisjoint : ∀ t, job.old.Disjoint (paths t) := by
    intro t
    rw [hold]
    exact disjoint_nil_left _
  exact hlayout.frame h.entry (fun t ht c hc => h.fat_of_mem hlayout ht (hdisjoint t) hc)
    (h.reserved hlayout)

theorem Progress.table_unlinked (hold : job.old = []) :
    w.device.image.table = job.before.table := by
  have hdisjoint : ∀ t, job.old.Disjoint (paths t) := by
    intro t
    rw [hold]
    exact disjoint_nil_left _
  funext t
  refine hlayout.table_congr (h.layout_unlinked hlayout hold) (by rw [h.entry]) (fun _ => rfl) ?_
  intro ht c hc
  exact h.cluster_of_mem hlayout ht (hdisjoint t) hc

end Job

end Kaguya.FileSystem
