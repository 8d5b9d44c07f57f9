import Kaguya.FileSystem.Image
import Kaguya.Lib.Chain
import Mathlib.Data.Finset.Card
import Mathlib.Order.Interval.Finset.Nat

/-!
# The chains of a volume

`Sound` is one file's chain: it ends, in the mark that ends chains, and stays within the data area.
`Layout` assigns to every directory slot the clusters of its file: a slot in use has a sound chain
long enough for its size, and no cluster belongs to two slots. The invariant of a volume is that it
has one.
-/

namespace Kaguya.FileSystem

open Function List

namespace Image

def clear (image : Image) (path : List Nat) : Image :=
  { image with fat := fun c => if c ∈ path then 0 else image.fat c }

variable (image : Image)

def InUse (slot : Nat) : Prop := image.entry slot 28 = 1

instance (slot : Nat) : Decidable (image.InUse slot) :=
  inferInstanceAs (Decidable (image.entry slot 28 = 1))

def first (slot : Nat) : Nat := (image.entry slot).get 22 2

def size (slot : Nat) : Nat := (image.entry slot).get 24 4

def Owns (slot c : Nat) : Prop := OnChain image.fat dataCluster (image.first slot) c

end Image

/-- The clusters from `first` on are this list, and the last of them is marked as the last. -/
structure Sound (fat : Nat → Nat) (clusters first : Nat) (path : List Nat) : Prop where
  walk : Chain fat dataCluster first path
  empty : path = [] → first = 0
  within : ∀ c ∈ path, c ≤ lastCluster clusters
  ends : path ≠ [] → 0xfff0 ≤ fat^[path.length] first

structure Layout (image : Image) (clusters : Nat) (paths : Nat → List Nat) : Prop where
  sound : ∀ slot, image.InUse slot → Sound image.fat clusters (image.first slot) (paths slot)
  long : ∀ slot, image.InUse slot → image.size slot ≤ 4096 * (paths slot).length
  disjoint : ∀ s t, image.InUse s → image.InUse t → s ≠ t → (paths s).Disjoint (paths t)
  reserved : image.fat 0 = 0xfff8 ∧ image.fat 1 = 0xffff

/-- **The chain invariant** of a volume with this many data clusters. -/
def ChainInvariant (image : Image) (clusters : Nat) : Prop := ∃ paths, Layout image clusters paths

theorem lastCluster_lt (clusters : Nat) : lastCluster clusters < fatEntries := by
  have hfatEntries : fatEntries = 16384 := rfl
  rw [lastCluster_eq]
  omega

theorem dataCluster_of_le {clusters c : Nat} (hc : 2 ≤ c) (hlast : c ≤ lastCluster clusters) :
    dataCluster c := by
  have hlt := lastCluster_lt clusters
  have hfatEntries : fatEntries = 16384 := rfl
  exact ⟨hc, by omega⟩

def Image.free (image : Image) (clusters : Nat) : Finset Nat :=
  (Finset.Icc 2 (lastCluster clusters)).filter fun c => image.fat c = 0

section Free
variable {image image' : Image} {clusters c value : Nat}

theorem mem_free :
    c ∈ image.free clusters ↔ (2 ≤ c ∧ c ≤ lastCluster clusters) ∧ image.fat c = 0 := by
  rw [Image.free, Finset.mem_filter, Finset.mem_Icc]

theorem free_congr (h : image'.fat = image.fat) : image'.free clusters = image.free clusters := by
  rw [Image.free, Image.free, h]

theorem free_eq_empty (h : ∀ c, 2 ≤ c → c ≤ lastCluster clusters → image.fat c ≠ 0) :
    image.free clusters = ∅ := by
  rw [Finset.eq_empty_iff_forall_notMem]
  intro c hc
  obtain ⟨⟨htwo, hlast⟩, hfree⟩ := mem_free.mp hc
  exact h c htwo hlast hfree

theorem free_setFat (hvalue : value ≠ 0) :
    (image.setFat c value).free clusters = (image.free clusters).erase c := by
  ext x
  rw [Finset.mem_erase, mem_free, mem_free]
  by_cases hx : x = c
  · rw [hx, Image.setFat_fat_self]
    constructor
    · intro h
      exact absurd h.2 hvalue
    · intro h
      exact absurd rfl h.1
  · rw [Image.setFat_fat_of_ne hx]
    exact (and_iff_right hx).symm

theorem free_setFat_of_taken (htaken : image.fat c ≠ 0) (hvalue : value ≠ 0) :
    (image.setFat c value).free clusters = image.free clusters := by
  rw [free_setFat hvalue, Finset.erase_eq_of_notMem]
  intro hc
  exact htaken (mem_free.mp hc).2

end Free

namespace Sound

variable {fat fat' : Nat → Nat} {clusters first c : Nat} {path : List Nat}

theorem nil : Sound fat clusters 0 [] where
  walk := .stop (by rintro ⟨h, _⟩; omega)
  empty := fun _ => rfl
  within := by simp
  ends := fun h => absurd rfl h

section
variable (h : Sound fat clusters first path)
include h

theorem two_le (hc : c ∈ path) : 2 ≤ c := (h.walk.live_of_mem hc).1

theorem lt_fatEntries (hc : c ∈ path) :
    c < fatEntries := (h.within c hc).trans_lt (lastCluster_lt clusters)

theorem fat_ne_zero (hc : c ∈ path) : fat c ≠ 0 := by
  obtain ⟨k, hk, hget⟩ := getElem_of_mem hc
  have hnext : fat c = fat^[k + 1] first := by
    rw [← hget, h.walk.getElem_eq hk, iterate_succ_apply']
  by_cases hlast : k + 1 < path.length
  · have hlive := h.walk.live_iterate hlast
    rw [hnext]
    exact fun hzero => absurd (hzero ▸ hlive.1) (by omega)
  · have hend := h.ends (ne_nil_of_mem hc)
    rw [show path.length = k + 1 by omega, ← hnext] at hend
    omega

theorem not_mem_of_free (hc : fat c = 0) : c ∉ path := fun hmem => h.fat_ne_zero hmem hc

theorem length_le : path.length ≤ fatEntries := by
  have hsub : path.toFinset ⊆ Finset.range fatEntries := by
    intro c hc
    rw [mem_toFinset] at hc
    exact Finset.mem_range.mpr (h.lt_fatEntries hc)
  have hcard := Finset.card_le_card hsub
  rwa [toFinset_card_of_nodup h.walk.nodup, Finset.card_range] at hcard

theorem congr (hsame : ∀ c ∈ path, fat' c = fat c) :
    Sound fat' clusters first path where
  walk := h.walk.congr hsame
  empty := h.empty
  within := h.within
  ends := by
    intro hne
    have hlast := h.walk.getLast_eq hne
    have hlast' := (h.walk.congr hsame).getLast_eq hne
    have hlength : path.length = path.length - 1 + 1 := by
      have := length_pos_iff.mpr hne
      omega
    have hends := h.ends hne
    rw [hlength, iterate_succ_apply', ← hlast] at hends
    rwa [hlength, iterate_succ_apply', ← hlast', hsame _ (getLast_mem hne)]

end

theorem single (hc : 2 ≤ c) (hlast : c ≤ lastCluster clusters) (hfat : fat c = 0xffff) :
    Sound fat clusters c [c] where
  walk := by
    refine .link (dataCluster_of_le hc hlast) (.stop ?_)
    rw [hfat]
    rintro ⟨_, h⟩
    omega
  empty := by simp
  within := by simpa using hlast
  ends := by
    intro _
    simp [hfat]

theorem extend (h : Sound fat clusters first path) (hne : path ≠ []) (hc : 2 ≤ c)
    (hlast : c ≤ lastCluster clusters) (hfresh : c ∉ path)
    (hlink : fat' (fat^[path.length - 1] first) = c) (hend : fat' c = 0xffff)
    (hsame : ∀ d, d ≠ c → d ≠ fat^[path.length - 1] first → fat' d = fat d) :
    Sound fat' clusters first (path ++ [c]) := by
  have hgetLast := h.walk.getLast_eq hne
  have hwalk : Chain fat' dataCluster first (path ++ [c]) := by
    refine h.walk.extend hne (dataCluster_of_le hc hlast) (hgetLast ▸ hlink) ?_ ?_
    · rw [hend]
      rintro ⟨_, hlt⟩
      omega
    · intro d hd hdlast
      exact hsame d (fun heq => hfresh (heq ▸ hd)) (hgetLast ▸ hdlast)
  refine ⟨hwalk, by simp, ?_, ?_⟩
  · intro d hd
    rcases mem_append.mp hd with hold | hnew
    · exact h.within d hold
    · rw [mem_singleton.mp hnew]
      exact hlast
  intro _
  have hpos : path.length < (path ++ [c]).length := by simp
  have hget := hwalk.getElem_eq hpos
  rw [getElem_append_right le_rfl] at hget
  simp only [Nat.sub_self, getElem_singleton] at hget
  rw [length_append, length_singleton, iterate_succ_apply', ← hget, hend]
  omega

end Sound

namespace Layout

variable {image image' : Image} {clusters : Nat} {paths : Nat → List Nat}

variable {slot c : Nat} {entry : Buffer}

variable (h : Layout image clusters paths)
include h

theorem owns_iff (hslot : image.InUse slot) : image.Owns slot c ↔ c ∈ paths slot :=
  (h.sound slot hslot).walk.mem_iff_onChain.symm

theorem not_mem_of_free (hslot : image.InUse slot) (hc : image.fat c = 0) : c ∉ paths slot :=
  (h.sound slot hslot).not_mem_of_free hc

/-- **The frame rule of a layout.** Every slot but `s` keeps its entry and its clusters. -/
theorem update (s : Nat) (path : List Nat) (hentry : ∀ t, t ≠ s → image'.entry t = image.entry t)
    (hfat : ∀ t, t ≠ s → image.InUse t → ∀ c ∈ paths t, image'.fat c = image.fat c)
    (hreserved : image'.fat 0 = image.fat 0 ∧ image'.fat 1 = image.fat 1)
    (hsound : image'.InUse s → Sound image'.fat clusters (image'.first s) path)
    (hlong : image'.InUse s → image'.size s ≤ 4096 * path.length)
    (hdisjoint : image'.InUse s → ∀ t, t ≠ s → image.InUse t → path.Disjoint (paths t)) :
    Layout image' clusters (Function.update paths s path) := by
  have hinUse : ∀ t, t ≠ s → (image'.InUse t ↔ image.InUse t) := by
    intro t ht
    rw [Image.InUse, Image.InUse, hentry t ht]
  refine ⟨?_, ?_, ?_, ?_⟩
  · intro t ht
    by_cases hts : t = s
    · subst hts
      rw [update_self]
      exact hsound ht
    · have htOld := (hinUse t hts).mp ht
      rw [update_of_ne hts, Image.first, hentry t hts]
      exact (h.sound t htOld).congr (hfat t hts htOld)
  · intro t ht
    by_cases hts : t = s
    · subst hts
      rw [update_self]
      exact hlong ht
    · rw [update_of_ne hts, Image.size, hentry t hts]
      exact h.long t ((hinUse t hts).mp ht)
  · intro t u ht hu htu
    by_cases hts : t = s
    · subst hts
      have hut : u ≠ t := fun heq => htu heq.symm
      rw [update_self, update_of_ne hut]
      exact hdisjoint ht u hut ((hinUse u hut).mp hu)
    rw [update_of_ne hts]
    by_cases hus : u = s
    · subst hus
      rw [update_self]
      exact (hdisjoint hu t hts ((hinUse t hts).mp ht)).symm
    · rw [update_of_ne hus]
      exact h.disjoint t u ((hinUse t hts).mp ht) ((hinUse u hus).mp hu) htu
  · exact ⟨hreserved.1.trans h.reserved.1, hreserved.2.trans h.reserved.2⟩

theorem frame (hentry : image'.entry = image.entry)
    (hfat : ∀ t, image.InUse t → ∀ c ∈ paths t, image'.fat c = image.fat c)
    (hreserved : image'.fat 0 = image.fat 0 ∧ image'.fat 1 = image.fat 1) :
    Layout image' clusters paths := by
  refine ⟨?_, ?_, ?_, ?_⟩
  · intro t ht
    rw [Image.InUse, hentry] at ht
    rw [Image.first, hentry]
    exact (h.sound t ht).congr (hfat t ht)
  · intro t ht
    rw [Image.InUse, hentry] at ht
    rw [Image.size, hentry]
    exact h.long t ht
  · intro s t hs ht
    rw [Image.InUse, hentry] at hs ht
    exact h.disjoint s t hs ht
  · exact ⟨hreserved.1.trans h.reserved.1, hreserved.2.trans h.reserved.2⟩

theorem clear {freed : List Nat} (hfree : ∀ t, image.InUse t → (paths t).Disjoint freed)
    (htwo : ∀ c ∈ freed, 2 ≤ c) : Layout (image.clear freed) clusters paths := by
  have hkept : ∀ c, c ∉ freed → (image.clear freed).fat c = image.fat c := fun c hc => if_neg hc
  refine h.frame rfl ?_ ⟨?_, ?_⟩
  · intro t ht c hc
    exact hkept c fun hmem => hfree t ht hc hmem
  · exact hkept 0 fun hmem => absurd (htwo 0 hmem) (by omega)
  · exact hkept 1 fun hmem => absurd (htwo 1 hmem) (by omega)

theorem setEntry_unused (hentry : entry 28 ≠ 1) :
    Layout (image.setEntry slot entry) clusters (Function.update paths slot []) := by
  have hunused : ¬ (image.setEntry slot entry).InUse slot := by
    rw [Image.InUse, Image.setEntry_entry_self]
    exact hentry
  refine h.update slot [] ?_ (fun t _ _ c _ => rfl) ⟨rfl, rfl⟩ (fun hin => absurd hin hunused)
    (fun hin => absurd hin hunused) (fun hin => absurd hin hunused)
  intro t ht
  exact Image.setEntry_entry_of_ne ht

theorem setEntry {path : List Nat} (hsound : Sound image.fat clusters (entry.get 22 2) path)
    (hlong : entry.get 24 4 ≤ 4096 * path.length)
    (hdisjoint : ∀ t, t ≠ slot → image.InUse t → path.Disjoint (paths t)) :
    Layout (image.setEntry slot entry) clusters (Function.update paths slot path) := by
  refine h.update slot path ?_ (fun t _ _ c _ => rfl) ⟨rfl, rfl⟩ ?_ ?_ (fun _ => hdisjoint)
  · intro t ht
    exact Image.setEntry_entry_of_ne ht
  · intro _
    rw [Image.first, Image.setEntry_entry_self]
    exact hsound
  · intro _
    rw [Image.size, Image.setEntry_entry_self]
    exact hlong

end Layout

end Kaguya.FileSystem
