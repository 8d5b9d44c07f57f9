import Kaguya.FileSystem.Directory

/-!
# The steps that operations are made of

Checking the volume, looking a name up, finding a slot, writing an entry and removing a file, each
with what it does to the image of the disk, to the generations and to the device.
-/

namespace Kaguya.FileSystem

open Function Prog Device Buffer

namespace Volume

variable {v : Volume}

def image (v : Volume) : Image := v.device.image

def Fits (v : Volume) : Prop := 81 + 8 * v.clusters ≤ v.device.sectors

/-- Nothing but the device has changed, and of the device only what it was asked. -/
structure Quiet (v v' : Volume) : Prop where
  clusters : v'.clusters = v.clusters
  generations : v'.generations = v.generations
  bytes : v'.device.bytes = v.device.bytes
  later : Later v.device v'.device

def Failed (v : Volume) (n : Nat) (code : Int) (v' : Volume) : Prop :=
  v.Quiet v' ∧ v.device.Failed n code v'.device

theorem Quiet.refl (v : Volume) : v.Quiet v := ⟨rfl, rfl, rfl, Later.refl _⟩

variable {v' : Volume} {slot : Nat} {path : List Nat}

theorem Quiet.trans {v'' : Volume} (h : v.Quiet v') (h' : v'.Quiet v'') : v.Quiet v'' :=
  ⟨h'.clusters.trans h.clusters, h'.generations.trans h.generations, h'.bytes.trans h.bytes,
  h.later.trans h'.later⟩

theorem Quiet.image (h : v.Quiet v') : v'.image = v.image := Device.image_eq_of_bytes h.bytes

theorem Quiet.fits (h : v.Quiet v') (hv : v.Fits) : v'.Fits := by
  rw [Fits, h.clusters, h.later.sectors]
  exact hv

variable {d : Device} {name : List UInt8} {first clusters : Nat} {paths : Nat → List Nat}

theorem quiet_of_device (hbytes : d.bytes = v.device.bytes) (hlater : Later v.device d) :
    v.Quiet { v with device := d } := ⟨rfl, rfl, hbytes, hlater⟩

theorem Failed.of_device {n : Nat} {code : Int} (h : v.device.Failed n code d) :
    v.Failed n code { v with device := d } := by
  obtain ⟨hcode, hbytes, k, hk, hbroke⟩ := h
  exact ⟨quiet_of_device hbytes hbroke.later, hcode, hbytes, k, hk, hbroke⟩

theorem wp_onDevice {α : Type} {m : Prog Device α} {Q : α → Volume → Prop}
    {E : Int → Volume → Prop} :
    wp (onDevice m) Q E v ↔ wp m (fun a d => Q a { v with device := d })
        (fun code d => E code { v with device := d })
        v.device := wp_zoom

theorem Fits.metadata (h : v.Fits) : 81 ≤ v.device.sectors := by
  unfold Fits at h
  omega

theorem check_wp (hs : 81 ≤ v.device.sectors) : wp check
      (fun _ v' => v.image.boot = magic ∧ v.Quiet v' ∧ Served v.device v'.device 1)
      (fun code v' => (code = -4 ∧ v.image.boot ≠ magic ∧ v.Quiet v') ∨ v.Failed 1 code v') v := by
  rw [check, wp_bind, wp_onDevice]
  refine wp_mono (readSector_wp (by omega)) ?_ fun code d hfailed => .inr (Failed.of_device hfailed)
  rintro sector d ⟨hsector, hbytes, hserved⟩
  have hboot : sector.get 0 8 = v.image.boot := by
    refine get_congr fun i hi => ?_
    rw [hsector _ (by omega)]
    simp
  rw [hboot, wp_ite]
  constructor
  · intro hmagic
    exact .inl ⟨rfl, hmagic, quiet_of_device hbytes hserved.later⟩
  · intro hmagic
    exact ⟨not_not.mp hmagic, quiet_of_device hbytes hserved.later, hserved⟩

def validName (name : List UInt8) : Prop := ¬ (name.length = 0 ∨ name.length > 21)

theorem find_fails (hname : name.length = 0 ∨ name.length > 21) :
    find name v = (.error (-2), v) := by
  unfold find onDevice zoom jihooDirFind
  rw [if_pos hname]
  rfl

def Image.found (image : Image) (slot : Nat) : Nat × Buffer := (slot, image.entry slot)

theorem find_wp (hs : 81 ≤ v.device.sectors) (hname : ¬ (name.length = 0 ∨ name.length > 21)) :
    wp (find name)
      (fun found v' => found = (v.image.lookup name).map (Image.found v.image) ∧ v.Quiet v'
        ∧ Served v.device v'.device (scanCost (v.image.lookup name) 0 256))
      (v.Failed (scanCost (v.image.lookup name) 0 256)) v := by
  rw [find, wp_bind, wp_onDevice]
  refine wp_mono (jihooDirFind_wp hs hname) ?_ fun code d hfailed => Failed.of_device hfailed
  rintro ⟨code, entry⟩ d ⟨hfound, hbytes, hserved⟩
  have hquiet := quiet_of_device hbytes hserved.later
  have himage : v.device.image = v.image := rfl
  rw [himage] at hfound hserved
  cases hlookup : v.image.lookup name with
  | none =>
    rw [hlookup] at hfound
    obtain ⟨rfl, rfl⟩ := Prod.mk.inj hfound
    rw [hlookup] at hserved
    exact ⟨rfl, hquiet, hserved⟩
  | some =>
    rw [hlookup] at hfound
    obtain ⟨rfl, rfl⟩ := Prod.mk.inj hfound
    have hlt := (lookup_eq_some_iff.mp hlookup).1
    rw [hlookup] at hserved
    dsimp only
    rw [if_neg (by omega)]
    exact ⟨rfl, hquiet, hserved⟩

theorem freeSlot_wp (hs : 81 ≤ v.device.sectors) :
    wp freeSlot (fun slot v' => v.image.vacant = some slot ∧ v.Quiet v')
      (fun code v' => v.Quiet v'
        ∧ ((code = -5 ∧ v.image.vacant = none) ∨ (code = -3 ∧ v.device.Faulted v'.device))) v := by
  rw [freeSlot, wp_bind, wp_onDevice]
  refine wp_mono (freeSlotLoop_wp hs le_rfl) ?_ ?_
  · rintro slot d ⟨hslot, hbytes, hlater⟩
    change slot = v.image.vacant.getD 256 at hslot
    cases hvacant : v.image.vacant with
    | none =>
      rw [hvacant] at hslot
      rw [hslot]
      exact ⟨quiet_of_device hbytes hlater, .inl ⟨rfl, rfl⟩⟩
    | some slot' =>
      rw [hvacant] at hslot
      have hlt := (vacant_eq_some_iff.mp hvacant).1
      have heq : slot = slot' := hslot
      rw [heq, if_neg (by omega)]
      exact ⟨rfl, quiet_of_device hbytes hlater⟩
  · rintro code d ⟨hcode, hbytes, hfaulted⟩
    exact ⟨quiet_of_device hbytes hfaulted.1, .inr ⟨hcode, hfaulted⟩⟩

def retired (v : Volume) (slot : Nat) (mark : UInt8) : Nat → UInt32 :=
  if mark = 0 then (v.retire slot).generations else v.generations

theorem writeEntry_wp {entry : Buffer} (hs : 81 ≤ v.device.sectors) (hslot : slot < 256) :
    wp (writeEntry slot entry) (fun _ v' => v'.image = v.image.setEntry slot (entry.upTo 32)
        ∧ v'.generations = v.retired slot (entry 28) ∧ v'.clusters = v.clusters
          ∧ Served v.device v'.device 2)
      (fun code v' => v'.generations = v.retired slot (entry 28) ∧ v'.clusters = v.clusters
        ∧ v.device.Failed 2 code v'.device) v := by
  rw [writeEntry, if_neg (by omega)]
  have hretire : wp (when (entry 28 = 0) (modify (Volume.retire slot)))
      (fun _ w => w.device = v.device ∧ w.clusters = v.clusters
        ∧ w.generations = v.retired slot (entry 28)) (fun _ _ => False) v := by
    rw [wp_when]
    exact ⟨fun hmark => ⟨rfl, rfl, (if_pos hmark).symm⟩,
      fun hmark => ⟨rfl, rfl, (if_neg hmark).symm⟩⟩
  refine wp_seq hretire ?_ fun _ _ hfalse => hfalse.elim
  rintro _ w ⟨hdevice, hclusters, hgenerations⟩
  rw [wp_onDevice, hdevice]
  refine wp_mono (jihooDirWrite_wp hslot hs) ?_ fun code d hfailed => ?_
  · rintro _ d ⟨hbytes, hserved⟩
    refine ⟨?_, hgenerations, hclusters, hserved⟩
    rw [image, Device.image, hbytes, image_memCopy_entry hslot]
    rfl
  · exact ⟨hgenerations, hclusters, hfailed⟩

/-- The call frees the clusters of the chain one by one, with three requests for each. -/
abbrev Frees (v : Volume) (path : List Nat) (m : Prog Volume Unit) : Prop :=
  wp m
      (fun _ v' => v'.image = v.image.clear path ∧ v'.clusters = v.clusters
        ∧ v'.generations = v.generations ∧ Served v.device v'.device (3 * path.length))
      (fun code v' => v'.clusters = v.clusters ∧ v'.generations = v.generations ∧ code = -3
        ∧ ∃ k < 3 * path.length, Broke v.device v'.device k
        ∧ v'.image = v.image.clear (path.take (k / 3))) v

theorem freeChain_wp (hs : 81 ≤ v.device.sectors)
    (hsound : Sound v.image.fat v.clusters first path) : v.Frees path (freeChain first) := by
  rw [freeChain, Frees, wp_onDevice]
  refine wp_mono (jihooFatFree_wp hs hsound) ?_ ?_
  · rintro _ d ⟨himage, hserved⟩
    exact ⟨himage, rfl, rfl, hserved⟩
  · rintro code d ⟨hcode, hbroke⟩
    exact ⟨rfl, rfl, hcode, hbroke⟩

theorem when_freeChain_wp {p : Prop} [Decidable p] (hs : 81 ≤ v.device.sectors)
    (hsound : Sound v.image.fat v.clusters first path) (hp : dataCluster first → p) :
    v.Frees path (when p (freeChain first)) := by
  rw [Frees, wp_when]
  constructor
  · intro _
    exact freeChain_wp hs hsound
  intro hno
  have hdead : ¬ dataCluster first := fun hlive => hno (hp hlive)
  obtain rfl : path = [] := hsound.walk.unique (.stop hdead)
  exact ⟨by simp, rfl, rfl, Served.refl _⟩

/-- **Removing a file** takes three requests for each of its clusters and two for its entry. -/
theorem remove_wp (hs : 81 ≤ v.device.sectors) (hslot : slot < 256)
    (hsound : Sound v.image.fat v.clusters (v.image.first slot) path) :
    wp (remove slot (v.image.entry slot))
      (fun _ v' => v'.image = (v.image.clear path).setEntry slot Buffer.zeroed
        ∧ v'.generations = (v.retire slot).generations ∧ v'.clusters = v.clusters
        ∧ Served v.device v'.device (3 * path.length + 2))
      (fun code v' => v'.clusters = v.clusters ∧ code = -3 ∧ ∃ k < 3 * path.length + 2,
        Broke v.device v'.device k
        ∧ v'.image = v.image.clear (path.take (k / 3))) v := by
  rw [remove]
  refine wp_seq (when_freeChain_wp hs hsound fun hlive => hlive.1) ?_ ?_
  · rintro _ v1 ⟨himage1, hclusters1, hgenerations1, hserved1⟩
    have hs1 := hserved1.le_sectors hs
    have hretire : v1.retired slot (Buffer.zeroed 28) = (v.retire slot).generations := by
      rw [retired, if_pos (show Buffer.zeroed 28 = 0 from rfl), retire, retire, hgenerations1]
    refine wp_mono (writeEntry_wp hs1 hslot) ?_ ?_
    · rintro _ v2 ⟨himage2, hgenerations2, hclusters2, hserved2⟩
      refine ⟨?_, hgenerations2.trans hretire, hclusters2.trans hclusters1, hserved1.trans hserved2⟩
      rw [himage2, himage1, upTo_zeroed]
    rintro code v2 ⟨hgenerations2, hclusters2, hcode, hbytes2, k, hk, hbroke⟩
    refine ⟨hclusters2.trans hclusters1, hcode,
      3 * path.length + k, by omega, hserved1.broke hbroke, ?_⟩
    rw [show (3 * path.length + k) / 3 = path.length by omega, List.take_length, ← himage1]
    exact Device.image_eq_of_bytes hbytes2
  · rintro code v1 ⟨hclusters1, _, hcode, k, hk, hbroke, himage1⟩
    exact ⟨hclusters1, hcode, k, by omega, hbroke, himage1⟩

theorem layout_removed {image : Image} (h : Layout image clusters paths)
    (hslot : image.InUse slot) :
    Layout ((image.clear (paths slot)).setEntry slot Buffer.zeroed) clusters
      (update paths slot []) := by
  have hunused : ¬ (image.setEntry slot Buffer.zeroed).InUse slot := by
    rw [Image.InUse, Image.setEntry_entry_self]
    decide
  have hentryLayout : Layout (image.setEntry slot Buffer.zeroed) clusters
      (update paths slot []) := h.setEntry_unused (by decide)
  refine hentryLayout.clear ?_ fun c hc => (h.sound slot hslot).two_le hc
  intro t ht
  have hts : t ≠ slot := fun heq => hunused (heq ▸ ht)
  rw [update_of_ne hts]
  have htOld : image.InUse t := by
    rw [Image.InUse, Image.setEntry_entry_of_ne hts] at ht
    exact ht
  exact h.disjoint t slot htOld hslot hts

theorem get_first_emptied (entry : Buffer) : ((entry.put 22 0 6).upTo 32).get 22 2 = 0 := by
  rw [get_upTo (by omega), get_put_of_le (by omega)]
  rfl

theorem get_size_emptied (entry : Buffer) : ((entry.put 22 0 6).upTo 32).get 24 4 = 0 := by
  rw [get_upTo (by omega)]
  have hzero : (entry.put 22 0 6).get 24 4 = Buffer.zeroed.get 24 4 := by
    refine get_congr fun i hi => ?_
    rw [Buffer.put, if_pos (by omega), Nat.zero_shiftRight]
    rfl
  rw [hzero, get_zeroed]

/-- The image after an entry has been emptied and `freed` of its clusters have been freed. -/
def emptied (image : Image) (slot : Nat) (freed : List Nat) : Image :=
  (image.setEntry slot (((image.entry slot).put 22 0 6).upTo 32)).clear freed

theorem layout_emptied {image : Image} {freed : List Nat} (h : Layout image clusters paths)
    (hslot : image.InUse slot) (hfreed : freed ⊆ paths slot) :
    Layout (emptied image slot freed) clusters (update paths slot []) := by
  have hentry : Layout (image.setEntry slot (((image.entry slot).put 22 0 6).upTo 32)) clusters
      (update paths slot []) := by
    refine h.setEntry ?_ ?_ ?_
    · rw [get_first_emptied]
      exact Sound.nil
    · rw [get_size_emptied]
      exact Nat.zero_le _
    · intro t _ _
      exact List.disjoint_nil_left _
  refine hentry.clear ?_ fun c hc => (h.sound slot hslot).two_le (hfreed hc)
  intro t ht
  by_cases hts : t = slot
  · rw [hts, update_self]
    exact List.disjoint_nil_left _
  · rw [update_of_ne hts]
    rw [Image.InUse, Image.setEntry_entry_of_ne hts] at ht
    exact List.disjoint_of_subset_right hfreed (h.disjoint t slot ht hslot hts)

/-- **Emptying a file** clears its entry first, so that whatever happens the clusters that have been
freed belong to nobody. -/
theorem truncate_wp (hs : 81 ≤ v.device.sectors) (hslot : slot < 256) (hinUse : v.image.InUse slot)
    (hsound : Sound v.image.fat v.clusters (v.image.first slot) path) :
    wp (truncate slot (v.image.entry slot))
      (fun _ v' => v'.clusters = v.clusters ∧ v'.generations = v.generations
        ∧ Later v.device v'.device
        ∧ (v'.image = emptied v.image slot path ∨ (v'.image = v.image ∧ v.image.first slot = 0
          ∧ v.image.size slot = 0)))
      (fun code v' => v'.clusters = v.clusters ∧ v'.generations = v.generations ∧ code = -3
        ∧ v.device.Faulted v'.device
        ∧ (v'.image = v.image ∨ ∃ k, v'.image = emptied v.image slot (path.take k))) v := by
  rw [truncate, wp_when]
  constructor
  · intro _
    have hmark : (v.image.entry slot).put 22 0 6 28 = 1 := by
      rw [put_of_not_mem (by omega)]
      exact hinUse
    have hkeep : v.retired slot ((v.image.entry slot).put 22 0 6 28) = v.generations := by
      rw [retired, hmark, if_neg (by decide)]
    refine wp_seq (writeEntry_wp hs hslot) ?_ ?_
    · rintro _ v1 ⟨himage1, hgenerations1, hclusters1, hserved1⟩
      have hs1 := hserved1.le_sectors hs
      have hsound1 : Sound v1.image.fat v1.clusters (v.image.first slot) path := by
        rw [himage1, hclusters1]
        exact hsound
      refine wp_mono (when_freeChain_wp hs1 hsound1 fun hlive => hlive) ?_ ?_
      · rintro _ v2 ⟨himage2, hclusters2, hgenerations2, hserved2⟩
        refine ⟨hclusters2.trans hclusters1, (hgenerations2.trans hgenerations1).trans hkeep,
          hserved1.later.trans hserved2.later, .inl ?_⟩
        rw [himage2, himage1, emptied]
      · rintro code v2 ⟨hclusters2, hgenerations2, hcode, k, _, hbroke, himage2⟩
        refine ⟨hclusters2.trans hclusters1, (hgenerations2.trans hgenerations1).trans hkeep, hcode,
          hserved1.later.faulted ⟨hbroke.later, hbroke.not_nonFailing⟩, .inr ⟨k / 3, ?_⟩⟩
        rw [himage2, himage1, emptied]
    · rintro code v1 ⟨hgenerations1, hclusters1, hfailed⟩
      exact ⟨hclusters1, hgenerations1.trans hkeep, hfailed.1, hfailed.faulted,
        .inl (Device.image_eq_of_bytes hfailed.2.1)⟩
  · intro hempty
    have hfirst : v.image.first slot = 0 := by
      by_contra hne
      exact hempty (.inl hne)
    have hsize : v.image.size slot = 0 := by
      by_contra hne
      exact hempty (.inr hne)
    exact ⟨rfl, rfl, Later.refl _, .inr ⟨rfl, hfirst, hsize⟩⟩

def Good (v : Volume) (id : FileId) : Prop :=
  id.slot < 256 ∧ v.generations id.slot = id.generation ∧ v.image.InUse id.slot

theorem opened_wp {id : FileId} (hs : 81 ≤ v.device.sectors) : wp (opened id)
      (fun entry v' => v.Good id ∧ entry = v.image.entry id.slot ∧ v.Quiet v')
      (fun code v' => (code = -6 ∧ ¬ v.Good id ∧ v.Quiet v') ∨ v.Failed 1 code v') v := by
  rw [opened, wp_bind, wp_state, wp_ite]
  constructor
  · intro hstale
    refine .inl ⟨rfl, ?_, Quiet.refl v⟩
    rintro ⟨hlt, hgeneration, _⟩
    rcases hstale with hge | hne
    · omega
    · exact hne hgeneration
  intro hfresh
  have hlt : id.slot < 256 := by
    by_contra hge
    exact hfresh (.inl (by omega))
  have hgeneration : v.generations id.slot = id.generation := by
    by_contra hne
    exact hfresh (.inr hne)
  rw [wp_bind, readEntry, wp_onDevice]
  refine wp_mono (jihooDirRead_wp hlt hs) ?_ fun code d hfailed => .inr (Failed.of_device hfailed)
  rintro entry d ⟨rfl, hbytes, hserved⟩
  have hquiet := quiet_of_device hbytes hserved.later
  rw [wp_ite]
  constructor
  · intro hmark
    refine .inl ⟨rfl, ?_, hquiet⟩
    rintro ⟨_, _, hinUse⟩
    exact hmark hinUse
  · intro hmark
    exact ⟨⟨hlt, hgeneration, not_not.mp hmark⟩, rfl, hquiet⟩

end Volume

end Kaguya.FileSystem
