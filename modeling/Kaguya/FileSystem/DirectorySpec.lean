import Kaguya.FileSystem.Frames
import Kaguya.FileSystem.Entries

/-!
# What a call does to the directory, on any disk

Three things can happen to the directory. A slot is cleared and its generation moves on; a vacant
slot is filled; or the slots stay in use under the names they have. Each operation but `format` is
one of these or a clearing followed by a filling, whatever the table and the clusters hold and
wherever the device fails.
-/

namespace Kaguya.FileSystem

open Function Prog Device

namespace Volume

variable {v v' v'' : Volume}

/-- Every slot has the mark and the name it had, and its generation unless the device has failed. -/
structure NamesKept (v v' : Volume) : Prop where
  boot : v'.image.boot = v.image.boot
  clusters : v'.clusters = v.clusters
  later : Later v.device v'.device
  mark : ∀ t, v'.image.entry t 28 = v.image.entry t 28
  name : ∀ t, storedName (v'.image.entry t) = storedName (v.image.entry t)
  generations : v.device.NonFailing → v'.generations = v.generations

structure Edited (v v' : Volume) (slot : Nat) (entry : Buffer) : Prop where
  boot : v'.image.boot = v.image.boot
  clusters : v'.clusters = v.clusters
  later : Later v.device v'.device
  entry : v'.image.entry = update v.image.entry slot entry

def Cleared (v v' : Volume) (slot : Nat) : Prop :=
  v.Edited v' slot Buffer.zeroed ∧ v'.generations = (v.retire slot).generations

def Filled (v v' : Volume) (slot : Nat) (entry : Buffer) : Prop :=
  v.image.vacant = some slot ∧ v.Edited v' slot entry ∧ v'.generations = v.generations

theorem NamesKept.refl (v : Volume) :
    v.NamesKept v := ⟨rfl, rfl, Later.refl _, fun _ => rfl, fun _ => rfl, fun _ => rfl⟩

theorem NamesKept.trans (h : v.NamesKept v') (h' : v'.NamesKept v'') : v.NamesKept v'' where
  boot := h'.boot.trans h.boot
  clusters := h'.clusters.trans h.clusters
  later := h.later.trans h'.later
  mark t := (h'.mark t).trans (h.mark t)
  name t := (h'.name t).trans (h.name t)
  generations hdevice := (h'.generations (h.later.nonFailing hdevice)).trans (h.generations hdevice)

theorem NamesKept.inUse_iff (h : v.NamesKept v') (t : Nat) :
    v'.image.InUse t ↔ v.image.InUse t := by
  rw [Image.InUse, Image.InUse, h.mark]

theorem DirectoryKept.namesKept (h : v.DirectoryKept v') : v.NamesKept v' :=
  ⟨h.device.boot, h.clusters, h.device.later, fun t => congrFun (congrFun h.device.entry t) 28,
    fun t => congrArg storedName (congrFun h.device.entry t), fun _ => h.generations⟩

theorem Quiet.directoryKept (h : v.Quiet v') : v.DirectoryKept v' :=
  ⟨h.clusters, h.generations, Untouched.directoryKept ⟨h.bytes, h.later⟩⟩

theorem Quiet.namesKept (h : v.Quiet v') : v.NamesKept v' := h.directoryKept.namesKept

theorem DirectoryKept.metadata (h : v.DirectoryKept v') (hs : 81 ≤ v.device.sectors) :
    81 ≤ v'.device.sectors := by
  rw [h.device.later.sectors]
  exact hs

variable {slot : Nat} {entry : Buffer} {name input : List UInt8} (hs : 81 ≤ v.device.sectors)

theorem Edited.after (h : v.DirectoryKept v') (h' : v'.Edited v'' slot entry) :
    v.Edited v'' slot entry where
  boot := h'.boot.trans h.device.boot
  clusters := h'.clusters.trans h.clusters
  later := h.device.later.trans h'.later
  entry := by
    have hentry : v'.image.entry = v.image.entry := h.device.entry
    rw [h'.entry, hentry]

theorem Edited.namesKept (h : v.Edited v' slot entry) (hmark : entry 28 = v.image.entry slot 28)
    (hname : storedName entry = storedName (v.image.entry slot))
    (hgenerations : v'.generations = v.generations) : v.NamesKept v' where
  boot := h.boot
  clusters := h.clusters
  later := h.later
  mark t := by
    rw [h.entry]
    by_cases ht : t = slot
    · rw [ht, update_self, hmark]
    · rw [update_of_ne ht]
  name t := by
    rw [h.entry]
    by_cases ht : t = slot
    · rw [ht, update_self, hname]
    · rw [update_of_ne ht]
  generations _ := hgenerations

section

include hs

theorem find_any :
    wp (find name) (fun found v' => validName name ∧ found = (v.image.lookup name).map
        (Image.found v.image)
        ∧ v.Quiet v') (fun _ v' => v.Quiet v') v := by
  by_cases hname : validName name
  · refine wp_mono (find_wp hs hname) ?_ fun _ _ hfailed => hfailed.1
    rintro found v' ⟨hfound, hquiet, _⟩
    exact ⟨hname, hfound, hquiet⟩
  · unfold wp
    rw [find_fails (not_not.mp hname)]
    exact Quiet.refl v

theorem writeEntry_edits (hslot : slot < 256) :
    wp (writeEntry slot entry)
      (fun _ v' => v.Edited v' slot (entry.upTo 32) ∧ v'.generations = v.retired slot (entry 28))
      (fun _ v' => v.NamesKept { v' with generations := v.generations }
        ∧ v'.generations = v.retired slot (entry 28) ∧ ¬ v.device.NonFailing) v := by
  refine wp_mono (writeEntry_wp hs hslot) ?_ ?_
  · rintro _ v' ⟨himage, hgenerations, hclusters, hserved⟩
    exact ⟨⟨by rw [himage]; rfl, hclusters, hserved.later, by rw [himage]; rfl⟩, hgenerations⟩
  rintro code v' ⟨hgenerations, hclusters, hfailed⟩
  have hquiet : v.Quiet { v' with generations := v.generations } :=
    ⟨hclusters, rfl, hfailed.2.1, hfailed.faulted.1⟩
  exact ⟨hquiet.namesKept, hgenerations, hfailed.faulted.2⟩

theorem writeEntry_keeps_names (hslot : slot < 256) (hinUse : v.image.InUse slot)
    (hmark : entry 28 = 1) (hname : storedName (entry.upTo 32) = storedName (v.image.entry slot)) :
    wp (writeEntry slot entry) (fun _ v' => v.NamesKept v') (fun _ v' => v.NamesKept v') v := by
  have hretired : v.retired slot (entry 28) = v.generations := by
    rw [retired, hmark, if_neg (by decide)]
  refine wp_mono (writeEntry_edits hs hslot) ?_ ?_
  · rintro _ v' ⟨hedited, hgenerations⟩
    refine hedited.namesKept ?_ hname (hgenerations.trans hretired)
    rw [Buffer.upTo_of_lt (by decide), hmark]
    exact hinUse.symm
  · rintro _ v' ⟨hkept, hgenerations, _⟩
    rw [← hretired, ← hgenerations] at hkept
    exact hkept

end

theorem freeChain_keeps (first : Nat) :
    Keeps DirectoryKept (freeChain first) := keeps_onDevice_directory (freeLoop_keeps _ _)

instance : Std.Refl DirectoryKept := ⟨fun v => (Quiet.refl v).directoryKept⟩

theorem remove_clears (hs : 81 ≤ v.device.sectors) (hslot : slot < 256) :
    wp (remove slot entry) (fun _ v' => v.Cleared v' slot) (fun _ v' => v.NamesKept v') v := by
  rw [remove]
  refine wp_seq (Keeps.when (freeChain_keeps _)).wp ?_ fun _ _ hkept => hkept.namesKept
  intro _ v1 hkept1
  have hretired : v1.retired slot (Buffer.zeroed 28) = (v.retire slot).generations := by
    rw [retired, if_pos (show Buffer.zeroed 28 = 0 from rfl), retire, retire, hkept1.generations]
  refine wp_mono (writeEntry_edits (hkept1.metadata hs) hslot) ?_ ?_
  · rintro _ v2 ⟨hedited, hgenerations⟩
    rw [Buffer.upTo_zeroed] at hedited
    exact ⟨hedited.after hkept1, hgenerations.trans hretired⟩
  rintro _ v2 ⟨hkept2, _, hfailing⟩
  have hkept := hkept1.namesKept.trans hkept2
  refine ⟨hkept.boot, hkept.clusters, hkept.later, hkept.mark, hkept.name, fun hdevice => ?_⟩
  exact absurd (hkept1.device.later.nonFailing hdevice) hfailing

/-- What is left of the directory when the file of this name, if there was one, is gone. -/
def Removal (v : Volume) (name : List UInt8) (v' : Volume) : Prop :=
  match v.image.lookup name with
  | some slot => v.Cleared v' slot
  | none => v.Quiet v'

theorem Cleared.after (h : v.Quiet v') (h' : v'.Cleared v'' slot) : v.Cleared v'' slot := by
  refine ⟨h'.1.after h.directoryKept, ?_⟩
  rw [h'.2, retire, retire, h.generations]

theorem lookup_lt (h : v.image.lookup name = some slot) : slot < 256 := (lookup_eq_some_iff.mp h).1

section

include hs

theorem removeOld_removes :
    wp (removeOld name) (fun _ v' => v.image.boot = magic ∧ v.Removal name v')
      (fun _ v' => v.NamesKept v' ∧ (v.image.boot ≠ magic → v.Quiet v')) v := by
  rw [removeOld]
  refine wp_seq (check_wp hs) ?_ ?_
  · rintro _ v1 ⟨hboot, hquiet1, _⟩
    have hs1 := hquiet1.directoryKept.metadata hs
    refine wp_seq (find_any hs1) ?_ ?_
    · rintro found v2 ⟨_, rfl, hquiet2⟩
      have hquiet := hquiet1.trans hquiet2
      rw [hquiet1.image]
      unfold Removal
      cases hlookup : v.image.lookup name with
      | none => exact ⟨hboot, hquiet⟩
      | some =>
        refine wp_mono (remove_clears (hquiet.directoryKept.metadata hs) (lookup_lt hlookup)) ?_ ?_
        · intro _ v3 hcleared
          exact ⟨hboot, hcleared.after hquiet⟩
        · intro _ v3 hkept
          exact ⟨hquiet.namesKept.trans hkept, fun hne => absurd hboot hne⟩
    · intro _ v2 hquiet2
      exact ⟨(hquiet1.trans hquiet2).namesKept, fun hne => absurd hboot hne⟩
  · rintro _ v1 (⟨_, _, hquiet⟩ | ⟨hquiet, _⟩)
    · exact ⟨hquiet.namesKept, fun _ => hquiet⟩
    · exact ⟨hquiet.namesKept, fun _ => hquiet⟩

theorem delete_clears :
    wp (delete name) (fun _ v' => ∃ slot, v.image.lookup name = some slot ∧ v.Cleared v' slot)
      (fun _ v' => v.NamesKept v') v := by
  rw [delete]
  refine wp_seq (find_any hs) ?_ fun _ _ hquiet => hquiet.namesKept
  rintro found v1 ⟨_, rfl, hquiet⟩
  cases hlookup : v.image.lookup name with
  | none => exact hquiet.namesKept
  | some slot =>
    refine wp_mono (remove_clears (hquiet.directoryKept.metadata hs) (lookup_lt hlookup)) ?_ ?_
    · intro _ v2 hcleared
      exact ⟨slot, rfl, hcleared.after hquiet⟩
    · intro _ v2 hkept
      exact hquiet.namesKept.trans hkept

theorem writeEntry_fills (hvacant : v.image.vacant = some slot) (hmark : entry 28 = 1) :
    wp (writeEntry slot entry) (fun _ v' => v.Filled v' slot (entry.upTo 32))
      (fun _ v' => v.NamesKept v') v := by
  have hretired : v.retired slot (entry 28) = v.generations := by
    rw [retired, hmark, if_neg (by decide)]
  refine wp_mono (writeEntry_edits hs (vacant_eq_some_iff.mp hvacant).1) ?_ ?_
  · rintro _ v' ⟨hedited, hgenerations⟩
    exact ⟨hvacant, hedited, hgenerations.trans hretired⟩
  · rintro _ v' ⟨hkept, hgenerations, _⟩
    rw [← hretired, ← hgenerations] at hkept
    exact hkept

end

theorem Filled.after (h : v.DirectoryKept v') (h' : v'.Filled v'' slot entry) :
    v.Filled v'' slot entry := by
  obtain ⟨hvacant, hedited, hgenerations⟩ := h'
  refine ⟨?_, hedited.after h, hgenerations.trans h.generations⟩
  have hentry : v'.image.entry = v.image.entry := h.device.entry
  rw [Image.vacant, Image.vacantFrom, hentry] at hvacant
  exact hvacant

theorem store_fills (hs : 81 ≤ v.device.sectors) :
    wp (do
        let slot ← freeSlot
        let v ← state
        let first ← onDevice (createLoop v.clusters input (input.length / 4096 + 2) 0 0 0)
        writeEntry slot (newEntry name first input.length))
      (fun _ v' => ∃ slot first, v.Filled v' slot ((newEntry name first input.length).upTo 32))
      (fun _ v' => v.NamesKept v') v := by
  refine wp_seq (freeSlot_wp hs) ?_ fun _ _ hfailed => hfailed.1.namesKept
  rintro slot v1 ⟨hvacant, hquiet⟩
  have hkept1 := hquiet.directoryKept
  rw [wp_bind, wp_state]
  refine wp_seq (keeps_onDevice_directory (createLoop_keeps _ _ _ _ _ _)).wp ?_ ?_
  · intro first v2 hkept2
    have hkept : v.DirectoryKept v2 :=
        ⟨hkept2.clusters.trans hkept1.clusters, hkept2.generations.trans hkept1.generations,
        IsTrans.trans _ _ _ hkept1.device hkept2.device⟩
    have hentry : v2.image.entry = v.image.entry := hkept.device.entry
    have hvacant2 : v2.image.vacant = some slot := by
      rw [Image.vacant, Image.vacantFrom, hentry]
      exact hvacant
    refine wp_mono (writeEntry_fills (hkept.metadata hs) hvacant2 newEntry_mark) ?_ ?_
    · intro _ v3 hfilled
      exact ⟨slot, first, hfilled.after hkept⟩
    · intro _ v3 hnames
      exact hkept.namesKept.trans hnames
  · intro _ v2 hkept2
    exact hquiet.namesKept.trans hkept2.namesKept

theorem truncate_keeps (hs : 81 ≤ v.device.sectors) (hslot : slot < 256)
    (hinUse : v.image.InUse slot) :
    wp (truncate slot (v.image.entry slot)) (fun _ v' => v.NamesKept v')
      (fun _ v' => v.NamesKept v') v := by
  rw [truncate, wp_when]
  constructor
  · intro _
    rw [wp_bind]
    have hmark : (v.image.entry slot).put 22 0 6 28 = 1 := by
      rw [Buffer.put_of_not_mem (by omega)]
      exact hinUse
    refine wp_mono (writeEntry_keeps_names hs hslot hinUse hmark storedName_emptied) ?_ fun _ _
      hkept => hkept
    intro _ v1 hkept1
    refine wp_mono (Keeps.when (freeChain_keeps _)).wp ?_ ?_
    · intro _ v2 hkept2
      exact hkept1.trans hkept2.namesKept
    · intro _ v2 hkept2
      exact hkept1.trans hkept2.namesKept
  · intro _
    exact NamesKept.refl v

def Opened (v : Volume) (name : List UInt8) (id : FileId) (v' : Volume) : Prop :=
  v'.generations id.slot = id.generation ∧ match v.image.lookup name with
    | some slot => id.slot = slot ∧ v.NamesKept v'
    | none => v.Filled v' id.slot ((newEntry name 0 0).upTo 32)

include hs

theorem openFile_opens {create truncating : Bool} : wp (openFile name create truncating)
      (fun id v' => validName name ∧ v.image.boot = magic ∧ v.Opened name id v')
      (fun _ v' => v.NamesKept v' ∧ (v.image.boot ≠ magic → v.Quiet v')) v := by
  rw [openFile]
  refine wp_seq (check_wp hs) ?_ ?_
  · rintro _ v1 ⟨hboot, hquiet1, _⟩
    have hs1 := hquiet1.directoryKept.metadata hs
    refine wp_seq (find_any hs1) ?_ ?_
    · rintro found v2 ⟨hname, rfl, hquiet2⟩
      have hquiet := hquiet1.trans hquiet2
      have hs2 := hquiet.directoryKept.metadata hs
      unfold Opened
      rw [hquiet1.image]
      cases hlookup : v.image.lookup name with
      | some slot =>
        have hinUse : v2.image.InUse slot := by
          rw [hquiet.image]
          exact (lookup_eq_some_iff.mp hlookup).2.1.1
        have hentry : v.image.entry slot = v2.image.entry slot := by rw [hquiet.image]
        have htruncate : wp (when (truncating = true) (truncate slot (v.image.entry slot)))
            (fun _ v' => v2.NamesKept v') (fun _ v' => v2.NamesKept v') v2 := by
          rw [wp_when, hentry]
          exact ⟨fun _ => truncate_keeps hs2 (lookup_lt hlookup) hinUse, fun _ => NamesKept.refl v2⟩
        change wp (when (truncating = true) (truncate slot (v.image.entry slot)) >>= fun _ => handle
          slot) _ _ v2
        rw [wp_bind]
        refine wp_mono htruncate ?_ ?_
        · intro _ v3 hkept
          exact ⟨hname, hboot, rfl, rfl, hquiet.namesKept.trans hkept⟩
        · intro _ v3 hkept
          exact ⟨hquiet.namesKept.trans hkept, fun hne => absurd hboot hne⟩
      | none =>
        change wp (if create then _ else fail (-6)) _ _ v2
        rw [wp_ite]
        constructor
        · intro _
          refine wp_seq (freeSlot_wp hs2) ?_ ?_
          · rintro slot v3 ⟨hvacant, hquiet3⟩
            have hquiet' := hquiet.trans hquiet3
            rw [wp_bind]
            have hvacant3 : v3.image.vacant = some slot := by rw [hquiet3.image, hvacant]
            have hlength : name.length ≤ 21 := by
              unfold validName at hname
              omega
            refine wp_mono (writeEntry_fills (hquiet'.directoryKept.metadata hs) hvacant3
              (update_self ..)) ?_ ?_
            · intro _ v4 hfilled
              rw [← newEntry_empty hlength] at hfilled
              exact ⟨hname, hboot, rfl, hfilled.after hquiet'.directoryKept⟩
            · intro _ v4 hkept
              exact ⟨hquiet'.namesKept.trans hkept, fun hne => absurd hboot hne⟩
          · rintro _ v3 ⟨hquiet3, _⟩
            exact ⟨(hquiet.trans hquiet3).namesKept, fun hne => absurd hboot hne⟩
        · intro _
          exact ⟨hquiet.namesKept, fun hne => absurd hboot hne⟩
    · intro _ v2 hquiet2
      exact ⟨(hquiet1.trans hquiet2).namesKept, fun hne => absurd hboot hne⟩
  · rintro _ v1 (⟨_, _, hquiet⟩ | ⟨hquiet, _⟩)
    · exact ⟨hquiet.namesKept, fun _ => hquiet⟩
    · exact ⟨hquiet.namesKept, fun _ => hquiet⟩

theorem recordWrite_keeps {offset : Nat} {outcome : WriteOutcome} (hslot : slot < 256)
    (hinUse : v.image.InUse slot) :
    wp (recordWrite slot (v.image.entry slot) offset input outcome) (fun _ v' => v.NamesKept v')
      (fun _ v' => v.NamesKept v') v := by
  rw [recordWrite, wp_bind]
  have hmark : ((v.image.entry slot).put 22 outcome.file.first 2).put 24 outcome.file.size 4 28
      = 1 := by
    rw [put_mark]
    exact hinUse
  refine wp_mono (writeEntry_keeps_names hs hslot hinUse hmark storedName_put) ?_ fun _ _ hkept =>
    hkept
  intro _ v1 hkept
  cases outcome.status with
  | ok => exact hkept
  | error =>
    rw [wp_ite]
    exact ⟨fun _ => hkept, fun _ => hkept⟩

theorem writeAt_keeps {id : FileId} {requested : Option Nat} :
    wp (writeAt id requested input) (fun _ v' => v.NamesKept v') (fun _ v' => v.NamesKept v')
      v := by
  rw [writeAt]
  refine wp_seq (opened_wp hs) ?_ ?_
  · rintro entry v1 ⟨⟨hslot, _, hinUse⟩, rfl, hquiet⟩
    rw [wp_ite]
    constructor
    · intro _
      exact hquiet.namesKept
    intro _
    rw [wp_ite]
    constructor
    · intro _
      exact hquiet.namesKept
    intro _
    rw [wp_bind, wp_state]
    refine wp_seq (keeps_onDevice_directory (jihooFileWrite_keeps _ _ _ _)).wp ?_ ?_
    · intro outcome v2 hkept2
      have hentry : v.image.entry = v2.image.entry := by
        rw [← hquiet.image]
        exact hkept2.device.entry.symm
      have hinUse2 : v2.image.InUse id.slot := by
        rw [Image.InUse, ← hentry]
        exact hinUse
      have hs2 := hkept2.metadata (hquiet.directoryKept.metadata hs)
      rw [hentry]
      have hkept := hquiet.namesKept.trans hkept2.namesKept
      refine wp_mono (recordWrite_keeps hs2 hslot hinUse2) ?_ ?_
      · intro _ v3 hkept3
        exact hkept.trans hkept3
      · intro _ v3 hkept3
        exact hkept.trans hkept3
    · intro _ v2 hkept2
      exact hquiet.namesKept.trans hkept2.namesKept
  · rintro _ v1 (⟨_, _, hquiet⟩ | ⟨hquiet, _⟩)
    · exact hquiet.namesKept
    · exact hquiet.namesKept

end Volume

end Kaguya.FileSystem
