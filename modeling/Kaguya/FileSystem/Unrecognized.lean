import Kaguya.FileSystem.Names

/-!
# Volumes that are not recognized

A disk without the mark of the file system in its first sector may hold anything else. `create`,
`open` and `list` look for the mark before they do anything. `delete` and `write_at` do not: they
take whatever they find in the place of the directory for entries.
-/

namespace Kaguya.FileSystem

open Prog Device

theorem readSector_any {d : Device} {lba : Nat} : wp (readSector lba)
      (fun sector d' => (∀ i < 512, sector i = d.bytes (lba * 512 + i)) ∧ Untouched d d')
        (fun _ d' => Untouched d d') d := by
  by_cases hlba : lba < d.sectors
  · refine wp_mono (readSector_wp hlba) ?_ ?_
    · rintro sector d' ⟨hsector, hbytes, hserved⟩
      exact ⟨hsector, hbytes, hserved.later⟩
    · intro code d' hfailed
      exact ⟨hfailed.2.1, hfailed.faulted.1⟩
  · have hkept := read_keeps lba 1 d
    unfold wp readSector Device.read at *
    rw [if_pos (by omega)] at hkept ⊢
    exact hkept

namespace Volume

variable {v : Volume}

theorem check_any :
    wp check (fun _ v' => v.image.boot = magic ∧ v.Quiet v') (fun _ v' => v.Quiet v') v := by
  rw [check, wp_bind, wp_onDevice]
  refine wp_mono readSector_any ?_ fun _ _ hkept => quiet_of_device hkept.bytes hkept.later
  rintro sector d ⟨hsector, hkept⟩
  have hquiet := quiet_of_device hkept.bytes hkept.later
  have hboot : sector.get 0 8 = v.image.boot := by
    refine Buffer.get_congr fun i hi => ?_
    rw [hsector _ (by omega)]
    simp
  rw [hboot, wp_ite]
  exact ⟨fun _ => hquiet, fun hmagic => ⟨not_not.mp hmagic, hquiet⟩⟩

theorem check_bind_quiet {α : Type} {rest : Prog Volume α} (hboot : v.image.boot ≠ magic) :
    wp (do check; rest) (fun _ v' => v.Quiet v') (fun _ v' => v.Quiet v') v := by
  rw [wp_bind]
  exact wp_mono check_any (fun _ _ h => absurd h.1 hboot) fun _ _ hquiet => hquiet

/-- What a call must not do on a volume that is not recognized: format it, delete a name that the
directory seems to hold, or write some bytes within reach through a handle that seems to be good. -/
def Guarded (v : Volume) : Op → Prop
  | .format => False
  | .delete name => ∀ found, (find name v).1 ≠ .ok (some found)
  | .writeAt id requested input => ∀ entry, (opened id v).1 = .ok entry → input.length = 0
      ∨ requested.getD (entry.get 24 4) > 0xffffffff
      ∨ input.length > 0xffffffff - requested.getD (entry.get 24 4)
  | _ => True

def GuardedRun : Volume → List Op → Prop
  | _, [] => True
  | v, op :: ops => v.Guarded op ∧ GuardedRun (v.after op) ops

theorem delete_guarded {name : List UInt8}
    (hguarded : ∀ found, (find name v).1 ≠ .ok (some found)) :
    wp (delete name) (fun _ v' => v.Quiet v') (fun _ v' => v.Quiet v') v := by
  rw [delete]
  refine wp_seq (wp_and wp_self (find_keeps name).wp) ?_ fun _ _ h => h.2
  rintro found v1 ⟨hrun, hquiet⟩
  cases found with
  | none => exact hquiet
  | some found =>
    refine absurd ?_ (hguarded found)
    rw [hrun]

theorem writeAt_guarded {id : FileId} {requested : Option Nat} {input : List UInt8}
    (hguarded : v.Guarded (.writeAt id requested input)) :
    wp (writeAt id requested input) (fun _ v' => v.Quiet v') (fun _ v' => v.Quiet v') v := by
  rw [writeAt]
  refine wp_seq (wp_and wp_self (opened_keeps id).wp) ?_ fun _ _ h => h.2
  rintro entry v1 ⟨hrun, hquiet⟩
  have hharmless := hguarded entry (by rw [hrun])
  rw [wp_ite]
  refine ⟨fun _ => hquiet, fun hlength => ?_⟩
  rw [wp_ite]
  refine ⟨fun _ => hquiet, fun hrange => ?_⟩
  rcases hharmless with hempty | hbig
  · exact absurd hempty hlength
  · exact absurd hbig hrange

theorem exec_guarded {op : Op} (hboot : v.image.boot ≠ magic) (hguarded : v.Guarded op) :
    v.Quiet (v.after op) := by
  apply wp_final (R := fun v' => v.Quiet v')
  cases op with
  | format => exact hguarded.elim
  | create name =>
    rw [exec, wp_bind, create, wp_ite]
    refine ⟨fun _ => Quiet.refl v, fun _ => ?_⟩
    rw [wp_ite]
    refine ⟨fun _ => Quiet.refl v, fun _ => ?_⟩
    have hold : wp (removeOld name) (fun _ _ => False) (fun _ v' => v.Quiet v') v := by
      rw [removeOld, wp_bind]
      exact wp_mono check_any (fun _ _ h => absurd h.1 hboot) fun _ _ hquiet => hquiet
    rw [wp_bind]
    exact wp_mono hold (fun _ _ hfalse => hfalse.elim) fun _ _ hquiet => hquiet
  | delete =>
    rw [exec, wp_bind]
    exact wp_mono (delete_guarded hguarded) (fun _ _ hquiet => hquiet) fun _ _ hquiet => hquiet
  | openFile =>
    rw [exec, wp_bind]
    exact wp_mono (check_bind_quiet hboot) (fun _ _ hquiet => hquiet) fun _ _ hquiet => hquiet
  | writeAt =>
    rw [exec, wp_bind]
    exact wp_mono (writeAt_guarded hguarded) (fun _ _ hquiet => hquiet) fun _ _ hquiet => hquiet
  | check | size | readAt | readFile | list => exact Keeps.wp (exec_keeps (by trivial))

/-- **A volume that is not recognized stays as it is.** A run of guarded calls, on any disk without
the mark and wherever the device fails, changes no byte of the disk. -/
theorem unrecognized_unmodified {ops : List Op} (hboot : v.image.boot ≠ magic)
    (hguarded : v.GuardedRun ops) : (v.run ops).device.bytes = v.device.bytes := by
  induction ops generalizing v with
  | nil => rfl
  | cons op ops ih =>
    have hquiet := exec_guarded hboot hguarded.1
    rw [run_cons, ih (by rw [hquiet.image]; exact hboot) hguarded.2, hquiet.bytes]

theorem unrecognized_unmodified_blank :
    (blank.run [.create [97] [1], .openFile [97] true true, .writeAt ⟨256, 0⟩ none [1],
      .list]).device.bytes = blank.device.bytes := by
  refine unrecognized_unmodified ?_ ⟨trivial, trivial, ?_, trivial, trivial⟩
  · change Buffer.zeroed.get 0 8 ≠ magic
    rw [Buffer.get_zeroed]
    decide
  · intro entry hopened
    cases hopened

theorem delete_oneFile :
    wp (delete [97]) (fun _ v' => ¬ v'.image.InUse 0) (fun _ _ => False)
      (oneFile fun _ => false) := by
  have hlookup := oneFile_lookup fun _ => false
  have hdevice : (oneFile fun _ => false).device.NonFailing := fun _ => rfl
  have hsound := (oneFile_layout fun _ => false).sound 0 (inUse_of_lookup hlookup)
  rw [delete]
  refine wp_seq (find_wp (oneFile_fits _).metadata (by decide)) ?_ fun _ _ hfailed =>
    hfailed.2.faulted.2 hdevice
  rintro found v1 ⟨rfl, hquiet, _⟩
  rw [hlookup]
  rw [← hquiet.image] at hsound ⊢
  have hsound1 : Sound v1.image.fat v1.clusters (v1.image.first 0) [2] := by
    rw [hquiet.clusters]
    exact hsound
  have hs1 := hquiet.directoryKept.metadata (oneFile_fits _).metadata
  refine wp_mono (remove_wp hs1 (by decide) hsound1) ?_ ?_
  · rintro _ v2 ⟨himage, _⟩
    rw [himage, Image.InUse, Image.setEntry_entry_self]
    decide
  · rintro _ v2 ⟨_, _, k, _, hbroke, _⟩
    exact hbroke.not_nonFailing (hquiet.later.nonFailing hdevice)

/-- Deleting a name that the disk happens to hold in the place of the directory changes the disk. -/
theorem delete_modifies_unrecognized : (oneFile fun _ => false).image.boot ≠ magic
    ∧ ((oneFile fun _ => false).after (.delete [97])).device.bytes
      ≠ (oneFile fun _ => false).device.bytes := by
  constructor
  · rw [oneFile_image]
    change Buffer.zeroed.get 0 8 ≠ magic
    rw [Buffer.get_zeroed]
    decide
  intro hbytes
  -- the entry would still be in use, but the deletion has cleared it
  have hcleared : ¬ ((oneFile fun _ => false).after (.delete [97])).image.InUse 0 := by
    refine wp_final (R := fun v' : Volume => ¬ v'.image.InUse 0) ?_
    rw [exec, wp_bind]
    exact wp_mono delete_oneFile (fun _ _ h => h) fun _ _ hfalse => hfalse.elim
  apply hcleared
  rw [image, Device.image, hbytes]
  exact inUse_of_lookup (oneFile_lookup fun _ => false)

end Volume

end Kaguya.FileSystem
