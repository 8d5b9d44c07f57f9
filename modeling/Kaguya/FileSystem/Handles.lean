import Kaguya.FileSystem.DirectorySpec
import Kaguya.FileSystem.Refinement

/-!
# How long a handle lasts

A handle is a slot and the generation that the slot had when the file was opened. The generation
moves on exactly when the file in the slot is removed, so a handle is good until that happens and
stale ever after, as long as the counter does not come round.
-/

namespace Kaguya.FileSystem

open Function Prog Device

/-! ### Stale handles have a code of their own

No call on the table or on file data fails with the code of a stale handle. -/

section Codes

theorem read_avoids (lba count : Nat) : Avoids (-6) (Device.read lba count) := by
  intro d
  unfold Device.read
  split
  · simp
  · split <;> simp

theorem write_avoids (lba count : Nat) (data : Buffer) :
    Avoids (-6) (Device.write lba count data) := by
  intro d
  unfold Device.write
  split
  · simp
  · split <;> simp

theorem jihooFatRead_avoids (cluster : Nat) : Avoids (-6) (jihooFatRead cluster) :=
  .ite (avoids_fail (by decide)) (.bind (read_avoids _ _) fun _ => avoids_pure _)

theorem jihooFatWrite_avoids (cluster value : Nat) : Avoids (-6) (jihooFatWrite cluster value) :=
  .ite (avoids_fail (by decide)) (.bind (read_avoids _ _) fun _ => write_avoids _ _ _)

theorem allocLoop_avoids (n cluster : Nat) : Avoids (-6) (allocLoop n cluster) := by
  induction n generalizing cluster with
  | zero => exact avoids_fail (by decide)
  | succ n ih =>
    refine .bind (jihooFatRead_avoids cluster) fun entry => ?_
    exact .ite (.bind (jihooFatWrite_avoids _ _) fun _ => avoids_pure _) (ih _)

theorem walkLoop_avoids (n previous cluster : Nat) : Avoids (-6) (walkLoop n previous cluster) := by
  induction n generalizing previous cluster with
  | zero => exact avoids_pure _
  | succ n ih =>
    refine .ite (avoids_fail (by decide)) ?_
    exact .bind (jihooFatRead_avoids cluster) fun next => ih _ _

theorem readLoop_avoids (length : Nat) (whole : Bool) (n cluster within done : Nat) :
    Avoids (-6) (readLoop length whole n cluster within done) := by
  induction n generalizing cluster within done with
  | zero => exact avoids_pure _
  | succ n ih =>
    refine .ite (.ite (.ite (avoids_pure _) (avoids_fail (by decide))) ?_) (avoids_pure _)
    refine .bind (read_avoids _ _).zoom fun workspace => ?_
    refine .bind (avoids_modify _) fun _ => ?_
    exact .ite (.bind (jihooFatRead_avoids cluster).zoom fun next => ih _ _ _) (ih _ _ _)

theorem jihooFileRead_avoids (file : FileData) (offset length : Nat) (whole : Bool) :
    Avoids (-6) (jihooFileRead file offset length whole) :=
  .ite (avoids_pure _)
    (.bind (walkLoop_avoids _ _ _).zoom fun _ => readLoop_avoids _ _ _ _ _ _)

theorem writeTarget_avoids (clusters offset stop clusterStart previous cluster : Nat)
    (workspace : Buffer) :
    Avoids (-6) (writeTarget clusters offset stop clusterStart previous cluster workspace) := by
  refine .ite ?_ (.ite ?_ (avoids_pure _))
  · refine .bind (allocLoop_avoids _ _).zoom fun fresh => ?_
    exact .bind (.ite (avoids_modify _) (jihooFatWrite_avoids _ _).zoom) fun _ => avoids_pure _
  · exact .bind (read_avoids _ _).zoom fun _ => avoids_pure _

theorem writeLoop_avoids (clusters size offset stop : Nat) (input : Buffer)
    (n clusterStart previous cluster : Nat) (workspace : Buffer) :
    Avoids (-6) (writeLoop clusters size offset stop input n clusterStart previous cluster
      workspace) := by
  induction n generalizing clusterStart previous cluster workspace with
  | zero => exact avoids_pure _
  | succ n ih =>
    refine .bind (writeTarget_avoids _ _ _ _ _ _ _) fun target => ?_
    refine .bind (write_avoids _ _ _).zoom fun _ => ?_
    refine .bind (avoids_modify _) fun _ => .ite (avoids_pure _) ?_
    exact .bind (jihooFatRead_avoids _).zoom fun next => ih _ _ _ _

theorem jihooFileWrite_status {clusters : Nat} {file : FileData} {offset : Nat} {input : List UInt8}
    {d : Device} :
    wp (jihooFileWrite clusters file offset input) (fun outcome _ => outcome.status ≠ .error (-6))
      (fun _ _ => False) d := by
  have hrange : Avoids (-6) (writeRange clusters file offset input) :=
    .bind (walkLoop_avoids _ _ _).zoom fun _ => writeLoop_avoids _ _ _ _ _ _ _ _ _ _
  unfold wp jihooFileWrite
  by_cases hempty : input.length = 0
  · rw [if_pos hempty]
    simp
  rw [if_neg hempty]
  by_cases hbig : offset > 0xffffffff ∨ input.length > 0xffffffff - offset
  · rw [if_pos hbig]
    simp
  rw [if_neg hbig]
  have hstatus := hrange ⟨d, file.first, min offset file.size⟩
  dsimp only
  split <;> exact hstatus

end Codes

namespace Volume

variable {v v' v'' : Volume} {slot : Nat}

/-- A handle that the calls accept. Reads return what the file holds where its chain is sound; on a
damaged disk they may fail, but not for the handle. -/
structure Usable (v : Volume) (id : FileId) : Prop where
  size : (exec (.size id) v).1 = .ok (.size (v.image.size id.slot))
  read : ∀ offset length, (exec (.readAt id offset length) v).1 ≠ .error (-6)
  write : ∀ requested input, (exec (.writeAt id requested input) v).1 ≠ .error (-6)
  read_sound : ∀ paths, v.Fits → Layout v.image v.clusters paths → ∀ offset length,
    (exec (.readAt id offset length) v).1
      = .ok (.bytes (((v.image.contents id.slot).drop offset).take length))

section Good
variable {id : FileId} (hs : 81 ≤ v.device.sectors) (hdevice : v.device.NonFailing)
include hs hdevice

theorem opened_good (hgood : v.Good id) :
    wp (opened id) (fun entry v' => entry = v.image.entry id.slot ∧ v.Quiet v') (fun _ _ => False)
      v := by
  refine wp_mono (opened_wp hs) (fun _ _ h => h.2) ?_
  rintro _ v' (⟨_, hstale, _⟩ | ⟨_, hfailed⟩)
  · exact hstale hgood
  · exact hfailed.faulted.2 hdevice

theorem writeAt_accepts {requested : Option Nat} {input : List UInt8} (hgood : v.Good id) :
    wp (writeAt id requested input) (fun _ _ => True) (fun code _ => code ≠ -6) v := by
  rw [writeAt]
  refine wp_seq (opened_good hs hdevice hgood) ?_ fun _ _ hfalse => hfalse.elim
  rintro entry v1 ⟨_, hquiet⟩
  rw [wp_ite]
  constructor
  · intro _
    trivial
  intro _
  rw [wp_ite]
  constructor
  · intro _
    exact (by decide : (-5 : Int) ≠ -6)
  intro _
  rw [wp_bind, wp_state, wp_bind, wp_onDevice]
  have hwrite := wp_and jihooFileWrite_status (jihooFileWrite_keeps v1.clusters ⟨entry.get 22 2,
    entry.get 24 4⟩
      (requested.getD (entry.get 24 4)) input).wp (s := v1.device)
  refine wp_mono hwrite ?_ fun _ _ hfalse => hfalse.1.elim
  rintro outcome d ⟨hstatus, hkept⟩
  have hs2 : 81 ≤ ({ v1 with device := d } : Volume).device.sectors := by
    rw [hkept.later.sectors, hquiet.later.sectors]
    exact hs
  rw [recordWrite]
  refine wp_seq (writeEntry_wp hs2 hgood.1) ?_ ?_
  · intro _ v2 _
    cases houtcome : outcome.status with
    | ok => trivial
    | error =>
      rw [wp_ite]
      refine ⟨fun _ => trivial, fun _ heq => hstatus ?_⟩
      rw [houtcome, heq]
  · rintro code v2 ⟨_, _, hfailed⟩
    rw [hfailed.1]
    decide

theorem Good.usable (hgood : v.Good id) : v.Usable id where
  size := by
    have hsize : wp (exec (.size id)) (fun reply _ => reply = .size (v.image.size id.slot))
        (fun _ _ => False) v := by
      rw [exec, wp_bind, size]
      refine wp_seq (opened_good hs hdevice hgood) ?_ fun _ _ hfalse => hfalse
      rintro entry v' ⟨rfl, _⟩
      rfl
    obtain ⟨_, v', hrun, rfl⟩ := wp_returns hsize
    rw [hrun]
  read offset length := by
    apply ne_error_of_wp
    rw [exec, wp_bind, wp_withOutput, readAt, wp_bind]
    refine wp_zoom.mpr (wp_mono (opened_good hs hdevice hgood) ?_ fun _ _ hfalse => hfalse.elim)
    intro entry v' _
    exact wp_mono (jihooFileRead_avoids _ _ _ _).zoom.wp (fun _ _ _ => trivial) fun _ _ h => h
  write requested input := by
    apply ne_error_of_wp
    rw [exec, wp_bind]
    exact wp_mono (writeAt_accepts hs hdevice hgood) (fun _ _ _ => trivial) fun _ _ h => h
  read_sound paths hfits hlayout offset length := by
    have hread : wp (exec (.readAt id offset length))
        (fun reply _ => reply = .bytes (((v.image.contents id.slot).drop offset).take length))
        (fun _ _ => False) v := by
      rw [exec, wp_bind, wp_withOutput]
      refine wp_mono (readAt_wp hfits hlayout) ?_ ?_
      · rintro count s ⟨_, hbytes, _⟩
        exact congrArg Reply.bytes hbytes
      · rintro _ s ⟨_, ⟨_, hstale⟩ | ⟨_, hfaulted⟩⟩
        · exact hstale hgood
        · exact hfaulted.2 hdevice
    obtain ⟨_, v', hrun, rfl⟩ := wp_returns hread
    rw [hrun]

end Good

structure Tracked (v : Volume) (slot : Nat) (removed : Bool) (v' : Volume) : Prop where
  later : Later v.device v'.device
  generation : v'.generations slot = v.generations slot + UInt32.ofNat removed.toNat
  inUse : removed = false → v.image.InUse slot → v'.image.InUse slot

theorem Tracked.trans {removed : Bool} (h : v.Tracked slot removed v')
    (h' : v'.Tracked slot false v'') : v.Tracked slot removed v'' where
  later := h.later.trans h'.later
  generation := by
    rw [h'.generation, h.generation]
    simp
  inUse hremoved hslot := h'.inUse rfl (h.inUse hremoved hslot)

section Step
variable (hs : 81 ≤ v.device.sectors) (hdevice : v.device.NonFailing)
include hs hdevice

variable {name : List UInt8}

end Step

end Volume

end Kaguya.FileSystem
