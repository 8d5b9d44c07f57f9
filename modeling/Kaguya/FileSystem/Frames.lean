import Kaguya.FileSystem.VolumeSpec

/-!
# What a call leaves alone, on any disk

Whatever the disk holds and however the device behaves, the reading calls
leave every byte as it was, and the calls that work on the table and on file data touch neither the
boot sector nor the directory.
-/

namespace Kaguya.FileSystem

open Prog Device

structure Device.Untouched (d d' : Device) : Prop where
  bytes : d'.bytes = d.bytes
  later : Later d d'

structure Device.DirectoryKept (d d' : Device) : Prop where
  boot : d'.image.boot = d.image.boot
  entry : d'.image.entry = d.image.entry
  later : Later d d'

namespace Device

instance : Std.Refl Untouched := ⟨fun d => ⟨rfl, Later.refl d⟩⟩

instance : IsTrans Device Untouched :=
  ⟨fun _ _ _ h h' => ⟨h'.bytes.trans h.bytes, h.later.trans h'.later⟩⟩

instance : Std.Refl DirectoryKept := ⟨fun d => ⟨rfl, rfl, Later.refl d⟩⟩

instance : IsTrans Device DirectoryKept :=
  ⟨fun _ _ _ h h' =>
    ⟨h'.boot.trans h.boot, h'.entry.trans h.entry, h.later.trans h'.later⟩⟩

theorem Untouched.directoryKept {d d' : Device} (h : Untouched d d') : DirectoryKept d d' := by
  have himage := image_eq_of_bytes h.bytes
  exact ⟨by rw [himage], by rw [himage], h.later⟩

end Device

variable {α : Type} {m : Prog Device α}

theorem keeps_directory (h : Keeps Untouched m) :
    Keeps DirectoryKept m := h.mono fun _ _ hkept => hkept.directoryKept

theorem read_keeps (lba count : Nat) : Keeps Untouched (Device.read lba count) := fun d =>
  ⟨(read_bytes lba count d).1, (read_bytes lba count d).2⟩

theorem jihooFatRead_keeps (cluster : Nat) : Keeps Untouched (jihooFatRead cluster) :=
  .ite (keeps_fail _) (.bind (read_keeps _ _) fun _ => keeps_pure _)

theorem jihooDirRead_keeps (index : Nat) : Keeps Untouched (jihooDirRead index) :=
  .ite (keeps_fail _) (.bind (read_keeps _ _) fun _ => keeps_pure _)

theorem findLoop_keeps (name : List UInt8) (n index : Nat) :
    Keeps Untouched (findLoop name n index) := by
  induction n generalizing index with
  | zero => exact keeps_pure _
  | succ n ih =>
    refine .bind (jihooDirRead_keeps index) fun entry => ?_
    exact .ite (ih _) (.ite (keeps_pure _) (ih _))

theorem walkLoop_keeps (n previous cluster : Nat) :
    Keeps Untouched (walkLoop n previous cluster) := by
  induction n generalizing previous cluster with
  | zero => exact keeps_pure _
  | succ n ih =>
    exact .ite (keeps_fail _) (.bind (jihooFatRead_keeps cluster) fun next => ih _ _)

/-- What a call on the device leaves alone is left alone by the same call of a reader. -/
def ReadState.Untouched (s s' : ReadState) : Prop := Device.Untouched s.device s'.device

instance : Std.Refl ReadState.Untouched := ⟨fun s => Std.Refl.refl s.device⟩

instance : IsTrans ReadState ReadState.Untouched :=
  ⟨fun s s' s'' h h' => IsTrans.trans s.device s'.device s''.device h h'⟩

theorem keeps_reader (h : Keeps Device.Untouched m) :
    Keeps ReadState.Untouched (ReadState.onDevice m) :=
  h.zoom fun _ _ hkept => hkept

theorem readLoop_keeps (length : Nat) (whole : Bool) (n cluster within done : Nat) :
    Keeps ReadState.Untouched (readLoop length whole n cluster within done) := by
  induction n generalizing cluster within done with
  | zero => exact keeps_pure _
  | succ n ih =>
    refine .ite (.ite (.ite (keeps_pure _) (keeps_fail _)) ?_) (keeps_pure _)
    refine .bind (keeps_reader (read_keeps _ _)) fun workspace => ?_
    refine .bind (fun s => Std.Refl.refl s.device) fun _ => ?_
    exact .ite (.bind (keeps_reader (jihooFatRead_keeps cluster)) fun next => ih _ _ _) (ih _ _ _)

theorem jihooFileRead_keeps (file : FileData) (offset length : Nat) (whole : Bool) :
    Keeps ReadState.Untouched (jihooFileRead file offset length whole) := by
  refine .ite (keeps_pure _) ?_
  refine .bind (keeps_reader (walkLoop_keeps _ _ _)) fun found => ?_
  exact readLoop_keeps _ _ _ _ _ _

theorem write_keeps {lba count : Nat} (data : Buffer)
    (h : (1 ≤ lba ∧ lba + count ≤ 65) ∨ 81 ≤ lba) :
    Keeps DirectoryKept (Device.write lba count data) := by
  intro d
  obtain ⟨hbytes, hlater⟩ := write_bytes lba count data d
  have hrootEntries : rootEntries = 256 := rfl
  refine ⟨image_boot_congr fun i hi => hbytes i ?_, ?_, hlater⟩
  · omega
  · funext slot
    refine image_entry_congr fun hslot i hi => hbytes _ ?_
    omega

theorem jihooFatWrite_keeps (cluster value : Nat) :
    Keeps DirectoryKept (jihooFatWrite cluster value) := by
  have hfatEntries : fatEntries = 16384 := rfl
  have hfatStart : fatStart = 1 := rfl
  unfold jihooFatWrite
  split
  · exact keeps_fail _
  · refine .bind (keeps_directory (read_keeps _ _)) fun sector => write_keeps _ (.inl ?_)
    omega

theorem allocLoop_keeps (n cluster : Nat) : Keeps DirectoryKept (allocLoop n cluster) := by
  induction n generalizing cluster with
  | zero => exact keeps_fail _
  | succ n ih =>
    refine .bind (keeps_directory (jihooFatRead_keeps cluster)) fun entry => ?_
    exact .ite (.bind (jihooFatWrite_keeps _ _) fun _ => keeps_pure _) (ih _)

theorem freeLoop_keeps (n cluster : Nat) : Keeps DirectoryKept (freeLoop n cluster) := by
  induction n generalizing cluster with
  | zero => exact keeps_pure _
  | succ n ih =>
    refine .ite (.bind (keeps_directory (jihooFatRead_keeps cluster)) fun next => ?_) (keeps_pure _)
    exact .bind (jihooFatWrite_keeps _ _) fun _ => ih _

theorem writeCluster_keeps (cluster : Nat) (contents : Buffer) :
    Keeps DirectoryKept (Device.write (clusterLba cluster) 8 contents) :=
  write_keeps contents (.inr (Nat.le_add_right 81 _))

theorem createLoop_keeps (clusters : Nat) (input : List UInt8) (n offset first previous : Nat) :
    Keeps DirectoryKept (Volume.createLoop clusters input n offset first previous) := by
  induction n generalizing offset first previous with
  | zero => exact keeps_pure _
  | succ n ih =>
    refine .ite (.bind (allocLoop_keeps _ _) fun cluster => ?_) (keeps_pure _)
    refine .bind (.when (jihooFatWrite_keeps _ _)) fun _ => ?_
    exact .bind (writeCluster_keeps _ _) fun _ => ih _ _ _

def WriteState.DirectoryKept (s s' : WriteState) : Prop :=
  Device.DirectoryKept s.device s'.device

instance : Std.Refl WriteState.DirectoryKept := ⟨fun s => Std.Refl.refl s.device⟩

instance : IsTrans WriteState WriteState.DirectoryKept :=
  ⟨fun s s' s'' h h' => IsTrans.trans s.device s'.device s''.device h h'⟩

theorem keeps_writer (h : Keeps Device.DirectoryKept m) :
    Keeps WriteState.DirectoryKept (WriteState.onDevice m) := h.zoom fun _ _ hkept => hkept

theorem linkCluster_keeps (previous fresh : Nat) :
    Keeps WriteState.DirectoryKept (linkCluster previous fresh) :=
  .ite (fun s => Std.Refl.refl s.device) (keeps_writer (jihooFatWrite_keeps _ _))

theorem writeTarget_keeps (clusters offset stop clusterStart previous cluster : Nat)
    (workspace : Buffer) :
    Keeps WriteState.DirectoryKept (writeTarget clusters offset stop clusterStart previous cluster
      workspace) := by
  refine .ite ?_ (.ite ?_ (keeps_pure _))
  · refine .bind (keeps_writer (allocLoop_keeps _ _)) fun fresh => ?_
    exact .bind (linkCluster_keeps _ _) fun _ => keeps_pure _
  · exact .bind (keeps_writer (keeps_directory (read_keeps _ _))) fun _ => keeps_pure _

theorem writeLoop_keeps (clusters size offset stop : Nat) (input : Buffer)
    (n clusterStart previous cluster : Nat) (workspace : Buffer) : Keeps WriteState.DirectoryKept
      (writeLoop clusters size offset stop input n clusterStart previous cluster workspace) := by
  induction n generalizing clusterStart previous cluster workspace with
  | zero => exact keeps_pure _
  | succ n ih =>
    refine .bind (writeTarget_keeps _ _ _ _ _ _ _) fun target => ?_
    refine .bind (keeps_writer (writeCluster_keeps _ _)) fun _ => ?_
    refine .bind (fun s => Std.Refl.refl s.device) fun _ => ?_
    refine .ite (keeps_pure _) ?_
    exact .bind (keeps_writer (keeps_directory (jihooFatRead_keeps _))) fun next => ih _ _ _ _

theorem jihooFileWrite_keeps (clusters : Nat) (file : FileData) (offset : Nat)
    (input : List UInt8) : Keeps DirectoryKept (jihooFileWrite clusters file offset input) := by
  intro d
  unfold jihooFileWrite
  split
  · exact Std.Refl.refl d
  split
  · exact Std.Refl.refl d
  have hrange : Keeps WriteState.DirectoryKept (writeRange clusters file offset input) := by
    refine .bind (keeps_writer (keeps_directory (walkLoop_keeps _ _ _))) fun found => ?_
    exact writeLoop_keeps _ _ _ _ _ _ _ _ _ _
  exact hrange ⟨d, file.first, min offset file.size⟩

namespace Volume

variable {v : Volume}

structure DirectoryKept (v v' : Volume) : Prop where
  clusters : v'.clusters = v.clusters
  generations : v'.generations = v.generations
  device : v.device.DirectoryKept v'.device

instance : Std.Refl Quiet := ⟨Quiet.refl⟩

instance : IsTrans Volume Quiet := ⟨fun _ _ _ h h' => h.trans h'⟩

variable {α : Type} {m : Prog Device α}

theorem keeps_onDevice (h : Keeps Untouched m) : Keeps Quiet (onDevice m) :=
  h.zoom fun _ _ hkept => quiet_of_device hkept.bytes hkept.later

theorem keeps_onDevice_directory (h : Keeps Device.DirectoryKept m) :
    Keeps DirectoryKept (onDevice m) :=
  h.zoom fun _ _ hkept => ⟨rfl, rfl, hkept⟩

theorem keeps_state : Keeps Quiet state := fun v => Quiet.refl v

theorem check_keeps :
    Keeps Quiet check :=
  .bind (keeps_onDevice (read_keeps _ _)) fun _ => .ite (keeps_fail _) (keeps_pure _)

theorem find_keeps (name : List UInt8) : Keeps Quiet (find name) := by
  refine .bind (keeps_onDevice (.ite (keeps_fail _) (findLoop_keeps _ _ _))) fun found => ?_
  exact .ite (keeps_pure _) (keeps_pure _)

theorem readEntry_keeps (slot : Nat) :
    Keeps Quiet (readEntry slot) := keeps_onDevice (jihooDirRead_keeps slot)

theorem opened_keeps (id : FileId) : Keeps Quiet (opened id) := by
  refine .bind keeps_state fun v => .ite (keeps_fail _) ?_
  exact .bind (readEntry_keeps _) fun entry => .ite (keeps_fail _) (keeps_pure _)

def Reader.Quiet (s s' : Reader) : Prop := Volume.Quiet s.volume s'.volume

instance : IsTrans Reader Reader.Quiet := ⟨fun _ _ _ h h' => h.trans h'⟩

theorem readData_keeps (entry : Buffer) (offset length : Nat) (whole : Bool) :
    Keeps Reader.Quiet (readData entry offset length whole) :=
  (jihooFileRead_keeps _ offset length whole).zoom fun _ _ hkept =>
    quiet_of_device hkept.bytes hkept.later

theorem readAt_keeps (id : FileId) (offset length : Nat) :
    Keeps Reader.Quiet (readAt id offset length) :=
  .bind ((opened_keeps id).zoom fun _ _ h => h) fun entry => readData_keeps entry _ _ _

theorem withOutput_keeps {m : Prog Reader α} (h : Keeps Reader.Quiet m) :
    Keeps Quiet (withOutput m) := fun v => h ⟨v, Buffer.zeroed⟩

theorem readFile_keeps (name : List UInt8) : Keeps Quiet (readFile name) := by
  refine .bind (find_keeps name) fun found => ?_
  cases found with
  | none => exact keeps_fail _
  | some =>
    refine .ite ?_ (keeps_pure _)
    exact .bind (withOutput_keeps (readData_keeps _ _ _ _)) fun _ => keeps_pure _

theorem listLoop_keeps (n slot : Nat) (entries : List FileEntry) :
    Keeps Quiet (listLoop n slot entries) := by
  induction n generalizing slot entries with
  | zero => exact keeps_pure _
  | succ n ih =>
    refine .bind (readEntry_keeps slot) fun entry => ?_
    exact .ite (ih _ _) (ih _ _)

def Op.Reading : Op → Prop
  | .check | .size _ | .readAt _ _ _ | .readFile _ | .list => True
  | _ => False

theorem exec_keeps {op : Op} (h : op.Reading) : Keeps Quiet (exec op) := by
  cases op with
  | check => exact .bind check_keeps fun _ => keeps_pure _
  | size id =>
    exact .bind (.bind (opened_keeps id) fun _ => keeps_pure _) fun _ => keeps_pure _
  | readAt id offset length =>
    exact .bind (withOutput_keeps (readAt_keeps id offset length)) fun _ => keeps_pure _
  | readFile name => exact .bind (readFile_keeps name) fun _ => keeps_pure _
  | list =>
    exact .bind (.bind check_keeps fun _ => listLoop_keeps _ _ _) fun _ => keeps_pure _
  | format | create | delete | openFile | writeAt => exact h.elim

end Volume

end Kaguya.FileSystem
