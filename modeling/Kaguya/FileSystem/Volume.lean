import Kaguya.FileSystem.Fat

/-!
# Volumes

`filesystem.jh`: a volume is a device, the number of its data clusters and, for each directory slot,
a generation that says which open handles are still good. Names are whatever bytes the caller
passes. `open` is a keyword here, so the operation of that name is `openFile`.
-/

namespace Kaguya.FileSystem

open Function Prog

structure FileId where
  slot : Nat
  generation : UInt32
  deriving DecidableEq, Repr

structure FileEntry where
  name : List UInt8
  size : Nat
  firstCluster : Nat
  deriving DecidableEq, Repr

structure Volume where
  device : Device
  clusters : Nat
  generations : Nat → UInt32

/-! ### Names for display -/

def lossyWidth (b : UInt8) : Nat :=
  if b ≥ 0xc2 ∧ b ≤ 0xdf then 2
  else if b ≥ 0xe0 ∧ b ≤ 0xef then 3
  else if b ≥ 0xf0 ∧ b ≤ 0xf4 then 4
  else 1

/-- How many bytes of the sequence that starts with `b` are there, `count` of them seen. -/
def lossyCount (b : UInt8) (width : Nat) : Nat → List UInt8 → Nat
  | count, [] => count
  | count, next :: rest =>
    if count < width then
      if next < 0x80 ∨ next > 0xbf then count
      else if count = 1 ∧ ((b = 0xe0 ∧ next < 0xa0) ∨ (b = 0xed ∧ next > 0x9f)
          ∨ (b = 0xf0 ∧ next < 0x90) ∨ (b = 0xf4 ∧ next > 0x8f)) then count
      else lossyCount b width (count + 1) rest
    else count

def lossyName : List UInt8 → List UInt8
  | [] => []
  | b :: rest =>
    if b < 128 then b :: lossyName rest
    else
      let width := lossyWidth b
      let count := lossyCount b width 1 rest
      let after := rest.drop (count - 1)
      if width > 1 ∧ count = width then (b :: rest).take count ++ lossyName after
      else [0xef, 0xbf, 0xbd] ++ lossyName after
termination_by bytes => bytes.length
decreasing_by
  all_goals simp only [List.length_cons, List.length_drop]
  all_goals omega

namespace Volume

def onDevice {α : Type} (m : Prog Device α) : Prog Volume α :=
  zoom Volume.device (fun v device => { v with device := device }) m

def magic : Nat := 0x4b41474641543136

/-! ### Slots and their generations -/

def check : Prog Volume Unit := do
  let sector ← onDevice (readSector 0)
  if sector.get 0 8 ≠ magic then fail (-4) else pure ()

def nextGeneration (old : UInt32) : UInt32 := if old = 0xffffffff then 0 else old + 1

def retire (slot : Nat) (v : Volume) : Volume :=
  { v with generations :=
      update v.generations slot (nextGeneration (v.generations slot)) }

def readEntry (slot : Nat) : Prog Volume Buffer := onDevice (jihooDirRead slot)

def writeEntry (slot : Nat) (entry : Buffer) : Prog Volume Unit :=
  if slot ≥ 256 then fail (-2)
  else do
    when (entry 28 = 0) (modify (retire slot))
    onDevice (jihooDirWrite slot entry)

def find (name : List UInt8) : Prog Volume (Option (Nat × Buffer)) := do
  let (code, entry) ← onDevice (jihooDirFind name)
  if code = 256 then pure none else pure (some (code, entry))

def freeSlot : Prog Volume Nat := do
  let code ← onDevice jihooDirFree
  if code = 256 then fail (-5) else pure code

def freeChain (first : Nat) : Prog Volume Unit := onDevice (jihooFatFree first)

/-! ### Formatting -/

def bootSector (clusters : Nat) : Buffer :=
  ((((((((Buffer.zeroed.put 0 magic 8).put 8 512 2).put 10 8 4).put 14 1 4).put 18 64 4).put 22 65
    4).put 26 16 4).put 30 81 4).put 34 clusters 4

def clearLoop : Nat → Nat → Prog Device Unit
  | 0, _ => pure ()
  | n + 1, lba => do
      writeSector lba Buffer.zeroed
      clearLoop n (lba + 1)

def retireAll (v : Volume) : Volume := (List.range 256).foldl (fun v slot => v.retire slot) v

def format : Prog Volume Unit := do
  let v ← state
  onDevice (writeSector 0 (bootSector v.clusters))
  onDevice (clearLoop 64 1)
  onDevice (jihooFatWrite 0 0xfff8)
  onDevice (jihooFatWrite 1 0xffff)
  modify retireAll
  onDevice (clearLoop 16 65)

/-! ### Creating and deleting files -/

def remove (slot : Nat) (entry : Buffer) : Prog Volume Unit := do
  let first := entry.get 22 2
  when (first ≥ 2) (freeChain first)
  writeEntry slot Buffer.zeroed

def removeFound : Option (Nat × Buffer) → Prog Volume Unit
  | some (slot, entry) => remove slot entry
  | none => pure ()

/-- The start of `create`: it removes the file that has the name, if there is one. -/
def removeOld (name : List UInt8) : Prog Volume Unit := do
  check
  let found ← find name
  removeFound found

/-- The loop of `create`: it stores the input from `offset` on behind `previous` and returns the
first cluster. Every round stores one cluster. -/
def createLoop (clusters : Nat) (input : List UInt8) : Nat → Nat → Nat → Nat → Prog Device Nat
  | 0, _, first, _ => pure first
  | n + 1, offset, first, previous =>
    if offset < input.length then do
      let cluster ← jihooFatAlloc clusters
      let first := if first = 0 then cluster else first
      when (previous ≠ 0) (jihooFatWrite previous cluster)
      let count := min (input.length - offset) 4096
      let workspace := Buffer.zeroed.memCopy 0 (Buffer.ofList input) offset count
      Device.write (clusterLba cluster) 8 workspace
      createLoop clusters input n (offset + count) first cluster
    else pure first

def newEntry (name : List UInt8) (first size : Nat) : Buffer :=
  update
    (((Buffer.zeroed.memCopy 0 (Buffer.ofList name) 0 name.length).put 22 first 2).put 24 size 4) 28
    1

def create (name input : List UInt8) : Prog Volume Unit :=
  if name.length = 0 ∨ name.length > 21 then fail (-2)
  else if input.length > 0xffffffff then fail (-5)
  else do
    removeOld name
    let slot ← freeSlot
    let v ← state
    let first ← onDevice (createLoop v.clusters input (input.length / 4096 + 2) 0 0 0)
    writeEntry slot (newEntry name first input.length)

def delete (name : List UInt8) : Prog Volume Unit := do
  let found ← find name
  match found with
  | some (slot, entry) => remove slot entry
  | none => fail (-6)

/-! ### Open files -/

def truncate (slot : Nat) (entry : Buffer) : Prog Volume Unit := do
  let first := entry.get 22 2
  let size := entry.get 24 4
  when (first ≠ 0 ∨ size ≠ 0) do
    writeEntry slot (entry.put 22 0 6)
    when (first ≥ 2 ∧ first < 0xfff0) (freeChain first)

def handle (slot : Nat) : Prog Volume FileId := do
  let v ← state
  pure ⟨slot, v.generations slot⟩

def openFile (name : List UInt8) (create truncating : Bool) : Prog Volume FileId := do
  check
  let found ← find name
  match found with
  | some (slot, entry) => do
      when (truncating = true) (truncate slot entry)
      handle slot
  | none =>
    if create then do
      let slot ← freeSlot
      writeEntry slot
        (update (Buffer.zeroed.memCopy 0 (Buffer.ofList name) 0 name.length) 28 1)
      handle slot
    else fail (-6)

def opened (id : FileId) : Prog Volume Buffer := do
  let v ← state
  if id.slot ≥ 256 ∨ v.generations id.slot ≠ id.generation then fail (-6)
  else do
    let entry ← readEntry id.slot
    if entry 28 ≠ 1 then fail (-6) else pure entry

def size (id : FileId) : Prog Volume Nat := do
  let entry ← opened id
  pure (entry.get 24 4)

structure Reader where
  volume : Volume
  output : Buffer

def Reader.onVolume {α : Type} (m : Prog Volume α) : Prog Reader α :=
  zoom Reader.volume (fun s v => { s with volume := v }) m

def readData (entry : Buffer) (offset length : Nat) (whole : Bool) : Prog Reader Nat :=
  zoom (fun s => ⟨s.volume.device, s.output⟩)
    (fun s s' => ⟨{ s.volume with device := s'.device }, s'.output⟩)
    (jihooFileRead ⟨entry.get 22 2, entry.get 24 4⟩ offset length whole)

def readAt (id : FileId) (offset length : Nat) : Prog Reader Nat := do
  let entry ← Reader.onVolume (opened id)
  readData entry offset length false

def withOutput {α : Type} (m : Prog Reader α) : Prog Volume (α × Buffer) := fun v =>
  ((m ⟨v, Buffer.zeroed⟩).1.map fun a => (a, (m ⟨v, Buffer.zeroed⟩).2.output),
    (m ⟨v, Buffer.zeroed⟩).2.volume)

def readFile (name : List UInt8) : Prog Volume (List UInt8) := do
  let found ← find name
  match found with
  | some (_, entry) =>
    let size := entry.get 24 4
    if size > 0 then do
      let read ← withOutput (readData entry 0 size true)
      pure (read.2.slice 0 size)
    else pure (Buffer.zeroed.slice 0 size)
  | none => fail (-6)

/-- The end of `writeAt`: it records the file that the write made and reports what was written. -/
def recordWrite (slot : Nat) (entry : Buffer) (offset : Nat) (input : List UInt8)
    (outcome : WriteOutcome) : Prog Volume (Nat × Nat) := do
  writeEntry slot ((entry.put 22 outcome.file.first 2).put 24 outcome.file.size 4)
  match outcome.status with
  | .ok () => pure (offset, input.length)
  | .error code => if outcome.written > 0 then pure (offset, outcome.written) else fail code

def writeAt (id : FileId) (requested : Option Nat) (input : List UInt8) :
    Prog Volume (Nat × Nat) := do
  let entry ← opened id
  let size := entry.get 24 4
  let offset := requested.getD size
  if input.length = 0 then pure (offset, 0)
  else if offset > 0xffffffff ∨ input.length > 0xffffffff - offset then fail (-5)
  else do
    let v ← state
    let outcome ← onDevice (jihooFileWrite v.clusters ⟨entry.get 22 2, size⟩ offset input)
    recordWrite id.slot entry offset input outcome

def listLoop : Nat → Nat → List FileEntry → Prog Volume (List FileEntry)
  | 0, _, entries => pure entries
  | n + 1, slot, entries => do
      let entry ← readEntry slot
      if entry 28 ≠ 1 then listLoop n (slot + 1) entries
      else listLoop n (slot + 1) (entries ++
        [⟨lossyName (entry.slice 0 (nameLength entry)), entry.get 24 4, entry.get 22 2⟩])

def list : Prog Volume (List FileEntry) := do
  check
  listLoop 256 0 []

/-! ### Sequences of calls -/

inductive Op where
  | check
  | format
  | create (name input : List UInt8)
  | delete (name : List UInt8)
  | openFile (name : List UInt8) (create truncate : Bool)
  | size (id : FileId)
  | readAt (id : FileId) (offset length : Nat)
  | readFile (name : List UInt8)
  | writeAt (id : FileId) (requested : Option Nat) (input : List UInt8)
  | list
  deriving DecidableEq, Repr

inductive Reply where
  | done
  | handle (id : FileId)
  | size (bytes : Nat)
  | bytes (contents : List UInt8)
  | written (offset count : Nat)
  | entries (files : List FileEntry)
  deriving DecidableEq, Repr

def exec : Op → Prog Volume Reply
  | .check => do check; pure .done
  | .format => do format; pure .done
  | .create name input => do create name input; pure .done
  | .delete name => do delete name; pure .done
  | .openFile name create truncate => do pure (.handle (← openFile name create truncate))
  | .size id => do pure (.size (← size id))
  | .readAt id offset length => do
      let read ← withOutput (readAt id offset length)
      pure (.bytes (read.2.slice 0 read.1))
  | .readFile name => do pure (.bytes (← readFile name))
  | .writeAt id requested input => do
      let reply ← writeAt id requested input
      pure (.written reply.1 reply.2)
  | .list => do pure (.entries (← list))

def after (v : Volume) (op : Op) : Volume := (exec op v).2

def run (v : Volume) (ops : List Op) : Volume := ops.foldl after v

@[simp]
theorem run_nil (v : Volume) : v.run [] = v := rfl

@[simp]
theorem run_cons (v : Volume) (op : Op) (ops : List Op) :
    v.run (op :: ops) = (v.after op).run ops := rfl

/-- **The run rule.** A property that every call preserves holds after every sequence of calls. -/
theorem run_invariant {P : Volume → Prop} {ops : List Op} {v : Volume} (hv : P v)
    (hstep : ∀ v, P v → ∀ op ∈ ops, P (v.after op)) : P (v.run ops) := by
  induction ops generalizing v with
  | nil => exact hv
  | cons op ops ih =>
    exact ih (hstep v hv op List.mem_cons_self) fun v hv op' hop' =>
      hstep v hv op' (List.mem_cons_of_mem op hop')

end Volume

end Kaguya.FileSystem
