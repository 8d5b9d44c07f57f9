import Kaguya.FileSystem.Device

/-!
# The file allocation table, the root directory and file data

`fat.jh`, function by function. A function that returns a status is a `Prog`: a status other than
zero is the failing side, and the out-parameters are the value on the other. Out-parameters that are
written before a failure are kept in the state (`ReadState`, `WriteState`).

Numbers are natural numbers; the two places that narrow a value on its way to disk go through
`UInt8.ofNat`. A `while` loop is a recursion on the rounds left; where the source does not count
them, the bound is one that the loop cannot reach.
-/

namespace Kaguya.FileSystem

open Prog

def fatStart : Nat := 1
def fatEntries : Nat := 16384
def rootStart : Nat := 65
def rootEntries : Nat := 256

def readSector (lba : Nat) : Prog Device Buffer := Device.read lba 1

def writeSector (lba : Nat) (data : Buffer) : Prog Device Unit := Device.write lba 1 data

def jihooFatRead (cluster : Nat) : Prog Device Nat :=
  if cluster ≥ fatEntries then fail (-2)
  else do
    let sector ← readSector (fatStart + cluster / 256)
    let offset := cluster % 256 * 2
    pure ((sector offset).toNat ||| (sector (offset + 1)).toNat <<< 8)

def jihooFatWrite (cluster value : Nat) : Prog Device Unit :=
  if cluster ≥ fatEntries then fail (-2)
  else do
    let lba := fatStart + cluster / 256
    let sector ← readSector lba
    let offset := cluster % 256 * 2
    let sector := Function.update sector offset (UInt8.ofNat value)
    let sector := Function.update sector (offset + 1) (UInt8.ofNat (value >>> 8))
    writeSector lba sector

def allocLoop : Nat → Nat → Prog Device Nat
  | 0, _ => fail (-5)
  | n + 1, cluster => do
      let entry ← jihooFatRead cluster
      if entry = 0 then do
        jihooFatWrite cluster 0xffff
        pure cluster
      else allocLoop n (cluster + 1)

def lastCluster (dataClusters : Nat) : Nat :=
  let limit := dataClusters + 1
  if limit < fatEntries - 1 then limit else fatEntries - 1

theorem lastCluster_eq (dataClusters : Nat) :
    lastCluster dataClusters = min (dataClusters + 1) 16383 := by
  have hfatEntries : fatEntries = 16384 := rfl
  simp only [lastCluster]
  split <;> omega

def jihooFatAlloc (dataClusters : Nat) : Prog Device Nat :=
  allocLoop (lastCluster dataClusters + 1 - 2) 2

def dataCluster (cluster : Nat) : Prop := cluster ≥ 2 ∧ cluster < 0xfff0

instance : DecidablePred dataCluster := fun cluster =>
  inferInstanceAs (Decidable (cluster ≥ 2 ∧ cluster < 0xfff0))

/-- The loop of `jihooFatFree`. Every round clears an entry, and a round that meets a cleared entry
is the last, so the loop ends within `fatEntries + 1` rounds. -/
def freeLoop : Nat → Nat → Prog Device Unit
  | 0, _ => pure ()
  | n + 1, cluster =>
    if dataCluster cluster then do
      let next ← jihooFatRead cluster
      jihooFatWrite cluster 0
      freeLoop n next
    else pure ()

def jihooFatFree (first : Nat) : Prog Device Unit := freeLoop (fatEntries + 1) first

def walkLoop : Nat → Nat → Nat → Prog Device (Nat × Nat)
  | 0, prev, cluster => pure (prev, cluster)
  | n + 1, _, cluster =>
    if cluster < 2 ∨ cluster ≥ 0xfff0 then fail (-3)
    else do
      let next ← jihooFatRead cluster
      walkLoop n cluster next

/-- The cluster before the one `steps` links from `first` (zero if there is none), and that one. -/
def jihooFatWalk (first steps : Nat) : Prog Device (Nat × Nat) := walkLoop steps 0 first

def jihooDirRead (index : Nat) : Prog Device Buffer :=
  if index ≥ rootEntries then fail (-2)
  else do
    let sector ← readSector (rootStart + index / 16)
    pure (Buffer.zeroed.memCopy 0 sector (index % 16 * 32) 32)

def jihooDirWrite (index : Nat) (input : Buffer) : Prog Device Unit :=
  if index ≥ rootEntries then fail (-2)
  else do
    let lba := rootStart + index / 16
    let sector ← readSector lba
    writeSector lba (sector.memCopy (index % 16 * 32) input 0 32)

def nameLoop (entry : Buffer) : Nat → Nat → Nat
  | 0, size => size
  | n + 1, size => if entry size ≠ 0 then nameLoop entry n (size + 1) else size

def nameLength (entry : Buffer) : Nat := nameLoop entry 22 0

def sameName (entry : Buffer) (name : List UInt8) : Bool :=
  nameLength entry == name.length
    && (List.range (nameLength entry)).all fun i => entry i == name.getD i 0

def findLoop (name : List UInt8) : Nat → Nat → Prog Device (Nat × Buffer)
  | 0, _ => pure (256, Buffer.zeroed)
  | n + 1, index => do
      let entry ← jihooDirRead index
      if entry 28 ≠ 1 then findLoop name n (index + 1)
      else if sameName entry name then pure (index, entry)
      else findLoop name n (index + 1)

def jihooDirFind (name : List UInt8) : Prog Device (Nat × Buffer) :=
  if name.length = 0 ∨ name.length > 21 then fail (-2) else findLoop name 256 0

def freeSlotLoop : Nat → Nat → Prog Device Nat
  | 0, _ => pure 256
  | n + 1, index => do
      let entry ← jihooDirRead index
      if entry 28 = 0 then pure index else freeSlotLoop n (index + 1)

def jihooDirFree : Prog Device Nat := freeSlotLoop 256 0

structure FileData where
  first : Nat
  size : Nat

def clusterLba (cluster : Nat) : Nat := 81 + (cluster - 2) * 8

/-- What `jihooFileRead` can change: the device and the caller's buffer. -/
structure ReadState where
  device : Device
  output : Buffer

def ReadState.onDevice {α : Type} (m : Prog Device α) : Prog ReadState α :=
  zoom ReadState.device (fun s device => { s with device := device }) m

/-- The loop of `jihooFileRead`. Every round copies at least one byte, so `length` rounds are
enough. -/
def readLoop (length : Nat) (whole : Bool) : Nat → Nat → Nat → Nat → Prog ReadState Nat
  | 0, _, _, done => pure done
  | n + 1, cluster, within, done =>
    if done < length then
      if ¬ dataCluster cluster then
        if whole then pure done else fail (-3)
      else do
        let workspace ← ReadState.onDevice (Device.read (clusterLba cluster) 8)
        let count := min (4096 - within) (length - done)
        modify fun s => { s with output := s.output.memCopy done workspace within count }
        let done := done + count
        if whole ∨ done < length then do
          let next ← ReadState.onDevice (jihooFatRead cluster)
          readLoop length whole n next 0 done
        else readLoop length whole n cluster 0 done
    else pure done

/-- Copy up to `length` bytes of the file from `offset` on to the caller's buffer, and say how many
were copied. -/
def jihooFileRead (file : FileData) (offset length : Nat) (whole : Bool) : Prog ReadState Nat :=
  if offset ≥ file.size ∨ length = 0 then pure 0
  else do
    let length := min length (file.size - offset)
    let (_, cluster) ← ReadState.onDevice (jihooFatWalk file.first (offset / 4096))
    readLoop length whole length cluster (offset % 4096) 0

/-- What `writeRange` can change: the device, the first cluster of the file, and how far the file
has been written. -/
structure WriteState where
  device : Device
  first : Nat
  reached : Nat

def WriteState.onDevice {α : Type} (m : Prog Device α) : Prog WriteState α :=
  zoom WriteState.device (fun s device => { s with device := device }) m

/-- Put a fresh cluster behind `previous`, or at the front of the file if nothing precedes it. -/
def linkCluster (previous fresh : Nat) : Prog WriteState Unit :=
  if previous = 0 then modify fun s => { s with first := fresh }
  else WriteState.onDevice (jihooFatWrite previous fresh)

/-- The cluster that a round of `writeRange` writes, and its contents before the write: a fresh
cluster linked behind `previous` when the chain has ended, the old contents when some of them stay,
and whatever the workspace held when all of them are overwritten. -/
def writeTarget (clusters offset stop clusterStart previous cluster : Nat) (workspace : Buffer) :
    Prog WriteState (Nat × Buffer) :=
  if ¬ dataCluster cluster then do
    let fresh ← WriteState.onDevice (jihooFatAlloc clusters)
    linkCluster previous fresh
    pure (fresh, workspace.memFill 0 0 4096)
  else if offset > clusterStart ∨ stop < clusterStart + 4096 then do
    let old ← WriteState.onDevice (Device.read (clusterLba cluster) 8)
    pure (cluster, old)
  else pure (cluster, workspace)

/-- The new contents of the cluster at `clusterStart`: zeros in the gap between the end of the file
and the write, and the part of the input that falls into the cluster. -/
def writeContents (size offset stop clusterStart : Nat) (input workspace : Buffer) : Buffer :=
  let clusterEnd := clusterStart + 4096
  let gapLo := max size clusterStart
  let gapHi := min offset clusterEnd
  let workspace := if gapLo < gapHi
    then workspace.memFill (gapLo - clusterStart) 0 (gapHi - gapLo) else workspace
  let lo := max offset clusterStart
  let hi := min stop clusterEnd
  if lo < hi then workspace.memCopy (lo - clusterStart) input (lo - offset) (hi - lo) else workspace

def writeLoop (clusters size offset stop : Nat) (input : Buffer) :
    Nat → Nat → Nat → Nat → Buffer → Prog WriteState Unit
  | 0, _, _, _, _ => pure ()
  | n + 1, clusterStart, previous, cluster, workspace => do
      let clusterEnd := clusterStart + 4096
      let (cluster, workspace) ←
        writeTarget clusters offset stop clusterStart previous cluster workspace
      let workspace := writeContents size offset stop clusterStart input workspace
      WriteState.onDevice (Device.write (clusterLba cluster) 8 workspace)
      modify fun s => { s with reached := max (min stop clusterEnd) (min offset clusterEnd) }
      if clusterEnd ≥ stop then pure ()
      else do
        let next ← WriteState.onDevice (jihooFatRead cluster)
        writeLoop clusters size offset stop input n clusterEnd cluster next workspace

def writeRange (clusters : Nat) (file : FileData) (offset : Nat) (input : List UInt8) :
    Prog WriteState Unit := do
  let size := file.size
  let stop := offset + input.length
  let start := min offset size
  let clusterStart := start - start % 4096
  let (previous, cluster) ←
    WriteState.onDevice (jihooFatWalk file.first (clusterStart / 4096))
  writeLoop clusters size offset stop (Buffer.ofList input) (stop / 4096 + 1) clusterStart previous
    cluster Buffer.zeroed

/-- What `jihooFileWrite` hands back: its status, the file afterwards and the bytes written. -/
structure WriteOutcome where
  status : Except Int Unit
  file : FileData
  written : Nat

def jihooFileWrite (clusters : Nat) (file : FileData) (offset : Nat) (input : List UInt8) :
    Prog Device WriteOutcome := fun device =>
  if input.length = 0 then (.ok ⟨.ok (), file, 0⟩, device)
  else if offset > 0xffffffff ∨ input.length > 0xffffffff - offset then
    (.ok ⟨.error (-5), file, 0⟩, device)
  else
    let (status, after) :=
      writeRange clusters file offset input ⟨device, file.first, min offset file.size⟩
    let outcome : WriteOutcome := if after.reached > offset
      then ⟨status, ⟨after.first, max file.size after.reached⟩, after.reached - offset⟩
      else ⟨status, ⟨after.first, file.size⟩, 0⟩
    (.ok outcome, after.device)

end Kaguya.FileSystem
