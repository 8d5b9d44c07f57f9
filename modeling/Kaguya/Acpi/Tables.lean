import Kaguya.Lib.Buffer
import Kaguya.Lib.Logged

/-!
# The tables of the firmware

`acpi.jh` finds the tables of the firmware in memory and reads them. Addresses, lengths and counts
all come from that memory, so every range is asked for before it is read. The log of a call holds
these questions, every byte that is loaded and every field of a table that is used.
-/

namespace Kaguya.Acpi

open Trapping Logged

structure Machine where
  memory : Buffer
  firmwareRange : Nat → Nat → Bool

inductive Event where
  | asked (base bytes : Nat) (answer : Bool)
  | loaded (address : Nat)
  | used (table offset bytes : Nat)
  deriving DecidableEq

def SIGNATURE_RSDP : List UInt8 := [82, 83, 68, 32, 80, 84, 82, 32]
def SIGNATURE_XSDT : List UInt8 := [88, 83, 68, 84]
def SIGNATURE_RSDT : List UInt8 := [82, 83, 68, 84]
def SIGNATURE_APIC : List UInt8 := [65, 80, 73, 67]
def SIGNATURE_FACP : List UInt8 := [70, 65, 67, 80]
def SIGNATURE_HPET : List UInt8 := [72, 80, 69, 84]
def SIGNATURE_MCFG : List UInt8 := [77, 67, 70, 71]

section Memory
variable (m : Machine)

def firmwareRange (base bytes : Nat) : Logged Event Bool := do
  emit (.asked base bytes (m.firmwareRange base bytes))
  return m.firmwareRange base bytes

def mapped (base bytes : Nat) : Logged Event Bool := do
  if bytes = 0 ∨ base > 0x7fffffffffff then return false
  if bytes > (← minus 0x800000000000 base) then return false
  firmwareRange m base bytes

def load (address : Nat) : Logged Event UInt8 := do
  emit (.loaded address)
  return m.memory address

def read (base offset bytes : Nat) : Logged Event Nat :=
  (List.range bytes).foldlM (fun value i => do
    let byte ← load m (base + (← plus 63 offset i))
    return value ||| byte.toNat <<< (i * 8)) 0

def checksum (base length : Nat) : Logged Event Bool := do
  let sum ← (List.range length).foldlM (fun sum i => do
    let byte ← load m (base + i)
    return sum + byte) (0 : UInt8)
  return sum == 0

def signature (base : Nat) : List UInt8 → Logged Event Bool
  | [] => return true
  | letter :: rest => do
      if (← load m base) ≠ letter then return false
      signature (base + 1) rest

def field (table offset bytes : Nat) : Logged Event Nat := do
  emit (.used table offset bytes)
  read m table offset bytes

def named (table : Nat) (text : List UInt8) : Logged Event Bool := do
  emit (.used table 0 text.length)
  signature m table text

def tableLength (base : Nat) : Logged Event Nat := do
  if base = 0 then return 0
  if (← mapped m base 36) = false then return 0
  let length ← read m base 4 4
  if length < 36 ∨ length > 1048576 then return 0
  if (← mapped m base length) = false then return 0
  if (← checksum m base length) = false then return 0
  return length

/-- The part of `valid_rsdp` for later revisions. -/
def validExtension (address : Nat) : Logged Event Bool := do
  if (← mapped m address 36) = false then return false
  let length ← read m address 20 4
  if length < 36 ∨ length > 4096 then return false
  if (← mapped m address length) = false then return false
  if (← checksum m address length) = false then return false
  return true

def validRsdp (address : Nat) : Logged Event Bool := do
  if address = 0 then return false
  if (← mapped m address 20) = false then return false
  if (← signature m address SIGNATURE_RSDP) = false then return false
  if (← checksum m address 20) = false then return false
  if (← read m address 15 1) ≥ 2 then validExtension m address
  else return true

def scanRound (start length offset : Nat) : Logged Event (Round Nat Nat) := do
  if (← plus 64 offset 20) ≤ length then
    let address ← plus 64 start offset
    if ← validRsdp m address then return .leave address
    return .again (← plus 64 offset 16)
  else return .leave 0

def scan (start length : Nat) : Logged Event Nat := do
  if (← mapped m start length) = false then return 0
  Logged.loop (scanRound m start length) (length + 1) 0

def scanEbda : Logged Event Nat := do
  if (← mapped m 0 4096) = false then return 0
  let ebda := (← read m 0 0x40e 2) <<< 4
  if ebda = 0 then return 0
  scan m ebda 1024

def findRsdp (supplied : Nat) : Logged Event Nat := do
  if ← validRsdp m supplied then return supplied
  let address ← scanEbda m
  if address ≠ 0 then return address
  scan m 0xe0000 131072

structure Tables where
  rsdp : Nat
  root : Nat
  madt : Nat
  fadt : Nat
  hpet : Nat
  mcfg : Nat

structure Root where
  address : Nat
  stride : Nat

def isTable (candidate : Nat) (text : List UInt8) : Logged Event Bool := do
  if (← tableLength m candidate) = 0 then return false
  named m candidate text

def extendedRoot (rsdp : Nat) : Logged Event (Option Root) := do
  if (← read m rsdp 15 1) ≥ 2 then
    let candidate ← read m rsdp 24 8
    if ← isTable m candidate SIGNATURE_XSDT then return some ⟨candidate, 8⟩
    return none
  else return none

def findRoot (rsdp : Nat) : Logged Event (Option Root) := do
  match ← extendedRoot m rsdp with
  | some root => return some root
  | none =>
    let candidate ← read m rsdp 16 4
    if ← isTable m candidate SIGNATURE_RSDT then return some ⟨candidate, 4⟩
    return none

def place (tables : Tables) (child : Nat) : Logged Event Tables := do
  if (← tableLength m child) = 0 then return tables
  if ← named m child SIGNATURE_APIC then return { tables with madt := child }
  if ← named m child SIGNATURE_FACP then return { tables with fadt := child }
  if ← named m child SIGNATURE_HPET then return { tables with hpet := child }
  if ← named m child SIGNATURE_MCFG then return { tables with mcfg := child }
  return tables

def childRound (root : Root) (length : Nat) (state : Nat × Tables) :
    Logged Event (Round (Nat × Tables) (Option Tables)) := do
  if state.1 < length then
    let child ← field m root.address state.1 root.stride
    let tables ← place m state.2 child
    return .again (← plus 64 state.1 root.stride, tables)
  else return .leave (some state.2)

def discover (supplied : Nat) : Logged Event (Option Tables) := do
  let rsdp ← findRsdp m supplied
  if rsdp = 0 then return none
  match ← findRoot m rsdp with
  | none => return none
  | some root =>
    let length ← tableLength m root.address
    if (← remainder (← minus length 36) root.stride) ≠ 0 then return none
    Logged.loop (childRound m root length) (length + 1) (36, ⟨rsdp, root.address, 0, 0, 0, 0⟩)

structure Madt where
  lapic : Nat
  cpus : List UInt8
  count : Nat
  ioapic : Nat
  gsiBase : UInt32
  irqGsi : List UInt32
  irqFlags : List UInt16

def Madt.start (lapic : Nat) : Madt where
  lapic := lapic
  cpus := List.replicate 64 0
  count := 0
  ioapic := 0
  gsiBase := 0
  irqGsi := (List.range 16).map UInt32.ofNat
  irqFlags := List.replicate 16 0

variable (table offset size : Nat) (info : Madt)

def Madt.hasCpu (id : UInt8) : Trapping Bool :=
  (List.range info.count).foldlM (fun duplicate i => do
    if (← index info.cpus i) = id then return true
    return duplicate) false

def Madt.addCpu (id : UInt8) : Trapping Madt := do
  if ← info.hasCpu id then return info
  let cpus ← store info.cpus info.count id
  return { info with cpus := cpus, count := ← plus 64 info.count 1 }

def Madt.redirect (source : Nat) (gsi : UInt32) (flags : UInt16) : Trapping Madt := do
  let irqGsi ← store info.irqGsi source gsi
  let irqFlags ← store info.irqFlags source flags
  return { info with irqGsi := irqGsi, irqFlags := irqFlags }

def lapicEntry : Logged Event (Option Madt) := do
  if size < 8 then return none
  let flags ← field m table (← plus 64 offset 4) 4
  if flags &&& 1 ≠ 0 ∧ info.count < 64 then
    let id ← field m table (← plus 64 offset 3) 1
    return some (← info.addCpu (UInt8.ofNat id))
  else return some info

def ioapicEntry : Logged Event (Option Madt) := do
  if size < 12 then return none
  if info.ioapic = 0 then
    let ioapic ← field m table (← plus 64 offset 4) 4
    let gsiBase ← field m table (← plus 64 offset 8) 4
    return some { info with ioapic := ioapic, gsiBase := UInt32.ofNat gsiBase }
  else return some info

def overrideEntry : Logged Event (Option Madt) := do
  if size < 10 then return none
  let source ← field m table (← plus 64 offset 3) 1
  if (← field m table (← plus 64 offset 2) 1) = 0 ∧ source < 16 then
    let gsi ← field m table (← plus 64 offset 4) 4
    let flags ← field m table (← plus 64 offset 8) 2
    return some (← info.redirect source (UInt32.ofNat gsi) (UInt16.ofNat flags))
  else return some info

def addressEntry : Logged Event (Option Madt) := do
  if size < 12 then return none
  let lapic ← field m table (← plus 64 offset 4) 8
  return some { info with lapic := lapic }

def madtEntry (table offset kind size : Nat) (info : Madt) : Logged Event (Option Madt) :=
  if kind = 0 then lapicEntry m table offset size info
  else if kind = 1 then ioapicEntry m table offset size info
  else if kind = 2 then overrideEntry m table offset size info
  else if kind = 5 then addressEntry m table offset size info
  else return some info

def madtRound (table length : Nat) (state : Nat × Madt) :
    Logged Event (Round (Nat × Madt) (Option Madt)) := do
  if state.1 < length then
    if (← minus length state.1) < 2 then return .leave none
    let kind ← field m table state.1 1
    let size ← field m table (← plus 64 state.1 1) 1
    if size < 2 then return .leave none
    if size > (← minus length state.1) then return .leave none
    match ← madtEntry m table state.1 kind size state.2 with
    | none => return .leave none
    | some info => return .again (← plus 64 state.1 size, info)
  else return .leave (some state.2)

def madt (address : Nat) : Logged Event (Option Madt) := do
  let length ← tableLength m address
  if length < 44 then return none
  if (← named m address SIGNATURE_APIC) = false then return none
  let lapic ← field m address 36 4
  Logged.loop (madtRound m address length) (length + 1) (44, Madt.start lapic)

def shortField (table length atLeast offset : Nat) : Logged Event Nat :=
  if length ≥ atLeast then field m table offset 4 else return 0

def dsdt (fadt : Nat) : Logged Event Nat := do
  let length ← tableLength m fadt
  if length ≥ 148 then
    let value ← field m fadt 140 8
    if value ≠ 0 then return value
    shortField m fadt length 44 40
  else shortField m fadt length 44 40

/-- `pm_control` and `pm_timer`: a register in the newer field, if it is one of the ports, and else
in the older one. -/
def port (fadt extended space newer atLeast older : Nat) : Logged Event UInt16 := do
  let length ← tableLength m fadt
  if length ≥ extended then
    if (← field m fadt space 1) = 1 then
      let value ← field m fadt newer 8
      if value ≠ 0 ∧ value ≤ 65535 then return UInt16.ofNat value
      return UInt16.ofNat (← shortField m fadt length atLeast older)
    else return UInt16.ofNat (← shortField m fadt length atLeast older)
  else return UInt16.ofNat (← shortField m fadt length atLeast older)

def pmControl (fadt : Nat) : Logged Event UInt16 := port m fadt 184 172 176 68 64

def pmTimer (fadt : Nat) : Logged Event UInt16 := port m fadt 220 208 212 80 76

def hpetBase (table : Nat) : Logged Event Nat := do
  if (← tableLength m table) ≥ 56 then
    if (← field m table 40 1) = 0 then field m table 44 8
    else return 0
  else return 0

structure Function where
  segment : UInt16
  bus : UInt8
  device : UInt8
  function : UInt8
  register : UInt16

def Function.delta (f : Function) (first : Nat) : Trapping Nat := do
  let bus ← minus f.bus.toNat first
  return (bus <<< 20) ||| (f.device.toNat <<< 15) ||| (f.function.toNat <<< 12) ||| f.register.toNat

def ecamAddress (table offset first : Nat) (f : Function) : Logged Event Nat := do
  let delta ← f.delta first
  let base ← field m table offset 8
  if base > (← minus 0xffffffffffffffff delta) then return 0
  plus 64 base delta

def ecamRound (table length : Nat) (f : Function) (offset : Nat) :
    Logged Event (Round Nat Nat) := do
  if offset < length then
    let first ← field m table (← plus 64 offset 10) 1
    let last ← field m table (← plus 64 offset 11) 1
    if (← field m table (← plus 64 offset 8) 2) = f.segment.toNat ∧ f.bus.toNat ≥ first
        ∧ f.bus.toNat ≤ last then
      return .leave (← ecamAddress m table offset first f)
    else return .again (← plus 64 offset 16)
  else return .leave 0

def ecam (table : Nat) (f : Function) : Logged Event Nat := do
  let length ← tableLength m table
  if length < 44 then return 0
  if (← named m table SIGNATURE_MCFG) = false then return 0
  if (← minus length 44) % 16 ≠ 0 ∨ f.device > 31 ∨ f.function > 7 ∨ f.register > 4095 then return 0
  Logged.loop (ecamRound m table length f) (length + 1) 44

end Memory

end Kaguya.Acpi
