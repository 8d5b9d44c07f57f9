import Kaguya.Lib.Checked
import Kaguya.Paging.Kernel

/-!
# System calls

`dispatch` of the standalone kernel's `scheduler.jh`, as a program that checks ranges of user
memory, uses them and asks the subsystems of the kernel. A subsystem is handed a pointer and a
length and may use the whole range; what it answers is a value or the code of an error.
-/

namespace Kaguya.Syscall

open Paging Checked

structure View where
  root : Option Nat
  machine : Machine

def userRange (view : View) (pointer length : Nat) : Bool :=
  if pointer = 0 ∨ pointer > 0x7fffffffffff ∨ length > 0x7fffffffffff - pointer then false
  else view.root.elim false fun root => rangeMapped view.machine root pointer length true

abbrev Reply := Except Nat Nat

abbrev Kernel := Checked Reply

def Reply.value : Reply → Nat
  | .ok value => value
  | .error code => code

def FAILED : Nat := 0xffffffffffffffff
def INVALID : Nat := 0xfffffffffffffffe
def BAD_DESCRIPTOR : Nat := 0xfffffffffffffff9

/-- `utf8.validate` of a string in user memory. -/
def validate (pointer length : Nat) : Kernel Bool := do
  touch pointer length
  return (← answer).isOk

/-- `spawn`; the name and the arguments are in user memory. -/
def spawn (name nameLength arguments argumentsLength : Nat) : Kernel Nat := do
  touch name nameLength
  match ← answer with
  | .error _ => return FAILED
  | .ok length =>
    if length = 0 then return FAILED
    -- the new address space
    if (← answer).isOk = false then return FAILED
    -- `kef.load`
    touch arguments argumentsLength
    if (← answer).isOk = false then return FAILED
    return (← answer).value

/-! ## Handlers -/

def print (a b : Nat) : Kernel Nat := do
  if ← mayUse a b then
    if ← validate a b then
      touch a b
  return 0

def thread (a b : Nat) : Kernel Nat := do
  if (← mayUse a 1) = false then return FAILED
  if b < 8 then return FAILED
  if (← mayUse (b - 8) 8) = false then return FAILED
  -- the caller's space and files
  if (← answer).isOk = false then return FAILED
  if (← answer).isOk = false then return FAILED
  return (← answer).value

def fileName (a b : Nat) : Kernel Bool := do
  if b = 0 ∨ b > 47 then return false
  if (← mayUse a b) = false then return false
  validate a b

def createFile (a b c d : Nat) : Kernel Nat := do
  if (← fileName a b) = false then return INVALID
  if d = 0 then return INVALID
  if (← mayUse c d) = false then return INVALID
  touch a b
  touch c d
  return (← answer).value

def readFile (a b c d : Nat) : Kernel Nat := do
  if (← fileName a b) = false then return INVALID
  touch a b
  match ← answer with
  | .error code => return code
  | .ok length =>
    if c = 0 ∨ d = 0 then return length
    let count := min d length
    if (← mayUse c count) = false then return INVALID
    if count ≠ 0 then touch c count
    return count

def deleteFile (a b : Nat) : Kernel Nat := do
  if (← fileName a b) = false then return INVALID
  touch a b
  return (← answer).value

def spawnNamed (a b c d : Nat) (plain : Bool) : Kernel Nat := do
  if (← validate a b) = false then return FAILED
  if plain then spawn a b 0 0 else spawn a b c d

def spawnProgram (id a b c d : Nat) : Kernel Nat := do
  if b = 0 ∨ b > 255 then return FAILED
  if (← mayUse a b) = false then return FAILED
  if id = 22 ∧ d ≠ 0 ∧ c ≠ 0 then
    if d > 2048 then return FAILED
    if (← mayUse c d) = false then return FAILED
  spawnNamed a b c d (id = 21 ∨ c = 0 ∨ d = 0)

/-- `jihoo_console_region`, with `count` cells left from the `i`th on. -/
def regionCells (row column cells width : Nat) : Nat → Nat → Kernel Unit
  | 0, _ => return ()
  | count + 1, i => do
      if i / width > 0xffffffffffffffff - row then return ()
      if i % width ≤ 0xffffffffffffffff - column then touch (cells + i * 12) 12
      regionCells row column cells width count (i + 1)

def drawRegion (a b c d e : Nat) : Kernel Nat := do
  if d = 0 ∨ e = 0 then return 0
  if c &&& 3 ≠ 0 ∨ d > 0x7fffffffffffffff / 12 then return 0
  if (← mayUse c (d * 12)) = false then return 0
  regionCells a b c e d 0
  return 0

/-- The loop of `list`, with `count` entries left from the `i`th on. -/
def listEntries (pointer : Nat) : Nat → Nat → Kernel Unit
  | 0, _ => return ()
  | count + 1, i => do
      let entry := pointer + i * 64
      touch entry 64
      let length := min (← answer).value 47
      touch entry length
      touch (entry + 47) 1
      touch (entry + 48) 8
      touch (entry + 56) 2
      listEntries pointer count (i + 1)

def list (pointer capacity : Nat) : Kernel Nat := do
  match ← answer with
  | .error code => return code
  | .ok length =>
    if pointer ≠ 0 ∧ capacity ≠ 0 then
      if pointer &&& 7 ≠ 0 ∨ capacity > 0x7fffffffffffffff / 64 then return INVALID
      if (← mayUse pointer (capacity * 64)) = false then return INVALID
      listEntries pointer (min capacity length) 0
    return length

def ping (a : Nat) : Kernel Nat := do
  if a ≤ 0xffffffff then return (← answer).value else return 0

def growHeap : Kernel Nat := do
  if (← answer).isOk = false then return 0
  return (← answer).value

def popEcho (a b : Nat) : Kernel Nat := do
  if b = 0 then return 0
  if (← mayUse a b) = false then return 0
  -- nothing, or a packet of 74 bytes
  if (← answer).isOk = false then return 0
  touch a (min b 74)
  return min b 74

def resolve (a b : Nat) : Kernel Nat := do
  if b = 0 ∨ b > 253 then return 0
  if (← mayUse a b) = false then return 0
  if (← validate a b) = false then return 0
  touch a b
  return (← answer).value

def bindSocket (b : Nat) : Kernel Nat := do
  if b > 65535 then return INVALID
  match ← answer with
  | .error code => return code
  | .ok _ => return (← answer).value

def connect (b c : Nat) : Kernel Nat := do
  if b > 0xffffffff ∨ c > 65535 then return INVALID
  return (← answer).value

def submit (b c d e : Nat) : Kernel Nat := do
  if d > 0xffffffff ∨ e > 65535 then return INVALID
  match ← answer with
  | .error code => return code
  | .ok _ =>
    touch b c
    return (← answer).value

def sendTo (b c d e : Nat) : Kernel Nat := do
  if c ≠ 0 then
    if (← mayUse b c) = false then return INVALID
  submit b c d e

def deliver (b c d : Nat) : Kernel Nat := do
  match ← answer with
  | .error code => return code
  | .ok _ =>
    touch b c
    match ← answer with
    | .error code => return code
    | .ok count =>
      if d ≠ 0 then
        touch d 4
        touch (d + 4) 2
        touch (d + 6) 2
      return count

def receiveFrom (b c d : Nat) : Kernel Nat := do
  if c ≠ 0 then
    if (← mayUse b c) = false then return INVALID
  if d ≠ 0 then
    if d &&& 3 ≠ 0 then return INVALID
    if (← mayUse d 8) = false then return INVALID
  deliver b c d

def openFile (a b : Nat) : Kernel Nat := do
  if b = 0 ∨ b > 255 then return INVALID
  if (← mayUse a b) = false then return INVALID
  if (← validate a b) = false then return INVALID
  touch a b
  return (← answer).value

def transfer (b c : Nat) : Kernel Nat := do
  if c = 0 then return 0
  if (← mayUse b c) = false then return INVALID
  touch b c
  return (← answer).value

def makePipe (a : Nat) : Kernel Nat := do
  if a &&& 7 ≠ 0 then return INVALID
  if (← mayUse a 16) = false then return INVALID
  match ← answer with
  | .error code => return code
  | .ok _ =>
    touch a 8
    touch (a + 8) 8
    return 0

/-- The check of the three descriptors that `spawnWith` hands on, and what follows it. -/
def inherit (a b c d e : Nat) : Kernel Nat := do
  if e &&& 7 ≠ 0 then return FAILED
  if (← mayUse e 24) = false then return FAILED
  touch e 8
  touch (e + 8) 8
  touch (e + 16) 8
  if (← answer).isOk = false then return FAILED
  spawnNamed a b c d (d = 0)

def spawnWith (a b c d e : Nat) : Kernel Nat := do
  if b = 0 ∨ b > 255 ∨ d > 2048 then return FAILED
  if (← mayUse a b) = false then return FAILED
  if d ≠ 0 then
    if (← mayUse c d) = false then return FAILED
  inherit a b c d e

def dispatchFiles (id a b c d e : Nat) : Kernel Nat := do
  if (← answer).isOk = false then return BAD_DESCRIPTOR
  match id with
  | 29 => openFile a b
  | 30 => transfer b c
  | 31 => transfer b c
  | 32 => return (← answer).value
  | 33 => return (← answer).value
  | 34 => makePipe a
  | 35 => spawnWith a b c d e
  | 36 => return (← answer).value
  | 37 => return (← answer).value
  | 38 => bindSocket b
  | 39 => connect b c
  | 40 => sendTo b c d e
  | 41 => receiveFrom b c d
  | _ => return FAILED

def dispatch (id a b c d e : Nat) : Kernel Nat :=
  match id with
  | 0 => print a b
  | 1 => return 0
  | 2 => return 0
  | 3 => thread a b
  | 4 => return 0
  | 5 => halt
  | 6 => return 0
  | 7 => halt
  | 8 => return (← answer).value
  | 9 => return 0
  | 10 => return 0
  | 11 => return (← answer).value
  | 12 => list a b
  | 13 => createFile a b c d
  | 14 => readFile a b c d
  | 15 => deleteFile a b
  | 16 => return (← answer).value
  | 17 => return (← answer).value
  | 18 => halt
  | 19 => return 0
  | 20 => drawRegion a b c d e
  | 21 => spawnProgram 21 a b c d
  | 22 => spawnProgram 22 a b c d
  | 23 => ping a
  | 24 => popEcho a b
  | 25 => return 0
  | 26 => return (← answer).value
  | 27 => resolve a b
  | 28 => growHeap
  | id => dispatchFiles id a b c d e

end Kaguya.Syscall
