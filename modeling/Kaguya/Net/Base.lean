import Kaguya.Net.Wire

/-!
# Frames

`net_base.jh`: what a received frame is, and the ring of echo replies.
-/

namespace Kaguya.Net

open Trapping

def HOST : UInt32 := 0x0f02000a
def GATEWAY : UInt32 := 0x0202000a
def DNS : UInt32 := 0x0302000a

structure Mac where
  bytes : List UInt8
  length_eq : bytes.length = 6
  deriving DecidableEq

structure EchoRing where
  data : List (List UInt8)
  head : Nat
  tail : Nat
  deriving DecidableEq

inductive Received where
  | ignored
  | arpReply (sender : UInt32) (mac : Mac)
  | arpRequest (sender : UInt32) (mac : Mac)
  | udp (src dst : UInt32) (payload : List UInt8)
  | tcp (src dst : UInt32) (payload : List UInt8)
  | echoRequest (mac : Mac) (src : UInt32) (payload : List UInt8)
  | echoReply (src : UInt32) (payload : List UInt8)
  deriving DecidableEq

def macAt (data : List UInt8) (offset : Nat) : Trapping Mac := do
  let a ← index data offset
  let b ← index data (offset + 1)
  let c ← index data (offset + 2)
  let d ← index data (offset + 3)
  let e ← index data (offset + 4)
  let f ← index data (offset + 5)
  pure ⟨[a, b, c, d, e, f], rfl⟩

def receiveArp (data : List UInt8) : Trapping Received := do
  if data.length < 42 then return .ignored
  if (← get16 data 14) ≠ 1 then return .ignored
  if (← get16 data 16) ≠ 0x800 then return .ignored
  if (← index data 18) ≠ 6 then return .ignored
  if (← index data 19) ≠ 4 then return .ignored
  let opcode ← get16 data 20
  let sender ← ip data 28
  let target ← ip data 38
  let mac ← macAt data 22
  if opcode = 2 then return .arpReply sender mac
  if opcode = 1 ∧ target = HOST then return .arpRequest sender mac
  return .ignored

def receiveIcmp (data : List UInt8) (src : UInt32) (payload : List UInt8) : Trapping Received := do
  if payload.length < 8 then return .ignored
  if (← sum payload) ≠ 0 then return .ignored
  if (← index payload 0) = 8 then return .echoRequest (← macAt data 6) src payload
  if (← index payload 0) = 0 then return .echoReply src payload
  return .ignored

def receiveIp (data : List UInt8) : Trapping Received := do
  if data.length < 34 then return .ignored
  if (← index data 14) >>> 4 ≠ 4 then return .ignored
  let header ← times 63 ((← index data 14) &&& 15).toNat 4
  let total := (← get16 data 16).toNat
  if header < 20 ∨ header > total then return .ignored
  if (← plus 63 total 14) > data.length then return .ignored
  if (← get16 data 20) &&& 0x3fff ≠ 0 then return .ignored
  if (← sum (← slice data 14 (← plus 63 14 header))) ≠ 0 then return .ignored
  let src ← ip data 26
  let dst ← ip data 30
  if dst ≠ HOST then return .ignored
  let payload ← slice data (← plus 63 14 header) (← plus 63 14 total)
  let protocol ← index data 23
  if protocol = 17 then return .udp src dst payload
  if protocol = 6 then return .tcp src dst payload
  if protocol ≠ 1 then return .ignored
  receiveIcmp data src payload

/-- `incoming` up to the point where it knows what it has received. -/
def receive (data : List UInt8) : Trapping Received := do
  if data.length < 14 then return .ignored
  let kind ← get16 data 12
  if kind = 0x806 then receiveArp data
  else if kind = 0x800 then receiveIp data
  else return .ignored

def echoRecord (src : UInt32) (payload : List UInt8) : Trapping (List UInt8) := do
  let reply ← putIp (List.replicate 74 0) 0 src
  let id ← get16 payload 4
  let seq ← get16 payload 6
  let count := min (← minus payload.length 8) 64
  let reply ← store reply 4 id.toUInt8
  let reply ← store reply 5 (id >>> 8).toUInt8
  let reply ← store reply 6 seq.toUInt8
  let reply ← store reply 7 (seq >>> 8).toUInt8
  let reply ← store reply 8 (UInt8.ofNat count)
  fill reply 10 (← slice payload 8 (← plus 63 8 count))

def pushEcho (ring : EchoRing) (src : UInt32) (payload : List UInt8) : Trapping EchoRing := do
  let next ← remainder (← plus 64 ring.head 1) 16
  if next = ring.tail then return ring
  let data ← store ring.data ring.head (← echoRecord src payload)
  return ⟨data, next, ring.tail⟩

/-- `pop_echo`: the oldest reply, cut to the capacity. -/
def popEcho (ring : EchoRing) (capacity : Nat) : Trapping (List UInt8 × EchoRing) := do
  if ring.head = ring.tail then return ([], ring)
  let count := min capacity 74
  let output ← slice (← index ring.data ring.tail) 0 count
  let tail ← remainder (← plus 64 ring.tail 1) 16
  return (output, { ring with tail })

end Kaguya.Net
