import Kaguya.Net.Base
import Kaguya.Tcp.Control

/-!
# Segments on the wire

`parse` and `transmit` of `net_tcp.jh`: a segment of a connection and its bytes.
-/

namespace Kaguya.Tcp

open Trapping Net

structure Options where
  position : Nat
  mss : Option Nat

def optionRound (bytes : List UInt8) (header : Nat) (o : Options) :
    Trapping (Round Options (Option Nat)) := do
  if o.position < header then
    let kind ← index bytes o.position
    if kind = 0 then return .leave o.mss
    if kind = 1 then return .again ⟨← plus 63 o.position 1, o.mss⟩
    if (← plus 63 o.position 2) > header then return .leave o.mss
    let length := (← index bytes (← plus 63 o.position 1)).toNat
    if length < 2 then return .leave o.mss
    if length > (← minus header o.position) then return .leave o.mss
    let position ← plus 63 o.position length
    if kind = 2 ∧ length = 4 then
      let value ← get16 bytes (← plus 63 o.position 2)
      return .again ⟨position, some value.toNat⟩
    return .again ⟨position, o.mss⟩
  else return .leave o.mss

def parse (bytes : List UInt8) : Trapping (Option Segment) := do
  if bytes.length < 20 then return none
  let header ← times 63 ((← index bytes 12) >>> 4).toNat 4
  if header < 20 ∨ header > bytes.length then return none
  let mss ← loop (optionRound bytes header) (header + 1) ⟨20, none⟩
  let source ← get16 bytes 0
  let destination ← get16 bytes 2
  let sequence ← get32 bytes 4
  let ack ← get32 bytes 8
  let flags ← index bytes 13
  let window ← get16 bytes 14
  let payload ← slice bytes header bytes.length
  return some { source, destination, sequence := sequence.toBitVec, ack := ack.toBitVec, flags,
                window := window.toNat, mss, payload }

def putMss (flags : UInt8) (bytes : List UInt8) : Trapping (List UInt8) := do
  if flags &&& SYN ≠ 0 then
    let bytes ← store bytes 20 2
    let bytes ← store bytes 21 4
    put16 bytes 22 (UInt16.ofNat MSS)
  else return bytes

/-- The bytes that `transmit` hands on, unless the payload is too long. -/
def encode (port : UInt16) (remote : Endpoint) (sequence acknowledgement : Seq) (flags : UInt8)
    (window : Nat) (payload : List UInt8) : Trapping (Option (List UInt8)) := do
  if payload.length > MSS then return none
  let header := if flags &&& SYN ≠ 0 then 24 else 20
  let bytes ← put16 (List.replicate 1484 0) 0 port
  let bytes ← put16 bytes 2 remote.port
  let bytes ← put32 bytes 4 (UInt32.ofBitVec sequence)
  let bytes ← put32 bytes 8 (UInt32.ofBitVec acknowledgement)
  let bytes ← store bytes 12 (UInt8.ofNat (header / 4) <<< 4)
  let bytes ← store bytes 13 flags
  let bytes ← put16 bytes 14 (UInt16.ofNat (min window 65535))
  let bytes ← putMss flags bytes
  let bytes ← fill bytes header payload
  let length ← plus 63 header payload.length
  let checksum ← transport HOST remote.ip 6 (← slice bytes 0 length)
  let bytes ← put16 bytes 16 checksum
  some <$> slice bytes 0 length

end Kaguya.Tcp
