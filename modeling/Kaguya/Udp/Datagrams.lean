import Kaguya.Net.Dns
import Kaguya.Net.Fields
import Kaguya.Tcp.Control

/-!
# Datagrams on the wire

The bytes that `send` of `net_udp.jh` builds and the tests that `incoming` makes before it looks for
a socket. A checksum of zero means that there is none, so one that comes out as zero is sent as
`0xffff`.
-/

namespace Kaguya.Udp

open Trapping Net List
open Tcp (Endpoint)

structure Datagram where
  source : Endpoint
  data : List UInt8
  deriving DecidableEq, Repr

def encode (port : UInt16) (peer : Endpoint) (data : List UInt8) : Trapping (List UInt8) := do
  let length ← plus 63 data.length 8
  let segment ← put16 (replicate 1480 0) 0 port
  let segment ← put16 segment 2 peer.port
  let segment ← put16 segment 4 (UInt16.ofNat length)
  let segment ← fill segment 8 data
  let checksum ← transport HOST peer.ip 17 (← slice segment 0 length)
  let segment ← put16 segment 6 (if checksum = 0 then 0xffff else checksum)
  slice segment 0 length

inductive Accepted where
  | ignored
  | answer (bytes : List UInt8)
  | datagram (port : UInt16) (message : Datagram)
  deriving DecidableEq

def checked (src dst : UInt32) (bytes : List UInt8) : Trapping Bool := do
  if (← get16 bytes 6) ≠ 0 then
    return (← transport src dst 17 bytes) = 0
  return true

/-- `incoming` up to the point where it looks for the socket. -/
def accept (src dst : UInt32) (segment : List UInt8) : Trapping Accepted := do
  if segment.length < 8 then return .ignored
  let length := (← get16 segment 4).toNat
  if length < 8 ∨ length > segment.length then return .ignored
  let bytes ← slice segment 0 length
  if !(← checked src dst bytes) then return .ignored
  let port ← get16 bytes 2
  if port = Dns.PORT then return .answer bytes
  let source ← get16 bytes 0
  let payload ← (range' 8 (length - 8)).mapM (index bytes)
  return .datagram port ⟨⟨src, source⟩, payload⟩

variable (port : UInt16) (peer : Endpoint) {data : List UInt8}

def front (length : Nat) : List UInt8 :=
  be16 port ++ be16 peer.port ++ be16 (UInt16.ofNat length)

theorem length_front (length : Nat) : (front port peer length).length = 6 := rfl

def segmentBytes (checksum : UInt16) (data : List UInt8) : List UInt8 :=
  front port peer (data.length + 8) ++ (be16 checksum ++ data)

theorem length_segmentBytes (checksum : UInt16) (data : List UInt8) :
    (segmentBytes port peer checksum data).length = data.length + 8 := by
  simp only [segmentBytes, length_append, length_front, length_be16]
  omega

theorem encode_eq (hdata : data.length ≤ 1472) :
    ∃ checksum, transport HOST peer.ip 17 (segmentBytes port peer 0 data) = .ok checksum
        ∧ encode port peer data
        = .ok (segmentBytes port peer (if checksum = 0 then 0xffff else checksum) data) := by
  obtain ⟨checksum, hchecksum, -⟩ := @returns_transport
    (segmentBytes port peer 0 data) HOST peer.ip 17 (by rw [length_segmentBytes]; omega)
  refine ⟨checksum, hchecksum, ?_⟩
  unfold encode
  rw [plus_eq (by omega), ok_bind, ← nil_append (replicate 1480 0),
    put16_next (by rfl) (by omega), ok_bind, put16_next (by rfl) (by omega), ok_bind,
    put16_next (by rfl) (by omega), ok_bind, @skip_next _ 1472 2,
    fill_next (by rfl) hdata, ok_bind, nil_append]
  have hlength : (replicate (1472 - data.length) (0 : UInt8)).length ≤ 1472 := by
    rw [length_replicate]
    omega
  generalize replicate (1472 - data.length) (0 : UInt8) = rest at hlength
  have hunsealed : be16 port ++ be16 peer.port ++ be16 (UInt16.ofNat (data.length + 8))
      ++ replicate 2 0 ++ data = segmentBytes port peer 0 data := by
    rw [append_assoc]
    rfl
  have hsealed : ∀ field, put16 (segmentBytes port peer 0 data ++ rest) 6 field
      = .ok (segmentBytes port peer field data ++ rest) := by
    intro field
    unfold segmentBytes
    rw [append_assoc, append_assoc]
    apply put16_at (length_front ..)
    change 6 + 2 + (data ++ rest).length < 2 ^ 63
    rw [length_append]
    omega
  rw [hunsealed, slice_written (length_segmentBytes ..), ok_bind, hchecksum, ok_bind, hsealed,
    ok_bind, slice_written (length_segmentBytes ..)]

theorem sealed_ne_zero (checksum : UInt16) : (if checksum = 0 then 0xffff else checksum) ≠ 0 := by
  split
  · decide
  · assumption

theorem sealed_mod (checksum : UInt16) :
    (if checksum = 0 then 0xffff else checksum).toNat % 65535 = checksum.toNat % 65535 := by
  split
  case isTrue hzero =>
    rw [hzero]
    rfl
  case isFalse => rfl

/-- **Datagrams agree.** What `send` builds passes the tests of `incoming` and is read back as it
was written, unless it is for the resolver. -/
theorem encode_accept (hdata : data.length ≤ 1472) :
    ∃ bytes, encode port peer data = .ok bytes ∧ accept HOST peer.ip bytes
        = .ok (if peer.port = Dns.PORT then .answer bytes
        else .datagram peer.port ⟨⟨HOST, port⟩, data⟩) := by
  obtain ⟨checksum, hchecksum, hencode⟩ := encode_eq port peer hdata
  refine ⟨_, hencode, ?_⟩
  have hne := sealed_ne_zero checksum
  have hmod := sealed_mod checksum
  generalize (if checksum = 0 then 0xffff else checksum) = field at hne hmod
  have hlength := length_segmentBytes port peer field data
  have hsealed : transport HOST peer.ip 17 (segmentBytes port peer field data) = .ok 0 :=
    transport_sealed (by rw [length_front]) (by change 6 + 2 + data.length ≤ 65535; omega)
    (by decide) hchecksum hmod
  have hchecked : checked HOST peer.ip (segmentBytes port peer field data) = .ok true := by
    unfold checked
    rw [@get16_of _ 6 field (by omega) rfl rfl, ok_bind, if_pos hne, hsealed, ok_bind]
    rfl
  have hsize : (UInt16.ofNat (data.length + 8)).toNat = data.length + 8 :=
    UInt16.toNat_ofNat_of_lt' (by change data.length + 8 < 65536; omega)
  unfold accept
  rw [if_neg (by omega), @get16_of _ 4 (UInt16.ofNat (data.length + 8)) (by omega) rfl rfl, ok_bind,
    hsize, if_neg (by omega), slice_eq (Nat.zero_le _) (by omega), ok_bind, ← hlength,
    take_length, drop_zero, hchecked, ok_bind, if_neg (by simp),
    @get16_of _ 2 peer.port (by omega) rfl rfl, ok_bind]
  by_cases hport : peer.port = Dns.PORT
  · rw [if_pos hport, if_pos hport]
    rfl
  rw [if_neg hport, if_neg hport, @get16_of _ 0 port (by omega) rfl rfl, ok_bind,
    mapM_index (by omega), ok_bind, hlength, Nat.add_sub_cancel,
    show (segmentBytes port peer field data).drop 8 = data from rfl, take_length]
  rfl

end Kaguya.Udp
