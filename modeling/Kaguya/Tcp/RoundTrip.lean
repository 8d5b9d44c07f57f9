import Kaguya.Net.Fields
import Kaguya.Tcp.Segments

/-!
# Segments read back

What `transmit` writes is what `parse` reads, and it passes the test of the checksum.
-/

namespace Kaguya.Tcp

open Trapping Net List

def transmitted (port : UInt16) (remote : Endpoint) (sequence acknowledgement : Seq)
    (flags : UInt8) (window : Nat) (payload : List UInt8) : Segment where
  source := port
  destination := remote.port
  sequence := sequence
  ack := acknowledgement
  flags := flags
  window := min window 65535
  mss := if flags &&& SYN ≠ 0 then some 1460 else none
  payload := payload

variable (port : UInt16) (remote : Endpoint) (sequence acknowledgement : Seq) (flags : UInt8)
  (window : Nat)

def front (offset : UInt8) : List UInt8 :=
  be16 port ++ be16 remote.port ++ be32 (UInt32.ofBitVec sequence)
    ++ be32 (UInt32.ofBitVec acknowledgement) ++ [offset] ++ [flags]
    ++ be16 (UInt16.ofNat (min window 65535))

def mssOption : List UInt8 := [2] ++ [4] ++ be16 (UInt16.ofNat MSS)

def headers : UInt8 × List UInt8 :=
  if flags &&& SYN ≠ 0 then (0x60, mssOption) else (0x50, [])

def segmentBytes (checksum : UInt16) (payload : List UInt8) : List UInt8 :=
  front port remote sequence acknowledgement flags window (headers flags).1
    ++ (be16 checksum ++ ([0, 0] ++ (headers flags).2 ++ payload))

theorem headerLength_eq :
    (if flags &&& SYN ≠ 0 then 24 else 20) = 20 + (headers flags).2.length := by
  unfold headers
  split <;> rfl

theorem headerOffset_eq :
    UInt8.ofNat ((20 + (headers flags).2.length) / 4) <<< 4 = (headers flags).1 := by
  unfold headers
  split <;> rfl

theorem length_options_le : (headers flags).2.length ≤ 4 := by
  unfold headers
  split <;> decide

theorem length_front (offset : UInt8) :
    (front port remote sequence acknowledgement flags window offset).length = 16 := rfl

theorem length_segmentBytes (checksum : UInt16) (payload : List UInt8) :
    (segmentBytes port remote sequence acknowledgement flags window checksum payload).length
      = 20 + (headers flags).2.length + payload.length := by
  simp only [segmentBytes, length_append, length_front, length_be16, length_cons, length_nil]
  omega

theorem putMss_eq {written : List UInt8} (hwritten : written.length = 16) :
    putMss flags (written ++ replicate 1468 0)
        = .ok ((written ++ ([0, 0, 0, 0] ++ (headers flags).2))
        ++ replicate (1464 - (headers flags).2.length) 0) := by
  unfold putMss headers
  by_cases hsyn : flags &&& SYN ≠ 0
  · have hskipped : (written ++ replicate 4 0).length = 20 := by simp [hwritten]
    rw [if_pos hsyn, if_pos hsyn, @skip_next written 1464 4, store_next hskipped, ok_bind,
      store_next (by simp [hwritten]), ok_bind, put16_next (by simp [hwritten]) (by omega)]
    simp only [append_assoc]
    rfl
  · rw [if_neg hsyn, if_neg hsyn, @skip_next written 1464 4]
    rfl

theorem encode_front {α : Type} (offset : UInt8) (next : List UInt8 → Trapping α) : (do
      let bytes ← put16 (replicate 1484 0) 0 port
      let bytes ← put16 bytes 2 remote.port
      let bytes ← put32 bytes 4 (UInt32.ofBitVec sequence)
      let bytes ← put32 bytes 8 (UInt32.ofBitVec acknowledgement)
      let bytes ← store bytes 12 offset
      let bytes ← store bytes 13 flags
      let bytes ← put16 bytes 14 (UInt16.ofNat (min window 65535))
      next bytes)
    = next (front port remote sequence acknowledgement flags window offset ++ replicate 1468
      0) := by
  rw [← nil_append (replicate 1484 0), put16_next (by rfl) (by omega), ok_bind,
    put16_next (by rfl) (by omega), ok_bind, put32_next (by rfl) (by omega), ok_bind,
    put32_next (by rfl) (by omega), ok_bind, store_next (by rfl), ok_bind, store_next (by rfl),
    ok_bind, put16_next (by rfl) (by omega), ok_bind]
  rfl

variable {payload : List UInt8}

theorem encode_eq (hpayload : payload.length ≤ MSS) : ∃ checksum, transport HOST remote.ip 6
        (segmentBytes port remote sequence acknowledgement flags window 0 payload) = .ok checksum
      ∧ encode port remote sequence acknowledgement flags window payload
        = .ok (some (segmentBytes port remote sequence acknowledgement flags window checksum
          payload)) := by
  have hpayload : payload.length ≤ 1460 := hpayload
  have hoptions := length_options_le flags
  obtain ⟨checksum, hchecksum, -⟩ := @returns_transport
    (segmentBytes port remote sequence acknowledgement flags window 0 payload) HOST remote.ip 6
    (by rw [length_segmentBytes]; omega)
  refine ⟨checksum, hchecksum, ?_⟩
  unfold encode
  rw [if_neg (by rw [MSS]; omega)]
  dsimp only
  rw [headerLength_eq, headerOffset_eq, encode_front, putMss_eq _ (length_front ..), ok_bind,
    fill_next (by simp [length_front]; omega) (by omega), ok_bind, plus_eq (by omega), ok_bind]
  have hlength : (replicate (1464 - (headers flags).2.length - payload.length) (0 : UInt8)).length
      ≤ 1464 := by
    rw [length_replicate]
    omega
  generalize replicate (1464 - (headers flags).2.length - payload.length) (0 : UInt8)
    = rest at hlength
  have hunsealed : front port remote sequence acknowledgement flags window (headers flags).1
      ++ ([0, 0, 0, 0] ++ (headers flags).2) ++ payload
      = segmentBytes port remote sequence acknowledgement flags window 0 payload := by
    rw [append_assoc, append_assoc]
    rfl
  have hsealed : put16 (segmentBytes port remote sequence acknowledgement flags window 0 payload
    ++ rest) 16 checksum
      = .ok (segmentBytes port remote sequence acknowledgement flags window checksum payload
      ++ rest) := by
    unfold segmentBytes
    rw [append_assoc, append_assoc]
    apply put16_at (length_front ..)
    change 16 + 2 + ([0, 0] ++ (headers flags).2 ++ payload ++ rest).length < 2 ^ 63
    simp only [length_append, length_cons, length_nil]
    omega
  rw [hunsealed, slice_written (length_segmentBytes ..), ok_bind, hchecksum, ok_bind, hsealed,
    ok_bind, slice_written (length_segmentBytes ..)]
  rfl

theorem headerLength_offset :
    ((headers flags).1 >>> 4).toNat * 4 = 20 + (headers flags).2.length := by
  unfold headers
  split <;> rfl

theorem options_eq (checksum : UInt16) (payload : List UInt8) :
    loop (optionRound (segmentBytes port remote sequence acknowledgement flags window checksum
        payload) (20 + (headers flags).2.length)) (20 + (headers flags).2.length + 1) ⟨20, none⟩
      = .ok (if flags &&& SYN ≠ 0 then some 1460 else none) := by
  by_cases hsyn : flags &&& SYN ≠ 0
  · have hheaders : headers flags = (0x60, mssOption) := if_pos hsyn
    rw [if_pos hsyn]
    unfold segmentBytes
    rw [hheaders]
    rfl
  · have hheaders : headers flags = (0x50, []) := if_neg hsyn
    rw [if_neg hsyn]
    unfold segmentBytes
    rw [hheaders]
    rfl

theorem parse_segmentBytes (checksum : UInt16) :
    parse (segmentBytes port remote sequence acknowledgement flags window checksum payload)
      = .ok (some (transmitted port remote sequence acknowledgement flags window payload)) := by
  have hoptions := length_options_le flags
  have hlength := length_segmentBytes port remote sequence acknowledgement flags window checksum
    payload
  have hrest : (segmentBytes port remote sequence acknowledgement flags window checksum
      payload).drop (20 + (headers flags).2.length) = payload := by
    have hsplit : segmentBytes port remote sequence acknowledgement flags window checksum payload
        = (front port remote sequence acknowledgement flags window (headers flags).1
          ++ (be16 checksum ++ ([0, 0] ++ (headers flags).2))) ++ payload := by
      simp only [segmentBytes, append_assoc]
    rw [hsplit, drop_left']
    simp only [length_append, length_front, length_be16, length_cons, length_nil]
    omega
  have hwindow : (UInt16.ofNat (min window 65535)).toNat = min window 65535 :=
    UInt16.toNat_ofNat_of_lt' (by change min window 65535 < 65536; omega)
  unfold parse
  rw [if_neg (by omega), @index_of _ 12 (headers flags).1 rfl, ok_bind,
    times_eq (by rw [headerLength_offset]; omega), ok_bind, headerLength_offset,
    if_neg (by omega), options_eq, ok_bind, @get16_of _ 0 port (by omega) rfl rfl, ok_bind,
    @get16_of _ 2 remote.port (by omega) rfl rfl, ok_bind,
    @get32_of _ 4 (UInt32.ofBitVec sequence) (by omega) (get16_of (by omega) rfl rfl)
    (get16_of (by omega) rfl rfl), ok_bind, @get32_of _ 8 (UInt32.ofBitVec acknowledgement)
      (by omega) (get16_of (by omega) rfl rfl) (get16_of (by omega) rfl rfl), ok_bind,
      @index_of _ 13 flags rfl, ok_bind,
    @get16_of _ 14 (UInt16.ofNat (min window 65535)) (by omega) rfl rfl, ok_bind,
    slice_eq (by omega) (Nat.le_refl _), ok_bind, take_length, hrest, hwindow]
  rfl

/-- **Segments agree.** What `transmit` sends adds up and is read back as it was written. -/
theorem encode_parse (hpayload : payload.length ≤ MSS) :
    ∃ bytes, encode port remote sequence acknowledgement flags window payload = .ok (some bytes)
      ∧ transport HOST remote.ip 6 bytes = .ok 0
      ∧ parse bytes = .ok
        (some (transmitted port remote sequence acknowledgement flags window payload)) := by
  have hoptions := length_options_le flags
  have hshort : payload.length ≤ 1460 := hpayload
  obtain ⟨checksum, hchecksum, hencode⟩ :=
    encode_eq port remote sequence acknowledgement flags window hpayload
  refine ⟨_, hencode, ?_, parse_segmentBytes _ _ _ _ _ _ checksum⟩
  refine transport_sealed (by rw [length_front]) ?_ (by decide) hchecksum rfl
  simp only [length_append, length_front, length_cons, length_nil]
  omega

end Kaguya.Tcp
