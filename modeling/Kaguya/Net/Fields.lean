import Kaguya.Net.Wire

/-!
# Messages and their checksums

A message is written into a buffer of zeros from front to back. The lemmas follow the buffer, as
what is written so far and the zeros behind it, and say what is read back from it. The checksum is
written last, into a field that was left zero: the message then adds up, whatever else it says.
-/

namespace Kaguya.Net

open Trapping List

def be16 (value : UInt16) : List UInt8 := [(value >>> 8).toUInt8, value.toUInt8]

def be32 (value : UInt32) : List UInt8 := be16 (value >>> 16).toUInt16 ++ be16 value.toUInt16

@[simp] theorem length_be16 (value : UInt16) : (be16 value).length = 2 := rfl

theorem word_be16 (value : UInt16) : word (value >>> 8).toUInt8 value.toUInt8 = value := by
  apply UInt16.toNat_inj.1
  have hvalue := value.toNat_lt
  rw [toNat_word, UInt16.toNat_toUInt8, UInt16.toNat_toUInt8, UInt16.toNat_shiftRight]
  change (value.toNat >>> 8) % 256 * 256 + value.toNat % 256 = value.toNat
  rw [Nat.shiftRight_eq_div_pow]
  omega

theorem dword_be32 (value : UInt32) :
    (value >>> 16).toUInt16.toUInt32 <<< 16 ||| value.toUInt16.toUInt32 = value := by
  apply UInt32.toNat_inj.1
  have hvalue := value.toNat_lt
  have hhigh : (value >>> 16).toUInt16.toUInt32.toNat = value.toNat / 65536 := by
    rw [UInt16.toNat_toUInt32, UInt32.toNat_toUInt16, UInt32.toNat_shiftRight]
    change (value.toNat >>> 16) % 65536 = _
    rw [Nat.shiftRight_eq_div_pow]
    omega
  have hlow : value.toUInt16.toUInt32.toNat = value.toNat % 65536 := by
    rw [UInt16.toNat_toUInt32, UInt32.toNat_toUInt16]
  have hshift : ((value >>> 16).toUInt16.toUInt32 <<< 16).toNat = (value.toNat / 65536) <<< 16 := by
    rw [UInt32.toNat_shiftLeft, hhigh]
    apply Nat.mod_eq_of_lt
    rw [Nat.shiftLeft_eq]
    change value.toNat / 65536 * 65536 < 4294967296
    omega
  rw [UInt32.toNat_or, hshift, hlow, ← Nat.shiftLeft_add_eq_or_of_lt (by omega), Nat.shiftLeft_eq]
  omega

section Writing
variable {written message rest : List UInt8} {n offset : Nat}

theorem store_next {value : UInt8} (hoffset : written.length = offset) :
    store (written ++ replicate (n + 1) 0) offset value
      = .ok ((written ++ [value]) ++ replicate n 0) := by
  subst hoffset
  rw [store_eq (by simp), replicate_succ, append_assoc]
  simp

theorem put16_at {a b : UInt8} {value : UInt16} (hoffset : written.length = offset)
    (hlength : offset + 2 + rest.length < 2 ^ 63) :
    put16 (written ++ a :: b :: rest) offset value = .ok (written ++ (be16 value ++ rest)) := by
  subst hoffset
  rw [put16_eq (by simp) (by simp only [length_append, length_cons]; omega)]
  simp [be16]

theorem put16_next {value : UInt16} (hoffset : written.length = offset)
    (hlength : offset + 2 + n < 2 ^ 63) :
    put16 (written ++ replicate (n + 2) 0) offset value
      = .ok ((written ++ be16 value) ++ replicate n 0) := by
  rw [append_assoc]
  exact put16_at hoffset (by rwa [length_replicate])

theorem put32_next {value : UInt32} (hoffset : written.length = offset)
    (hlength : offset + 4 + n < 2 ^ 63) :
    put32 (written ++ replicate (n + 4) 0) offset value
      = .ok ((written ++ be32 value) ++ replicate n 0) := by
  unfold put32
  rw [@put16_next written (n + 2) offset _ hoffset (by omega), ok_bind, plus_eq (by omega), ok_bind,
    put16_next (by rw [length_append, hoffset, length_be16]) (by omega),
    append_assoc written, be32]

theorem skip_next (k : Nat) :
    written ++ replicate (n + k) (0 : UInt8) = (written ++ replicate k 0) ++ replicate n 0 := by
  rw [append_assoc, replicate_append_replicate, Nat.add_comm]

theorem fill_next (hoffset : written.length = offset) (hfits : message.length ≤ n) :
    fill (written ++ replicate n 0) offset message
      = .ok ((written ++ message) ++ replicate (n - message.length) 0) := by
  subst hoffset
  rw [fill_eq (by simpa using hfits), take_left, drop_length_add_append, drop_replicate]

theorem slice_written {last : Nat} (hlast : written.length = last) :
    slice (written ++ rest) 0 last = .ok written := by
  subst hlast
  rw [slice_eq (Nat.zero_le _) (by simp), take_left, drop_zero]

end Writing

section Reading
variable {data : List UInt8} {offset : Nat}

theorem index_of {value : UInt8} (h : data[offset]? = some value) :
    index data offset = .ok value := by
  rw [index, h]

theorem get16_of {value : UInt16} (hoffset : offset + 1 < 2 ^ 63)
    (hhigh : data[offset]? = some (value >>> 8).toUInt8)
    (hlow : data[offset + 1]? = some value.toUInt8) : get16 data offset = .ok value := by
  unfold get16
  rw [index_of hhigh, ok_bind, plus_eq hoffset, ok_bind, index_of hlow, ok_bind]
  exact congrArg _ (word_be16 value)

theorem get32_of {value : UInt32} (hoffset : offset + 3 < 2 ^ 63)
    (hhigh : get16 data offset = .ok (value >>> 16).toUInt16)
    (hlow : get16 data (offset + 2) = .ok value.toUInt16) : get32 data offset = .ok value := by
  unfold get32
  rw [hhigh, ok_bind, plus_eq (by omega), ok_bind, hlow, ok_bind]
  exact congrArg _ (dword_be32 value)

end Reading

variable {before after : List UInt8}

theorem words_append (h : before.length % 2 = 0) :
    words (before ++ after) = words before + words after := by
  induction before using words.induct with
  | case1 high low rest ih =>
    have hrest : rest.length % 2 = 0 := by
      rw [length_cons, length_cons] at h
      omega
    rw [cons_append, cons_append, words, words, ih hrest, ← Nat.add_assoc]
  | case2 => simp at h
  | case3 => simp [words]

theorem words_be16 (value : UInt16) : words (be16 value) = value.toNat := by
  rw [be16, words, words, ← toNat_word, word_be16, Nat.add_zero]

theorem carried_mod (total : Nat) : carried total % 65535 = total % 65535 := by
  unfold carried
  split <;> omega

theorem toNat_complement_carried (total : Nat) :
    (~~~UInt16.ofNat (carried total)).toNat = 65535 - carried total := by
  have hcarried := carried_le total
  rw [UInt16.toNat_not, UInt16.toNat_ofNat_of_lt' (by change carried total < 65536; omega)]
  rfl

/-- **A message with its checksum adds up.** The field was zero when the checksum was computed, and
holds a number that is the checksum up to multiples of `0xffff`. -/
theorem transport_sealed {src dst : UInt32} {protocol : UInt8} {checksum field : UInt16}
    (heven : before.length % 2 = 0) (hlength : before.length + 2 + after.length ≤ 65535)
    (hprotocol : 0 < protocol.toNat)
    (hchecksum : transport src dst protocol (before ++ (be16 0 ++ after)) = .ok checksum)
    (hfield : field.toNat % 65535 = checksum.toNat % 65535) :
    transport src dst protocol (before ++ (be16 field ++ after)) = .ok 0 := by
  have hwords : ∀ value, words (before ++ (be16 value ++ after)) = words before
      + (value.toNat + words after) := by
    intro value
    rw [words_append heven, words_append (by rw [length_be16]), words_be16]
  have hlen : ∀ value, (before ++ (be16 value ++ after)).length = before.length + 2
      + after.length := by
    intro value
    simp only [length_append, length_be16]
    omega
  rw [transport_eq (by rw [hlen]; omega), hwords, hlen] at hchecksum ⊢
  have hcarried := carried_le (pseudoHeader src dst protocol (before.length + 2 + after.length)
    + (words before + ((0 : UInt16).toNat + words after)))
  have hmod := carried_mod (pseudoHeader src dst protocol (before.length + 2 + after.length)
    + (words before + ((0 : UInt16).toNat + words after)))
  rw [← Except.ok.inj hchecksum, toNat_complement_carried] at hfield
  rw [complement_carried_eq_zero]
  · unfold pseudoHeader
    omega
  · have hzero : (0 : UInt16).toNat = 0 := rfl
    omega

end Kaguya.Net
