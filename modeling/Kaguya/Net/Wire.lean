import Mathlib.Data.Nat.Bitwise
import Mathlib.Tactic.NormNum
import Kaguya.Lib.Trapping

/-!
# Words on the wire

`net_wire.jh` and `checksum.jh`: fields in network order, addresses in memory order and the Internet
checksum. Positions are 64-bit signed numbers of the source that never go below zero. A pointer into
an array is the array, so that a store through it traps outside of the array although the machine
would not notice.
-/

namespace Kaguya.Net

open Trapping List

variable (data : List UInt8) (offset : Nat)

def get16 : Trapping UInt16 := do
  let high ← index data offset
  let low ← index data (← plus 63 offset 1)
  pure (high.toUInt16 <<< 8 ||| low.toUInt16)

def get32 : Trapping UInt32 := do
  let high ← get16 data offset
  let low ← get16 data (← plus 63 offset 2)
  pure (high.toUInt32 <<< 16 ||| low.toUInt32)

/-- An address keeps the order it has on the wire: its first byte is the lowest. -/
def ip : Trapping UInt32 := do
  let a ← index data offset
  let b ← index data (← plus 63 offset 1)
  let c ← index data (← plus 63 offset 2)
  let d ← index data (← plus 63 offset 3)
  pure (a.toUInt32 ||| b.toUInt32 <<< 8 ||| c.toUInt32 <<< 16 ||| d.toUInt32 <<< 24)

def put16 (value : UInt16) : Trapping (List UInt8) := do
  let data ← store data offset (value >>> 8).toUInt8
  store data (← plus 63 offset 1) value.toUInt8

def put32 (value : UInt32) : Trapping (List UInt8) := do
  let data ← put16 data offset (value >>> 16).toUInt16
  put16 data (← plus 63 offset 2) value.toUInt16

def putIp (address : UInt32) : Trapping (List UInt8) :=
  (range 4).foldlM (fun data i => do
    store data (← plus 63 offset i) (address >>> UInt32.ofNat (i * 8)).toUInt8) data

structure Cursor where
  sum : Nat
  position : Nat

def sumRound (bytes : List UInt8) (c : Cursor) : Trapping (Round Cursor Cursor) := do
  if (← plus 63 c.position 1) < bytes.length then
    let high ← index bytes c.position
    let low ← index bytes (← plus 63 c.position 1)
    let sum ← plus 32 c.sum ((high.toNat <<< 8) ||| low.toNat)
    let position ← plus 63 c.position 2
    pure (.again ⟨sum, position⟩)
  else pure (.leave c)

def foldRound (sum : Nat) : Trapping (Round Nat Nat) := do
  if sum >>> 16 ≠ 0 then
    let sum ← plus 32 (sum &&& 0xffff) (sum >>> 16)
    pure (.again sum)
  else pure (.leave sum)

def checksum (bytes : List UInt8) (initial : Nat) : Trapping UInt16 := do
  let c ← loop (sumRound bytes) (bytes.length + 1) ⟨initial, 0⟩
  let sum ← if c.position < bytes.length then do
      plus 32 c.sum ((← index bytes c.position).toNat <<< 8)
    else pure c.sum
  let sum ← loop foldRound (sum + 1) sum
  pure (~~~UInt16.ofNat sum)

def sum : Trapping UInt16 := checksum data 0

def addressSum (sum : Nat) (address : UInt32) : Trapping Nat := do
  let address := address.toNat
  let sum ← plus 32 sum (((address &&& 0xff) <<< 8) ||| ((address >>> 8) &&& 0xff))
  plus 32 sum ((((address >>> 16) &&& 0xff) <<< 8) ||| (address >>> 24))

def transport (src dst : UInt32) (protocol : UInt8) (data : List UInt8) : Trapping UInt16 := do
  let sum ← [src, dst].foldlM addressSum 0
  let sum ← plus 32 sum (← plus 32 protocol.toNat (data.length % 2 ^ 32))
  checksum data sum

variable {data offset}

def word (high low : UInt8) : UInt16 := high.toUInt16 <<< 8 ||| low.toUInt16

theorem toNat_word (high low : UInt8) : (word high low).toNat = high.toNat * 256 + low.toNat := by
  have hlow := low.toNat_lt
  have hhigh := high.toNat_lt
  have hshift : (high.toUInt16 <<< 8).toNat = high.toNat <<< 8 := by
    rw [UInt16.toNat_shiftLeft, UInt8.toNat_toUInt16]
    exact Nat.mod_eq_of_lt (by rw [Nat.shiftLeft_eq]; change high.toNat * 256 < 65536; omega)
  rw [word, UInt16.toNat_or, hshift, UInt8.toNat_toUInt16,
    ← Nat.shiftLeft_add_eq_or_of_lt (by omega), Nat.shiftLeft_eq]

theorem get16_eq (h : offset + 1 < data.length) (hlength : data.length < 2 ^ 63) :
    get16 data offset = .ok (word data[offset] data[offset + 1]) := by
  unfold get16
  rw [index_eq (by omega), ok_bind, plus_eq (by omega), ok_bind, index_eq h, ok_bind]
  rfl

theorem put16_eq {value : UInt16} (h : offset + 1 < data.length) (hlength : data.length < 2 ^ 63) :
    put16 data offset value = .ok ((data.set offset (value >>> 8).toUInt8).set (offset + 1)
      value.toUInt8) := by
  unfold put16
  rw [store_eq (by omega), ok_bind, plus_eq (by omega), ok_bind,
    store_eq (by rw [length_set]; exact h)]

/-- The sum of the words of a message; an odd last byte is the high byte of a word. -/
def words : List UInt8 → Nat
  | high :: low :: rest => high.toNat * 256 + low.toNat + words rest
  | [high] => high.toNat * 256
  | [] => 0

def carried (total : Nat) : Nat := if total = 0 then 0 else (total - 1) % 65535 + 1

theorem words_le (bytes : List UInt8) : words bytes ≤ 65535 * ((bytes.length + 1) / 2) := by
  induction bytes using words.induct with
  | case1 high low =>
    have hhigh := high.toNat_lt
    have hlow := low.toNat_lt
    rw [words, length_cons, length_cons]
    omega
  | case2 high =>
    have hhigh := high.toNat_lt
    rw [words, length_singleton]
    omega
  | case3 => exact Nat.zero_le _

theorem words_pair (high low : UInt8) :
    (high.toNat <<< 8) ||| low.toNat = high.toNat * 256 + low.toNat := by
  have hlow := low.toNat_lt
  rw [← Nat.shiftLeft_add_eq_or_of_lt (by omega), Nat.shiftLeft_eq]

variable {total : Nat} {bytes : List UInt8}

theorem carried_fold (h : 65536 ≤ total) :
    carried (total % 65536 + total / 65536) = carried total := by
  unfold carried
  rw [if_neg (by omega), if_neg (by omega)]
  omega

theorem carried_le (total : Nat) : carried total ≤ 65535 := by
  unfold carried
  split <;> omega

theorem returns_fold (h : total < 2 ^ 32) :
    Returns (loop foldRound (total + 1) total) (· = carried total) := by
  apply returns_loop (fun s => s < 2 ^ 32 ∧ carried s = carried total) id
  · intro s ⟨hs, hcarried⟩
    unfold foldRound
    rw [show (0xffff : Nat) = 2 ^ 16 - 1 from rfl, Nat.and_two_pow_sub_one_eq_mod,
      Nat.shiftRight_eq_div_pow]
    apply Returns.ite
    · intro hbig
      have hbig : 65536 ≤ s := by omega
      rw [plus_eq (by omega), ok_bind]
      apply returns_pure.mpr
      refine ⟨⟨by omega, ?_⟩, ?_⟩
      · rw [← hcarried]
        exact carried_fold hbig
      · change s % 65536 + s / 65536 < s
        omega
    · intro hsmall
      apply returns_pure.mpr
      change s = carried total
      rw [← hcarried, carried]
      split <;> omega
  · exact ⟨h, rfl⟩
  · exact Nat.lt_succ_self _

variable {i initial : Nat} {src dst : UInt32} {protocol : UInt8}

theorem words_drop_pair (h : i + 1 < bytes.length) :
    words (bytes.drop i) = bytes[i].toNat * 256 + bytes[i + 1].toNat + words
      (bytes.drop (i + 2)) := by
  rw [drop_eq_getElem_cons (by omega), drop_eq_getElem_cons h, words]

theorem words_drop_last (h : i < bytes.length) (hlast : bytes.length ≤ i + 1) :
    words (bytes.drop i) = bytes[i].toNat * 256 := by
  rw [drop_eq_getElem_cons h, drop_eq_nil_of_le hlast, words]

theorem returns_sumLoop (hlength : bytes.length < 2 ^ 62) (h : initial + words bytes < 2 ^ 32) :
    Returns (loop (sumRound bytes) (bytes.length + 1) ⟨initial, 0⟩) fun c =>
      bytes.length ≤ c.position + 1 ∧ c.sum + words (bytes.drop c.position) = initial + words
        bytes := by
  apply returns_loop (fun c => c.position ≤ bytes.length ∧ c.sum + words (bytes.drop c.position)
    = initial + words bytes)
    (fun c => bytes.length - c.position)
  · rintro ⟨sum, i⟩ ⟨hi, hsum⟩
    dsimp only at hi hsum
    unfold sumRound
    dsimp only
    rw [plus_eq (by omega), ok_bind]
    apply Returns.ite
    · intro hpair
      rw [words_drop_pair hpair] at hsum
      rw [index_eq (by omega), ok_bind, ok_bind, index_eq hpair, ok_bind, words_pair,
        plus_eq (by omega), ok_bind, plus_eq (by omega), ok_bind]
      apply returns_pure.mpr
      refine ⟨⟨?_, ?_⟩, ?_⟩ <;> dsimp only <;> omega
    · intro hend
      exact returns_pure.mpr ⟨by dsimp only; omega, hsum⟩
  · exact ⟨Nat.zero_le _, by rw [drop_zero]⟩
  · omega

/-- **The checksum.** It is the complement of the sum of all words, with the carries added back in.
-/
theorem checksum_eq (hlength : bytes.length < 2 ^ 62) (h : initial + words bytes < 2 ^ 32) :
    checksum bytes initial = .ok (~~~UInt16.ofNat (carried (initial + words bytes))) := by
  obtain ⟨⟨sum, i⟩, hloop, hend, hsum⟩ := returns_sumLoop hlength h
  dsimp only at hend hsum
  unfold checksum
  rw [hloop, ok_bind]
  dsimp only
  by_cases hi : i < bytes.length
  · rw [words_drop_last hi hend] at hsum
    obtain ⟨total, hfold, htotal⟩ := returns_fold h
    rw [if_pos hi, index_eq hi, ok_bind, Nat.shiftLeft_eq, plus_eq (by omega), ok_bind,
      show sum + bytes[i].toNat * 2 ^ 8 = initial + words bytes from hsum, hfold, ok_bind, htotal]
    rfl
  · rw [drop_eq_nil_of_le (by omega), words, Nat.add_zero] at hsum
    obtain ⟨total, hfold, htotal⟩ := returns_fold h
    rw [if_neg hi, hsum]
    change (loop foldRound (initial + words bytes + 1) (initial + words bytes) >>= _) = _
    rw [hfold, ok_bind, htotal]
    rfl

def addressWords (address : UInt32) : Nat :=
  (256 * (address.toNat % 256) + address.toNat / 256 % 256)
    + (256 * (address.toNat / 65536 % 256) + address.toNat / 16777216)

theorem addressSum_eq {address : UInt32} (h : total + addressWords address < 2 ^ 32) :
    addressSum total address = .ok (total + addressWords address) := by
  have haddress := address.toNat_lt
  have hpair : ∀ high low : Nat, low < 256 → (high <<< 8) ||| low = 256 * high + low := by
    intro high low hlow
    rw [← Nat.shiftLeft_add_eq_or_of_lt (by omega), Nat.shiftLeft_eq, Nat.mul_comm]
  have hbyte : ∀ n : Nat, n &&& 0xff = n % 256 := fun n => Nat.and_two_pow_sub_one_eq_mod n 8
  unfold addressWords at h ⊢
  unfold addressSum
  generalize address.toNat = address at h haddress ⊢
  have hlow : ((address &&& 0xff) <<< 8) ||| ((address >>> 8) &&& 0xff) = 256 * (address % 256)
      + address / 256 % 256 := by
    rw [hbyte, hbyte, Nat.shiftRight_eq_div_pow, hpair _ _ (by omega)]
  have hhigh : (((address >>> 16) &&& 0xff) <<< 8) ||| (address >>> 24)
      = 256 * (address / 65536 % 256) + address / 16777216 := by
    rw [hbyte, Nat.shiftRight_eq_div_pow, Nat.shiftRight_eq_div_pow, hpair _ _ (by omega)]
  dsimp only
  rw [hlow, hhigh, plus_eq (by omega), ok_bind, plus_eq (by omega), Nat.add_assoc]

def pseudoHeader (src dst : UInt32) (protocol : UInt8) (length : Nat) : Nat :=
  addressWords src + addressWords dst + (protocol.toNat + length)

theorem addressWords_le (address : UInt32) : addressWords address ≤ 131070 := by
  have haddress := address.toNat_lt
  unfold addressWords
  omega

theorem transport_eq (hlength : data.length ≤ 65535) :
    transport src dst protocol data = .ok (~~~UInt16.ofNat
      (carried (pseudoHeader src dst protocol data.length + words data))) := by
  have hsrc := addressWords_le src
  have hdst := addressWords_le dst
  have hprotocol := protocol.toNat_lt
  have hwords := words_le data
  unfold transport pseudoHeader
  have hmod : data.length % 2 ^ 32 = data.length := Nat.mod_eq_of_lt (by omega)
  have haddresses : [src, dst].foldlM addressSum 0 = .ok (addressWords src + addressWords dst) := by
    rw [foldlM_cons, addressSum_eq (by omega), ok_bind, foldlM_cons, addressSum_eq (by omega),
      ok_bind, Nat.zero_add]
    rfl
  rw [haddresses, ok_bind, hmod, plus_eq (by omega), ok_bind, plus_eq (by omega), ok_bind,
    checksum_eq (by omega) (by omega)]

theorem returns_transport (hlength : data.length ≤ 65535) :
    Returns (transport src dst protocol data) fun _ => True := ⟨_, transport_eq hlength, trivial⟩

theorem complement_carried_eq_zero (h : 0 < total) (hmultiple : total % 65535 = 0) :
    ~~~UInt16.ofNat (carried total) = 0 := by
  have hcarried : carried total = 65535 := by
    rw [carried, if_neg (by omega)]
    omega
  rw [hcarried]
  rfl

end Kaguya.Net
