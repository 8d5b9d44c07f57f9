import Mathlib.Data.Nat.Bitwise
import Mathlib.Data.List.Basic

/-!
# Byte buffers

A buffer is a function from positions to bytes, so that copying, filling and storing are statements
about each position. `get` and `put` read and write little-endian integers.
-/

namespace Kaguya

abbrev Buffer := Nat → UInt8

namespace Buffer

def zeroed : Buffer := fun _ => 0

def ofList (bytes : List UInt8) : Buffer := fun i => bytes.getD i 0

variable (buffer : Buffer)

def slice (start count : Nat) : List UInt8 :=
  (List.range count).map fun i => buffer (start + i)

/-- Overwrite `count` bytes at `target` with those of `source` from `start` on. -/
def memCopy (target : Nat) (source : Buffer) (start count : Nat) : Buffer :=
  fun i => if target ≤ i ∧ i < target + count then source (start + (i - target)) else buffer i

def memFill (target : Nat) (value : UInt8) (count : Nat) : Buffer :=
  fun i => if target ≤ i ∧ i < target + count then value else buffer i

def get (offset count : Nat) : Nat :=
  (List.range count).foldl (fun value i => value ||| (buffer (offset + i)).toNat <<< (i * 8)) 0

/-- Store the low `count` bytes of `value` from `offset` on, least significant first. -/
def put (offset value count : Nat) : Buffer :=
  fun i => if offset ≤ i ∧ i < offset + count
    then UInt8.ofNat (value >>> ((i - offset) * 8)) else buffer i

def upTo (n : Nat) : Buffer := fun i => if i < n then buffer i else 0

variable {buffer} {buffer' : Buffer} {n i start count offset value : Nat}

theorem upTo_of_lt (hi : i < n) : buffer.upTo n i = buffer i := if_pos hi

theorem upTo_congr (h : ∀ i < n, buffer i = buffer' i) : buffer.upTo n = buffer'.upTo n := by
  funext i
  by_cases hi : i < n
  · rw [upTo_of_lt hi, upTo_of_lt hi, h i hi]
  · simp [upTo, hi]

@[simp]
theorem upTo_zeroed (n : Nat) : zeroed.upTo n = zeroed := by
  funext i
  simp [upTo, zeroed]

variable {source : Buffer} {target offset' : Nat}

theorem memCopy_of_mem (hlo : target ≤ i) (hhi : i < target + count) :
    buffer.memCopy target source start count i = source (start + (i - target)) := if_pos ⟨hlo, hhi⟩

theorem memCopy_of_not_mem (h : ¬ (target ≤ i ∧ i < target + count)) :
    buffer.memCopy target source start count i = buffer i := if_neg h

theorem put_of_not_mem (h : ¬ (offset ≤ i ∧ i < offset + count)) :
    buffer.put offset value count i = buffer i := if_neg h

@[simp]
theorem get_zero (buffer : Buffer) (offset : Nat) : buffer.get offset 0 = 0 := rfl

theorem get_succ_or (buffer : Buffer) (offset count : Nat) :
    buffer.get offset (count + 1) = buffer.get offset count ||| (buffer (offset + count)).toNat <<<
      (count * 8) := by
  rw [get, List.range_succ, List.foldl_append]
  rfl

theorem get_lt (buffer : Buffer) (offset count : Nat) :
    buffer.get offset count < 2 ^ (count * 8) := by
  induction count with
  | zero => simp
  | succ count =>
    rw [get_succ_or]
    have hpow : (2 : Nat) ^ (count * 8) ≤ 2 ^ ((count + 1) * 8) :=
      Nat.pow_le_pow_right (by omega) (by omega)
    refine Nat.or_lt_two_pow (by omega) ?_
    have hbyte : (buffer (offset + count)).toNat < 2 ^ 8 := UInt8.toNat_lt _
    calc (buffer (offset + count)).toNat <<< (count * 8)
        = (buffer (offset + count)).toNat * 2 ^ (count * 8) := Nat.shiftLeft_eq _ _
      _ < 2 ^ 8 * 2 ^ (count * 8) := Nat.mul_lt_mul_of_pos_right hbyte (Nat.two_pow_pos _)
      _ = 2 ^ ((count + 1) * 8) := by rw [← pow_add]; congr 1; omega

theorem get_succ (buffer : Buffer) (offset count : Nat) :
    buffer.get offset (count + 1) = buffer.get offset count + 2 ^ (count * 8)
      * (buffer (offset + count)).toNat := by
  rw [get_succ_or, Nat.or_comm, ← Nat.shiftLeft_add_eq_or_of_lt (get_lt buffer offset count),
    Nat.shiftLeft_eq, Nat.add_comm, Nat.mul_comm]

theorem get_congr (h : ∀ i < count, buffer (offset + i) = buffer' (offset' + i)) :
    buffer.get offset count = buffer'.get offset' count := by
  induction count with
  | zero => rfl
  | succ count ih =>
    rw [get_succ, get_succ, ih fun i hi => h i (by omega), h count (by omega)]

theorem get_put_of_le (hn : n ≤ count) :
    (buffer.put offset value count).get offset n = value % 2 ^ (n * 8) := by
  induction n with
  | zero => simp [Nat.mod_one]
  | succ n ih =>
    have hbyte : (buffer.put offset value count (offset + n)).toNat = value / 2 ^ (n * 8) % 2 ^
        8 := by
      rw [put, if_pos (by omega), Nat.add_sub_cancel_left, UInt8.toNat_ofNat',
        Nat.shiftRight_eq_div_pow]
    rw [get_succ, ih (by omega), hbyte, show (n + 1) * 8 = n * 8 + 8 by omega, pow_add, Nat.mod_mul]

theorem get_put (h : value < 2 ^ (count * 8)) :
    (buffer.put offset value count).get offset count = value := by
  rw [get_put_of_le le_rfl, Nat.mod_eq_of_lt h]

theorem get_put_of_disjoint {count' : Nat}
    (h : offset' + count' ≤ offset ∨ offset + count ≤ offset') :
    (buffer.put offset value count).get offset' count' = buffer.get offset' count' :=
  get_congr fun i hi => put_of_not_mem (by omega)

theorem get_zeroed (offset count : Nat) : zeroed.get offset count = 0 := by
  induction count with
  | zero => rfl
  | succ _ ih => rw [get_succ, ih]; simp [zeroed]

theorem get_upTo (h : offset + count ≤ n) :
    (buffer.upTo n).get offset count = buffer.get offset count :=
  get_congr fun i hi => upTo_of_lt (by omega)

@[simp]
theorem length_slice (buffer : Buffer) (start count : Nat) :
    (buffer.slice start count).length = count := by
  simp [slice]

theorem getElem_slice (hi : i < (buffer.slice start count).length) :
    (buffer.slice start count)[i] = buffer (start + i) := by
  simp [slice]

theorem slice_congr {start' : Nat} (h : ∀ i < count, buffer (start + i) = buffer' (start' + i)) :
    buffer.slice start count = buffer'.slice start' count := by
  refine List.map_congr_left fun i hi => h i (List.mem_range.mp hi)

end Buffer

end Kaguya
