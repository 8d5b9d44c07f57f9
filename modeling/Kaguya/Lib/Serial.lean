import Mathlib.Data.Nat.Basic
import Mathlib.Data.BitVec

/-!
# Serial numbers

Numbers that wrap around are compared by the sign of their difference. Seen from a base, a number is
a distance from it; comparisons are those of the distances as long as these stay below half of the
range. At exactly half of the range the difference is its own negative, so a number half a range
away counts as both before and after.
-/

namespace Kaguya.Serial

variable {w : Nat} {a b x y : BitVec w} {n : Nat}

def Before (a b : BitVec w) : Prop := (a - b).toInt < 0

def BeforeEqual (a b : BitVec w) : Prop := (a - b).toInt ≤ 0

instance : Decidable (Before a b) := inferInstanceAs (Decidable ((a - b).toInt < 0))

instance : Decidable (BeforeEqual a b) := inferInstanceAs (Decidable ((a - b).toInt ≤ 0))

def dist (base x : BitVec w) : Nat := (x - base).toNat

theorem dist_eq : dist a x = if a.toNat ≤ x.toNat then x.toNat - a.toNat
    else 2 ^ w + x.toNat - a.toNat := by
  rw [dist, BitVec.toNat_sub]
  split
  · rw [show 2 ^ w - a.toNat + x.toNat = x.toNat - a.toNat + 2 ^
      w by omega, Nat.add_mod_right, Nat.mod_eq_of_lt (by omega)]
  · rw [Nat.mod_eq_of_lt (by omega)]
    omega

@[simp]
theorem dist_self : dist a a = 0 := by
  simp [dist]

theorem add_dist (base x : BitVec w) : base + BitVec.ofNat w (dist base x) = x := by
  rw [dist, BitVec.ofNat_toNat, BitVec.setWidth_eq, add_sub_cancel]

theorem dist_add_ofNat (hn : n < 2 ^ w) : dist a (a + BitVec.ofNat w n) = n := by
  rw [dist, add_sub_cancel_left, BitVec.toNat_ofNat, Nat.mod_eq_of_lt hn]

theorem dist_add (h : dist a x + n < 2 ^ w) : dist a (x + BitVec.ofNat w n) = dist a x + n := by
  conv_lhs => rw [← add_dist a x, add_assoc, ← BitVec.ofNat_add]
  exact dist_add_ofNat h

theorem dist_of_le (h : dist a b ≤ dist a x) : dist b x = dist a x - dist a b := by
  simp only [dist_eq] at h ⊢
  split_ifs at h ⊢ <;> omega

theorem dist_eq_zero_iff : dist a x = 0 ↔ x = a := by
  constructor
  · intro h
    have hx := add_dist a x
    rw [h] at hx
    simpa using hx.symm
  · intro h
    rw [h, dist_self]

theorem before_iff : Before a b ↔ 2 ^ w ≤ 2 * dist b a := BitVec.toInt_neg_iff

theorem beforeEqual_iff : BeforeEqual a b ↔ a = b ∨ 2 ^ w ≤ 2 * dist b a := by
  have hzero : (a - b).toInt = 0 ↔ a = b := by
    rw [← BitVec.toInt_zero (w := w), BitVec.toInt_inj]
    exact sub_eq_zero
  rw [BeforeEqual, Int.le_iff_lt_or_eq, hzero, or_comm]
  exact or_congr Iff.rfl before_iff

theorem before_iff_dist (hx : 2 * dist a x < 2 ^ w) (hy : 2 * dist a y < 2 ^ w) :
    Before x y ↔ dist a x < dist a y := by
  rw [before_iff]
  by_cases hle : dist a y ≤ dist a x
  · rw [dist_of_le hle]
    omega
  have hyx : dist x y = dist a y - dist a x := dist_of_le (by omega)
  have hflip : dist y x = 2 ^ w - dist x y := by
    simp only [dist_eq] at hyx hle ⊢
    split_ifs at * <;> omega
  omega

theorem base_before_iff : Before a x ↔ 0 < dist a x ∧ 2 * dist a x ≤ 2 ^ w := by
  rw [before_iff]
  simp only [dist_eq]
  split_ifs <;> omega

/-- A number up to half a range from the base is at or before a near one, or it is the one at
exactly half a range and the near one is the base. -/
theorem beforeEqual_iff_dist (hx : 2 * dist a x ≤ 2 ^ w) (hy : 2 * dist a y < 2 ^ w) :
    BeforeEqual x y ↔ dist a x ≤ dist a y ∨ (y = a ∧ 2 * dist a x = 2 ^ w) := by
  rw [beforeEqual_iff, ← dist_eq_zero_iff (a := a) (x := y)]
  by_cases hle : dist a x ≤ dist a y
  · refine iff_of_true ?_ (.inl hle)
    by_cases heq : dist a x = dist a y
    · left
      rw [← add_dist a x, ← add_dist a y, heq]
    · right
      rw [← before_iff, before_iff_dist (a := a) (by omega) hy]
      omega
  have hne : x ≠ y := fun heq => hle (by rw [heq])
  rw [dist_of_le (Nat.le_of_not_le hle)]
  constructor
  · rintro (heq | hfar)
    · exact absurd heq hne
    · right
      omega
  · rintro (hle' | hhalf)
    · exact absurd hle' hle
    · right
      omega

end Kaguya.Serial
