import Kaguya.Lib.Ring

/-!
# Rings that mark their laps

A writer goes round and round over the `n` slots of a ring and marks every entry with a bit that
changes from lap to lap. A reader that keeps the bit of its own lap tells by it whether the entry in
its slot is new, as long as the writer is at most a lap ahead. Nothing else is shared by the two.
-/

namespace Kaguya.Laps

open List

variable {n p c : Nat}

/-- The mark of an entry, by how many were written before it: set in the first lap, clear in the
second. -/
def bit (n p : Nat) : Bool := decide (p / n % 2 = 0)

theorem bit_of_lt (h : p < n) : bit n p = true := by
  unfold bit
  rw [Nat.div_eq_of_lt h]
  rfl

theorem not_bit_of_div_eq {p' : Nat} (h : p' / n = p / n + 1) : bit n p' = !bit n p := by
  unfold bit
  rw [h, ← decide_not, decide_eq_decide]
  omega

theorem bit_add (hn : 0 < n) (p : Nat) :
    bit n (p + n) = !bit n p := not_bit_of_div_eq (Nat.add_div_right p hn)

section Next

theorem succ_eq (p n : Nat) : p + 1 = n * (p / n) + (p % n + 1) := by
  rw [← Nat.add_assoc, Nat.div_add_mod]

theorem succ_mod_of_eq (hlast : p % n + 1 = n) : (p + 1) % n = 0 := by
  rw [succ_eq, Nat.mul_add_mod, hlast, Nat.mod_self]

theorem bit_succ_of_eq (hn : 0 < n) (hlast : p % n + 1 = n) : bit n (p + 1) = !bit n p := by
  apply not_bit_of_div_eq
  calc (p + 1) / n = (n * (p / n) + n) / n := by rw [succ_eq p n, hlast]
    _ = p / n + 1 := by rw [Nat.add_div_right _ hn, Nat.mul_div_cancel_left _ hn]

theorem succ_mod_of_ne (hn : 0 < n) (hlast : p % n + 1 ≠ n) : (p + 1) % n = p % n + 1 := by
  have hlt := Nat.mod_lt p hn
  rw [succ_eq, Nat.mul_add_mod]
  apply Nat.mod_eq_of_lt
  omega

theorem bit_succ_of_ne (hn : 0 < n) (hlast : p % n + 1 ≠ n) : bit n (p + 1) = bit n p := by
  have hlt := Nat.mod_lt p hn
  have hdiv : (p + 1) / n = p / n := by
    have hrest : (p % n + 1) / n = 0 := Nat.div_eq_of_lt (by omega)
    calc (p + 1) / n = (n * (p / n) + (p % n + 1)) / n := by rw [← succ_eq p n]
      _ = p / n := by rw [Nat.mul_add_div hn, hrest, Nat.add_zero]
  unfold bit
  rw [hdiv]

theorem next_mod (hn : 0 < n) : (if p % n + 1 = n then 0 else p % n + 1) = (p + 1) % n := by
  split
  · rename_i hlast
    exact (succ_mod_of_eq hlast).symm
  · rename_i hlast
    exact (succ_mod_of_ne hn hlast).symm

theorem next_bit (hn : 0 < n) :
    (if p % n + 1 = n then !bit n p else bit n p) = bit n (p + 1) := by
  split
  · rename_i hlast
    exact (bit_succ_of_eq hn hlast).symm
  · rename_i hlast
    exact (bit_succ_of_ne hn hlast).symm

theorem bit_eq_of_lap (hn : 0 < n) (hfirst : c % n = 0) (hle : c ≤ p) (hlt : p < c + n) :
    bit n p = bit n c := by
  obtain ⟨k, rfl⟩ := Nat.dvd_of_mod_eq_zero hfirst
  obtain ⟨r, rfl⟩ := Nat.exists_eq_add_of_le hle
  have hr : r < n := by omega
  unfold bit
  rw [Nat.mul_add_div hn, Nat.div_eq_of_lt hr, Nat.mul_div_cancel_left _ hn, Nat.add_zero]

end Next

variable {σ : Type} {mark : σ → Bool} {slots slots' : Nat → σ} {written : List σ} {entry : σ}

/-- The slots hold the entries written last, each with the mark of its lap, and no mark where
nothing has been written yet. -/
structure Holds (n : Nat) (mark : σ → Bool) (slots : Nat → σ) (written : List σ) : Prop where
  marked : ∀ q (hq : q < written.length), mark written[q] = bit n q
  newest : ∀ q (hq : q < written.length), written.length ≤ q + n → slots (q % n) = written[q]
  blank : ∀ i, written.length ≤ i → i < n → mark (slots i) = false

theorem Holds.nil (h : ∀ i, i < n → mark (slots i) = false) : Holds n mark slots [] where
  marked := fun _ hq => absurd hq (Nat.not_lt_zero _)
  newest := fun _ hq => absurd hq (Nat.not_lt_zero _)
  blank := fun i _ hi => h i hi

variable (h : Holds n mark slots written)
include h

/-- **Writing an entry** in the next slot, with the mark of its lap. -/
theorem Holds.write (hn : 0 < n) (hmark : mark entry = bit n written.length)
    (hnew : slots' (written.length % n) = entry)
    (hold : ∀ i, i < n → i ≠ written.length % n → slots' i = slots i) :
    Holds n mark slots' (written ++ [entry]) where
  marked := by
    intro q hq
    by_cases hlast : q < written.length
    · rw [getElem_append_left hlast]
      exact h.marked q hlast
    obtain rfl : q = written.length := by
      rw [length_append, length_singleton] at hq
      omega
    rw [getElem_concat_length]
    · exact hmark
    · rfl
  newest := by
    intro q hq hround
    rw [length_append, length_singleton] at hq hround
    by_cases hlast : q < written.length
    · have hother : q % n ≠ written.length % n := by
        have hne : (q + 0) % n ≠ (q + (written.length - q)) % n :=
          Ring.mod_ne hn (by omega) (by omega)
        rwa [Nat.add_zero, Nat.add_sub_cancel' (by omega)] at hne
      rw [hold _ (Nat.mod_lt q hn) hother, getElem_append_left hlast]
      exact h.newest q hlast (by omega)
    · obtain rfl : q = written.length := by omega
      rw [getElem_concat_length]
      · exact hnew
      · rfl
  blank := by
    intro i hlen hi
    rw [length_append, length_singleton] at hlen
    have hlt : written.length < n := by omega
    rw [hold i hi (by rw [Nat.mod_eq_of_lt hlt]; omega)]
    exact h.blank i (by omega) hi

theorem Holds.stale (hn : 0 < n) : mark (slots (written.length % n)) = !bit n written.length := by
  by_cases hfirst : written.length < n
  · rw [Nat.mod_eq_of_lt hfirst, bit_of_lt hfirst]
    exact h.blank _ (Nat.le_refl _) hfirst
  · obtain ⟨q, hq⟩ := Nat.exists_eq_add_of_le' (Nat.le_of_not_lt hfirst)
    have hold : q < written.length := by omega
    rw [hq, bit_add hn, Nat.add_mod_right, h.newest q hold (by omega), h.marked q hold,
      Bool.not_not]

/-- **A reader that is at most a lap behind** knows a new entry by its mark. -/
theorem Holds.mark_eq_iff (hn : 0 < n) (hread : c ≤ written.length)
    (hround : written.length ≤ c + n) : mark (slots (c % n)) = bit n c ↔ c < written.length := by
  rcases Nat.lt_or_eq_of_le hread with hlt | rfl
  · rw [h.newest c hlt hround, h.marked c hlt]
    exact iff_of_true rfl hlt
  · rw [h.stale hn]
    exact iff_of_false (Bool.not_ne_self _) (Nat.lt_irrefl _)

end Kaguya.Laps
