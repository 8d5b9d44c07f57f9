import Mathlib.Data.Nat.ModEq
import Mathlib.Logic.Function.Basic

/-!
# Ring buffers

A store of `limit` cells in which positions go round. `read` and `store` work on a stretch of
positions; a stretch no longer than the ring meets no cell twice.
-/

namespace Kaguya.Ring

open Function List

variable {α : Type} {limit start n k : Nat} {data : Nat → α} {items : List α}

def read (limit : Nat) (data : Nat → α) (start n : Nat) : List α :=
  (range n).map fun i => data ((start + i) % limit)

/-- The cells after the items have been put at the positions from `start` on. -/
def store (limit : Nat) : (Nat → α) → Nat → List α → Nat → α
  | data, _, [] => data
  | data, start, item :: items =>
    store limit (update data (start % limit) item) (start + 1) items

@[simp]
theorem length_read : (read limit data start n).length = n := by
  simp [read]

theorem read_add (m : Nat) :
    read limit data start (n + m) = read limit data start n ++ read limit data (start + n) m := by
  simp only [read, range_add, map_append, map_map]
  congr 1
  apply map_congr_left
  intro i _
  simp only [comp_apply, Nat.add_assoc]

theorem read_mod : read limit data (start % limit) n = read limit data start n := by
  simp only [read, Nat.mod_add_mod]

theorem drop_read (h : k ≤ n) :
    (read limit data start n).drop k = read limit data (start + k) (n - k) := by
  obtain ⟨m, rfl⟩ := Nat.exists_eq_add_of_le h
  rw [read_add, drop_left' length_read, Nat.add_sub_cancel_left]

theorem take_read (h : k ≤ n) : (read limit data start n).take k = read limit data start k := by
  obtain ⟨m, rfl⟩ := Nat.exists_eq_add_of_le h
  rw [read_add, take_left' length_read]

theorem mod_ne {i j : Nat} (hi : i < limit) (hj : j < limit) (hij : i ≠ j) :
    (start + i) % limit ≠ (start + j) % limit := by
  intro heq
  have hmod : i ≡ j [MOD limit] := Nat.ModEq.add_left_cancel' start heq
  exact hij (hmod.eq_of_lt_of_lt hi hj)

theorem read_store_of_le (h : n + items.length ≤ limit) :
    read limit (store limit data (start + n) items) start n = read limit data start n := by
  induction items generalizing data n with
  | nil => rfl
  | cons item items ih =>
    rw [length_cons] at h
    have hrest : read limit (store limit (update data ((start + n) % limit) item) (start + (n + 1))
      items) start (n + 1)
          = read limit (update data ((start + n) % limit) item) start (n + 1) := ih (by omega)
    rw [read_add, read_add] at hrest
    have hinit := (append_inj hrest (by simp)).1
    rw [store, Nat.add_assoc, hinit]
    apply map_congr_left
    intro i hi
    rw [mem_range] at hi
    exact update_of_ne (mod_ne (by omega) (by omega) (by omega)) ..

theorem read_store (h : items.length ≤ limit) :
    read limit (store limit data start items) start items.length = items := by
  induction items generalizing data start with
  | nil => rfl
  | cons item items ih =>
    rw [length_cons] at h
    have hrest : read limit (store limit (update data (start % limit) item) (start + 1)
        items) (start + 1) items.length = items := ih (by omega)
    have hhead : read limit (store limit (update data (start % limit) item) (start + 1) items) start
        1 = [item] := by
      rw [read_store_of_le (by omega)]
      simp [read]
    rw [length_cons, Nat.add_comm, read_add, store, hhead, hrest]
    rfl

theorem read_store_append (h : n + items.length ≤ limit) :
    read limit (store limit data (start + n) items) start (n + items.length) = read limit data start
      n ++ items := by
  rw [read_add, read_store_of_le h, read_store (by omega)]

end Kaguya.Ring
