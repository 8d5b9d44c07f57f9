import Mathlib.Logic.Function.Basic

/-!
# Tables of slots

A table has numbered slots, each empty or holding a key with a value. When no key occurs twice the
table represents a partial map from keys to values, and filling or emptying one slot changes the map
at one key.
-/

namespace Kaguya

open Function

abbrev Table (α β : Type) := Nat → Option (α × β)

namespace Table

variable {α β : Type} {table : Table α β} {m m' : α → Option β} {s : Nat} {k : α} {x y : β}

def Distinct (table : Table α β) : Prop :=
  ∀ s t k x y, table s = some (k, x) → table t = some (k, y) → s = t

def Elsewhere (table : Table α β) (s : Nat) (k : α) : Prop := ∀ t x, table t = some (k, x) → t = s

def Represents (table : Table α β) (m : α → Option β) : Prop :=
  ∀ k x, m k = some x ↔ ∃ s, table s = some (k, x)

theorem Represents.unique (h : table.Represents m) (h' : table.Represents m') : m = m' := by
  funext k
  refine Option.ext fun x => ?_
  rw [h, h']

theorem Represents.eq_none_iff (h : table.Represents m) :
    m k = none ↔ ∀ s x, table s ≠ some (k, x) := by
  rw [Option.eq_none_iff_forall_ne_some]
  constructor
  · intro hnone s x hs
    exact hnone x ((h k x).mpr ⟨s, hs⟩)
  · intro hnone x hx
    obtain ⟨s, hs⟩ := (h k x).mp hx
    exact hnone s x hs

theorem Distinct.elsewhere (h : table.Distinct) (hs : table s = some (k, x)) :
    table.Elsewhere s k :=
  fun t y ht => h t s k y x ht hs

theorem Distinct.empty (h : table.Distinct) (s : Nat) : Distinct (update table s none) := by
  have hold : ∀ t k x, update table s none t = some (k, x) → table t = some (k, x) := by
    intro t k x ht
    by_cases hts : t = s
    · rw [hts, update_self] at ht
      cases ht
    · rwa [update_of_ne hts] at ht
  intro t u k x y ht hu
  exact h t u k x y (hold t k x ht) (hold u k y hu)

theorem Represents.empty [DecidableEq α] (h : table.Represents m) (hs : table s = some (k, x))
    (hk : table.Elsewhere s k) : Represents (update table s none) (update m k none) := by
  intro k' x'
  by_cases hkk : k' = k
  · subst hkk
    rw [update_self]
    constructor
    · intro hnone
      cases hnone
    rintro ⟨t, ht⟩
    by_cases hts : t = s
    · rw [hts, update_self] at ht
      cases ht
    · rw [update_of_ne hts] at ht
      exact absurd (hk t x' ht) hts
  · rw [update_of_ne hkk, h]
    refine exists_congr fun t => ?_
    by_cases hts : t = s
    · subst hts
      rw [update_self, hs]
      simp [Ne.symm hkk]
    · rw [update_of_ne hts]

theorem Distinct.fill (h : table.Distinct) (hk : table.Elsewhere s k) :
    Distinct (update table s (some (k, y))) := by
  intro t u k' x' y' ht hu
  by_cases hts : t = s <;> by_cases hus : u = s
  · rw [hts, hus]
  · rw [hts, update_self, Option.some_inj, Prod.mk.injEq] at ht
    rw [update_of_ne hus, ← ht.1] at hu
    exact absurd (hk u y' hu) hus
  · rw [hus, update_self, Option.some_inj, Prod.mk.injEq] at hu
    rw [update_of_ne hts, ← hu.1] at ht
    exact absurd (hk t x' ht) hts
  · rw [update_of_ne hts] at ht
    rw [update_of_ne hus] at hu
    exact h t u k' x' y' ht hu

theorem Represents.fill [DecidableEq α] (h : table.Represents m) (hk : table.Elsewhere s k)
    (hs : ∀ k' x', table s = some (k', x') → k' = k) :
    Represents (update table s (some (k, y))) (update m k (some y)) := by
  intro k' x'
  by_cases hkk : k' = k
  · subst hkk
    rw [update_self]
    constructor
    · intro hx
      exact ⟨s, by rw [update_self, Option.some_inj.mp hx]⟩
    rintro ⟨t, ht⟩
    by_cases hts : t = s
    · rw [hts, update_self, Option.some_inj, Prod.mk.injEq] at ht
      rw [ht.2]
    · rw [update_of_ne hts] at ht
      exact absurd (hk t x' ht) hts
  · rw [update_of_ne hkk, h]
    refine exists_congr fun t => ?_
    by_cases hts : t = s
    · subst hts
      rw [update_self, Option.some_inj, Prod.mk.injEq]
      constructor
      · intro ht
        exact absurd (hs k' x' ht) hkk
      · rintro ⟨heq, _⟩
        exact absurd heq.symm hkk
    · rw [update_of_ne hts]

end Table

end Kaguya
