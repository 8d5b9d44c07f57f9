import Mathlib.Algebra.BigOperators.Group.Finset.Piecewise
import Mathlib.Algebra.Group.Nat.Defs
import Mathlib.Algebra.Order.BigOperators.Group.Finset
import Mathlib.Data.List.Perm.Basic
import Mathlib.Logic.Function.Basic

/-!
# Leases and handles

Agents hold resources. A lease is exclusive: every resource that somebody holds is flagged as taken,
and the flag is what an agent looks at before it takes one, so none is held twice. Of a handle there
may be any number, and every object has a counter: `Counted` says that the counters are right, and
taking, giving away and giving up a handle keep it so. Counters are 64-bit words, or sums of what
each thread has.
-/

namespace Kaguya

def addOne (count : Nat) : Nat := (count + 1) % 2 ^ 64

def subOne (count : Nat) : Nat := if count = 0 then 2 ^ 64 - 1 else count - 1

theorem addOne_of_lt {count : Nat} (h : count < 2 ^ 64 - 1) :
    addOne count = count + 1 := Nat.mod_eq_of_lt (by omega)

theorem subOne_of_pos {count : Nat} (h : 0 < count) : subOne count = count - 1 := if_neg (by omega)

section Tally

open Function

variable {ι α : Type} [Fintype ι] [DecidableEq ι] {f : α → Nat} {xs : ι → α} {i : ι}

def tally (f : α → Nat) (xs : ι → α) : Nat := ∑ i, f (xs i)

theorem tally_update (f : α → Nat) (xs : ι → α) (i : ι) (x : α) :
    tally f (update xs i x) + f (xs i) = tally f xs + f x := by
  have hupdate : (fun j => f (update xs i x j)) = update (fun j => f (xs j)) i (f x) := by
    funext j
    by_cases hj : j = i <;> simp [hj]
  have hsum := Finset.sum_erase_add Finset.univ (fun j => f (xs j)) (Finset.mem_univ i)
  calc tally f (update xs i x) + f (xs i)
      = (f x + ∑ j ∈ Finset.univ \ {i}, f (xs j)) + f (xs i) := by
        rw [tally, hupdate, Finset.sum_update_of_mem (Finset.mem_univ i)]
    _ = (∑ j ∈ Finset.univ.erase i, f (xs j)) + f (xs i) + f x := by
        rw [Finset.sdiff_singleton_eq_erase]
        omega
    _ = tally f xs + f x := by rw [hsum, tally]

omit [DecidableEq ι] in
theorem le_tally (f : α → Nat) (xs : ι → α) (i : ι) : f (xs i) ≤ tally f xs :=
  Finset.single_le_sum (f := fun j => f (xs j)) (fun _ _ => Nat.zero_le _) (Finset.mem_univ i)

omit [DecidableEq ι] in
theorem tally_eq_zero : tally f xs = 0 ↔ ∀ i, f (xs i) = 0 := by
  simp [tally]

end Tally

end Kaguya

namespace Kaguya.Lease

universe u v

variable {Agent : Type u} {Resource : Type v}
variable {taken taken' : Resource → Prop} {holds holds' : Agent → Resource → Prop}
variable {a b : Agent} {r : Resource}

structure Exclusive (taken : Resource → Prop) (holds : Agent → Resource → Prop) : Prop where
  taken_of_holds : ∀ {a r}, holds a r → taken r
  unique : ∀ {a b r}, holds a r → holds b r → a = b

variable (h : Exclusive taken holds)
include h

theorem Exclusive.not_holds (hfree : ¬ taken r) :
    ¬ holds a r := fun hholds => hfree (h.taken_of_holds hholds)

theorem Exclusive.mono (htaken : ∀ r, taken r → taken' r) (hholds : ∀ a r, holds' a r → holds a r) :
    Exclusive taken' holds' where
  taken_of_holds hholds' := htaken _ (h.taken_of_holds (hholds _ _ hholds'))
  unique ha hb := h.unique (hholds _ _ ha) (hholds _ _ hb)

theorem Exclusive.acquire (hfree : ¬ taken r) (htaken : ∀ r', taken r' ∨ r' = r → taken' r')
    (hholds : ∀ b r', holds' b r' → holds b r' ∨ (b = a ∧ r' = r)) :
    Exclusive taken' holds' where
  taken_of_holds hholds' := by
    apply htaken
    rcases hholds _ _ hholds' with hbefore | ⟨_, hr⟩
    · exact .inl (h.taken_of_holds hbefore)
    · exact .inr hr
  unique {b c r'} hb hc := by
    rcases hholds b r' hb with hb | ⟨hb, hr⟩ <;> rcases hholds c r' hc with hc | ⟨hc, hr'⟩
    · exact h.unique hb hc
    · exact absurd (hr' ▸ hb) (h.not_holds hfree)
    · exact absurd (hr ▸ hc) (h.not_holds hfree)
    · exact hb.trans hc.symm

theorem Exclusive.release (hheld : holds a r) (htaken : ∀ r', taken r' → r' ≠ r → taken' r')
    (hholds : ∀ b r', holds' b r' → holds b r' ∧ ¬ (b = a ∧ r' = r)) :
    Exclusive taken' holds' where
  taken_of_holds {b r'} hholds' := by
    obtain ⟨hbefore, hother⟩ := hholds b r' hholds'
    refine htaken r' (h.taken_of_holds hbefore) fun hr => hother ⟨?_, hr⟩
    exact h.unique (hr ▸ hbefore) hheld
  unique hb hc := h.unique (hholds _ _ hb).1 (hholds _ _ hc).1

end Kaguya.Lease

namespace Kaguya.Handles

open List

universe u v

variable {Agent : Type u} {Object : Type v} [DecidableEq Agent] [DecidableEq Object]
variable {counter : Object → Nat} {handles : List (Agent × Object)} {t : Agent} {a b : Object}

def Counted (counter : Object → Nat) (handles : List (Agent × Object)) : Prop :=
  ∀ a, counter a = (handles.map Prod.snd).count a

omit [DecidableEq Agent] in
theorem Counted.pos (h : Counted counter handles) (hmem : (t, a) ∈ handles) : 0 < counter a := by
  rw [h a]
  exact count_pos_iff.2 (mem_map.2 ⟨_, hmem, rfl⟩)

omit [DecidableEq Agent] in
theorem Counted.add (h : Counted counter handles) (t : Agent) (a : Object) :
    Counted (Function.update counter a (counter a + 1)) ((t, a) :: handles) := by
  intro b
  rw [map_cons, count_cons, ← h b]
  by_cases hb : b = a
  · simp [hb]
  · simp [hb, Ne.symm hb]

theorem count_erase (hmem : (t, a) ∈ handles) (b : Object) : (handles.map Prod.snd).count b
    = ((handles.erase (t, a)).map Prod.snd).count b + if a = b then 1 else 0 := by
  have hperm := (perm_cons_erase hmem).map Prod.snd
  rw [hperm.count_eq, map_cons, count_cons]
  simp

theorem Counted.drop (h : Counted counter handles) (hmem : (t, a) ∈ handles) :
    Counted (Function.update counter a (counter a - 1)) (handles.erase (t, a)) := by
  intro b
  have hcount := count_erase hmem b
  rw [← h b] at hcount
  by_cases hb : b = a
  · subst hb
    rw [if_pos rfl] at hcount
    simp [hcount]
  · rw [if_neg (Ne.symm hb)] at hcount
    simpa [hb] using hcount

theorem Counted.give (h : Counted counter handles) (hmem : (t, a) ∈ handles) (receiver : Agent) :
    Counted counter ((receiver, a) :: handles.erase (t, a)) := by
  intro b
  rw [h b, count_erase hmem b, map_cons, count_cons]
  simp

theorem mem_erase_of_other {t' : Agent} (ht : t' ≠ t) (hmem : (t', b) ∈ handles) :
    (t', b) ∈ handles.erase (t, a) := (mem_erase_of_ne fun heq => ht (congrArg Prod.fst heq)).2 hmem

end Kaguya.Handles
