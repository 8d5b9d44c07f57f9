import Mathlib.Data.List.Nodup
import Mathlib.Data.List.Perm.Subperm
import Mathlib.Logic.Function.Basic

/-!
# Work queues

Several queues share out the items that are waiting: every waiting item is in exactly one queue,
once, and nothing else is queued. The rules say what keeps this when an item is queued and when
items are taken out.
-/

namespace Kaguya

open Function

universe u v

variable {Queue : Type u} {Item : Type v}
variable {waits waits' : Item → Prop} {queues queues' : Queue → List Item} {item : Item}

structure SharedOut (waits : Item → Prop) (queues : Queue → List Item) : Prop where
  nodup : ∀ q, (queues q).Nodup
  unique : ∀ {a b item}, item ∈ queues a → item ∈ queues b → a = b
  waits_iff : ∀ item, waits item ↔ ∃ q, item ∈ queues q

namespace SharedOut

section
variable (h : SharedOut waits queues)
include h

theorem not_mem (hitem : ¬ waits item) (q : Queue) :
    item ∉ queues q := fun hmem => hitem ((h.waits_iff item).mpr ⟨q, hmem⟩)

theorem congr (hwaits : ∀ item, waits' item ↔ waits item) :
    SharedOut waits' queues where
  nodup := h.nodup
  unique := h.unique
  waits_iff item := (hwaits item).trans (h.waits_iff item)

theorem push [DecidableEq Queue] (hnew : ¬ waits item) (q : Queue)
    (hwaits : ∀ i, waits' i ↔ waits i ∨ i = item) :
    SharedOut waits' (update queues q (queues q ++ [item])) := by
  have hmem : ∀ p i, i ∈ update queues q (queues q ++ [item]) p ↔ i ∈ queues p
      ∨ (p = q ∧ i = item) := by
    intro p i
    by_cases hp : p = q
    · simp [hp]
    · simp [hp]
  refine ⟨fun p => ?_, fun {a b i} ha hb => ?_, fun i => ?_⟩
  · by_cases hp : p = q
    · rw [hp, update_self]
      apply List.Nodup.append (h.nodup q) (List.nodup_singleton item)
      simpa using h.not_mem hnew q
    · rw [update_of_ne hp]
      exact h.nodup p
  · rw [hmem] at ha hb
    rcases ha with ha | ⟨ha, hi⟩ <;> rcases hb with hb | ⟨hb, hi'⟩
    · exact h.unique ha hb
    · exact absurd (hi' ▸ ha) (h.not_mem hnew a)
    · exact absurd (hi ▸ hb) (h.not_mem hnew b)
    · exact ha.trans hb.symm
  · simp [hmem, hwaits, h.waits_iff, exists_or]

end

theorem nodup_of_subperm {l l' : List Item} (h : l.Subperm l') (hnodup : l'.Nodup) : l.Nodup := by
  obtain ⟨m, hperm, hsub⟩ := h
  exact hperm.nodup (hnodup.sublist hsub)

variable (h : SharedOut waits queues)
include h

theorem shrink (hwaits : ∀ i, waits' i → waits i) (hsub : ∀ q, (queues' q).Subperm (queues q))
    (hkeep : ∀ q i, i ∈ queues q → waits' i → i ∈ queues' q)
    (hgone : ∀ q i, i ∈ queues' q → waits' i) : SharedOut waits' queues' where
  nodup q := nodup_of_subperm (hsub q) (h.nodup q)
  unique ha hb := h.unique ((hsub _).subset ha) ((hsub _).subset hb)
  waits_iff i := by
    constructor
    · intro hi
      obtain ⟨q, hq⟩ := (h.waits_iff i).mp (hwaits i hi)
      exact ⟨q, hkeep q i hq hi⟩
    · rintro ⟨q, hq⟩
      exact hgone q i hq

theorem pop (q : Queue) (hsub : ∀ q, (queues' q).Subperm (queues q))
    (hitem : (item :: queues' q).Subperm (queues q))
    (hkeep : ∀ q i, i ∈ queues q → waits i → i ≠ item → i ∈ queues' q)
    (hwaits : ∀ i, waits' i ↔ waits i ∧ i ≠ item) : SharedOut waits' queues' := by
  have hout : ∀ p, item ∉ queues' p := by
    intro p hp
    have hq : item ∈ queues q := hitem.subset List.mem_cons_self
    have hpq : p = q := h.unique ((hsub p).subset hp) hq
    have hnodup := nodup_of_subperm hitem (h.nodup q)
    exact (List.nodup_cons.mp hnodup).1 (hpq ▸ hp)
  apply h.shrink (fun i hi => ((hwaits i).mp hi).1) hsub
  · intro p i hp hi
    exact hkeep p i hp ((hwaits i).mp hi).1 ((hwaits i).mp hi).2
  intro p i hp
  refine (hwaits i).mpr ⟨(h.waits_iff i).mpr ⟨p, (hsub p).subset hp⟩, ?_⟩
  rintro rfl
  exact hout p hp

theorem count_eq_one [DecidableEq Item] (hitem : waits item) :
    ∃ q, (queues q).count item = 1 ∧ ∀ p, p ≠ q → item ∉ queues p := by
  obtain ⟨q, hq⟩ := (h.waits_iff item).mp hitem
  exact ⟨q, List.count_eq_one_of_mem (h.nodup q) hq, fun p hp hmem => hp (h.unique hmem hq)⟩

end SharedOut

end Kaguya
