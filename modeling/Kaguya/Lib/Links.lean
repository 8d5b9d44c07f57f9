import Kaguya.Lib.Chain

/-!
# Doubly linked lists

`Linked next prev before nodes after` says that the links of `nodes` run through them in this order
in both directions: the first one points back to `before` and the last one on to `after`.
-/

namespace Kaguya

open List

variable {α : Type}

def Linked (next prev : α → α) : α → List α → α → Prop
  | _, [], _ => True
  | before, a :: rest, after =>
    prev a = before ∧ next a = rest.headD after ∧ Linked next prev a rest after

namespace Linked

variable {next prev next' prev' : α → α} {before before' after a b : α} {xs ys : List α}

theorem append_iff :
    Linked next prev before (xs ++ ys) after ↔ Linked next prev before xs (ys.headD after)
    ∧ Linked next prev (xs.getLastD before) ys after := by
  induction xs generalizing before with
  | nil => simp [Linked]
  | cons x xs ih =>
    have hhead : (xs ++ ys).headD after = xs.headD (ys.headD after) := by
      cases xs <;> rfl
    have hlast : (x :: xs).getLastD before = xs.getLastD x := by
      cases xs <;> rfl
    rw [cons_append, Linked, Linked, ih, hhead, hlast, and_assoc, and_assoc]

variable (h : Linked next prev before xs after)
include h

theorem congr (hsame : ∀ x ∈ xs, next' x = next x ∧ prev' x = prev x) :
    Linked next' prev' before xs after := by
  induction xs generalizing before with
  | nil => trivial
  | cons x xs ih =>
    obtain ⟨hprev, hnext, hrest⟩ := h
    have hx := hsame x mem_cons_self
    exact ⟨hx.2.trans hprev, hx.1.trans hnext, ih hrest fun y hy => hsame y (mem_cons_of_mem x hy)⟩

theorem rebase (hnext : ∀ x ∈ xs, next' x = next x) (hfirst : ∀ x ∈ xs.head?, prev' x = before')
    (hrest : ∀ x ∈ xs.tail, prev' x = prev x) : Linked next' prev' before' xs after := by
  cases xs with
  | nil => trivial
  | cons x xs =>
    obtain ⟨_, hx, hlinked⟩ := h
    refine ⟨hfirst x rfl, (hnext x mem_cons_self).trans hx, hlinked.congr fun y hy => ?_⟩
    exact ⟨hnext y (mem_cons_of_mem x hy), hrest y hy⟩

theorem chain {live : α → Prop} (hlive : ∀ x ∈ xs, live x) (hafter : ¬ live after) :
    Chain next live (xs.headD after) xs := by
  induction xs generalizing before with
  | nil => exact .stop hafter
  | cons x xs ih =>
    obtain ⟨_, hnext, hrest⟩ := h
    refine .link (hlive x mem_cons_self) ?_
    rw [headD_cons, hnext]
    exact ih hrest fun y hy => hlive y (mem_cons_of_mem x hy)

end Linked

end Kaguya
