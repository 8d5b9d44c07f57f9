import Mathlib.Data.List.Nodup
import Mathlib.Data.List.Pairwise
import Mathlib.Data.List.Perm.Basic

/-!
# Tries in a store

A node of a trie has a number of words, and a word may lead to a child. The nodes live in a store,
so that nothing but the absence of duplicates keeps one subtree apart from another. `subtree` lists
the nodes below a node, children before parents; the rules say what a change of the words below one
node does to the whole.
-/

namespace Kaguya.Trie

open List

section Definitions
variable {ν ω : Type} (width : Nat) (child : ω → Option ν) (store : ν → Nat → ω)

/-- The nodes of a trie with `levels` levels below its root. -/
def subtree : Nat → ν → List ν
  | 0, node => [node]
  | levels + 1, node =>
    (range width).flatMap (fun i => (child (store node i)).elim [] (subtree levels)) ++ [node]

def span (levels : Nat) (node : ν) (slots : List Nat) : List ν :=
  slots.flatMap fun i => (child (store node i)).elim [] (subtree width child store levels)

def follow : List Nat → ν → Option ν
  | [], node => some node
  | i :: path, node => (child (store node i)).bind (follow path)

def Every (P : Nat → ω → Prop) : Nat → ν → Prop
  | 0, node => ∀ i < width, P 0 (store node i)
  | levels + 1, node =>
    ∀ i < width, P (levels + 1) (store node i)
      ∧ ∀ next, child (store node i) = some next → Every P levels next

def walk : List Nat → ν → List ω
  | [], _ => []
  | i :: path, node => store node i :: (child (store node i)).elim [] (walk path)

end Definitions

variable {ν ω : Type} {width : Nat} {child : ω → Option ν} {store store' : ν → Nat → ω}
  {levels below : Nat} {node target next x : ν} {slots path : List Nat} {added : List ν}

theorem subtree_succ : subtree width child store (levels + 1) node
    = span width child store levels node (range width) ++ [node] := rfl

theorem mem_subtree_self : node ∈ subtree width child store levels node := by
  cases levels with
  | zero => exact mem_singleton_self node
  | succ => exact mem_append_right _ (mem_singleton_self node)

theorem mem_span : x ∈ span width child store levels node slots ↔
    ∃ i ∈ slots, ∃ next, child (store node i) = some next ∧ x ∈ subtree width child store levels
      next := by
  rw [span, mem_flatMap]
  apply exists_congr
  intro i
  apply and_congr_right
  intro _
  cases child (store node i) with
  | none => simp
  | some => simp

variable {i slot : Nat}

theorem mem_span_of_child (hi : i ∈ slots) (hchild : child (store node i) = some next)
    (hx : x ∈ subtree width child store levels next) :
    x ∈ span width child store levels node slots :=
  mem_span.mpr ⟨i, hi, next, hchild, hx⟩

theorem subtree_subset (hx : x ∈ subtree width child store levels node) :
    x ∈ subtree width child store (levels + 1) node := by
  induction levels generalizing node with
  | zero =>
    rw [subtree, mem_singleton] at hx
    rw [hx]
    exact mem_subtree_self
  | succ _ ih =>
    rw [subtree_succ, mem_append] at hx
    rw [subtree_succ, mem_append]
    cases hx with
    | inl hspan =>
      obtain ⟨i, hi, next, hchild, hnext⟩ := mem_span.mp hspan
      exact .inl (mem_span_of_child hi hchild (ih hnext))
    | inr hself => exact .inr hself

theorem span_subset (hx : x ∈ span width child store levels node slots) :
    x ∈ span width child store (levels + 1) node slots := by
  obtain ⟨i, hi, next, hchild, hnext⟩ := mem_span.mp hx
  exact mem_span_of_child hi hchild (subtree_subset hnext)

section
variable (h : ∀ x ∈ subtree width child store levels node, ∀ i < width, store' x i = store x i)
include h

theorem subtree_congr :
    subtree width child store' (levels + 1) node = subtree width child store (levels + 1) node := by
  induction levels generalizing node with
  | zero =>
    have hself : ∀ i < width, store' node i = store node i := h node mem_subtree_self
    rw [subtree_succ, subtree_succ]
    congr 1
    apply flatMap_congr
    intro i hi
    rw [hself i (mem_range.mp hi)]
    rfl
  | succ levels ih =>
    have hself : ∀ i < width, store' node i = store node i := h node mem_subtree_self
    rw [subtree_succ, subtree_succ]
    congr 1
    apply flatMap_congr
    intro i hi
    rw [hself i (mem_range.mp hi)]
    cases hchild : child (store node i) with
    | none => rfl
    | some =>
      apply ih
      intro x hx
      apply h
      rw [subtree_succ, mem_append]
      exact .inl (mem_span_of_child hi hchild hx)

theorem subtree_congr_all :
    subtree width child store' levels node = subtree width child store levels node := by
  cases levels with
  | zero => rfl
  | succ levels => exact subtree_congr fun x hx => h x (subtree_subset hx)

end

theorem span_congr (hnode : ∀ i ∈ slots, store' node i = store node i)
    (h : ∀ x ∈ span width child store levels node slots, ∀ i < width, store' x i = store x i) :
    span width child store' (levels + 1) node slots = span width child store (levels + 1) node
      slots := by
  apply flatMap_congr
  intro i hi
  rw [hnode i hi]
  cases hchild : child (store node i) with
  | none => rfl
  | some =>
    apply subtree_congr
    intro x hx
    exact h x (mem_span_of_child hi hchild hx)

theorem span_congr_all (hnode : ∀ i ∈ slots, store' node i = store node i)
    (h : ∀ x ∈ span width child store levels node slots, ∀ i < width, store' x i = store x i) :
    span width child store' levels node slots = span width child store levels node slots := by
  apply flatMap_congr
  intro i hi
  rw [hnode i hi]
  cases hchild : child (store node i) with
  | none => rfl
  | some =>
    apply subtree_congr_all
    intro x hx
    exact h x (mem_span_of_child hi hchild hx)

theorem walk_congr {jump : ω → Option ν} (hjump : ∀ word next, jump word = some next →
      child word = some next) (hpath : path.length ≤ levels + 1) (hslots : ∀ i ∈ path, i < width)
    (h : ∀ x ∈ subtree width child store levels node, ∀ i < width, store' x i = store x i) :
    walk jump store' path node = walk jump store path node := by
  induction path generalizing node levels with
  | nil => rfl
  | cons i path ih =>
    have hi : i < width := hslots i mem_cons_self
    rw [walk, walk, h node mem_subtree_self i hi]
    congr 1
    cases hnext : jump (store node i) with
    | none => rfl
    | some =>
      cases levels with
      | zero =>
        rw [length_cons] at hpath
        have hnil : path = [] := eq_nil_of_length_eq_zero (by omega)
        rw [hnil]
        rfl
      | succ levels =>
        refine ih (?_ : path.length ≤ levels + 1) ?_ ?_
        · rw [length_cons] at hpath
          omega
        · intro j hj
          exact hslots j (mem_cons_of_mem _ hj)
        intro x hx
        apply h
        rw [subtree_succ, mem_append]
        exact .inl (mem_span_of_child (mem_range.mpr hi) (hjump _ _ hnext) hx)

theorem follow_append {more : List Nat} : follow child store (path ++ more) node
    = (follow child store path node).bind (follow child store more) := by
  induction path generalizing node with
  | nil => rfl
  | cons i path ih =>
    rw [cons_append, follow, follow]
    cases child (store node i) with
    | none => rfl
    | some => exact ih

variable (hfollow : follow child store path node = some target) (hslots : ∀ i ∈ path, i < width)

section

include hfollow hslots

theorem subtree_of_follow (hx : x ∈ subtree width child store below target) :
    x ∈ subtree width child store (path.length + below) node := by
  induction path generalizing node with
  | nil =>
    cases hfollow
    rwa [length_nil, Nat.zero_add]
  | cons i path ih =>
    rw [follow, Option.bind_eq_some_iff] at hfollow
    obtain ⟨next, hchild, hfollow⟩ := hfollow
    have hi : i < width := hslots i mem_cons_self
    rw [length_cons, Nat.add_right_comm, subtree_succ, mem_append]
    refine .inl (mem_span_of_child (mem_range.mpr hi) hchild (ih hfollow ?_))
    intro j hj
    exact hslots j (mem_cons_of_mem _ hj)

end

theorem flatMap_perm {α β : Type} {items : List α} {f g : α → List β} {item : α} {more : List β}
    (hnodup : items.Nodup) (hitem : item ∈ items)
    (hothers : ∀ other ∈ items, other ≠ item → g other = f other)
    (hgrown : (g item).Perm (more ++ f item)) :
    (items.flatMap g).Perm (more ++ items.flatMap f) := by
  obtain ⟨front, back, rfl⟩ := append_of_mem hitem
  have hcons := nodup_middle.mp hnodup
  have hnotMem : item ∉ front ++ back := (nodup_cons.mp hcons).1
  have hfront : front.flatMap g = front.flatMap f := by
    apply flatMap_congr
    intro other hother
    apply hothers other (by simp [hother])
    rintro rfl
    exact hnotMem (by simp [hother])
  have hback : back.flatMap g = back.flatMap f := by
    apply flatMap_congr
    intro other hother
    apply hothers other (by simp [hother])
    rintro rfl
    exact hnotMem (by simp [hother])
  rw [flatMap_append, flatMap_append, flatMap_cons, flatMap_cons, hfront, hback]
  calc (front.flatMap f ++ (g item ++ back.flatMap f)).Perm
        (front.flatMap f ++ ((more ++ f item) ++ back.flatMap f)) :=
        (hgrown.append_right _).append_left _
    Perm _ (more ++ (front.flatMap f ++ (f item ++ back.flatMap f))) := by
        rw [append_assoc, ← append_assoc (front.flatMap f) more,
          ← append_assoc more (front.flatMap f)]
        exact perm_append_comm.append_right _

theorem span_replace (hnodup : slots.Nodup) (hi : i ∈ slots)
    (hnode : ∀ j ∈ slots, store' node j = store node j) (hchild : child (store node i) = some next)
    (hothers : ∀ j ∈ slots, j ≠ i → ∀ other, child (store node j) = some other →
      subtree width child store' levels other = subtree width child store levels other)
    (hgrown : (subtree width child store' levels next).Perm
      (added ++ subtree width child store levels next)) :
    (span width child store' levels node slots).Perm (added ++ span width child store levels node
      slots) := by
  apply flatMap_perm hnodup hi
  · intro j hj hne
    rw [hnode j hj]
    cases hother : child (store node j) with
    | none => rfl
    | some other => exact hothers j hj hne other hother
  · rw [hnode i hi, hchild]
    exact hgrown

theorem span_hang (hnodup : slots.Nodup) (hi : i ∈ slots)
    (hnode : ∀ j ∈ slots, j ≠ i → store' node j = store node j)
    (hempty : child (store node i) = none)
    (hothers : ∀ j ∈ slots, ∀ other, child (store node j) = some other →
      subtree width child store' levels other = subtree width child store levels other)
    (hchild : child (store' node i) = some next) : (span width child store' levels node slots).Perm
      (subtree width child store' levels next ++ span width child store levels node slots) := by
  apply flatMap_perm hnodup hi
  · intro j hj hne
    rw [hnode j hj hne]
    cases hother : child (store node j) with
    | none => rfl
    | some other => exact hothers j hj other hother
  · rw [hempty, hchild]
    simp

theorem span_disjoint {j : Nat} {other : ν}
    (hnodup : (span width child store levels node slots).Nodup) (hi : i ∈ slots) (hj : j ∈ slots)
    (hne : i ≠ j) (hchild : child (store node i) = some next)
    (hother : child (store node j) = some other) (hx : x ∈ subtree width child store levels next) :
    x ∉ subtree width child store levels other := by
  have hpair := (nodup_flatMap.mp hnodup).2
  have : Std.Symm (Function.onFun Disjoint fun i => (child (store node i)).elim []
      (subtree width child store levels)) :=
    ⟨fun _ _ hdisjoint _ hx hx' => hdisjoint hx' hx⟩
  have hdisjoint := hpair.forall hi hj hne
  simp only [Function.onFun, hchild, hother, Option.elim_some] at hdisjoint
  exact fun hx' => hdisjoint hx hx'

theorem subtree_nodup (hnodup : (span width child store levels node slots).Nodup) (hi : i ∈ slots)
    (hchild : child (store node i) = some next) :
    (subtree width child store levels next).Nodup := by
  have heach := (nodup_flatMap.mp hnodup).1 i hi
  rwa [hchild] at heach

section

include hfollow hslots

theorem nodup_of_follow (hnodup : (subtree width child store (path.length + below) node).Nodup) :
    (subtree width child store below target).Nodup := by
  induction path generalizing node with
  | nil =>
    obtain rfl : node = target := Option.some.inj hfollow
    rwa [length_nil, Nat.zero_add] at hnodup
  | cons i path ih =>
    rw [follow, Option.bind_eq_some_iff] at hfollow
    obtain ⟨next, hnext, hfollow⟩ := hfollow
    rw [length_cons, Nat.add_right_comm, subtree_succ] at hnodup
    have hi : i ∈ range width := mem_range.mpr (hslots i mem_cons_self)
    exact ih hfollow (fun j hj => hslots j (mem_cons_of_mem _ hj))
      (subtree_nodup (nodup_append.mp hnodup).1 hi hnext)

end

theorem subtree_leaf (hnone : ∀ i < width, child (store node i) = none) :
    subtree width child store levels node = [node] := by
  cases levels with
  | zero => rfl
  | succ levels =>
    have hnothing : span width child store levels node (range width) = [] := by
      rw [span, flatMap_eq_nil_iff]
      intro i hi
      rw [hnone i (mem_range.mp hi)]
      rfl
    rw [subtree_succ, hnothing, nil_append]

/-- Where a way goes on, and that what it leads to is below this node on one side only. -/
theorem follow_cons (below : Nat) (hfollow : follow child store (i :: path) node = some target)
    (hslots : ∀ j ∈ i :: path, j < width)
    (hnodup : (subtree width child store (path.length + below + 1) node).Nodup) :
    ∃ next, child (store node i) = some next ∧ follow child store path next = some target
      ∧ i ∈ range width ∧ (∀ j ∈ path, j < width)
        ∧ (span width child store (path.length + below) node (range width)).Nodup
      ∧ target ∈ subtree width child store (path.length + below) next ∧ node ≠ target := by
  rw [follow, Option.bind_eq_some_iff] at hfollow
  obtain ⟨next, hnext, hfollow⟩ := hfollow
  have hi : i ∈ range width := mem_range.mpr (hslots i mem_cons_self)
  have hrest : ∀ j ∈ path, j < width := fun j hj => hslots j (mem_cons_of_mem _ hj)
  obtain ⟨hspan, -, hapart⟩ := nodup_append.mp hnodup
  have htarget : target ∈ subtree width child store (path.length + below) next :=
    subtree_of_follow hfollow hrest mem_subtree_self
  exact ⟨next, hnext, hfollow, hi, hrest, hspan, htarget, fun heq =>
    hapart _ (mem_span_of_child hi hnext htarget) _ (mem_singleton_self _) heq.symm⟩

section

include hfollow hslots

theorem subtree_hang {leaf : ν} (hslot : slot < width)
    (hnodup : (subtree width child store (path.length + (below + 1)) node).Nodup)
    (hempty : child (store target slot) = none)
    (hsame : ∀ x ∈ subtree width child store (path.length + (below + 1)) node, ∀ i < width,
      ¬ (x = target ∧ i = slot) → store' x i = store x i)
    (hchild : child (store' target slot) = some leaf)
    (hleaf : subtree width child store' below leaf = [leaf]) :
    (subtree width child store' (path.length + (below + 1)) node).Perm
      (leaf :: subtree width child store (path.length + (below + 1)) node) := by
  induction path generalizing node with
  | nil =>
    obtain rfl : node = target := Option.some.inj hfollow
    rw [length_nil, Nat.zero_add, subtree_succ] at hnodup hsame
    rw [length_nil, Nat.zero_add, subtree_succ, subtree_succ]
    obtain ⟨-, -, hapart⟩ := nodup_append.mp hnodup
    have hhung : (span width child store' below node (range width)).Perm
        (subtree width child store' below leaf ++ span width child store below node
        (range width)) := by
      apply span_hang nodup_range (mem_range.mpr hslot)
      · intro j hj hne
        apply hsame node (by simp) j (mem_range.mp hj)
        exact fun hboth => hne hboth.2
      · exact hempty
      · intro j hj other hother
        apply subtree_congr_all
        intro x hx i hi
        have hmem := mem_span_of_child hj hother hx
        apply hsame x (mem_append_left _ hmem) i hi
        rintro ⟨rfl, -⟩
        exact hapart _ hmem _ (mem_singleton_self _) rfl
      · exact hchild
    rw [hleaf] at hhung
    exact hhung.append_right [node]
  | cons i path ih =>
    rw [length_cons, Nat.add_right_comm] at hnodup hsame
    rw [length_cons, Nat.add_right_comm, subtree_succ, subtree_succ]
    rw [subtree_succ] at hsame
    obtain ⟨next, hnext, hfollow, hi, hrest, hspan, htarget, hne⟩ :=
      follow_cons (below + 1) hfollow hslots hnodup
    have hgrown : (span width child store' (path.length + (below + 1)) node (range width)).Perm
        ([leaf] ++ span width child store (path.length + (below + 1)) node (range width)) := by
      apply span_replace nodup_range hi
      · intro j hj
        apply hsame node (by simp) j (mem_range.mp hj)
        exact fun hboth => hne hboth.1
      · exact hnext
      · intro j hj hji other hother
        apply subtree_congr_all
        intro x hx k hk
        apply hsame x (mem_append_left _ (mem_span_of_child hj hother hx)) k hk
        rintro ⟨rfl, -⟩
        exact span_disjoint hspan hi hj hji.symm hnext hother htarget hx
      · apply ih hfollow hrest (subtree_nodup hspan hi hnext)
        intro x hx
        exact hsame x (mem_append_left _ (mem_span_of_child hi hnext hx))
    exact hgrown.append_right [node]

end

theorem span_hang_below {leaf : ν} (hslotsNodup : slots.Nodup) (hi : i ∈ slots)
    (hnext : child (store node i) = some next)
    (hfollow : follow child store path next = some target) (hslots : ∀ j ∈ path, j < width)
    (hslot : slot < width)
    (hnodup : (span width child store (path.length + (below + 1)) node slots).Nodup)
    (hnode : ∀ j ∈ slots, store' node j = store node j) (hempty : child (store target slot) = none)
    (hsame : ∀ x ∈ span width child store (path.length + (below + 1)) node slots, ∀ j < width,
      ¬ (x = target ∧ j = slot) → store' x j = store x j)
    (hchild : child (store' target slot) = some leaf)
    (hleaf : subtree width child store' below leaf = [leaf]) :
    (span width child store' (path.length + (below + 1)) node slots).Perm
      (leaf :: span width child store (path.length + (below + 1)) node slots) := by
  have htarget : target ∈ subtree width child store (path.length + (below + 1)) next :=
    subtree_of_follow hfollow hslots mem_subtree_self
  change (span width child store' (path.length + (below + 1)) node slots).Perm
    ([leaf] ++ span width child store (path.length + (below + 1)) node slots)
  apply span_replace hslotsNodup hi hnode hnext
  · intro j hj hji other hother
    apply subtree_congr_all
    intro x hx k hk
    apply hsame x (mem_span_of_child hj hother hx) k hk
    rintro ⟨rfl, -⟩
    exact span_disjoint hnodup hi hj hji.symm hnext hother htarget hx
  · apply subtree_hang hfollow hslots hslot (subtree_nodup hnodup hi hnext) hempty _ hchild hleaf
    intro x hx
    exact hsame x (mem_span_of_child hi hnext hx)

theorem span_set (hnodup : (span width child store levels node slots).Nodup) (hi : i ∈ slots)
    (hnext : child (store node i) = some next)
    (htarget : target ∈ subtree width child store levels next)
    (hkept : subtree width child store' levels next = subtree width child store levels next)
    (hnode : ∀ j ∈ slots, store' node j = store node j)
    (hsame : ∀ x ∈ span width child store levels node slots, x ≠ target → ∀ j < width,
      store' x j = store x j) :
    span width child store' levels node slots = span width child store levels node slots := by
  apply flatMap_congr
  intro j hj
  rw [hnode j hj]
  cases hother : child (store node j) with
  | none => rfl
  | some other =>
    by_cases hji : j = i
    · obtain rfl : next = other := by
        rw [hji, hnext] at hother
        exact Option.some.inj hother
      exact hkept
    apply subtree_congr_all
    intro x hx
    apply hsame x (mem_span_of_child hj hother hx)
    rintro rfl
    exact span_disjoint hnodup hi hj (Ne.symm hji) hnext hother htarget hx

section

include hfollow hslots

theorem subtree_set (hnodup : (subtree width child store path.length node).Nodup)
    (hsame : ∀ x ∈ subtree width child store path.length node, x ≠ target → ∀ i < width,
      store' x i = store x i) :
    subtree width child store' path.length node = subtree width child store path.length node := by
  induction path generalizing node with
  | nil => rfl
  | cons i path ih =>
    obtain ⟨next, hnext, hfollow, hi, hrest, hspan, htarget, hne⟩ :=
      follow_cons 0 hfollow hslots hnodup
    rw [length_cons, subtree_succ] at hsame
    rw [length_cons, subtree_succ, subtree_succ]
    have hkept : subtree width child store' path.length next = subtree width child store path.length
        next := by
      apply ih hfollow hrest (subtree_nodup hspan hi hnext)
      intro x hx
      exact hsame x (mem_append_left _ (mem_span_of_child hi hnext hx))
    congr 1
    apply span_set hspan hi hnext htarget hkept
    · intro j hj
      exact hsame node (by simp) hne j (mem_range.mp hj)
    · intro x hx
      exact hsame x (mem_append_left _ hx)

theorem follow_set (hnodup : (subtree width child store (path.length + below) node).Nodup)
    (hsame : ∀ x ∈ subtree width child store (path.length + below) node, x ≠ target →
      ∀ i < width, store' x i = store x i) : follow child store' path node = some target := by
  induction path generalizing node with
  | nil => exact hfollow
  | cons i path ih =>
    rw [length_cons, Nat.add_right_comm] at hnodup hsame
    rw [subtree_succ] at hsame
    obtain ⟨next, hnext, hfollow, hi, hrest, hspan, htarget, hne⟩ :=
      follow_cons below hfollow hslots hnodup
    rw [follow, hsame node (by simp) hne i (mem_range.mp hi), hnext]
    apply ih hfollow hrest (subtree_nodup hspan hi hnext)
    intro x hx
    exact hsame x (mem_append_left _ (mem_span_of_child hi hnext hx))

end

variable {P : Nat → ω → Prop}

theorem Every.congr (h : Every width child store P levels node)
    (hsame : ∀ x ∈ subtree width child store levels node, ∀ i < width, store' x i = store x i) :
    Every width child store' P levels node := by
  induction levels generalizing node with
  | zero =>
    intro i hi
    rw [hsame node mem_subtree_self i hi]
    exact h i hi
  | succ levels ih =>
    intro i hi
    rw [hsame node mem_subtree_self i hi]
    refine ⟨(h i hi).1, fun next hnext => ?_⟩
    apply ih ((h i hi).2 next hnext)
    intro x hx
    apply hsame
    rw [subtree_succ, mem_append]
    exact .inl (mem_span_of_child (mem_range.mpr hi) hnext hx)

theorem Every.set (h : Every width child store P (path.length + below) node)
    (hfollow : follow child store path node = some target) (hslots : ∀ i ∈ path, i < width)
    (hnodup : (subtree width child store (path.length + below) node).Nodup)
    (hsame : ∀ x ∈ subtree width child store (path.length + below) node, ∀ i < width, ¬ (x = target
      ∧ i = slot) → store' x i = store x i)
    (hlocal : Every width child store P below target → Every width child store' P below target) :
    Every width child store' P (path.length + below) node := by
  induction path generalizing node with
  | nil =>
    obtain rfl : node = target := Option.some.inj hfollow
    rw [length_nil, Nat.zero_add] at h ⊢
    exact hlocal h
  | cons i path ih =>
    rw [length_cons, Nat.add_right_comm] at hnodup hsame h ⊢
    rw [subtree_succ] at hsame
    obtain ⟨next, hnext, hfollow, hi, hrest, hspan, htarget, hne⟩ :=
      follow_cons below hfollow hslots hnodup
    intro j hj
    have hword : store' node j = store node j := hsame node (by simp) j hj fun hboth => hne hboth.1
    rw [hword]
    refine ⟨(h j hj).1, fun other hother => ?_⟩
    have hevery := (h j hj).2 other hother
    have hjrange := mem_range.mpr hj
    by_cases hji : j = i
    · obtain rfl : next = other := by
        rw [hji, hnext] at hother
        exact Option.some.inj hother
      apply ih hevery hfollow hrest (subtree_nodup hspan hi hnext)
      intro x hx
      exact hsame x (mem_append_left _ (mem_span_of_child hi hnext hx))
    · apply hevery.congr
      intro x hx k hk
      apply hsame x (mem_append_left _ (mem_span_of_child hjrange hother hx)) k hk
      rintro ⟨rfl, -⟩
      exact span_disjoint hspan hi hjrange (Ne.symm hji) hnext hother htarget hx

theorem Every.leaf (hwords : ∀ i < width, P levels (store node i))
    (hnone : ∀ i < width, child (store node i) = none) : Every width child store P levels node := by
  cases levels with
  | zero => exact hwords
  | succ levels =>
    intro i hi
    refine ⟨hwords i hi, fun next hnext => ?_⟩
    rw [hnone i hi] at hnext
    cases hnext

theorem Every.setLast (h : Every width child store P path.length node)
    (hfollow : follow child store path node = some target) (hslots : ∀ i ∈ path, i < width)
    (hnodup : (subtree width child store path.length node).Nodup)
    (hsame : ∀ x ∈ subtree width child store path.length node, ∀ i < width,
      ¬ (x = target ∧ i = slot) → store' x i = store x i) (hword : P 0 (store' target slot)) :
    Every width child store' P path.length node := by
  have htarget : target ∈ subtree width child store (path.length + 0) node :=
    subtree_of_follow hfollow hslots mem_subtree_self
  refine Every.set (show Every width child store P (path.length + 0) node from h) hfollow hslots
    hnodup hsame ?_
  intro hlast i hi
  by_cases his : i = slot
  · rwa [his]
  · rw [hsame target htarget i hi fun hboth => his hboth.2]
    exact hlast i hi

theorem Every.hang {added : ν} (h : Every width child store P (path.length + (below + 1)) node)
    (hfollow : follow child store path node = some target) (hslots : ∀ i ∈ path, i < width)
    (hnodup : (subtree width child store (path.length + (below + 1)) node).Nodup)
    (hsame : ∀ x ∈ subtree width child store (path.length + (below + 1)) node, ∀ i < width,
      ¬ (x = target ∧ i = slot) → store' x i = store x i)
    (hword : P (below + 1) (store' target slot)) (hchild : child (store' target slot) = some added)
    (hadded : Every width child store' P below added) :
    Every width child store' P (path.length + (below + 1)) node := by
  have hbelow : ∀ x ∈ subtree width child store (below + 1) target,
      x ∈ subtree width child store (path.length + (below + 1)) node := fun x hx =>
    subtree_of_follow hfollow hslots hx
  obtain ⟨-, -, hapart⟩ := nodup_append.mp (nodup_of_follow hfollow hslots hnodup)
  apply h.set hfollow hslots hnodup hsame
  intro hlocal i hi
  by_cases his : i = slot
  · rw [his]
    refine ⟨hword, fun next hnext => ?_⟩
    rw [hchild, Option.some.injEq] at hnext
    exact hnext ▸ hadded
  rw [hsame target (hbelow target mem_subtree_self) i hi fun hboth => his hboth.2]
  refine ⟨(hlocal i hi).1, fun next hnext => ?_⟩
  apply ((hlocal i hi).2 next hnext).congr
  intro x hx j hj
  have hmem : x ∈ span width child store below target (range width) :=
    mem_span_of_child (mem_range.mpr hi) hnext hx
  apply hsame x (hbelow x (mem_append_left _ hmem)) j hj
  rintro ⟨rfl, -⟩
  exact hapart x hmem x (mem_singleton_self x) rfl

end Kaguya.Trie
