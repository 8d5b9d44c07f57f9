import Kaguya.Space.Tables

/-!
# What the operations on tables do to the frames

Every operation keeps the account of the frames: an allocation adds to the others, hanging a frame
into an empty slot moves it from the others to the tree, and freeing takes it out of use.
-/

namespace Kaguya.Space

open Paging List Trie Machine

variable {m m' m'' : Machine} {root address frame table word : Nat} {others more start : List Nat}

variable {i below : Nat} {path : List Nat}

theorem mem_userSlots : i ∈ userSlots ↔ 128 ≤ i ∧ i < 256 := by
  rw [userSlots, mem_range'_1]

theorem nodup_userSlots : userSlots.Nodup := nodup_range'

theorem slot_mem_userSlots (hstart : USER_START ≤ address) (hend : address < USER_END) :
    slot 39 address ∈ userSlots := by
  rw [mem_userSlots, slot, Nat.shiftRight_eq_div_pow, show (511 : Nat) = 2 ^ 9 - 1 from rfl,
    Nat.and_two_pow_sub_one_eq_mod]
  unfold USER_START at hstart
  unfold USER_END at hend
  omega

namespace Kept

theorem refl : Kept m m root others := ⟨fun _ _ => Machine.SameFrame.refl, fun _ _ _ => rfl⟩

theorem trans (h : Kept m m' root others) (h' : Kept m' m'' root others) :
    Kept m m'' root others where
  frames frame hframe := (h.frames frame hframe).trans (h'.frames frame hframe)
  slots i hi hslot := (h'.slots i hi hslot).trans (h.slots i hi hslot)

theorem mono (h : Kept m m' root others) (hmore : ∀ frame ∈ more, frame ∈ others) :
    Kept m m' root more where
  frames frame hframe := h.frames frame (hmore frame hframe)
  slots := h.slots

end Kept

theorem tree_congr (hroot : ∀ i ∈ userSlots, m'.entry root i = m.entry root i)
    (htables : ∀ x ∈ Trie.span 512 childOf m.entry 2 root userSlots, ∀ i < 512,
      m'.entry x i = m.entry x i) : tree m' root = tree m root := span_congr hroot htables

theorem tree_of_sameFrame (h : ∀ frame ∈ root :: tree m root, Machine.SameFrame m m' frame) :
    tree m' root = tree m root := by
  apply tree_congr
  · intro i hi
    rw [mem_userSlots] at hi
    exact (h root mem_cons_self).entry (by omega)
  · intro x hx i hi
    exact (h x (mem_cons_of_mem _ (span_subset hx))).entry hi

namespace Holds

variable (h : Holds m root others start)
include h

theorem mem_iff : frame ∈ m.inUse ↔ frame = root ∨ frame ∈ tree m root ∨ frame ∈ others := by
  rw [h.account.mem_iff, mem_append, mem_cons, or_assoc]

theorem nodup_account : (root :: tree m root ++ others).Nodup := h.account.nodup_iff.mp h.nodup

theorem root_usable : Usable root := h.usable root (h.mem_iff.mpr (.inl rfl))

theorem usable_tree (hframe : frame ∈ tree m root) :
    Usable frame := h.usable frame (h.mem_iff.mpr (.inr (.inl hframe)))

theorem usable_table (htable : table ∈ root :: tree m root) : Usable table :=
  h.usable table (h.mem_iff.mpr ((mem_cons.mp htable).imp_right .inl))

theorem usable_others (hframe : frame ∈ others) :
    Usable frame := h.usable frame (h.mem_iff.mpr (.inr (.inr hframe)))

theorem apart (hframe : frame ∈ others) : frame ≠ root ∧ frame ∉ tree m root := by
  have hapart := (nodup_append.mp h.nodup_account).2.2
  constructor
  · intro heq
    exact hapart root mem_cons_self frame hframe heq.symm
  · intro htree
    exact hapart frame (mem_cons_of_mem _ htree) frame hframe rfl

theorem perm (hperm : others.Perm more) : Holds m root more start where
  nodup := h.nodup
  usable := h.usable
  account := h.account.trans (hperm.append_left _)
  ledger := h.ledger

theorem congr (hinUse : m'.inUse = m.inUse) (hallocated : m'.allocated = m.allocated)
    (hfreed : m'.freed = m.freed) (htree : tree m' root = tree m root) :
    Holds m' root others start where
  nodup := by
    rw [hinUse]
    exact h.nodup
  usable := by
    rw [hinUse]
    exact h.usable
  account := by
    rw [hinUse, htree]
    exact h.account
  ledger := by
    rw [hinUse, hallocated, hfreed]
    exact h.ledger

end Holds

variable (h : Holds m root others start)

section

include h

theorem Holds.kept_alloc : Kept m m.alloc.2 root others where
  frames _ hframe := sameFrame_alloc (h.mem_iff.mpr (.inr (.inr hframe))) (h.usable_others hframe)
  slots _ hi _ := (sameFrame_alloc (h.mem_iff.mpr (.inl rfl)) h.root_usable).entry hi

theorem Holds.entry_alloc (htable : table ∈ root :: tree m root) (hi : i < 512) :
    m.alloc.2.entry table i = m.entry table i := by
  have hused : table ∈ m.inUse := h.mem_iff.mpr ((mem_cons.mp htable).imp_right .inl)
  exact (sameFrame_alloc hused (h.usable table hused)).entry hi

theorem Holds.tree_alloc : tree m.alloc.2 root = tree m root := by
  apply tree_of_sameFrame
  intro frame hframe
  have hused : frame ∈ m.inUse := by
    rw [mem_cons] at hframe
    exact h.mem_iff.mpr (hframe.imp_right .inl)
  exact sameFrame_alloc hused (h.usable frame hused)

theorem Holds.alloc_failed (hfailed : m.alloc.1 = 0) : Holds m.alloc.2 root others start := by
  cases alloc_cases (m := m) with
  | inl hcase => exact h.congr (by rw [hcase.2]) (by rw [hcase.2]) (by rw [hcase.2]) h.tree_alloc
  | inr hcase => exact absurd hfailed hcase.1.ne_zero

theorem Holds.alloc (hgiven : m.alloc.1 ≠ 0) :
    Holds m.alloc.2 root (m.alloc.1 :: others) start ∧ (∀ i < 512, m.alloc.2.entry m.alloc.1 i = 0)
      ∧ m.alloc.1 ∉ m.inUse
      ∧ m.alloc.2.inUse = m.alloc.1 :: m.inUse := by
  cases alloc_cases (m := m) with
  | inl hcase => exact absurd hcase.1 hgiven
  | inr hcase =>
    obtain ⟨husable, hfree, hstate⟩ := hcase
    have hinUse : m.alloc.2.inUse = m.alloc.1 :: m.inUse := by rw [hstate]
    refine ⟨?_, ?_, hfree, hinUse⟩
    · constructor
      case nodup =>
        rw [hinUse]
        exact nodup_cons.mpr ⟨hfree, h.nodup⟩
      case usable =>
        intro frame hframe
        rw [hinUse, mem_cons] at hframe
        cases hframe with
        | inl heq => rwa [heq]
        | inr hold => exact h.usable frame hold
      case account =>
        rw [hinUse, h.tree_alloc]
        exact (h.account.cons _).trans perm_middle.symm
      case ledger =>
        rw [hstate]
        exact perm_middle.trans (h.ledger.cons _)
    · intro i hi
      rw [hstate]
      exact entry_memFill hi

end

theorem Holds.free (h : Holds m root (frame :: others) start) :
    Holds (m.free frame) root others start ∧ Kept m (m.free frame) root others := by
  have husable : Usable frame := h.usable_others mem_cons_self
  obtain ⟨hroot, htree⟩ := h.apart mem_cons_self
  have hothers : frame ∉ others := by
    have hcons := (nodup_append.mp h.nodup_account).2.1
    exact (nodup_cons.mp hcons).1
  have hsame : ∀ x, Usable x → x ≠ frame → Machine.SameFrame m (m.free frame) x :=
    fun x hx hne => sameFrame_free hx husable hne
  constructor
  · constructor
    case nodup => exact h.nodup.erase _
    case usable =>
      intro x hx
      exact h.usable x (mem_of_mem_erase hx)
    case account =>
      have hkept : tree (m.free frame) root = tree m root := by
        apply tree_of_sameFrame
        intro x hx
        rw [mem_cons] at hx
        cases hx with
        | inl heq =>
          rw [heq]
          exact hsame root h.root_usable hroot.symm
        | inr hmem => exact hsame x (h.usable_tree hmem) fun heq => htree (heq ▸ hmem)
      rw [hkept]
      have herase : m.inUse.Perm (frame :: m.inUse.erase frame) :=
        perm_cons_erase (h.mem_iff.mpr (.inr (.inr mem_cons_self)))
      have hmiddle : (root :: tree m root ++ frame :: others).Perm
          (frame :: (root :: tree m root ++ others)) := perm_middle
      exact (herase.symm.trans (h.account.trans hmiddle)).cons_inv
    case ledger =>
      have herase : m.inUse.Perm (frame :: m.inUse.erase frame) :=
        perm_cons_erase (h.mem_iff.mpr (.inr (.inr mem_cons_self)))
      exact (perm_middle.symm.trans (herase.symm.append_left _)).trans h.ledger
  · constructor
    case frames =>
      intro x hx
      exact hsame x (h.usable_others (mem_cons_of_mem _ hx)) fun heq => hothers (heq ▸ hx)
    case slots =>
      intro i hi _
      exact (hsame root h.root_usable hroot.symm).entry hi

theorem mem_of_follow (hlength : path.length ≤ 3) (hfirst : ∀ i ∈ path.head?, i ∈ userSlots)
    (hbound : ∀ i ∈ path, i < 512) (hfollow : Trie.follow childOf m.entry path root = some table) :
    table = root ∨ table ∈ tree m root := by
  cases path with
  | nil => exact .inl (Option.some.inj hfollow).symm
  | cons i path =>
    rw [Trie.follow, Option.bind_eq_some_iff] at hfollow
    obtain ⟨next, hnext, hfollow⟩ := hfollow
    have hi : i ∈ userSlots := hfirst i rfl
    have hrest : ∀ j ∈ path, j < 512 := fun j hj => hbound j (mem_cons_of_mem _ hj)
    have hmem : table ∈ Trie.subtree 512 childOf m.entry (path.length + (3 - path.length)) next :=
      subtree_of_follow hfollow hrest mem_subtree_self
    rw [length_cons] at hlength
    rw [Nat.add_sub_cancel' (by omega)] at hmem
    exact .inr (mem_span_of_child hi hnext hmem)

section

include h

theorem Holds.follow_kept (hlength : path.length ≤ 3)
    (hfirst : ∀ i ∈ path.head?, i ∈ userSlots) (hbound : ∀ i ∈ path, i < 512)
    (hfollow : Trie.follow childOf m.entry path root = some table)
    (hsame : ∀ x ∈ root :: tree m root, x ≠ table → ∀ i < 512, m'.entry x i = m.entry x i) :
    Trie.follow childOf m'.entry path root = some table := by
  cases path with
  | nil => exact hfollow
  | cons first path =>
    rw [Trie.follow, Option.bind_eq_some_iff] at hfollow
    obtain ⟨next, hnext, hfollow⟩ := hfollow
    have hslot : first ∈ userSlots := hfirst first rfl
    have hrest : ∀ j ∈ path, j < 512 := fun j hj => hbound j (mem_cons_of_mem _ hj)
    have hlevels : path.length + (3 - path.length) = 3 := by
      rw [length_cons] at hlength
      omega
    obtain ⟨hroot, htree⟩ := nodup_cons.mp (nodup_append.mp h.nodup_account).1
    have htable : table ∈ tree m root := by
      apply mem_span_of_child hslot hnext
      rw [← hlevels]
      exact subtree_of_follow hfollow hrest mem_subtree_self
    have hne : root ≠ table := by
      rintro rfl
      exact hroot htable
    have hword : m'.entry root first = m.entry root first :=
      hsame root mem_cons_self hne first (hbound first mem_cons_self)
    rw [Trie.follow, hword, hnext]
    apply follow_set hfollow hrest
    · rw [hlevels]
      exact subtree_nodup htree hslot hnext
    · rw [hlevels]
      intro x hx
      exact hsame x (mem_cons_of_mem _ (mem_span_of_child hslot hnext hx))

theorem Holds.tree_page (hlength : path.length = 4) (hfirst : ∀ i ∈ path.head?, i ∈ userSlots)
    (hbound : ∀ i ∈ path, i < 512) (hfollow : Trie.follow childOf m.entry path root = some frame)
    (hsame : ∀ x ∈ root :: tree m root, x ≠ frame → ∀ i < 512, m'.entry x i = m.entry x i) :
    frame ∈ tree m root ∧ tree m' root = tree m root := by
  cases path with
  | nil => cases hlength
  | cons first path =>
    rw [Trie.follow, Option.bind_eq_some_iff] at hfollow
    obtain ⟨next, hnext, hfollow⟩ := hfollow
    have hslot : first ∈ userSlots := hfirst first rfl
    have hrest : ∀ j ∈ path, j < 512 := fun j hj => hbound j (mem_cons_of_mem _ hj)
    have hlevels : path.length = 3 := Nat.succ.inj hlength
    obtain ⟨hroot, htree⟩ := nodup_cons.mp (nodup_append.mp h.nodup_account).1
    have hpage : frame ∈ Trie.subtree 512 childOf m.entry 3 next := by
      rw [← hlevels, ← Nat.add_zero path.length]
      exact subtree_of_follow hfollow hrest mem_subtree_self
    have hmem : frame ∈ tree m root := mem_span_of_child hslot hnext hpage
    have hkept : Trie.subtree 512 childOf m'.entry 3 next = Trie.subtree 512 childOf m.entry 3
        next := by
      rw [← hlevels]
      apply subtree_set hfollow hrest
      · rw [hlevels]
        exact subtree_nodup htree hslot hnext
      · rw [hlevels]
        intro x hx
        exact hsame x (mem_cons_of_mem _ (mem_span_of_child hslot hnext hx))
    refine ⟨hmem, span_set htree hslot hnext hpage hkept ?_ ?_⟩
    · intro j hj
      apply hsame root mem_cons_self
      · rintro rfl
        exact hroot hmem
      · rw [mem_userSlots] at hj
        omega
    · intro x hx
      exact hsame x (mem_cons_of_mem _ hx)

end

theorem tree_hang (hlength : path.length + below = 3)
    (hfirst : ∀ j ∈ (path ++ [i]).head?, j ∈ userSlots) (hbound : ∀ j ∈ path, j < 512)
    (hi : i < 512) (hfollow : Trie.follow childOf m.entry path root = some table)
    (hnodup : (root :: tree m root).Nodup) (hempty : childOf (m.entry table i) = none)
    (hsame : ∀ x ∈ root :: tree m root, ∀ j < 512, ¬ (x = table ∧ j = i) →
      m'.entry x j = m.entry x j) (hchild : childOf (m'.entry table i) = some frame)
    (hleaf : Trie.subtree 512 childOf m'.entry below frame = [frame]) :
    (tree m' root).Perm (frame :: tree m root) := by
  obtain ⟨hroot, htree⟩ := nodup_cons.mp hnodup
  have hbounded : ∀ j ∈ userSlots, j < 512 := by
    intro j hj
    rw [mem_userSlots] at hj
    omega
  cases path with
  | nil =>
    obtain rfl : root = table := Option.some.inj hfollow
    obtain rfl : below = 3 := by simpa using hlength
    have hhung : (Trie.span 512 childOf m'.entry 3 root userSlots).Perm
        (Trie.subtree 512 childOf m'.entry 3 frame ++ Trie.span 512 childOf m.entry 3 root
        userSlots) := by
      apply span_hang nodup_userSlots (hfirst i rfl) _ hempty _ hchild
      · intro j hj hji
        exact hsame root mem_cons_self j (hbounded j hj) fun hboth => hji hboth.2
      intro j hj other hother
      apply subtree_congr_all
      intro x hx k hk
      have hmem : x ∈ tree m root := mem_span_of_child hj hother hx
      apply hsame x (mem_cons_of_mem _ hmem) k hk
      rintro ⟨rfl, -⟩
      exact hroot hmem
    rw [hleaf] at hhung
    exact hhung
  | cons first path =>
    rw [Trie.follow, Option.bind_eq_some_iff] at hfollow
    obtain ⟨next, hnext, hfollow⟩ := hfollow
    have hslot : first ∈ userSlots := hfirst first rfl
    have hrest : ∀ j ∈ path, j < 512 := fun j hj => hbound j (mem_cons_of_mem _ hj)
    have hlevels : path.length + (below + 1) = 3 := by
      rw [length_cons] at hlength
      omega
    have htable : table ∈ tree m root := by
      apply mem_span_of_child hslot hnext
      rw [← hlevels]
      exact subtree_of_follow hfollow hrest mem_subtree_self
    have hgrown : (Trie.span 512 childOf m'.entry (path.length + (below + 1)) root userSlots).Perm
        (frame :: Trie.span 512 childOf m.entry (path.length + (below + 1)) root userSlots) := by
      apply span_hang_below nodup_userSlots hslot hnext hfollow hrest hi _ _ hempty _ hchild hleaf
      · rw [hlevels]
        exact htree
      · intro j hj
        apply hsame root mem_cons_self j (hbounded j hj)
        rintro ⟨rfl, -⟩
        exact hroot htable
      · rw [hlevels]
        intro x hx
        exact hsame x (mem_cons_of_mem _ hx)
    rw [hlevels] at hgrown
    exact hgrown

/-- **Hanging a frame.** A frame of the others becomes part of the tree. -/
theorem Holds.hang (h : Holds m root (frame :: others) start) (hlength : path.length + below = 3)
    (hfirst : ∀ j ∈ (path ++ [i]).head?, j ∈ userSlots) (hbound : ∀ j ∈ path, j < 512)
    (hi : i < 512) (hfollow : Trie.follow childOf m.entry path root = some table)
    (hempty : m.entry table i &&& PRESENT = 0) (hword : childOf word = some frame)
    (hlt : word < 2 ^ 64) (hzero : below ≠ 0 → ∀ j < 512, m.entry frame j = 0) :
    Holds (m.setEntry table i word) root others start ∧ Kept m (m.setEntry table i word) root
      others := by
  have hframe : frame ∈ frame :: others := mem_cons_self
  obtain ⟨hroot, htree⟩ := h.apart hframe
  have hheads : ∀ j ∈ path.head?, j ∈ userSlots := by
    intro j hj
    apply hfirst
    cases path with
    | nil => cases hj
    | cons => exact hj
  have htable := mem_of_follow (by omega) hheads hbound hfollow
  have husable : Usable table := by
    cases htable with
    | inl heq => exact heq ▸ h.root_usable
    | inr hmem => exact h.usable_tree hmem
  have hne : frame ≠ table := by
    rintro rfl
    exact htable.elim hroot htree
  have hsame : ∀ x, Usable x → ∀ j < 512, ¬ (x = table ∧ j = i) → (m.setEntry table i word).entry x
      j = m.entry x j :=
    fun x hx j hj hother => entry_setEntry hx husable hi hj hother
  have hleaf : Trie.subtree 512 childOf (m.setEntry table i word).entry below frame = [frame] := by
    by_cases hlast : below = 0
    · rw [hlast]
      rfl
    apply subtree_leaf
    intro j hj
    rw [hsame frame (h.usable_others hframe) j hj fun hboth => hne hboth.1, hzero hlast j hj]
    rfl
  have hgrown : (tree (m.setEntry table i word) root).Perm (frame :: tree m root) := by
    apply tree_hang hlength hfirst hbound hi hfollow (nodup_append.mp h.nodup_account).1
      (childOf_eq_none.mpr hempty) _ _ hleaf
    · intro x hx
      rw [mem_cons] at hx
      exact hsame x (hx.elim (fun heq => heq ▸ h.root_usable) h.usable_tree)
    · rw [entry_setEntry_self hlt, hword]
  constructor
  · constructor
    case nodup => exact h.nodup
    case usable => exact h.usable
    case account =>
      have hmoved : (root :: tree m root ++ frame :: others).Perm
          (root :: tree (m.setEntry table i word) root ++ others) := by
        have hmiddle : (tree m root ++ frame :: others).Perm (frame :: tree m root ++ others) :=
          perm_middle
        exact (hmiddle.trans (hgrown.symm.append_right others)).cons root
      exact h.account.trans hmoved
    case ledger => exact h.ledger
  constructor
  case frames =>
    intro x hx
    have hx' : x ∈ frame :: others := mem_cons_of_mem _ hx
    obtain ⟨hxroot, hxtree⟩ := h.apart hx'
    apply sameFrame_setEntry (h.usable_others hx') husable hi
    rintro rfl
    exact htable.elim hxroot hxtree
  case slots =>
    intro j hj hslot
    apply hsame root h.root_usable j hj
    rintro ⟨rfl, rfl⟩
    -- the root is only written in the first step of a path
    cases path with
    | nil => exact hslot (hfirst j rfl)
    | cons first path =>
      have hcons := (nodup_append.mp h.nodup_account).1
      apply (nodup_cons.mp hcons).1
      rw [Trie.follow, Option.bind_eq_some_iff] at hfollow
      obtain ⟨next, hnext, hfollow⟩ := hfollow
      have hrest : ∀ k ∈ path, k < 512 := fun k hk => hbound k (mem_cons_of_mem _ hk)
      have hmem : root ∈ Trie.subtree 512 childOf m.entry (path.length + (below + 1)) next :=
        subtree_of_follow hfollow hrest mem_subtree_self
      rw [length_cons] at hlength
      rw [show path.length + (below + 1) = 3 by omega] at hmem
      exact mem_span_of_child (hfirst first rfl) hnext hmem

theorem Holds.hang_follow (h : Holds m root (frame :: others) start)
    (hlength : path.length + below = 3) (hfirst : ∀ j ∈ path.head?, j ∈ userSlots)
    (hbound : ∀ j ∈ path, j < 512) (hi : i < 512)
    (hfollow : Trie.follow childOf m.entry path root = some table)
    (hword : childOf word = some frame) (hlt : word < 2 ^ 64) :
    Trie.follow childOf (m.setEntry table i word).entry (path ++ [i]) root = some frame := by
  have htable : Usable table :=
    h.usable_table (mem_cons.mpr (mem_of_follow (by omega) hfirst hbound hfollow))
  have hway : Trie.follow childOf (m.setEntry table i word).entry path root = some table := by
    apply h.follow_kept (by omega) hfirst hbound hfollow
    intro x hx hne j hj
    exact entry_setEntry (h.usable_table hx) htable hi hj fun hboth => hne hboth.1
  rw [follow_append, hway]
  change (childOf ((m.setEntry table i word).entry table i)).bind _ = some frame
  rw [entry_setEntry_self hlt, hword]
  rfl

end Kaguya.Space
