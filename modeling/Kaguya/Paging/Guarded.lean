import Kaguya.Paging.Kernel

/-!
# The kernel's pages are not the user's

The tables above the last level carry the user bit, so that nothing but the last entry keeps the
user away from the kernel's memory. Every word of a last-level table is without the user bit, and no
entry above ends the walk early.
-/

namespace Kaguya.Paging

open List Machine Trie

variable {m m' m'' : Machine} {kernel table frame word address physical flags : Nat}
  {start : List Nat}

def tables (m : Machine) (kernel : Nat) : List Nat := Trie.subtree 512 tableOf m.entry 3 kernel

def Guard : Nat → Nat → Prop
  | 0, word => word &&& USER = 0
  | _ + 1, word => word &&& HUGE = 0

/-- The kernel's tables are a tree of frames in use, and nothing in them is the user's. -/
structure Guarded (m : Machine) (kernel : Nat) (start : List Nat) : Prop where
  pool : Pool m start
  nodup : (tables m kernel).Nodup
  inUse : ∀ x ∈ tables m kernel, x ∈ m.inUse
  every : Trie.Every 512 tableOf m.entry Guard 3 kernel

structure Extends (m m' : Machine) (kernel : Nat) : Prop where
  grown : ∃ more, m'.inUse.Perm (more ++ m.inUse)
    ∧ ∀ x ∈ tables m' kernel, x ∈ tables m kernel ∨ x ∈ more
  frames : ∀ x ∈ m.inUse, x ∉ tables m kernel → Machine.SameFrame m m' x

theorem Extends.refl :
    Extends m m kernel :=
  ⟨⟨[], Perm.refl _, fun _ hx => .inl hx⟩, fun _ _ _ => Machine.SameFrame.refl⟩

theorem Extends.trans (hnodup : m'.inUse.Nodup) (h : Extends m m' kernel)
    (h' : Extends m' m'' kernel) : Extends m m'' kernel := by
  obtain ⟨⟨more, hperm, htables⟩, hframes⟩ := h
  obtain ⟨⟨more', hperm', htables'⟩, hframes'⟩ := h'
  constructor
  · refine ⟨more' ++ more, ?_, ?_⟩
    · rw [append_assoc]
      exact hperm'.trans (hperm.append_left _)
    intro x hx
    rw [mem_append]
    cases htables' x hx with
    | inl hold => exact (htables x hold).imp_right .inr
    | inr hnew => exact .inr (.inl hnew)
  · intro x hx hout
    have hapart := (nodup_append.mp (hperm.nodup_iff.mp hnodup)).2.2
    apply (hframes x hx hout).trans
    apply hframes' x (hperm.mem_iff.mpr (mem_append_right _ hx))
    intro hmem
    cases htables x hmem with
    | inl hold => exact hout hold
    | inr hnew => exact hapart x hnew x hx rfl

namespace Guarded

variable (h : Guarded m kernel start)
include h

theorem usable (htable : table ∈ tables m kernel) :
    Usable table := h.pool.usable table (h.inUse table htable)

theorem congr (hpool : Pool m' start) (hused : ∀ x ∈ tables m kernel, x ∈ m'.inUse)
    (hsame : ∀ x ∈ tables m kernel, ∀ i < 512, m'.entry x i = m.entry x i) :
    Guarded m' kernel start ∧ tables m' kernel = tables m kernel := by
  have htables : tables m' kernel = tables m kernel := subtree_congr_all hsame
  refine ⟨⟨hpool, ?_, ?_, h.every.congr hsame⟩, htables⟩
  · rw [htables]
    exact h.nodup
  · rw [htables]
    exact hused

theorem alloc :
    Guarded m.alloc.2 kernel start ∧ tables m.alloc.2 kernel = tables m kernel
      ∧ (∀ x ∈ m.inUse, Machine.SameFrame m m.alloc.2 x)
      ∧ if m.alloc.1 = 0 then m.alloc.2.inUse = m.inUse
        else m.alloc.2.inUse = m.alloc.1 :: m.inUse ∧ m.alloc.1 ∉ m.inUse := by
  have hsame : ∀ x ∈ m.inUse, Machine.SameFrame m m.alloc.2 x := fun x hx =>
    sameFrame_alloc hx (h.pool.usable x hx)
  have hinUse : if m.alloc.1 = 0 then m.alloc.2.inUse = m.inUse
      else m.alloc.2.inUse = m.alloc.1 :: m.inUse ∧ m.alloc.1 ∉ m.inUse := by
    cases alloc_cases (m := m) with
    | inl hfailed => rw [if_pos hfailed.1, hfailed.2]
    | inr hcase =>
      obtain ⟨husable, hfree, hstate⟩ := hcase
      rw [if_neg husable.ne_zero]
      exact ⟨by rw [hstate], hfree⟩
  have hused : ∀ x ∈ m.inUse, x ∈ m.alloc.2.inUse := by
    intro x hx
    split at hinUse
    · rwa [hinUse]
    · rw [hinUse.1]
      exact mem_cons_of_mem _ hx
  obtain ⟨hguarded, htables⟩ := h.congr h.pool.alloc (fun x hx => hused x (h.inUse x hx))
    fun x hx i hi => (hsame x (h.inUse x hx)).entry hi
  exact ⟨hguarded, htables, hsame, hinUse⟩

theorem link {path : List Nat} {i below : Nat} (hlength : path.length + (below + 1) = 3)
    (hbound : ∀ j ∈ path, j < 512) (hi : i < 512)
    (hfollow : Trie.follow tableOf m.entry path kernel = some table)
    (hempty : m.entry table i &&& PRESENT = 0) (hframe : frame ∈ m.inUse)
    (hnew : frame ∉ tables m kernel) (hzero : ∀ j < 512, m.entry frame j = 0)
    (hchild : tableOf word = some frame) (hhuge : word &&& HUGE = 0) (hlt : word < 2 ^ 64) :
    Guarded (m.setEntry table i word) kernel start ∧ (tables (m.setEntry table i word) kernel).Perm
      (frame :: tables m kernel)
      ∧ Trie.follow tableOf (m.setEntry table i word).entry path kernel = some table := by
  have htable : table ∈ tables m kernel := by
    rw [tables, ← hlength]
    exact subtree_of_follow hfollow hbound mem_subtree_self
  have husable := h.usable htable
  have hne : frame ≠ table := fun heq => hnew (heq ▸ htable)
  have hsame : ∀ x ∈ tables m kernel, ∀ j < 512, ¬ (x = table ∧ j = i) →
      (m.setEntry table i word).entry x j = m.entry x j :=
    fun x hx j hj hother => entry_setEntry (h.usable hx) husable hi hj hother
  have hword : (m.setEntry table i word).entry table i = word := entry_setEntry_self hlt
  have hleaf : ∀ j < 512, (m.setEntry table i word).entry frame j = 0 := by
    intro j hj
    rw [entry_setEntry (h.pool.usable frame hframe) husable hi hj fun hboth => hne hboth.1]
    exact hzero j hj
  have hnodup := h.nodup
  have hevery := h.every
  rw [tables, ← hlength] at hnodup hsame
  rw [← hlength] at hevery
  have hgrown : (tables (m.setEntry table i word) kernel).Perm (frame :: tables m kernel) := by
    rw [tables, tables, ← hlength]
    apply subtree_hang hfollow hbound hi hnodup (tableOf_eq_none_of_empty hempty) hsame
      (by rw [hword]; exact hchild)
    apply subtree_leaf
    intro j hj
    rw [hleaf j hj]
    rfl
  refine ⟨⟨⟨h.pool.nodup, h.pool.usable, h.pool.ledger⟩, ?_, ?_, ?_⟩, hgrown, ?_⟩
  · rw [hgrown.nodup_iff, nodup_cons]
    exact ⟨hnew, h.nodup⟩
  · intro x hx
    cases mem_cons.mp (hgrown.mem_iff.mp hx) with
    | inl heq => exact heq ▸ hframe
    | inr hold => exact h.inUse x hold
  · rw [← hlength]
    apply hevery.hang hfollow hbound hnodup hsame (by rw [hword]; exact hhuge)
      (by rw [hword]; exact hchild)
    apply Trie.Every.leaf
    · intro j hj
      rw [hleaf j hj]
      cases below <;> rfl
    · intro j hj
      rw [hleaf j hj]
      rfl
  · apply follow_set hfollow hbound hnodup
    intro x hx hother j hj
    exact hsame x hx j hj fun hboth => hother hboth.1

theorem setLast {path : List Nat} {i : Nat} (hlength : path.length = 3)
    (hbound : ∀ j ∈ path, j < 512) (hi : i < 512)
    (hfollow : Trie.follow tableOf m.entry path kernel = some table) (huser : word &&& USER = 0) :
    Guarded (m.setEntry table i word) kernel start ∧ tables (m.setEntry table i word) kernel
      = tables m kernel := by
  have htable : table ∈ tables m kernel := by
    have hmem : table ∈ Trie.subtree 512 tableOf m.entry (path.length + 0) kernel :=
      subtree_of_follow hfollow hbound mem_subtree_self
    rw [hlength] at hmem
    exact hmem
  have husable := h.usable htable
  have hsame : ∀ x ∈ tables m kernel, ∀ j < 512, ¬ (x = table ∧ j = i) →
      (m.setEntry table i word).entry x j = m.entry x j :=
    fun x hx j hj hother => entry_setEntry (h.usable hx) husable hi hj hother
  have hguard : Guard 0 ((m.setEntry table i word).entry table i) := by
    have hread : (m.setEntry table i word).entry table i = word % 2 ^ 64 :=
      Buffer.get_put_of_le (Nat.le_refl 8)
    have hbits : word % 2 ^ 64 &&& USER = (word &&& USER) % 2 ^ 64 := by
      rw [Nat.and_mod_two_pow]
      rfl
    rw [hread, Guard, hbits, huser, Nat.zero_mod]
  have hnodup := h.nodup
  have hevery := h.every
  rw [tables, ← hlength] at hnodup hsame
  rw [← hlength] at hevery
  have hkept : tables (m.setEntry table i word) kernel = tables m kernel := by
    rw [tables, tables, ← hlength]
    apply subtree_set hfollow hbound hnodup
    intro x hx hother j hj
    exact hsame x hx j hj fun hboth => hother hboth.1
  refine ⟨⟨⟨h.pool.nodup, h.pool.usable, h.pool.ledger⟩, ?_, ?_, ?_⟩, hkept⟩
  · rw [hkept]
    exact h.nodup
  · rw [hkept]
    exact h.inUse
  · rw [← hlength]
    exact hevery.setLast hfollow hbound hnodup hsame hguard

end Guarded

structure Maps (m m' : Machine) (kernel : Nat) (start : List Nat) : Prop where
  guarded : Guarded m' kernel start
  grows : Extends m m' kernel

namespace Maps

theorem refl (h : Guarded m kernel start) : Maps m m kernel start := ⟨h, Extends.refl⟩

theorem trans (h : Maps m m' kernel start) (h' : Maps m' m'' kernel start) :
    Maps m m'' kernel start :=
  ⟨h'.guarded, h.grows.trans h.guarded.pool.nodup h'.grows⟩

end Maps

section
variable (h : Guarded m kernel start)
include h

theorem alloc_maps : Maps m m.alloc.2 kernel start := by
  obtain ⟨hguarded, htables, hsame, hinUse⟩ := h.alloc
  refine ⟨hguarded, ?_, fun x hx _ => hsame x hx⟩
  rw [htables]
  split at hinUse
  · exact ⟨[], by rw [hinUse, nil_append], fun x hx => .inl hx⟩
  · exact ⟨[m.alloc.1], by rw [hinUse.1, singleton_append], fun x hx => .inl hx⟩

theorem link_maps {path : List Nat} {i below : Nat} (hlength : path.length + (below + 1) = 3)
    (hbound : ∀ j ∈ path, j < 512) (hi : i < 512)
    (hfollow : Trie.follow tableOf m.entry path kernel = some table)
    (hempty : m.entry table i &&& PRESENT = 0) (hgiven : m.alloc.1 ≠ 0) :
    Maps m (m.alloc.2.setEntry table i (m.alloc.1 ||| PRESENT ||| USER ||| 2)) kernel start
          ∧ Trie.follow tableOf
          (m.alloc.2.setEntry table i (m.alloc.1 ||| PRESENT ||| USER ||| 2)).entry path kernel
            = some table
      ∧ tableOf ((m.alloc.2.setEntry table i (m.alloc.1 ||| PRESENT ||| USER ||| 2)).entry table i)
        = some ((m.alloc.2.setEntry table i (m.alloc.1 ||| PRESENT ||| USER ||| 2)).entry table i
          &&& FRAME_MASK) := by
  obtain ⟨hguarded, htables, hsame, hinUse⟩ := h.alloc
  rw [if_neg hgiven] at hinUse
  obtain ⟨hinUse, hfree⟩ := hinUse
  have hframe : m.alloc.1 ∈ m.alloc.2.inUse := by
    rw [hinUse]
    exact mem_cons_self
  have husable : Usable m.alloc.1 := hguarded.pool.usable _ hframe
  obtain ⟨hword, hlt, hhuge⟩ := tableOf_tableWord husable
  have htable : table ∈ tables m kernel := by
    rw [tables, ← hlength]
    exact subtree_of_follow hfollow hbound mem_subtree_self
  have hentry : ∀ x ∈ tables m kernel, ∀ j < 512, m.alloc.2.entry x j = m.entry x j :=
    fun x hx j hj => (hsame x (h.inUse x hx)).entry hj
  have hway : Trie.follow tableOf m.alloc.2.entry path kernel = some table := by
    have hnodup := h.nodup
    rw [tables, ← hlength] at hnodup hentry
    exact follow_set hfollow hbound hnodup fun x hx _ => hentry x hx
  have hslot : m.alloc.2.entry table i &&& PRESENT = 0 := by
    rw [hentry table htable i hi]
    exact hempty
  have hnew : m.alloc.1 ∉ tables m.alloc.2 kernel := by
    rw [htables]
    exact fun hmem => hfree (h.inUse _ hmem)
  obtain ⟨hlinked, hgrown, hstill⟩ := hguarded.link hlength hbound hi hway hslot hframe hnew
    (fun j hj => entry_alloc hgiven hj) hword hhuge hlt
  refine ⟨⟨hlinked, ⟨[m.alloc.1], ?_, ?_⟩, ?_⟩, hstill, ?_⟩
  · change m.alloc.2.inUse.Perm _
    rw [hinUse]
    exact Perm.refl _
  · intro x hx
    rw [hgrown.mem_iff, htables, mem_cons] at hx
    exact hx.symm.imp_right mem_singleton.mpr
  · intro x hx hout
    have hne : x ≠ table := fun heq => hout (heq ▸ htable)
    exact (hsame x hx).trans (sameFrame_setEntry (h.pool.usable x hx) (h.usable htable) hi hne)
  · rw [entry_setEntry_self hlt, hword, Nat.or_assoc, Nat.or_assoc,
      or_and_frameMask husable (by decide)]

theorem descendWith_alloc {done shifts : List Nat} (hsplit : done ++ shifts = [39, 30, 21])
    (hfollow : Trie.follow tableOf m.entry (slots address done) kernel = some table) :
    Maps m (descendWith Machine.alloc address shifts table m).2 kernel start ∧ ∀ last,
        (descendWith Machine.alloc address shifts table m).1 = some last →
        Trie.follow tableOf (descendWith Machine.alloc address shifts table m).2.entry
          (slots address [39, 30, 21]) kernel = some last := by
  induction shifts generalizing done table m with
  | nil =>
    refine ⟨Maps.refl h, fun last hlast => ?_⟩
    rw [append_nil] at hsplit
    cases hlast
    rw [← hsplit]
    exact hfollow
  | cons shift shifts ih =>
    have hsplit' : (done ++ [shift]) ++ shifts = [39, 30, 21] := by
      rw [append_assoc]
      exact hsplit
    have hlength : (slots address done).length + (shifts.length + 1) = 3 := by
      have hcount := congrArg List.length hsplit
      rw [slots, length_map]
      simpa using hcount
    -- one level further down the way is one slot longer
    have hstep : ∀ {m : Machine} {next : Nat}, Trie.follow tableOf m.entry (slots address done)
        kernel = some table → tableOf (m.entry table (slot shift address)) = some next →
        Trie.follow tableOf m.entry (slots address (done ++ [shift])) kernel = some next := by
      intro m next hway hnext
      rw [slots, map_append, follow_append, ← slots, hway]
      change ((tableOf (m.entry table (slot shift address))).bind _) = some next
      rw [hnext]
      rfl
    simp only [descendWith]
    by_cases hempty : m.entry table (slot shift address) &&& PRESENT = 0
    · rw [if_pos hempty]
      by_cases hfailed : m.alloc.1 = 0
      · rw [if_pos hfailed]
        exact ⟨alloc_maps h, fun _ hlast => (nomatch hlast)⟩
      rw [if_neg hfailed, pageZero_alloc hfailed]
      obtain ⟨hmaps, hway, hnext⟩ :=
        link_maps h hlength slots_lt (slot_lt shift address) hfollow hempty hfailed
      obtain ⟨hrest, hlast⟩ := ih hmaps.guarded hsplit' (hstep hway hnext)
      exact ⟨hmaps.trans hrest, hlast⟩
    · rw [if_neg hempty]
      by_cases hhuge : m.entry table (slot shift address) &&& HUGE ≠ 0
      · rw [if_pos hhuge]
        exact ⟨Maps.refl h, fun _ hlast => (nomatch hlast)⟩
      · rw [if_neg hhuge]
        exact ih h hsplit' (hstep hfollow (tableOf_eq_some hempty (not_not.mp hhuge)))

/-- **A page of the kernel's.** Whether it succeeds or not, `jihoo_page_map` with an entry that is
not the user's keeps the kernel's tables guarded and changes nothing but them. -/
theorem pageMap_spec (huser : (physical ||| flags ||| PRESENT) &&& USER = 0) :
    Maps m (pageMap kernel address physical flags m).2 kernel start := by
  have hroot : Trie.follow tableOf m.entry (slots address []) kernel = some kernel := rfl
  obtain ⟨hmaps, hlast⟩ := descendWith_alloc h (nil_append _) hroot
  rw [pageMap, pageMapWith]
  cases hwalked : (descendWith Machine.alloc address [39, 30, 21] kernel m).1 with
  | none =>
    exact hmaps
  | some table =>
    have hfollow := hlast table hwalked
    obtain ⟨hguarded, hkept⟩ :=
      hmaps.guarded.setLast rfl slots_lt (slot_lt 12 address) hfollow huser
    have htable : table ∈ tables (descendWith Machine.alloc address [39, 30, 21] kernel m).2
        kernel := by
      have hmem : table ∈ Trie.subtree 512 tableOf (descendWith Machine.alloc address [39, 30, 21]
        kernel m).2.entry
          ((slots address [39, 30, 21]).length + 0) kernel :=
          subtree_of_follow hfollow slots_lt mem_subtree_self
      exact hmem
    apply hmaps.trans
    refine ⟨hguarded, ⟨[], Perm.refl _, ?_⟩, ?_⟩
    · rw [hkept]
      exact fun x hx => .inl hx
    intro x hx hout
    apply sameFrame_setEntry (hmaps.guarded.pool.usable x hx) (hmaps.guarded.usable htable)
      (slot_lt 12 address)
    rintro rfl
    exact hout htable

end

theorem page_user (haligned : physical % 4096 = 0) (hflags : (flags ||| PRESENT) &&& USER = 0) :
    (physical ||| flags ||| PRESENT) &&& USER = 0 := by
  have hlow : (physical &&& USER) % 2 ^ 12 = 0 := by
    rw [Nat.and_mod_two_pow, show physical % 2 ^ 12 = 0 from haligned, Nat.zero_and]
  have hsmall : physical &&& USER < 2 ^ 12 := Nat.and_lt_two_pow _ (by decide)
  rw [Nat.or_assoc, Nat.and_or_distrib_right, hflags, Nat.or_zero, ← Nat.mod_eq_of_lt hsmall, hlow]

variable {fuel pages page : Nat} {result : Bool × Machine} {descriptors : List Descriptor}

theorem mapIdentity_spec {limit : Nat} (h : Guarded m kernel start) (haligned : address % 4096 = 0)
    (hresult : mapIdentity kernel limit fuel address m = some result) :
    Maps m result.2 kernel start := by
  induction fuel generalizing address m with
  | zero => cases hresult
  | succ fuel ih =>
    have hmaps : Maps m (pageMap kernel address address 2 m).2 kernel start :=
      pageMap_spec h (page_user haligned (by decide))
    simp only [mapIdentity] at hresult
    split at hresult
    · split at hresult
      · exact hmaps.trans (ih hmaps.guarded (by omega) hresult)
      · cases hresult
        exact hmaps
    · cases hresult
      exact Maps.refl h

theorem mapDescriptors_spec (h : Guarded m kernel start)
    (haligned : ∀ descriptor ∈ descriptors, descriptor.physicalStart % 4096 = 0)
    (hresult : mapDescriptors kernel fuel descriptors m = some result) :
    Maps m result.2 kernel start := by
  induction descriptors generalizing m with
  | nil =>
    cases hresult
    exact Maps.refl h
  | cons descriptor descriptors ih =>
    have hrest : ∀ other ∈ descriptors, other.physicalStart % 4096 = 0 :=
      fun other hother => haligned other (mem_cons_of_mem _ hother)
    simp only [mapDescriptors] at hresult
    split at hresult
    · obtain ⟨mapped, hmapped, hresult⟩ := Option.bind_eq_some_iff.mp hresult
      have hmaps := mapIdentity_spec h (haligned descriptor mem_cons_self) hmapped
      split at hresult
      · exact hmaps.trans (ih hmaps.guarded hrest hresult)
      · cases hresult
        exact hmaps
    · exact ih h hrest hresult

theorem guarded_root (h : Pool m start) (hgiven : m.alloc.1 ≠ 0) :
    Guarded m.alloc.2 m.alloc.1 start := by
  have hzero : ∀ i < 512, m.alloc.2.entry m.alloc.1 i = 0 := fun i hi => entry_alloc hgiven hi
  have hnone : ∀ i < 512, tableOf (m.alloc.2.entry m.alloc.1 i) = none := by
    intro i hi
    rw [hzero i hi]
    rfl
  have htables : tables m.alloc.2 m.alloc.1 = [m.alloc.1] := subtree_leaf hnone
  refine ⟨h.alloc, ?_, ?_, Trie.Every.leaf ?_ hnone⟩
  · rw [htables]
    exact nodup_singleton _
  · rw [htables]
    intro x hx
    rw [mem_singleton.mp hx]
    cases alloc_cases (m := m) with
    | inl hfailed => exact absurd hfailed.1 hgiven
    | inr hcase =>
      rw [hcase.2.2]
      exact mem_cons_self
  · intro i hi
    rw [hzero i hi]
    rfl

theorem pagingInit_spec {framebuffer framebufferSize root : Nat} (h : Pool m start)
    (haligned : ∀ descriptor ∈ descriptors, descriptor.physicalStart % 4096 = 0)
    (hframebuffer : framebuffer % 4096 = 0)
    (hinit : pagingInit fuel descriptors framebuffer framebufferSize m = some (root, m'))
    (hroot : root ≠ 0) : Guarded m' root start := by
  simp only [pagingInit] at hinit
  split at hinit
  · cases hinit
    exact absurd rfl hroot
  next hgiven =>
  rw [pageZero_alloc hgiven] at hinit
  obtain ⟨described, hdescribed, hinit⟩ := Option.bind_eq_some_iff.mp hinit
  have hmaps := mapDescriptors_spec (guarded_root h hgiven) haligned hdescribed
  split at hinit
  · obtain ⟨mapped, hmapped, hinit⟩ := Option.bind_eq_some_iff.mp hinit
    have hrest := mapIdentity_spec hmaps.guarded hframebuffer hmapped
    rw [Option.some.injEq, Prod.mk.injEq] at hinit
    obtain ⟨hvalue, rfl⟩ := hinit
    split at hvalue
    · rw [← hvalue]
      exact hrest.guarded
    · exact absurd hvalue.symm hroot
  · cases hinit
    exact absurd rfl hroot

theorem mapDevice_spec (h : Guarded m kernel start) (haligned : page % 4096 = 0) :
    Maps m (mapDevice kernel pages page m).2 kernel start := by
  induction pages generalizing page m with
  | zero => exact Maps.refl h
  | succ _ ih =>
    have hmaps : Maps m (pageMap kernel page page 0x8000000000000012 m).2 kernel start :=
      pageMap_spec h (page_user haligned (by decide))
    simp only [mapDevice]
    split
    · exact hmaps.trans (ih hmaps.guarded (by omega))
    · exact hmaps

theorem mapMmio_spec (base bytes : Nat) (h : Guarded m kernel start) :
    Maps m (mapMmio kernel base bytes m).2 kernel start := by
  rw [mapMmio]
  split
  · exact Maps.refl h
  next hargs =>
  have hbase : base &&& (2 ^ 12 - 1) = 0 := by
    simp only [not_or, not_not] at hargs
    exact hargs.1
  rw [Nat.and_two_pow_sub_one_eq_mod] at hbase
  exact mapDevice_spec h hbase

theorem mapFirmware_spec (h : Guarded m kernel start) (haligned : page % 4096 = 0) :
    Maps m (mapFirmware kernel pages page m).2 kernel start := by
  induction pages generalizing page m with
  | zero => exact Maps.refl h
  | succ _ ih =>
    have hmaps : Maps m (pageMap kernel page page 0x8000000000000002 m).2 kernel start :=
      pageMap_spec h (page_user haligned (by decide))
    simp only [mapFirmware]
    split
    · exact ih h (by omega)
    · split
      · exact hmaps.trans (ih hmaps.guarded (by omega))
      · exact hmaps

theorem firmwareRange_spec (base bytes : Nat) (h : Guarded m kernel start) :
    Maps m (firmwareRange kernel base bytes m).2 kernel start := by
  rw [firmwareRange]
  split
  · exact Maps.refl h
  · exact mapFirmware_spec h (by omega)

theorem Maps.free (h : Guarded m kernel start) (hgiven : m.alloc.1 ≠ 0)
    (hmaps : Maps m.alloc.2 m' kernel start) : Maps m (m'.free m.alloc.1) kernel start := by
  obtain ⟨hguarded, htables, hsame, hinUse⟩ := h.alloc
  rw [if_neg hgiven] at hinUse
  obtain ⟨hinUse, hfree⟩ := hinUse
  obtain ⟨⟨more, hperm, hmore⟩, hframes⟩ := hmaps.grows
  rw [hinUse] at hperm
  have hnodup := hperm.nodup_iff.mp hmaps.guarded.pool.nodup
  have hapart := (nodup_append.mp hnodup).2.2
  have hframe : m.alloc.1 ∈ m'.inUse := hperm.mem_iff.mpr (mem_append_right _ mem_cons_self)
  have husable : Usable m.alloc.1 := hmaps.guarded.pool.usable _ hframe
  have hout : m.alloc.1 ∉ tables m' kernel := by
    intro hmem
    cases hmore _ hmem with
    | inl hold =>
      rw [htables] at hold
      exact hfree (h.inUse _ hold)
    | inr hnew => exact hapart _ hnew _ mem_cons_self rfl
  have hne : ∀ x ∈ tables m' kernel, x ≠ m.alloc.1 := fun x hx heq => hout (heq ▸ hx)
  obtain ⟨hleft, hkept⟩ := hmaps.guarded.congr (hmaps.guarded.pool.free hframe)
    (fun x hx => (mem_erase_of_ne (hne x hx)).mpr (hmaps.guarded.inUse x hx))
    fun x hx i hi =>
      (sameFrame_free (hmaps.guarded.usable hx) husable (hne x hx)).entry hi
  refine ⟨hleft, ⟨more, ?_, ?_⟩, ?_⟩
  · have hmoved : m'.inUse.Perm (m.alloc.1 :: (more ++ m.inUse)) := hperm.trans perm_middle
    have herase := hmoved.erase m.alloc.1
    rw [erase_cons_head] at herase
    exact herase
  · rw [hkept]
    intro x hx
    rw [← htables]
    exact hmore x hx
  intro x hx hxout
  have hother : x ≠ m.alloc.1 := fun heq => hfree (heq ▸ hx)
  have hlater : Machine.SameFrame m.alloc.2 m' x := by
    apply hframes x
    · rw [hinUse]
      exact mem_cons_of_mem _ hx
    · rwa [htables]
  exact ((hsame x hx).trans hlater).trans (sameFrame_free (h.pool.usable x hx) husable hother)

theorem mapRamDisk_spec (page : Nat) (h : Guarded m kernel start) :
    Maps m (mapRamDisk kernel page m).2 kernel start := by
  rw [mapRamDisk, mapFresh]
  have halloc := alloc_maps h
  by_cases hfailed : m.alloc.1 = 0
  · simp only [hfailed, if_true]
    exact halloc
  have haligned : m.alloc.1 % 4096 = 0 := by
    obtain ⟨-, -, -, hinUse⟩ := h.alloc
    rw [if_neg hfailed] at hinUse
    apply (halloc.guarded.pool.usable _ _).aligned
    rw [hinUse.1]
    exact mem_cons_self
  have hmaps : Maps m.alloc.2 (pageMap kernel (RAM_BASE + page * 4096) m.alloc.1
      0x8000000000000002 m.alloc.2).2 kernel start := pageMap_spec halloc.guarded
      (page_user haligned (by decide))
  simp only [hfailed, if_false]
  split
  · exact halloc.trans hmaps
  · exact hmaps.free h hfailed

end Kaguya.Paging
