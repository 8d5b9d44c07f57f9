import Kaguya.Space.Holding

/-!
# The operations on address spaces

One statement for each function of `address_space.jh`: it keeps the account of the frames and leaves
alone the frames of others and the kernel's slots, whether it succeeds or runs out of memory at any
point. Frames that are given back before the space is destroyed were allocated by the same call,
which fails.
-/

namespace Kaguya.Space

open Paging List Machine

variable {m m' m'' : Machine} {root address frame table word : Nat} {others more start : List Nat}

structure Runs (m m' : Machine) (root : Nat) (others start : List Nat) : Prop where
  holds : Holds m' root others start
  kept : Kept m m' root others
  freed : m'.freed = m.freed

namespace Runs

theorem refl (h : Holds m root others start) : Runs m m root others start := ⟨h, Kept.refl, rfl⟩

theorem trans (h : Runs m m' root others start) (h' : Runs m' m'' root others start) :
    Runs m m'' root others start where
  holds := h'.holds
  kept := h.kept.trans h'.kept
  freed := h'.freed.trans h.freed

end Runs

theorem alloc_failed_runs (h : Holds m root others start) (hfailed : m.alloc.1 = 0) :
    Runs m m.alloc.2 root others start := ⟨h.alloc_failed hfailed, h.kept_alloc, freed_alloc⟩

def tableWord (frame : Nat) : Nat := frame ||| PRESENT ||| WRITABLE ||| USER

theorem childOf_tableWord (h : Usable frame) : childOf (tableWord frame) = some frame := by
  rw [tableWord, Nat.or_assoc, Nat.or_assoc]
  exact childOf_or h (by decide) (by decide)

theorem tableWord_lt (h : Usable frame) : tableWord frame < 2 ^ 64 := by
  rw [tableWord, Nat.or_assoc, Nat.or_assoc]
  exact or_lt h (by decide)

variable {i pages levels : Nat} {done shifts frames : List Nat}

theorem Holds.link {path : List Nat} {below : Nat} (h : Holds m root others start)
    (hlength : path.length + below = 3) (hfirst : ∀ j ∈ (path ++ [i]).head?, j ∈ userSlots)
    (hbound : ∀ j ∈ path, j < 512) (hi : i < 512)
    (hfollow : Trie.follow childOf m.entry path root = some table)
    (hempty : m.entry table i &&& PRESENT = 0) (hgiven : m.alloc.1 ≠ 0) :
    Runs m (m.alloc.2.setEntry table i (tableWord m.alloc.1)) root others start
      ∧ (m.alloc.2.setEntry table i (tableWord m.alloc.1)).entry table i &&& PRESENT ≠ 0
      ∧ Trie.follow childOf (m.alloc.2.setEntry table i (tableWord m.alloc.1)).entry path root
        = some table := by
  obtain ⟨hheld, hzero, -, -⟩ := h.alloc hgiven
  have husable : Usable m.alloc.1 := hheld.usable_others mem_cons_self
  have hheads : ∀ j ∈ path.head?, j ∈ userSlots := by
    intro j hj
    apply hfirst
    cases path with
    | nil => cases hj
    | cons => exact hj
  have htable : table ∈ root :: tree m root :=
    mem_cons.mpr (mem_of_follow (by omega) hheads hbound hfollow)
  have hway : Trie.follow childOf m.alloc.2.entry path root = some table := by
    apply h.follow_kept (by omega) hheads hbound hfollow
    intro x hx _ j hj
    exact h.entry_alloc hx hj
  have hslot : m.alloc.2.entry table i &&& PRESENT = 0 := by
    rw [h.entry_alloc htable hi]
    exact hempty
  obtain ⟨hhung, hkept⟩ := hheld.hang hlength hfirst hbound hi hway hslot
    (childOf_tableWord husable) (tableWord_lt husable) fun _ => hzero
  refine ⟨⟨hhung, h.kept_alloc.trans hkept, freed_alloc⟩, ?_, ?_⟩
  · rw [entry_setEntry_self (tableWord_lt husable), Ne, ← childOf_eq_none,
      childOf_tableWord husable]
    exact Option.some_ne_none _
  apply hheld.follow_kept (by omega) hheads hbound hway
  intro x hx hne j hj
  apply entry_setEntry _ _ hi hj fun hboth => hne hboth.1
  · exact hheld.usable_table hx
  · rw [← h.tree_alloc] at htable
    exact hheld.usable_table htable

theorem head_slots {shift : Nat} (hstart : USER_START ≤ address) (hend : address < USER_END)
    (hsplit : done ++ shift :: shifts = [39, 30, 21]) :
    ∀ i ∈ (slots address done ++ [slot shift address]).head?, i ∈ userSlots := by
  have hhead : (slots address done ++ [slot shift address]).head? = some (slot 39 address) := by
    cases done with
    | nil =>
      obtain rfl : shift = 39 := by simpa using congrArg List.head? hsplit
      rfl
    | cons first =>
      obtain rfl : first = 39 := by simpa using congrArg List.head? hsplit
      rfl
  intro i hi
  rw [hhead] at hi
  cases hi
  exact slot_mem_userSlots hstart hend

theorem descend_spec (hstart : USER_START ≤ address) (hend : address < USER_END)
    (hsplit : done ++ shifts = [39, 30, 21]) (h : Holds m root others start)
    (hfollow : Trie.follow childOf m.entry (slots address done) root = some table) :
    Runs m (descend address shifts table m).2 root others start
        ∧ ((descend address shifts table m).1 ≠ 0 →
        Trie.follow childOf (descend address shifts table m).2.entry (slots address [39, 30, 21])
          root
          = some (descend address shifts table m).1) := by
  induction shifts generalizing done table m with
  | nil =>
    rw [append_nil] at hsplit
    rw [← hsplit]
    exact ⟨Runs.refl h, fun _ => hfollow⟩
  | cons shift shifts ih =>
    have hsplit' : (done ++ [shift]) ++ shifts = [39, 30, 21] := by
      rw [append_assoc]
      exact hsplit
    have hlength : done.length + (shifts.length + 1) = 3 := by
      have hcount := congrArg List.length hsplit
      simpa using hcount
    have hfirst := head_slots hstart hend hsplit
    have hshort : (slots address done).length ≤ 3 := by
      rw [slots, length_map]
      omega
    -- One level further down the way is one slot longer.
    have hstep : ∀ {m : Machine} {next : Nat}, Trie.follow childOf m.entry (slots address done) root
        = some table → childOf (m.entry table (slot shift address)) = some next →
        Trie.follow childOf m.entry (slots address (done ++ [shift])) root = some next := by
      intro m next hway hnext
      rw [slots, map_append, Trie.follow_append, ← slots, hway]
      change ((childOf (m.entry table (slot shift address))).bind _) = some next
      rw [hnext]
      rfl
    by_cases hempty : m.entry table (slot shift address) &&& PRESENT = 0
    · by_cases hfailed : m.alloc.1 = 0
      · simp only [descend, hempty, hfailed, if_true]
        exact ⟨alloc_failed_runs h hfailed, fun hne => absurd rfl hne⟩
      simp only [descend, hempty, hfailed, if_true, if_false]
      have hlevels : (slots address done).length + (shifts.length + 1) = 3 := by
        rw [slots, length_map]
        exact hlength
      obtain ⟨hrun, hset, hway⟩ :=
        h.link hlevels hfirst slots_lt (slot_lt shift address) hfollow hempty hfailed
      obtain ⟨hruns, hlast⟩ := ih hsplit' hrun.holds (hstep hway (childOf_eq_some hset))
      exact ⟨hrun.trans hruns, hlast⟩
    · simp only [descend, hempty, if_false]
      exact ih hsplit' h (hstep hfollow (childOf_eq_some hempty))

theorem leaf_spec (address : Nat) (h : Holds m root others start) :
    Runs m (leaf root address m).2 root others start
      ∧ ((leaf root address m).1 ≠ 0 → (USER_START ≤ address ∧ address < USER_END)
        ∧ Trie.follow childOf (leaf root address m).2.entry (slots address [39, 30, 21]) root
          = some (leaf root address m).1) := by
  rw [leaf]
  by_cases hrange : address < USER_START ∨ address ≥ USER_END
  · rw [if_pos hrange]
    exact ⟨Runs.refl h, fun hne => absurd rfl hne⟩
  rw [if_neg hrange]
  obtain ⟨hstart, hend⟩ : USER_START ≤ address ∧ address < USER_END := by omega
  obtain ⟨hruns, hway⟩ := descend_spec hstart hend (nil_append _) h rfl
  exact ⟨hruns, fun hne => ⟨⟨hstart, hend⟩, hway hne⟩⟩

theorem map_spec (address : Nat) (h : Holds m root (frame :: others) start)
    (hword : childOf word = some frame) (hlt : word < 2 ^ 64) : if (map root address word m).1 then
      Runs m (map root address word m).2 root others start
        ∧ (USER_START ≤ address ∧ address < USER_END)
        ∧ Trie.follow childOf (map root address word m).2.entry (slots address [39, 30, 21, 12])
          root = some frame
    else Runs m (map root address word m).2 root (frame :: others) start := by
  obtain ⟨hruns, hway⟩ := leaf_spec address h
  by_cases hfailed : (leaf root address m).1 = 0
  · simp only [map, hfailed, if_true]
    exact hruns
  obtain ⟨⟨hstart, hend⟩, hfollow⟩ := hway hfailed
  by_cases hempty : (leaf root address m).2.entry (leaf root address m).1 (slot 12 address) &&&
    PRESENT = 0
  · simp only [map, hfailed, hempty, if_false, ne_eq, not_true]
    have hfirst : ∀ i ∈ (slots address [39, 30, 21] ++ [slot 12 address]).head?, i ∈ userSlots := by
      intro i hi
      cases hi
      exact slot_mem_userSlots hstart hend
    have hlevels : (slots address [39, 30, 21]).length + 0 = 3 := rfl
    obtain ⟨hhung, hkept⟩ := hruns.holds.hang hlevels hfirst slots_lt (slot_lt 12 address) hfollow
      hempty hword hlt fun hne => absurd rfl hne
    have hothers : Kept m (leaf root address m).2 root others := hruns.kept.mono fun x hx =>
      mem_cons_of_mem _ hx
    exact ⟨⟨hhung, hothers.trans hkept, hruns.freed⟩, ⟨hstart, hend⟩,
      hruns.holds.hang_follow hlevels hfirst slots_lt (slot_lt 12 address) hfollow hword hlt⟩
  · simp only [map, hfailed, hempty, if_false, ne_eq, not_false_eq_true, if_true]
    exact hruns

structure PageFlags (flags : Nat) : Prop where
  low : flags &&& FRAME_MASK = 0
  present : flags &&& PRESENT ≠ 0
  lt : flags < 2 ^ 64

theorem spaceMap_spec {flags : Nat} (address : Nat) (hflags : PageFlags flags)
    (h : Holds m root others start) :
    Holds (spaceMap root address flags m).2 root others start
      ∧ Kept m (spaceMap root address flags m).2 root others
      ∧ ((spaceMap root address flags m).2.freed = m.freed ∨ (spaceMap root address flags m).1 = 0
        ∧ m.alloc.1 ≠ 0
          ∧ (spaceMap root address flags m).2.freed = m.alloc.1 :: m.freed)
      ∧ ((spaceMap root address flags m).1 ≠ 0 → (USER_START ≤ address ∧ address < USER_END)
        ∧ (spaceMap root address flags m).2.freed = m.freed
          ∧ Trie.follow childOf (spaceMap root address flags m).2.entry
          (slots address [39, 30, 21, 12]) root = some (spaceMap root address flags m).1) := by
  by_cases hfailed : m.alloc.1 = 0
  · simp only [spaceMap, hfailed, if_true]
    have hruns := alloc_failed_runs h hfailed
    exact ⟨hruns.holds, hruns.kept, .inl hruns.freed, fun hne => absurd rfl hne⟩
  obtain ⟨hheld, -, -, -⟩ := h.alloc hfailed
  have husable : Usable m.alloc.1 := hheld.usable_others mem_cons_self
  have hmap := map_spec address hheld (childOf_or husable hflags.low hflags.present)
    (or_lt husable hflags.lt)
  by_cases hmapped : (map root address (m.alloc.1 ||| flags) m.alloc.2).1
  · rw [if_pos hmapped] at hmap
    obtain ⟨hruns, hrange, hfollow⟩ := hmap
    have hfreed := hruns.freed.trans freed_alloc
    simp only [spaceMap, hfailed, hmapped, if_true, if_false]
    exact ⟨hruns.holds, h.kept_alloc.trans hruns.kept, .inl hfreed,
      fun _ => ⟨hrange, hfreed, hfollow⟩⟩
  rw [if_neg hmapped] at hmap
  simp only [spaceMap, hfailed, hmapped, if_false]
  obtain ⟨hfree, hkept⟩ := hmap.holds.free
  have hothers : Kept m.alloc.2 (map root address (m.alloc.1 ||| flags) m.alloc.2).2 root others :=
    hmap.kept.mono fun x hx => mem_cons_of_mem _ hx
  refine ⟨hfree, h.kept_alloc.trans (hothers.trans hkept), .inr ⟨rfl, hfailed, ?_⟩,
    fun hne => absurd rfl hne⟩
  change m.alloc.1 :: (map root address (m.alloc.1 ||| flags) m.alloc.2).2.freed = _
  rw [hmap.freed, freed_alloc]

theorem reserve_spec (h : Holds m root others start) :
    Runs m (reserve root pages address m).2 root others start := by
  induction pages generalizing address m with
  | zero => exact Runs.refl h
  | succ _ ih =>
    obtain ⟨hruns, -⟩ := leaf_spec address h
    rw [reserve]
    by_cases hfailed : (leaf root address m).1 = 0
    · rw [if_pos hfailed]
      exact hruns
    · rw [if_neg hfailed]
      exact hruns.trans (ih hruns.holds)

def Stacked (m : Machine) : Nat → List Nat → Prop
  | head, [] => head = 0
  | head, frame :: staged => head = frame ∧ Stacked m (m.entry frame 0) staged

variable {head : Nat} {staged : List Nat}

theorem Stacked.congr (h : Stacked m head staged)
    (hsame : ∀ frame ∈ staged, m'.entry frame 0 = m.entry frame 0) : Stacked m' head staged := by
  induction staged generalizing head with
  | nil => exact h
  | cons frame _ ih =>
    refine ⟨h.1, ?_⟩
    rw [hsame frame mem_cons_self]
    exact ih h.2 fun other hother => hsame other (mem_cons_of_mem _ hother)

theorem Stacked.head_lt (h : Stacked m head staged) (husable : ∀ frame ∈ staged, Usable frame) :
    head < 2 ^ 64 := by
  cases staged with
  | nil =>
    have hend : head = 0 := h
    rw [hend]
    decide
  | cons frame =>
    rw [h.1]
    exact Nat.lt_trans (husable frame mem_cons_self).lt (by decide)

theorem Holds.store (value : Nat) (h : Holds m root (frame :: others) start) (hi : i < 512) :
    Holds (m.setEntry frame i value) root (frame :: others) start
      ∧ Kept m (m.setEntry frame i value) root others := by
  have husable : Usable frame := h.usable_others mem_cons_self
  obtain ⟨hroot, htree⟩ := h.apart mem_cons_self
  have hothers : frame ∉ others := (nodup_cons.mp (nodup_append.mp h.nodup_account).2.1).1
  have hsame : ∀ x ∈ m.inUse, x ≠ frame → Machine.SameFrame m (m.setEntry frame i value) x :=
    fun x hx hne => sameFrame_setEntry (h.usable x hx) husable hi hne
  constructor
  · have hkept : tree (m.setEntry frame i value) root = tree m root := by
      apply tree_of_sameFrame
      intro x hx
      apply hsame x (h.mem_iff.mpr ((mem_cons.mp hx).imp_right .inl))
      rintro rfl
      exact (mem_cons.mp hx).elim hroot htree
    exact h.congr rfl rfl rfl hkept
  constructor
  case frames =>
    intro x hx
    apply hsame x (h.mem_iff.mpr (.inr (.inr (mem_cons_of_mem _ hx))))
    rintro rfl
    exact hothers hx
  case slots =>
    intro j hj _
    exact (hsame root (h.mem_iff.mpr (.inl rfl)) hroot.symm).entry hj

theorem unstage_spec {fuel : Nat} (hfuel : staged.length ≤ fuel)
    (h : Holds m root (staged ++ others) start) (hstacked : Stacked m head staged) :
    Holds (unstage fuel head m) root others start ∧ Kept m (unstage fuel head m) root others
      ∧ (unstage fuel head m).freed = staged.reverse ++ m.freed := by
  induction staged generalizing fuel head m with
  | nil =>
    have hnothing : unstage fuel head m = m := by
      cases fuel with
      | zero => rfl
      | succ =>
        have hend : head = 0 := hstacked
        rw [unstage, if_neg (not_not_intro hend)]
    rw [hnothing]
    exact ⟨h, Kept.refl, rfl⟩
  | cons _ staged ih =>
    obtain ⟨rfl, hrest⟩ := hstacked
    have husable : Usable head := h.usable_others mem_cons_self
    cases fuel with
    | zero => exact absurd hfuel (by simp)
    | succ =>
      rw [unstage, if_pos husable.ne_zero]
      have hcons : Holds m root (head :: (staged ++ others)) start := h
      obtain ⟨hfree, hkept⟩ := hcons.free
      have hstill : Stacked (m.free head) (m.entry head 0) staged := by
        apply hrest.congr
        intro x hx
        exact (hkept.frames x (mem_append_left _ hx)).entry (by decide)
      obtain ⟨hheld, hkept', hfreed⟩ := ih (Nat.le_of_succ_le_succ hfuel) hfree hstill
      refine ⟨hheld, (hkept.mono fun x hx => mem_append_right _ hx).trans hkept', ?_⟩
      rw [hfreed, reverse_cons, append_assoc]
      rfl

def staging : Nat → Nat → List Nat → Machine → List Nat
  | 0, _, staged, _ => staged
  | pages + 1, frames, staged, m =>
    let call := m.alloc
    if call.1 = 0 then staged
    else staging pages call.1 (call.1 :: staged) (call.2.setEntry call.1 0 frames)

theorem stage_spec (pages : Nat) (h : Holds m root (staged ++ others) start)
    (hstacked : Stacked m head staged) :
    Kept m (stage pages head m).2 root others ∧ (∀ frames, (stage pages head m).1 = some frames →
          Holds (stage pages head m).2 root (staging pages head staged m ++ others) start
            ∧ Stacked (stage pages head m).2 frames (staging pages head staged m)
            ∧ (staging pages head staged m).length = staged.length + pages
              ∧ (stage pages head m).2.freed = m.freed)
      ∧ ((stage pages head m).1 = none → Holds (stage pages head m).2 root others start
            ∧ (stage pages head m).2.freed = (staging pages head staged m).reverse ++ m.freed) := by
  induction pages generalizing head staged m with
  | zero =>
    refine ⟨Kept.refl, ?_, ?_⟩
    · intro frames hframes
      cases hframes
      exact ⟨h, hstacked, rfl, rfl⟩
    · intro hnone
      cases hnone
  | succ pages ih =>
    by_cases hfailed : m.alloc.1 = 0
    · have hruns := alloc_failed_runs h hfailed
      have hfuel : staged.length ≤ m.alloc.2.inUse.length := by
        rw [hruns.holds.account.length_eq]
        simp only [length_append, length_cons]
        omega
      have hstill : Stacked m.alloc.2 head staged := by
        apply hstacked.congr
        intro x hx
        exact (hruns.kept.frames x (mem_append_left _ hx)).entry (by decide)
      obtain ⟨hheld, hkept, hfreed⟩ := unstage_spec hfuel hruns.holds hstill
      simp only [stage, staging, hfailed, if_true]
      refine ⟨(hruns.kept.mono fun x hx => mem_append_right _ hx).trans hkept, ?_, ?_⟩
      · intro frames hframes
        cases hframes
      · intro _
        exact ⟨hheld, by rw [hfreed, freed_alloc]⟩
    · simp only [stage, staging, hfailed, if_false]
      obtain ⟨hheld, -, -, -⟩ := h.alloc hfailed
      have husable : ∀ x ∈ staged, Usable x := fun x hx => h.usable_others (mem_append_left _ hx)
      obtain ⟨hstored, hkept⟩ := hheld.store head (show 0 < 512 by decide)
      have hsame : Kept m (m.alloc.2.setEntry m.alloc.1 0 head) root (staged ++ others) :=
        h.kept_alloc.trans hkept
      have hnext : Stacked (m.alloc.2.setEntry m.alloc.1 0 head) m.alloc.1
          (m.alloc.1 :: staged) := by
        refine ⟨rfl, ?_⟩
        rw [entry_setEntry_self (hstacked.head_lt husable)]
        apply hstacked.congr
        intro x hx
        exact (hsame.frames x (mem_append_left _ hx)).entry (by decide)
      have hstaged : Holds (m.alloc.2.setEntry m.alloc.1 0 head) root
          (m.alloc.1 :: staged ++ others) start := hstored
      obtain ⟨hkept', hsome, hnone⟩ := ih hstaged hnext
      have hfreed : (m.alloc.2.setEntry m.alloc.1 0 head).freed = m.freed := freed_alloc
      rw [hfreed] at hsome hnone
      refine ⟨(hsame.mono fun x hx => mem_append_right _ hx).trans hkept', ?_, hnone⟩
      intro frames hframes
      obtain ⟨hholds, hstill, hlength, hsaved⟩ := hsome frames hframes
      refine ⟨hholds, hstill, ?_, hsaved⟩
      rw [hlength, length_cons]
      omega

theorem childOf_heapWord (h : Usable frame) :
    childOf (frame ||| PRESENT ||| USER ||| WRITABLE ||| NX) = some frame
      ∧ frame ||| PRESENT ||| USER ||| WRITABLE ||| NX < 2 ^ 64 := by
  rw [Nat.or_assoc, Nat.or_assoc, Nat.or_assoc]
  exact ⟨childOf_or h (by decide) (by decide), or_lt h (by decide)⟩

theorem place_spec (address : Nat) (h : Holds m root (staged ++ others) start)
    (hstacked : Stacked m head staged) (hlength : staged.length = pages) :
    ∃ rest, Holds (place root pages address head m).2 root (rest ++ others) start
      ∧ Kept m (place root pages address head m).2 root others
        ∧ (place root pages address head m).2.freed = m.freed
      ∧ ((place root pages address head m).1 = true → rest = []) := by
  induction pages generalizing address head staged m with
  | zero => exact ⟨staged, h, Kept.refl, rfl, fun _ => eq_nil_of_length_eq_zero hlength⟩
  | succ pages ih =>
    cases staged with
    | nil => cases hlength
    | cons frame staged =>
      obtain ⟨rfl, hrest⟩ := hstacked
      have husable : Usable head := h.usable_others mem_cons_self
      have hcons : Holds m root (head :: (staged ++ others)) start := h
      obtain ⟨hstored, hkept⟩ := hcons.store 0 (show 0 < 512 by decide)
      obtain ⟨hword, hlt⟩ := childOf_heapWord husable
      have hmap := map_spec address hstored hword hlt
      simp only [place]
      split at hmap
      next hmapped =>
        rw [if_pos hmapped]
        obtain ⟨hruns, -, -⟩ := hmap
        have hsame := hkept.trans hruns.kept
        have hstill := hrest.congr fun x hx =>
          (hsame.frames x (mem_append_left _ hx)).entry (show 0 < 512 by decide)
        obtain ⟨rest, hholds, hkept', hfreed, hdone⟩ :=
          ih (address + 4096) hruns.holds hstill (Nat.succ.inj hlength)
        exact ⟨rest, hholds, (hsame.mono fun x hx => mem_append_right _ hx).trans hkept',
          hfreed.trans hruns.freed, hdone⟩
      next hmapped =>
        rw [if_neg hmapped]
        have hsame := hkept.trans (hmap.kept.mono fun x hx => mem_cons_of_mem _ hx)
        exact ⟨head :: staged, hmap.holds, hsame.mono fun x hx => mem_append_right _ hx,
          hmap.freed, fun hfalse => absurd hfalse Bool.false_ne_true⟩

def growStaging (root old bytes : Nat) (m : Machine) : List Nat :=
  let pages := (bytes + 4095) / 4096 * 4096 / 4096
  staging pages 0 [] (reserve root pages old m).2

theorem spaceGrow_spec (old bytes : Nat) (h : Holds m root others start) :
    ∃ rest, Holds (spaceGrow root old bytes m).2 root (rest ++ others) start
      ∧ Kept m (spaceGrow root old bytes m).2 root others ∧ ((spaceGrow root old bytes m).1 ≠ none →
        rest = [])
      ∧ ((spaceGrow root old bytes m).2.freed = m.freed ∨ (spaceGrow root old bytes m).1 = some 0
          ∧ (spaceGrow root old bytes m).2.freed = (growStaging root old bytes m).reverse
            ++ m.freed) := by
  rw [spaceGrow]
  split
  · exact ⟨[], h, Kept.refl, fun _ => rfl, .inl rfl⟩
  simp only []
  split
  · exact ⟨[], h, Kept.refl, fun _ => rfl, .inl rfl⟩
  rw [growStaging]
  generalize (bytes + 4095) / 4096 * 4096 = rounded
  generalize rounded / 4096 = pages
  have hreserve : Runs m (reserve root pages old m).2 root others start := reserve_spec h
  split
  · exact ⟨[], hreserve.holds, hreserve.kept, fun _ => rfl, .inl hreserve.freed⟩
  have hnothing : Stacked (reserve root pages old m).2 0 [] := rfl
  obtain ⟨hkept, hsome, hnone⟩ := stage_spec pages (hreserve.holds.perm (Perm.refl _)) hnothing
  split
  next hstage =>
    obtain ⟨hholds, hfreed⟩ := hnone hstage
    rw [hreserve.freed] at hfreed
    exact ⟨[], hholds, hreserve.kept.trans hkept, fun _ => rfl, .inr ⟨rfl, hfreed⟩⟩
  next frames hstage =>
    obtain ⟨hholds, hstacked, hlength, hfreed⟩ := hsome frames hstage
    rw [length_nil, Nat.zero_add] at hlength
    obtain ⟨rest, hheld, hkept', hfreed', hdone⟩ := place_spec old hholds hstacked hlength
    have hsame := (hreserve.kept.trans hkept).trans hkept'
    have hsaved := hfreed'.trans (hfreed.trans hreserve.freed)
    split
    next hplaced => exact ⟨rest, hheld, hsame, fun _ => hdone hplaced, .inl hsaved⟩
    next => exact ⟨rest, hheld, hsame, fun hne => absurd rfl hne, .inl hsaved⟩

def freeAll (frames : List Nat) (m : Machine) : Machine := frames.foldl Machine.free m

theorem freeAll_append (frames more : List Nat) (m : Machine) :
    freeAll (frames ++ more) m = freeAll more (freeAll frames m) := foldl_append

theorem sameFrame_freeAll (husable : ∀ x ∈ frames, Usable x) (hframe : Usable frame)
    (hother : frame ∉ frames) : Machine.SameFrame m (freeAll frames m) frame := by
  induction frames generalizing m with
  | nil => exact Machine.SameFrame.refl
  | cons first _ ih =>
    rw [mem_cons, not_or] at hother
    have hfirst : Machine.SameFrame m (m.free first) frame :=
      sameFrame_free hframe (husable first mem_cons_self) hother.1
    exact hfirst.trans (ih (fun x hx => husable x (mem_cons_of_mem _ hx)) hother.2)

theorem freed_freeAll (frames : List Nat) (m : Machine) :
    (freeAll frames m).freed = frames.reverse ++ m.freed := by
  induction frames generalizing m with
  | nil => rfl
  | cons first _ ih =>
    rw [reverse_cons, append_assoc]
    exact ih (m.free first)

theorem inUse_freeAll {rest : List Nat} (h : m.inUse.Perm (frames ++ rest)) :
    (freeAll frames m).inUse.Perm rest := by
  induction frames generalizing m with
  | nil => exact h
  | cons first _ ih =>
    apply ih
    have herase := h.erase first
    rw [cons_append, erase_cons_head] at herase
    exact herase

theorem allocated_freeAll (frames : List Nat) (m : Machine) :
    (freeAll frames m).allocated = m.allocated := by
  induction frames generalizing m with
  | nil => rfl
  | cons first _ ih => exact ih (m.free first)

def below (m : Machine) (levels word : Nat) : List Nat :=
  (childOf word).elim [] (Trie.subtree 512 childOf m.entry levels)

theorem freeTable_slots {indices : List Nat}
    (ih : ∀ {m : Machine} {word : Nat}, (below m levels word).Nodup →
      (∀ x ∈ below m levels word, Usable x) → freeTable levels word m
      = freeAll (below m levels word) m) (hbound : ∀ i ∈ indices, i < 512) (htable : Usable table)
    (hnodup : (Trie.span 512 childOf m.entry levels table indices).Nodup)
    (husable : ∀ x ∈ Trie.span 512 childOf m.entry levels table indices, Usable x)
    (houtside : table ∉ Trie.span 512 childOf m.entry levels table indices) :
    indices.foldl (fun m i => freeTable levels (m.entry table i) m) m
      = freeAll (Trie.span 512 childOf m.entry levels table indices) m := by
  induction indices generalizing m with
  | nil => rfl
  | cons i indices ihi =>
    have hsplit : Trie.span 512 childOf m.entry levels table (i :: indices) = below m levels
          (m.entry table i) ++ Trie.span 512 childOf m.entry levels table indices := flatMap_cons
    rw [hsplit] at hnodup husable houtside ⊢
    obtain ⟨hfirst, hrest, hapart⟩ := nodup_append.mp hnodup
    rw [mem_append, not_or] at houtside
    have hfirstUsable : ∀ x ∈ below m levels (m.entry table i), Usable x := fun x hx =>
      husable x (mem_append_left _ hx)
    have hrestUsable : ∀ x ∈ Trie.span 512 childOf m.entry levels table indices, Usable x :=
      fun x hx => husable x (mem_append_right _ hx)
    rw [foldl_cons, ih hfirst hfirstUsable, freeAll_append]
    -- freeing the first part leaves the rest of the tables as they were
    have hkept : Trie.span 512 childOf (freeAll (below m levels (m.entry table i)) m).entry levels
        table indices = Trie.span 512 childOf m.entry levels table indices := by
      apply Trie.span_congr_all
      · intro j hj
        exact (sameFrame_freeAll hfirstUsable htable houtside.1).entry
          (hbound j (mem_cons_of_mem _ hj))
      · intro x hx j hj
        have hother : x ∉ below m levels (m.entry table i) := fun hmem => hapart x hmem x hx rfl
        exact (sameFrame_freeAll hfirstUsable (hrestUsable x hx) hother).entry hj
    rw [← hkept] at hrest hrestUsable
    rw [ihi (fun j hj => hbound j (mem_cons_of_mem _ hj)) hrest hrestUsable
      (hkept ▸ houtside.2), hkept]

theorem freeTable_eq (hnodup : (below m levels word).Nodup)
    (husable : ∀ x ∈ below m levels word, Usable x) :
    freeTable levels word m = freeAll (below m levels word) m := by
  induction levels generalizing m word with
  | zero =>
    rw [freeTable, below, childOf]
    split <;> rfl
  | succ levels ih =>
    rw [freeTable]
    by_cases hempty : word &&& PRESENT = 0
    · rw [if_pos hempty, below, childOf_eq_none.mpr hempty]
      rfl
    have hlist : below m (levels + 1) word
        = Trie.span 512 childOf m.entry levels (word &&& FRAME_MASK) (range 512)
        ++ [word &&& FRAME_MASK] := by
      rw [below, childOf_eq_some hempty]
      rfl
    rw [if_neg hempty]
    rw [hlist] at hnodup husable ⊢
    obtain ⟨hspan, -, hapart⟩ := nodup_append.mp hnodup
    have hframe : word &&& FRAME_MASK ∈ [word &&& FRAME_MASK] := mem_singleton_self _
    have hslots := freeTable_slots (fun hn hu => ih hn hu)
      (fun i hi => mem_range.mp hi) (husable _ (mem_append_right _ hframe)) hspan
      (fun x hx => husable x (mem_append_left _ hx))
      (fun hmem => hapart _ hmem _ hframe rfl)
    simp only [hslots, freeAll_append]
    rfl

theorem spaceDestroy_eq (h : Holds m root others start) :
    spaceDestroy root m = freeAll (tree m root ++ [root]) m := by
  obtain ⟨hcons, -, -⟩ := nodup_append.mp h.nodup_account
  obtain ⟨hroot, htree⟩ := nodup_cons.mp hcons
  have hbound : ∀ i ∈ userSlots, i < 512 := by
    intro i hi
    rw [mem_userSlots] at hi
    omega
  have hslots := freeTable_slots freeTable_eq hbound h.root_usable htree
    (fun x hx => h.usable_tree hx) hroot
  rw [spaceDestroy, hslots, freeAll_append]
  rfl

end Kaguya.Space
