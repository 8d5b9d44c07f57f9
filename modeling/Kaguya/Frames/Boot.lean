import Mathlib.Algebra.BigOperators.Intervals
import Kaguya.Lib.Buffer
import Kaguya.Lib.Trapping

/-!
# Frames from the memory map

The boot allocator of `frame.jh`. It goes once over the memory map of the firmware and hands out the
pages of its usable descriptors one after the other. A run of consecutive pages is collected the
same way, and given up where the next page does not follow.
-/

namespace Kaguya.Frames

open Trapping List

structure Descriptor where
  kind : Nat
  physicalStart : Nat
  pages : Nat

/-- The memory map as the firmware has left it: `size` bytes with a descriptor every `stride` bytes.
-/
structure MemoryMap where
  bytes : Buffer
  size : Nat
  stride : Nat

structure Cursor where
  index : Nat
  page : Nat

def descriptorAt (bytes : Buffer) (place : Nat) : Descriptor where
  kind := bytes.get place 4
  physicalStart := bytes.get (place + 8) 8
  pages := bytes.get (place + 24) 8

section Allocator
variable (map : MemoryMap)

def frameRound (count : Nat) (cursor : Cursor) : Trapping (Round Cursor (Nat × Cursor)) := do
  if cursor.index < count then
    let descriptor := descriptorAt map.bytes (← times 64 cursor.index map.stride)
    if descriptor.kind = 7 ∧ cursor.page < descriptor.pages then
      let address ← plus 64 descriptor.physicalStart (← times 64 cursor.page 4096)
      let page ← plus 64 cursor.page 1
      if address > 0 then return .leave (address, ⟨cursor.index, page⟩)
      -- page 0 is not handed out, and the rest of its descriptor with it
      return .again ⟨← plus 64 cursor.index 1, 0⟩
    else return .again ⟨← plus 64 cursor.index 1, 0⟩
  else return .leave (0, cursor)

/-- `jihoo_boot_frame_alloc` -/
def bootFrame (cursor : Cursor) : Trapping (Nat × Cursor) := do
  let count ← quotient map.size map.stride
  loop (frameRound map count) (count + 1) cursor

structure Collected where
  start : Nat
  found : Nat
  cursor : Cursor

def runRound (count : Nat) (run : Collected) : Trapping (Round Collected (Nat × Cursor)) := do
  if run.found < count then
    let (next, cursor) ← bootFrame map run.cursor
    if next = 0 then return .leave (0, cursor)
    if next = (← plus 64 run.start (← times 64 run.found 4096)) then
      return .again ⟨run.start, ← plus 64 run.found 1, cursor⟩
    else return .again ⟨next, 1, cursor⟩
  else return .leave (run.start, run.cursor)

def MemoryMap.total : Nat :=
  ∑ i ∈ Finset.range (map.size / map.stride), (descriptorAt map.bytes (i * map.stride)).pages

/-- `jihoo_boot_frames_alloc` -/
def bootFrames (cursor : Cursor) (count : Nat) : Trapping (Nat × Cursor) := do
  if count = 0 then return (0, cursor)
  let (start, cursor) ← bootFrame map cursor
  if start = 0 then return (0, cursor)
  loop (runRound map count) (map.total + 1) ⟨start, 1, cursor⟩

end Allocator

namespace MemoryMap

variable (map : MemoryMap)

def count : Nat := map.size / map.stride

def descriptor (i : Nat) : Descriptor := descriptorAt map.bytes (i * map.stride)

structure Covers (i address : Nat) : Prop where
  lt_count : i < map.count
  usable : (map.descriptor i).kind = 7
  start_le : (map.descriptor i).physicalStart ≤ address
  lt_end : address < (map.descriptor i).physicalStart + 4096 * (map.descriptor i).pages

/-- A memory map whose usable descriptors are aligned, end below the end of the address space and do
not overlap. -/
structure Valid : Prop where
  stride : 40 ≤ map.stride
  size : map.size < 2 ^ 64
  aligned : ∀ i < map.count, (map.descriptor i).kind = 7 → (map.descriptor i).physicalStart % 4096
    = 0
  below : ∀ i < map.count, (map.descriptor i).kind = 7 →
    (map.descriptor i).physicalStart + 4096 * (map.descriptor i).pages < 2 ^ 64
  disjoint : ∀ i j address, i ≠ j → map.Covers i address → ¬ map.Covers j address

structure PageAt (i k frame : Nat) : Prop where
  lt_count : i < map.count
  usable : (map.descriptor i).kind = 7
  lt_pages : k < (map.descriptor i).pages
  frame_eq : frame = (map.descriptor i).physicalStart + 4096 * k

variable {map} {i j k l frame : Nat}

theorem PageAt.covers (h : map.PageAt i k frame) : map.Covers i frame := by
  have hpages := h.lt_pages
  have hframe := h.frame_eq
  exact ⟨h.lt_count, h.usable, by omega, by omega⟩

theorem Valid.unique (hvalid : map.Valid) (h : map.PageAt i k frame) (h' : map.PageAt j l frame) :
    i = j ∧ k = l := by
  have hij : i = j := by
    by_contra hne
    exact hvalid.disjoint i j frame hne h.covers h'.covers
  subst hij
  have hframe := h.frame_eq
  have hframe' := h'.frame_eq
  exact ⟨rfl, by omega⟩

theorem Valid.frame_bounds (hvalid : map.Valid) (h : map.PageAt i k frame) :
    frame % 4096 = 0 ∧ frame + 4096 < 2 ^ 64 := by
  have haligned := hvalid.aligned i h.lt_count h.usable
  have hbelow := hvalid.below i h.lt_count h.usable
  have hpages := h.lt_pages
  have hframe := h.frame_eq
  omega

end MemoryMap

namespace Cursor

def Passed (cursor : Cursor) (i k : Nat) : Prop :=
  i < cursor.index ∨ i = cursor.index ∧ k < cursor.page

def Le (cursor cursor' : Cursor) : Prop := ∀ i k, cursor.Passed i k → cursor'.Passed i k

variable {cursor cursor' cursor'' : Cursor}

theorem Le.refl : cursor.Le cursor := fun _ _ h => h

theorem Le.trans (h : cursor.Le cursor') (h' : cursor'.Le cursor'') : cursor.Le cursor'' :=
  fun i k hpassed => h' i k (h i k hpassed)

theorem le_next (cursor : Cursor) : cursor.Le ⟨cursor.index + 1, 0⟩ := by
  intro i k hpassed
  left
  change i < cursor.index + 1
  rcases hpassed with hlt | ⟨heq, _⟩
  · omega
  · omega

end Cursor

variable {map : MemoryMap} {cursor cursor' cursor'' : Cursor} {frame other : Nat}

def Fresh (map : MemoryMap) (cursor cursor' : Cursor) (frame : Nat) : Prop :=
  ∃ i k, map.PageAt i k frame ∧ ¬ cursor.Passed i k ∧ cursor'.Passed i k

def Given (map : MemoryMap) (cursor : Cursor) (frame : Nat) : Prop :=
  ∃ i k, map.PageAt i k frame ∧ cursor.Passed i k

theorem Fresh.given (h : Fresh map cursor cursor' frame) : Given map cursor' frame := by
  obtain ⟨i, k, hpage, _, hpassed⟩ := h
  exact ⟨i, k, hpage, hpassed⟩

theorem Fresh.mono (h : Fresh map cursor' cursor'' frame) (hle : cursor.Le cursor') :
    Fresh map cursor cursor'' frame := by
  obtain ⟨i, k, hpage, hnew, hpassed⟩ := h
  exact ⟨i, k, hpage, fun hold => hnew (hle i k hold), hpassed⟩

theorem Fresh.later (h : Fresh map cursor cursor' frame) (hle : cursor'.Le cursor'') :
    Fresh map cursor cursor'' frame := by
  obtain ⟨i, k, hpage, hnew, hpassed⟩ := h
  exact ⟨i, k, hpage, hnew, hle i k hpassed⟩

theorem Given.later (h : Given map cursor frame) (hle : cursor.Le cursor') :
    Given map cursor' frame := by
  obtain ⟨i, k, hpage, hpassed⟩ := h
  exact ⟨i, k, hpage, hle i k hpassed⟩

theorem Fresh.ne (h : Fresh map cursor cursor' frame) (hvalid : map.Valid)
    (hother : Given map cursor other) : frame ≠ other := by
  rintro rfl
  obtain ⟨i, k, hpage, hnew, _⟩ := h
  obtain ⟨j, l, hpage', hpassed⟩ := hother
  obtain ⟨rfl, rfl⟩ := hvalid.unique hpage hpage'
  exact hnew hpassed

theorem Given.bounds (h : Given map cursor frame) (hvalid : map.Valid) :
    frame % 4096 = 0 ∧ frame + 4096 < 2 ^ 64 := by
  obtain ⟨i, k, hpage, _⟩ := h
  exact hvalid.frame_bounds hpage

def MemoryMap.page (map : MemoryMap) (i k : Nat) :
    Nat := (map.descriptor i).physicalStart + k * 4096

/-- What a round of the search does: it returns the page at the cursor, or goes to the next
descriptor. -/
theorem frameRound_eq (hvalid : map.Valid) : frameRound map map.count cursor = .ok (
    if cursor.index < map.count then
      if (map.descriptor cursor.index).kind = 7 ∧ cursor.page < (map.descriptor cursor.index).pages
          ∧ 0 < map.page cursor.index cursor.page then
        .leave (map.page cursor.index cursor.page, ⟨cursor.index, cursor.page + 1⟩)
      else .again ⟨cursor.index + 1, 0⟩
    else .leave (0, cursor)) := by
  have hsize := hvalid.size
  unfold frameRound
  by_cases hindex : cursor.index < map.count
  · have hcount : map.count * map.stride ≤ map.size := Nat.div_mul_le_self _ _
    have hmul := Nat.mul_le_mul_right map.stride (Nat.le_of_lt hindex)
    have hle : map.count ≤ map.size := Nat.div_le_self _ _
    have hnext : plus 64 cursor.index 1 = .ok (cursor.index + 1) := plus_eq (by omega)
    rw [if_pos hindex, if_pos hindex, times_eq (by omega), ok_bind,
      show descriptorAt map.bytes (cursor.index * map.stride) = map.descriptor cursor.index from
        rfl,
      hnext, ok_bind]
    by_cases hpage : (map.descriptor cursor.index).kind = 7
      ∧ cursor.page < (map.descriptor cursor.index).pages
    · have hbelow := hvalid.below cursor.index hindex hpage.1
      rw [if_pos hpage, times_eq (by omega), ok_bind, plus_eq (by omega), ok_bind,
        plus_eq (by omega), ok_bind]
      simp only [hpage, true_and, MemoryMap.page, gt_iff_lt]
      split_ifs <;> rfl
    · rw [if_neg hpage, if_neg fun h => hpage ⟨h.1, h.2.1⟩]
      rfl
  · rw [if_neg hindex, if_neg hindex]
    rfl

structure BootStep (map : MemoryMap) (cursor : Cursor) (result : Nat × Cursor) : Prop where
  le : cursor.Le result.2
  fresh : result.1 ≠ 0 → Fresh map cursor result.2 result.1

theorem returns_frameRound (hvalid : map.Valid) (hle : cursor.Le cursor') :
    Returns (frameRound map map.count cursor') (Round.Meets (fun next =>
      cursor.Le next ∧ map.count - next.index < map.count - cursor'.index)
        (BootStep map cursor)) := by
  rw [frameRound_eq hvalid, returns_ok]
  split_ifs with hindex hpage
  · constructor
    · intro i k hpassed
      rcases hle i k hpassed with hbefore | ⟨hsame, hk⟩
      · exact .inl hbefore
      · exact .inr ⟨hsame, by dsimp only; omega⟩
    intro _
    refine ⟨_, _, ⟨hindex, hpage.1, hpage.2.1, by simp [MemoryMap.page, Nat.mul_comm]⟩, ?_,
      .inr ⟨rfl, by dsimp only; omega⟩⟩
    intro hpassed
    rcases hle _ _ hpassed with hbefore | ⟨_, hk⟩
    · omega
    · omega
  · exact ⟨hle.trans (Cursor.le_next cursor'), by dsimp only; omega⟩
  · exact ⟨hle, fun h => absurd rfl h⟩

theorem returns_bootFrame (hvalid : map.Valid) (cursor : Cursor) :
    Returns (bootFrame map cursor) (BootStep map cursor) := by
  have hstride := hvalid.stride
  unfold bootFrame
  rw [quotient_eq (by omega), ok_bind]
  apply returns_loop (cursor.Le ·) fun next => map.count - next.index
  · intro next hle
    exact returns_frameRound hvalid hle
  · exact Cursor.Le.refl
  · change map.count - cursor.index < map.count + 1
    omega

instance (cursor : Cursor) (i k : Nat) : Decidable (cursor.Passed i k) :=
  inferInstanceAs (Decidable (_ ∨ _))

def remaining (map : MemoryMap) (cursor : Cursor) : Finset (Σ _ : Nat, Nat) :=
  ((Finset.range map.count).sigma fun i => Finset.range (map.descriptor i).pages).filter
    fun page => ¬ cursor.Passed page.1 page.2

theorem card_remaining_le (map : MemoryMap) (cursor : Cursor) :
    (remaining map cursor).card ≤ map.total := by
  calc (remaining map cursor).card ≤ ((Finset.range map.count).sigma fun i => Finset.range
    (map.descriptor i).pages).card :=
        Finset.card_filter_le _ _
    _ = map.total := by
        rw [Finset.card_sigma]
        simp only [Finset.card_range]
        rfl

theorem card_remaining_lt (hle : cursor.Le cursor') (hfresh : Fresh map cursor cursor' frame) :
    (remaining map cursor').card < (remaining map cursor).card := by
  obtain ⟨i, k, hpage, hnew, hpassed⟩ := hfresh
  apply Finset.card_lt_card
  rw [Finset.ssubset_iff_of_subset]
  · refine ⟨⟨i, k⟩, ?_, ?_⟩
    · simp only [remaining, Finset.mem_filter, Finset.mem_sigma, Finset.mem_range]
      exact ⟨⟨hpage.lt_count, hpage.lt_pages⟩, hnew⟩
    · simp only [remaining, Finset.mem_filter]
      exact fun hmem => hmem.2 hpassed
  · intro page hmem
    simp only [remaining, Finset.mem_filter] at hmem ⊢
    exact ⟨hmem.1, fun hold => hmem.2 (hle _ _ hold)⟩

structure Consecutive (map : MemoryMap) (cursor : Cursor) (run : Collected) : Prop where
  le : cursor.Le run.cursor
  found_pos : 0 < run.found
  fresh : ∀ j < run.found, Fresh map cursor run.cursor (run.start + 4096 * j)

structure BootRun (map : MemoryMap) (cursor : Cursor) (count : Nat) (result : Nat × Cursor) :
    Prop where
  le : cursor.Le result.2
  fresh : result.1 ≠ 0 → ∀ j < count, Fresh map cursor result.2 (result.1 + 4096 * j)

theorem Consecutive.single (hle : cursor.Le cursor') (hle' : cursor'.Le cursor'')
    (hfresh : Fresh map cursor' cursor'' frame) : Consecutive map cursor ⟨frame, 1, cursor''⟩ where
  le := hle.trans hle'
  found_pos := Nat.one_pos
  fresh := by
    intro j hj
    obtain rfl : j = 0 := Nat.lt_one_iff.mp hj
    exact hfresh.mono hle

variable {run : Collected}

theorem Consecutive.extend (h : Consecutive map cursor run) (hle : run.cursor.Le cursor')
    (hfresh : Fresh map run.cursor cursor' (run.start + 4096 * run.found)) :
    Consecutive map cursor ⟨run.start, run.found + 1, cursor'⟩ where
  le := h.le.trans hle
  found_pos := Nat.succ_pos _
  fresh := by
    intro j hj
    rcases Nat.lt_or_eq_of_le (Nat.le_of_lt_succ hj) with hbefore | rfl
    · exact (h.fresh j hbefore).later hle
    · exact hfresh.mono h.le

theorem Consecutive.end_lt (h : Consecutive map cursor run) (hvalid : map.Valid) :
    run.start + run.found * 4096 < 2 ^ 64 := by
  have hpos := h.found_pos
  have hlast := (h.fresh (run.found - 1) (by omega)).given.bounds hvalid
  omega

theorem returns_runRound {count : Nat} (hvalid : map.Valid) (h : Consecutive map cursor run) :
    Returns (runRound map count run) (Round.Meets (fun next => Consecutive map cursor next
      ∧ (remaining map next.cursor).card < (remaining map run.cursor).card)
        (BootRun map cursor count)) := by
  have hend := h.end_lt hvalid
  unfold runRound
  apply Returns.ite
  · intro _
    apply (returns_bootFrame hvalid run.cursor).bind
    rintro ⟨next, cursor'⟩ ⟨hle, hfresh⟩
    apply Returns.ite
    · intro _
      exact returns_pure.mpr ⟨h.le.trans hle, fun hne => absurd rfl hne⟩
    intro hsome
    have hfresh := hfresh hsome
    rw [times_eq (by omega), ok_bind, plus_eq hend, ok_bind]
    apply Returns.ite
    · intro hnext
      rw [plus_eq (by omega), ok_bind]
      rw [hnext, Nat.mul_comm] at hfresh
      exact returns_pure.mpr ⟨h.extend hle hfresh, card_remaining_lt hle hfresh⟩
    · intro _
      exact returns_pure.mpr ⟨Consecutive.single h.le hle hfresh, card_remaining_lt hle hfresh⟩
  · intro hdone
    apply returns_pure.mpr
    exact ⟨h.le, fun _ j hj => h.fresh j (by omega)⟩

theorem returns_bootFrames (hvalid : map.Valid) (cursor : Cursor) (count : Nat) :
    Returns (bootFrames map cursor count) (BootRun map cursor count) := by
  unfold bootFrames
  apply Returns.ite
  · intro _
    exact returns_pure.mpr ⟨Cursor.Le.refl, fun hne => absurd rfl hne⟩
  intro _
  apply (returns_bootFrame hvalid cursor).bind
  rintro ⟨start, cursor'⟩ ⟨hle, hfresh⟩
  apply Returns.ite
  · intro _
    exact returns_pure.mpr ⟨hle, fun hne => absurd rfl hne⟩
  intro hsome
  apply returns_loop (Consecutive map cursor) fun run => (remaining map run.cursor).card
  · intro run hrun
    exact returns_runRound hvalid hrun
  · exact Consecutive.single Cursor.Le.refl hle (hfresh hsome)
  · exact Nat.lt_succ_of_le (card_remaining_le map cursor')

def MemoryMap.pagesOf (map : MemoryMap) (i : Nat) : List Nat :=
  if (map.descriptor i).kind = 7 then (range (map.descriptor i).pages).map (map.page i) else []

/-- The pages of the usable descriptors in order, without the one at address 0. -/
def MemoryMap.usable (map : MemoryMap) : List Nat :=
  ((range map.count).flatMap map.pagesOf).filter (· ≠ 0)

/-- No usable descriptor of several pages starts at address 0. -/
def MemoryMap.Raised (map : MemoryMap) : Prop :=
  ∀ i < map.count, (map.descriptor i).kind = 7 →
    (map.descriptor i).physicalStart = 0 → (map.descriptor i).pages ≤ 1

/-- What the allocator hands out of a descriptor: nothing, if it starts at address 0. -/
def MemoryMap.handed (map : MemoryMap) (i : Nat) : List Nat :=
  if (map.descriptor i).physicalStart = 0 then [] else map.pagesOf i

def left (map : MemoryMap) (cursor : Cursor) : List Nat :=
  ((range' cursor.index (map.count - cursor.index)).flatMap map.handed).drop cursor.page

def drain (map : MemoryMap) : Nat → Cursor → Trapping (List Nat)
  | 0, _ => .error .endless
  | fuel + 1, cursor => do
    let (frame, cursor) ← bootFrame map cursor
    if frame = 0 then return []
    return frame :: (← drain map fuel cursor)

def Cursor.Within (cursor : Cursor) (map : MemoryMap) : Prop :=
  cursor.index < map.count → cursor.page ≤ (map.handed cursor.index).length

theorem left_of_lt (hindex : cursor.index < map.count) (hwithin : cursor.Within map) :
    left map cursor
      = (map.handed cursor.index).drop cursor.page ++ left map ⟨cursor.index + 1, 0⟩ := by
  have hcount : map.count - cursor.index = map.count - (cursor.index + 1) + 1 := by omega
  unfold left
  rw [hcount, range'_succ, flatMap_cons, drop_append_of_le_length (hwithin hindex)]
  rfl

theorem left_round (hindex : cursor.index < map.count) (hwithin : cursor.Within map)
    (hpage : ¬ ((map.descriptor cursor.index).kind = 7
      ∧ cursor.page < (map.descriptor cursor.index).pages
      ∧ 0 < map.page cursor.index cursor.page)) :
    left map cursor = left map ⟨cursor.index + 1, 0⟩ := by
  have hnone : (map.handed cursor.index).drop cursor.page = [] := by
    apply drop_of_length_le
    unfold MemoryMap.handed MemoryMap.pagesOf
    split_ifs with hstart hkind
    · exact Nat.zero_le _
    · rw [length_map, length_range]
      by_contra hlt
      exact hpage ⟨hkind, by omega, Nat.add_pos_left (Nat.pos_of_ne_zero hstart) _⟩
    · exact Nat.zero_le _
  rw [left_of_lt hindex hwithin, hnone, nil_append]

theorem left_page (hindex : cursor.index < map.count) (hwithin : cursor.Within map)
    (hpage : (map.descriptor cursor.index).kind = 7
      ∧ cursor.page < (map.descriptor cursor.index).pages
      ∧ 0 < map.page cursor.index cursor.page) :
    Cursor.Within ⟨cursor.index, cursor.page + 1⟩ map ∧ left map cursor
      = map.page cursor.index cursor.page :: left map ⟨cursor.index, cursor.page + 1⟩ := by
  obtain ⟨hkind, hlt, hpos⟩ := hpage
  have hhanded : map.handed cursor.index
      = (range (map.descriptor cursor.index).pages).map (map.page cursor.index) := by
    have hinside := hwithin hindex
    unfold MemoryMap.handed MemoryMap.pagesOf at *
    split_ifs at hinside ⊢ with hstart
    · -- a cursor inside a descriptor has not skipped it
      rw [MemoryMap.page, hstart, Nat.le_zero.mp hinside] at hpos
      exact absurd hpos (by simp)
    · rfl
  have hshort : cursor.page < (map.handed cursor.index).length := by
    rw [hhanded, length_map, length_range]
    exact hlt
  have hframe : (map.handed cursor.index)[cursor.page] = map.page cursor.index cursor.page := by
    simp [hhanded]
  have hnext : Cursor.Within ⟨cursor.index, cursor.page + 1⟩ map := fun _ => hshort
  refine ⟨hnext, ?_⟩
  rw [left_of_lt hindex hwithin, @left_of_lt map ⟨cursor.index, cursor.page + 1⟩ hindex hnext,
    drop_eq_getElem_cons hshort, hframe, cons_append]

theorem returns_bootFrame_left (hvalid : map.Valid) (hwithin : cursor.Within map) :
    Returns (bootFrame map cursor) fun result => result.2.Within map
      ∧ (result.1 = 0 ∧ left map cursor = []
        ∨ result.1 ≠ 0 ∧ left map cursor = result.1 :: left map result.2) := by
  have hstride := hvalid.stride
  unfold bootFrame
  rw [quotient_eq (by omega), ok_bind]
  apply returns_loop (fun next => next.Within map ∧ left map cursor = left map next)
    fun next => map.count - next.index
  · rintro next ⟨hnext, hleft⟩
    rw [← MemoryMap.count, frameRound_eq hvalid, returns_ok, hleft]
    split_ifs with hindex hpage
    · obtain ⟨hafter, hframe⟩ := left_page hindex hnext hpage
      exact ⟨hafter, .inr ⟨by dsimp only; omega, hframe⟩⟩
    · exact ⟨⟨fun _ => Nat.zero_le _, left_round hindex hnext hpage⟩, by dsimp only; omega⟩
    · refine ⟨hnext, .inl ⟨rfl, ?_⟩⟩
      rw [left, Nat.sub_eq_zero_of_le (by omega)]
      simp
  · exact ⟨hwithin, rfl⟩
  · change map.count - cursor.index < map.count + 1
    omega

theorem drain_eq (hvalid : map.Valid) {fuel : Nat} (hfuel : (left map cursor).length < fuel)
    (hwithin : cursor.Within map) : drain map fuel cursor = .ok (left map cursor) := by
  induction fuel generalizing cursor with
  | zero => omega
  | succ fuel ih =>
    obtain ⟨⟨frame, next⟩, hframe, hnext, ⟨hzero, hleft⟩ | ⟨hne, hleft⟩⟩ :=
      returns_bootFrame_left hvalid hwithin
    · rw [drain, hframe, ok_bind, hleft]
      exact if_pos hzero
    rw [hleft, length_cons] at hfuel
    rw [drain, hframe, ok_bind, hleft]
    dsimp only at hne ⊢
    rw [if_neg hne, ih (by omega) hnext]
    rfl

theorem pageAt_of_mem {i : Nat} (hi : i < map.count) (h : frame ∈ map.pagesOf i) :
    ∃ k, map.PageAt i k frame := by
  unfold MemoryMap.pagesOf at h
  split_ifs at h with hkind
  · obtain ⟨k, hk, rfl⟩ := mem_map.mp h
    exact ⟨k, hi, hkind, mem_range.mp hk, by rw [MemoryMap.page, Nat.mul_comm]⟩
  · cases h

theorem nodup_usable (hvalid : map.Valid) : map.usable.Nodup := by
  refine Nodup.filter _ (nodup_flatMap.mpr ⟨fun i _ => ?_, ?_⟩)
  · unfold MemoryMap.pagesOf
    split_ifs
    · exact nodup_range.map fun k l hkl => by simpa [MemoryMap.page] using hkl
    · exact nodup_nil
  refine Pairwise.imp_of_mem ?_ nodup_range
  intro i j hi hj hne frame hframe hframe'
  obtain ⟨k, hpage⟩ := pageAt_of_mem (mem_range.mp hi) hframe
  obtain ⟨l, hpage'⟩ := pageAt_of_mem (mem_range.mp hj) hframe'
  exact hne (hvalid.unique hpage hpage').1

theorem usable_eq : map.usable
    = (range map.count).flatMap fun i => (map.pagesOf i).filter (· ≠ 0) := filter_flatMap

theorem filter_pagesOf {i : Nat} (hstart : (map.descriptor i).physicalStart ≠ 0) :
    (map.pagesOf i).filter (· ≠ 0) = map.handed i := by
  rw [MemoryMap.handed, if_neg hstart, filter_eq_self]
  intro frame hframe
  unfold MemoryMap.pagesOf at hframe
  split_ifs at hframe
  · obtain ⟨k, -, rfl⟩ := mem_map.mp hframe
    simp [MemoryMap.page, hstart]
  · cases hframe

theorem handed_sublist (map : MemoryMap) :
    (range map.count).flatMap map.handed <+ map.usable := by
  rw [usable_eq]
  refine Sublist.flatMap_right _ fun i _ => ?_
  by_cases hstart : (map.descriptor i).physicalStart = 0
  · rw [MemoryMap.handed, if_pos hstart]
    exact nil_sublist _
  · rw [filter_pagesOf hstart]

/-- Nothing usable is skipped just when no usable descriptor of several pages starts at address 0.
-/
theorem handed_eq_usable_iff (hvalid : map.Valid) :
    (range map.count).flatMap map.handed = map.usable ↔ map.Raised := by
  constructor
  · intro hall i hi hkind hstart
    by_contra hseveral
    have hpage : map.PageAt i 1 4096 := ⟨hi, hkind, by omega, by rw [hstart]⟩
    have husable : 4096 ∈ map.usable := by
      refine mem_filter.mpr ⟨mem_flatMap.mpr ⟨i, mem_range.mpr hi, ?_⟩, rfl⟩
      rw [MemoryMap.pagesOf, if_pos hkind]
      exact mem_map.mpr ⟨1, mem_range.mpr hpage.lt_pages, by rw [MemoryMap.page, hstart]⟩
    rw [← hall] at husable
    obtain ⟨j, hj, hmem⟩ := mem_flatMap.mp husable
    unfold MemoryMap.handed at hmem
    split_ifs at hmem with hother
    · cases hmem
    · obtain ⟨k, hpage'⟩ := pageAt_of_mem (mem_range.mp hj) hmem
      rw [← (hvalid.unique hpage hpage').1] at hother
      exact hother hstart
  · intro hraised
    rw [usable_eq]
    refine flatMap_congr fun i hi => ?_
    by_cases hstart : (map.descriptor i).physicalStart = 0
    · rw [MemoryMap.handed, if_pos hstart, eq_comm, filter_eq_nil_iff]
      intro frame hframe
      obtain ⟨k, hpage⟩ := pageAt_of_mem (mem_range.mp hi) hframe
      have hframe := hpage.frame_eq
      have hpages := hpage.lt_pages
      have hone := hraised i (mem_range.mp hi) hpage.usable hstart
      simp
      omega
    · exact (filter_pagesOf hstart).symm

/-- **When no usable page is lost.** The allocator hands out each usable page once and in order just
when no usable descriptor of several pages starts at address 0. -/
theorem drain_usable (hvalid : map.Valid) :
    (drain map (map.usable.length + 1) ⟨0, 0⟩ = .ok map.usable ↔ map.Raised)
      ∧ map.usable.Nodup := by
  have hleft : left map ⟨0, 0⟩ = (range map.count).flatMap map.handed := by
    simp [left, range_eq_range']
  have hshort := (handed_sublist map).length_le
  rw [drain_eq hvalid (by rw [hleft]; omega) fun _ => Nat.zero_le _, hleft, Except.ok.injEq]
  exact ⟨handed_eq_usable_iff hvalid, nodup_usable hvalid⟩

theorem valid_of_count_eq_one (hcount : map.count = 1) (hstride : 40 ≤ map.stride)
    (hsize : map.size < 2 ^ 64) (haligned : (map.descriptor 0).physicalStart % 4096 = 0)
    (hbelow : (map.descriptor 0).physicalStart + 4096 * (map.descriptor 0).pages < 2 ^ 64) :
    map.Valid := by
  have hzero : ∀ i < map.count, i = 0 := fun i hi => by omega
  refine ⟨hstride, hsize, fun i hi _ => ?_, fun i hi _ => ?_, fun i j _ hne hi hj => hne ?_⟩
  · rwa [hzero i hi]
  · rwa [hzero i hi]
  · rw [hzero i hi.lt_count, hzero j hj.lt_count]

def smallMap : MemoryMap where
  bytes := Buffer.ofList ([7, 0, 0, 0, 0, 0, 0, 0, 0, 16, 0, 0, 0, 0, 0, 0] ++ replicate 8 0
    ++ [6, 0, 0, 0, 0, 0, 0, 0] ++ replicate 8 0)
  size := 40
  stride := 40

theorem valid_smallMap : smallMap.Valid :=
  valid_of_count_eq_one rfl (by decide) (by decide) (by decide +kernel) (by decide +kernel)

theorem drain_usable_smallMap : drain smallMap (smallMap.usable.length + 1) ⟨0, 0⟩
    = .ok smallMap.usable ∧ smallMap.usable.Nodup :=
  (drain_usable valid_smallMap).imp_left fun h => h.mpr (by unfold MemoryMap.Raised; decide +kernel)

def lowMap : MemoryMap where
  bytes := Buffer.ofList (7 :: (replicate 23 0 ++ 2 :: replicate 15 0))
  size := 40
  stride := 40

theorem drain_misses_page :
    lowMap.Valid ∧ lowMap.usable = [4096] ∧ drain lowMap 1 ⟨0, 0⟩ = .ok [] :=
  ⟨valid_of_count_eq_one rfl (by decide) (by decide) (by decide +kernel) (by decide +kernel),
    by decide +kernel, by decide +kernel⟩

end Kaguya.Frames
