import Kaguya.Heap.Headers
import Kaguya.Lib.Links
import Mathlib.Data.List.Chain

/-!
# The list of large blocks

The blocks are listed in the order of their addresses, and each one begins where the one before it
ends. `allocLarge` cuts a free block in two, and `freeLarge` joins a block with its free neighbours.
-/

namespace Kaguya.Heap

open Block List

variable {memory memory' : Buffer}

inductive Use
  | free
  | slab
  | held (payload : Nat)
  deriving DecidableEq

structure Large where
  address : Nat
  size : Nat
  use : Use

def Large.stop (b : Large) : Nat := b.address + HEADER + b.size

def Tiles : Nat → List Large → Nat → Prop
  | lo, [], hi => lo = hi
  | lo, b :: rest, hi => b.address = lo ∧ Tiles b.stop rest hi

namespace Tiles

variable {lo hi : Nat} {blocks front back : List Large} {block : Large}

theorem append_iff :
    Tiles lo (front ++ back) hi ↔ ∃ mid, Tiles lo front mid ∧ Tiles mid back hi := by
  induction front generalizing lo with
  | nil => simp [Tiles]
  | cons b _ ih =>
    rw [cons_append, Tiles, ih]
    constructor
    · intro ⟨hlo, mid, hfront, hback⟩
      exact ⟨mid, ⟨hlo, hfront⟩, hback⟩
    · intro ⟨mid, ⟨hlo, hfront⟩, hback⟩
      exact ⟨hlo, mid, hfront, hback⟩

variable (h : Tiles lo blocks hi)
include h

theorem bounds : lo ≤ hi ∧ ∀ b ∈ blocks, lo ≤ b.address ∧ b.stop ≤ hi := by
  induction blocks generalizing lo with
  | nil => exact ⟨Nat.le_of_eq h, nofun⟩
  | cons b _ ih =>
    obtain ⟨hlo, hrest⟩ := h
    obtain ⟨hle, hmem⟩ := ih hrest
    have hstop : b.stop = b.address + HEADER + b.size := rfl
    refine ⟨by omega, fun c hc => ?_⟩
    rcases mem_cons.mp hc with rfl | hc
    · exact ⟨Nat.le_of_eq hlo.symm, hle⟩
    · have hbounds := hmem c hc
      exact ⟨by omega, hbounds.2⟩

theorem cover {x : Nat} (hlo : lo ≤ x) (hhi : x < hi) :
    ∃ b ∈ blocks, b.address ≤ x ∧ x < b.stop := by
  induction blocks generalizing lo with
  | nil =>
    have heq : lo = hi := h
    omega
  | cons b _ ih =>
    obtain ⟨rfl, hrest⟩ := h
    by_cases hx : x < b.stop
    · exact ⟨b, mem_cons_self, hlo, hx⟩
    · obtain ⟨c, hc, hin⟩ := ih hrest (Nat.le_of_not_lt hx)
      exact ⟨c, mem_cons_of_mem b hc, hin⟩

theorem pairwise : blocks.Pairwise fun b c => b.stop ≤ c.address := by
  induction blocks generalizing lo with
  | nil => exact Pairwise.nil
  | cons b blocks ih => exact Pairwise.cons (fun c hc => (h.2.bounds.2 c hc).1) (ih h.2)

theorem length_le : lo + HEADER * blocks.length ≤ hi := by
  induction blocks generalizing lo with
  | nil => exact Nat.le_of_eq h
  | cons b _ ih =>
    obtain ⟨hlo, hrest⟩ := h
    have hrest' := ih hrest
    unfold Large.stop at hrest'
    rw [length_cons, Nat.mul_succ]
    omega

theorem dvd_address (hlo : 8 ∣ lo) (hsize : ∀ b ∈ blocks, 8 ∣ b.size) :
    ∀ b ∈ blocks, 8 ∣ b.address := by
  induction blocks generalizing lo with
  | nil => nofun
  | cons b _ ih =>
    obtain ⟨rfl, hrest⟩ := h
    have hstop : 8 ∣ b.stop := by
      have hb := hsize b mem_cons_self
      unfold Large.stop HEADER
      omega
    intro c hc
    rcases mem_cons.mp hc with rfl | hc
    · exact hlo
    · exact ih hrest hstop (fun d hd => hsize d (mem_cons_of_mem b hd)) c hc

end Tiles

/-- The blocks between `lo` and `hi` are listed from `large` on, in the order of their addresses. -/
structure Listed (memory : Buffer) (large lo hi : Nat) (blocks : List Large) : Prop where
  positive : 0 < lo
  bounded : hi ≤ 2 ^ 64
  tiles : Tiles lo blocks hi
  linked : Linked (fun a => (load memory a).next) (fun a => (load memory a).prev) 0
    (blocks.map Large.address) 0
  head : large = (blocks.map Large.address).headD 0
  stored : ∀ b ∈ blocks, (load memory b.address).size = b.size
    ∧ ((load memory b.address).free = true ↔ b.use = .free)
  words : ∀ b ∈ blocks, 8 ∣ b.size

def Outside (blocks : List Large) (x : Nat) : Prop :=
  ∀ b ∈ blocks, ¬ (b.address ≤ x ∧ x < b.address + HEADER)

structure Rebased (first : Nat) (blocks : List Large) (memory memory' : Buffer) : Prop where
  head : ∀ c ∈ blocks.head?, load memory' c.address = { load memory c.address with prev := first }
  tail : ∀ c ∈ blocks.tail, load memory' c.address = load memory c.address

namespace Rebased

variable {first : Nat} {blocks : List Large}

variable (h : Rebased first blocks memory memory')
include h

theorem load_eq {c : Large} (hc : c ∈ blocks) :
    (load memory' c.address).size = (load memory c.address).size
    ∧ (load memory' c.address).free = (load memory c.address).free
    ∧ (load memory' c.address).next = (load memory c.address).next := by
  cases blocks with
  | nil => exact absurd hc not_mem_nil
  | cons =>
    rcases mem_cons.mp hc with rfl | hc
    · rw [h.head c rfl]
      exact ⟨rfl, rfl, rfl⟩
    · rw [h.tail c hc]
      exact ⟨rfl, rfl, rfl⟩

theorem next : ∀ a ∈ blocks.map Large.address, (load memory' a).next = (load memory a).next := by
  intro a ha
  obtain ⟨c, hc, rfl⟩ := mem_map.mp ha
  exact (h.load_eq hc).2.2

theorem first_prev : ∀ a ∈ (blocks.map Large.address).head?, (load memory' a).prev = first := by
  intro a ha
  rw [List.head?_map] at ha
  obtain ⟨c, hc, rfl⟩ := Option.mem_map.mp ha
  rw [h.head c hc]

theorem rest_prev :
    ∀ a ∈ (blocks.map Large.address).tail, (load memory' a).prev = (load memory a).prev := by
  intro a ha
  rw [← map_tail] at ha
  obtain ⟨c, hc, rfl⟩ := mem_map.mp ha
  rw [h.tail c hc]

end Rebased

namespace Listed

variable {large lo hi needed : Nat} {blocks front back : List Large} {block : Large}

section
variable (h : Listed memory large lo hi blocks)
include h

theorem bounds (hb : block ∈ blocks) :
    0 < block.address ∧ lo ≤ block.address ∧ block.stop ≤ hi ∧ block.stop ≤ 2 ^ 64 := by
  have hbounds := h.tiles.bounds.2 block hb
  have hpositive := h.positive
  have hhi := h.bounded
  omega

theorem apart {b c : Large} (hb : b ∈ blocks) (hc : c ∈ blocks) (hne : b ≠ c) :
    b.stop ≤ c.address ∨ c.stop ≤ b.address := by
  have hpairwise : blocks.Pairwise fun b c => b.stop ≤ c.address ∨ c.stop ≤ b.address :=
    h.tiles.pairwise.imp .inl
  have : Std.Symm fun b c : Large => b.stop ≤ c.address ∨ c.stop ≤ b.address := ⟨fun _ _ => Or.symm⟩
  exact hpairwise.forall hb hc hne

theorem outside {x : Nat} (hb : block ∈ blocks) (hlo : block.address + HEADER ≤ x)
    (hhi : x < block.stop) : Outside blocks x := by
  intro c hc
  by_cases hsame : c = block
  · rw [hsame]
    omega
  · have hapart := h.apart hc hb hsame
    unfold Large.stop at *
    omega

end

variable (h : Listed memory large lo hi (front ++ block :: back))

section Middle

include h

variable {c : Large}

theorem stop_le_of_front (hc : c ∈ front) : c.stop ≤ block.address := by
  have hpairwise := (pairwise_append.mp h.tiles.pairwise).2.2
  exact hpairwise c hc block mem_cons_self

theorem stop_le_of_back (hc : c ∈ back) : block.stop ≤ c.address := by
  have hpairwise := (pairwise_append.mp h.tiles.pairwise).2.1
  exact (pairwise_cons.mp hpairwise).1 c hc

theorem next_eq : (load memory block.address).next = (back.map Large.address).headD 0 := by
  have hlinked := h.linked
  rw [map_append, map_cons] at hlinked
  exact (Linked.append_iff.mp hlinked).2.2.1

theorem prev_eq : (load memory block.address).prev = (front.map Large.address).getLastD 0 := by
  have hlinked := h.linked
  rw [map_append, map_cons] at hlinked
  exact (Linked.append_iff.mp hlinked).2.1

theorem block_bounds :
    0 < block.address ∧ lo ≤ block.address ∧ block.stop ≤ hi ∧ block.stop ≤ 2 ^ 64 :=
  h.bounds (mem_append_right front mem_cons_self)

theorem back_prev : ∀ c ∈ back.head?, (load memory c.address).prev = block.address := by
  have hlinked := h.linked
  rw [map_append, map_cons] at hlinked
  have hback := (Linked.append_iff.mp hlinked).2.2.2
  cases back with
  | nil =>
    intro c hc
    cases hc
  | cons =>
    intro c hc
    cases hc
    exact hback.1

theorem next_of_head (hc : c ∈ back.head?) :
    (load memory block.address).next = c.address ∧ c.address ≠ 0 := by
  have hpositive :=
    (h.bounds (mem_append_right front (mem_cons_of_mem block (mem_of_mem_head? hc)))).1
  refine ⟨?_, Nat.ne_of_gt hpositive⟩
  rw [h.next_eq]
  cases back with
  | nil => cases hc
  | cons =>
    cases hc
    rfl

theorem clear_next (hc : c ∈ front ∨ c = block ∨ c ∈ back.tail)
    (hnext : (load memory block.address).next ≠ 0) :
    Clear (load memory block.address).next c.address := by
  rw [h.next_eq] at hnext ⊢
  cases back with
  | nil => exact absurd rfl hnext
  | cons d =>
    change Clear d.address c.address
    have hd := h.stop_le_of_back (mem_cons_self (a := d))
    rcases hc with hc | rfl | hc
    · have hstop := h.stop_le_of_front hc
      unfold Large.stop at hd hstop
      exact .inr (by omega)
    · unfold Large.stop at hd
      exact .inr (by omega)
    have hback := (pairwise_append.mp h.tiles.pairwise).2.1
    have hstop := (pairwise_cons.mp (pairwise_cons.mp hback).2).1 c hc
    unfold Large.stop at hstop
    exact .inl (by omega)

theorem exists_of_next (hnext : (load memory block.address).next ≠ 0) :
    ∃ c ∈ back, (load memory block.address).next = c.address := by
  rw [h.next_eq] at hnext ⊢
  cases back with
  | nil => exact absurd rfl hnext
  | cons c => exact ⟨c, mem_cons_self, rfl⟩

theorem not_mem_next {x : Nat} (hx : Outside back x)
    (hnext : (load memory block.address).next ≠ 0) :
    ¬ ((load memory block.address).next ≤ x ∧ x < (load memory block.address).next + HEADER) := by
  obtain ⟨c, hc, hcnext⟩ := h.exists_of_next hnext
  rw [hcnext]
  exact hx c hc

theorem rebased {first : Nat}
    (hafter : (load memory block.address).next ≠ 0 → load memory' (load memory block.address).next
      = { load memory (load memory block.address).next with prev := first })
    (hother : ∀ c ∈ back.tail, load memory' c.address = load memory c.address) :
    Rebased first back memory memory' := by
  refine ⟨fun c hc => ?_, hother⟩
  obtain ⟨hnext, hne⟩ := h.next_of_head hc
  rw [hnext] at hafter
  exact hafter hne

end Middle

theorem congr (h : Listed memory large lo hi blocks)
    (hsame : ∀ b ∈ blocks, load memory' b.address = load memory b.address) :
    Listed memory' large lo hi blocks := by
  constructor
  · exact h.positive
  · exact h.bounded
  · exact h.tiles
  · apply h.linked.congr
    intro a ha
    obtain ⟨c, hc, rfl⟩ := mem_map.mp ha
    rw [hsame c hc]
    exact ⟨rfl, rfl⟩
  · exact h.head
  · intro b hb
    rw [hsame b hb]
    exact h.stored b hb
  · exact h.words

theorem of_outside (h : Listed memory large lo hi blocks)
    (hsame : ∀ x, ¬ Outside blocks x → memory' x = memory x) :
    Listed memory' large lo hi blocks := by
  apply h.congr
  intro b hb
  apply load_congr
  intro x hlo hhi
  exact hsame x fun hx => hx b hb ⟨hlo, hhi⟩

theorem replace {old : Large} {olds : List Large}
    (h : Listed memory large lo hi (front ++ (old :: olds ++ back))) (new : Large)
    (news : List Large) (hfirst : new.address = old.address)
    (hfront : ∀ c ∈ front, load memory' c.address = load memory c.address)
    (hback : Rebased ((news.map Large.address).getLastD new.address) back memory memory')
    (hnew : Linked (fun a => (load memory' a).next) (fun a => (load memory' a).prev)
      ((front.map Large.address).getLastD 0) ((new :: news).map Large.address)
      ((back.map Large.address).headD 0))
    (htiles : ∀ stop, Tiles old.address (old :: olds) stop → Tiles old.address (new :: news) stop)
    (hstored : ∀ c ∈ new :: news, (load memory' c.address).size = c.size
      ∧ ((load memory' c.address).free = true ↔ c.use = .free))
    (hwords : ∀ c ∈ new :: news, 8 ∣ c.size) :
    Listed memory' large lo hi (front ++ (new :: news ++ back)) := by
  have hlinked := h.linked
  rw [map_append, map_append, Linked.append_iff, Linked.append_iff] at hlinked
  obtain ⟨hbefore, _, hafter⟩ := hlinked
  constructor
  · exact h.positive
  · exact h.bounded
  · obtain ⟨mid, hlo, hrest⟩ := Tiles.append_iff.mp h.tiles
    obtain ⟨stop, hold, hhi⟩ := Tiles.append_iff.mp hrest
    have hmid : old.address = mid := hold.1
    rw [← hmid] at hlo hold
    exact Tiles.append_iff.mpr ⟨_, hlo, Tiles.append_iff.mpr ⟨stop, htiles stop hold, hhi⟩⟩
  · rw [map_append, map_append, Linked.append_iff, Linked.append_iff]
    refine ⟨?_, hnew, ?_⟩
    · rw [map_cons, cons_append, headD_cons] at hbefore ⊢
      rw [hfirst]
      refine hbefore.congr fun a ha => ?_
      obtain ⟨c, hc, rfl⟩ := mem_map.mp ha
      rw [hfront c hc]
      exact ⟨rfl, rfl⟩
    · rw [map_cons, getLastD_cons]
      exact hafter.rebase hback.next hback.first_prev hback.rest_prev
  · have hhead := h.head
    cases front with
    | nil => exact hhead.trans hfirst.symm
    | cons => exact hhead
  · intro c hc
    rcases mem_append.mp hc with hc | hc
    · rw [hfront c hc]
      exact h.stored c (mem_append_left _ hc)
    rcases mem_append.mp hc with hc | hc
    · exact hstored c hc
    · obtain ⟨hsize, hfree, _⟩ := hback.load_eq hc
      rw [hsize, hfree]
      exact h.stored c (mem_append_right _ (mem_append_right _ hc))
  · intro c hc
    rcases mem_append.mp hc with hc | hc
    · exact h.words c (mem_append_left _ hc)
    · rcases mem_append.mp hc with hc | hc
      · exact hwords c hc
      · exact h.words c (mem_append_right _ (mem_append_right _ hc))

section

include h

theorem mark (use : Use) : Listed (setFree block.address (use = .free) memory) large lo hi
      (front ++ { block with use := use } :: back) := by
  have hblock : load (setFree block.address (use = .free) memory) block.address
      = { load memory block.address with free := use = .free } := load_setFree _
  have hold := h.stored block (by simp)
  have hrest : ∀ c ∈ back, load (setFree block.address (use = .free) memory) c.address = load memory
      c.address := by
    intro c hc
    have hstop := h.stop_le_of_back hc
    unfold Large.stop at hstop
    exact load_setFree_of_clear (.inl (by omega))
  have hold' : Listed memory large lo hi (front ++ (block :: [] ++ back)) := h
  refine hold'.replace { block with use := use } [] rfl ?_ ⟨?_, ?_⟩ ?_ ?_ ?_ ?_
  · intro c hc
    have hstop := h.stop_le_of_front hc
    unfold Large.stop at hstop
    exact load_setFree_of_clear (.inr (by omega))
  · intro c hc
    rw [hrest c (mem_of_mem_head? hc), ← h.back_prev c hc]
    rfl
  · intro c hc
    exact hrest c (mem_of_mem_tail hc)
  · refine ⟨?_, ?_, trivial⟩
    · change (load _ block.address).prev = _
      rw [hblock]
      exact h.prev_eq
    · change (load _ block.address).next = _
      rw [hblock]
      exact h.next_eq
  · exact fun stop htiles => htiles
  · intro c hc
    rw [mem_singleton.mp hc]
    rw [hblock]
    exact ⟨hold.1, decide_eq_true_iff⟩
  · intro c hc
    rw [mem_singleton.mp hc]
    exact h.words block (by simp)

theorem isSplit (hroom : needed + HEADER ≤ block.size) :
    IsSplit block.address needed memory (splitBlock block.address needed memory) := by
  have hbounds := h.block_bounds
  have hblock : block.stop = block.address + HEADER + block.size := rfl
  refine isSplit_splitBlock ?_ fun hnext => ⟨h.clear_next (.inr (.inl rfl)) hnext, ?_⟩
  · unfold HEADER at *
    omega
  obtain ⟨c, hc, hcnext⟩ := h.exists_of_next hnext
  have hstop := h.stop_le_of_back hc
  rw [hcnext]
  exact .inr (by omega)

theorem split (hsplit : IsSplit block.address needed memory memory')
    (hfits : needed + HEADER ≤ block.size) (hneeded : 8 ∣ needed) :
    Listed memory' large lo hi (front ++ ⟨block.address, needed, block.use⟩
      :: ⟨block.address + HEADER + needed, block.size - needed - HEADER, .free⟩ :: back) := by
  have hold := h.stored block (by simp)
  have hstop : block.stop = block.address + HEADER + block.size := rfl
  have hother : ∀ c : Large, c.stop ≤ block.address ∨ block.stop ≤ c.address →
      c ∈ front ∨ c = block ∨ c ∈ back.tail → load memory' c.address = load memory c.address := by
    intro c hclear hc
    have hcstop : c.stop = c.address + HEADER + c.size := rfl
    refine hsplit.other c.address ?_ ?_ (h.clear_next hc)
    · unfold Clear
      omega
    · unfold Clear
      omega
  have hback : Rebased (block.address + HEADER + needed) back memory memory' := by
    refine h.rebased hsplit.after fun c hc => hother c (.inr ?_) (.inr (.inr hc))
    exact h.stop_le_of_back (mem_of_mem_tail hc)
  have hold' : Listed memory large lo hi (front ++ (block :: [] ++ back)) := h
  refine hold'.replace ⟨block.address, needed, block.use⟩
    [⟨block.address + HEADER + needed, block.size - needed - HEADER, .free⟩] rfl ?_ hback ?_ ?_ ?_
    ?_
  · intro c hc
    exact hother c (.inl (h.stop_le_of_front hc)) (.inl hc)
  · refine ⟨?_, ?_, ?_, ?_, trivial⟩
    · change (load _ block.address).prev = _
      rw [hsplit.front]
      exact h.prev_eq
    · change (load _ block.address).next = _
      rw [hsplit.front]
      rfl
    · change (load _ (block.address + HEADER + needed)).prev = _
      rw [hsplit.back]
    · change (load _ (block.address + HEADER + needed)).next = _
      rw [hsplit.back]
      exact h.next_eq
  · intro stop htiles
    refine ⟨rfl, rfl, ?_⟩
    have hend : block.stop = stop := htiles.2
    rw [← hend]
    change block.address + HEADER + needed + HEADER + (block.size - needed - HEADER) = block.stop
    omega
  · intro c hc
    rcases mem_cons.mp hc with rfl | hc
    · rw [hsplit.front]
      exact ⟨rfl, hold.2⟩
    rw [mem_singleton.mp hc]
    rw [hsplit.back, hold.1]
    exact ⟨rfl, by simp⟩
  · intro c hc
    have hwords := h.words block (by simp)
    rcases mem_cons.mp hc with rfl | hc
    · exact hneeded
    rw [mem_singleton.mp hc]
    change 8 ∣ block.size - needed - HEADER
    unfold HEADER
    omega

end

theorem join {other : Large} (h : Listed memory large lo hi (front ++ block :: other :: back))
    (hjoined : IsJoined block.address other.address memory memory') : Listed memory' large lo hi
      (front ++ ⟨block.address, block.size + (other.size + HEADER), block.use⟩ :: back) := by
  have hold := h.stored block (by simp)
  have hold2 := h.stored other (by simp)
  have hsecond : Listed memory large lo hi ((front ++ [block]) ++ other :: back) := by
    rw [append_assoc]
    exact h
  have hstop : block.stop = block.address + HEADER + block.size := rfl
  have hother : ∀ c : Large, c.stop ≤ block.address ∨ block.stop ≤ c.address →
      c ∈ front ∨ c ∈ back.tail → load memory' c.address = load memory c.address := by
    intro c hclear hc
    have hcstop : c.stop = c.address + HEADER + c.size := rfl
    refine hjoined.other c.address ?_ (hsecond.clear_next ?_)
    · unfold Clear
      omega
    · exact hc.imp (mem_append_left _) .inr
  have hback : Rebased block.address back memory memory' := by
    refine hsecond.rebased hjoined.after fun c hc => hother c (.inr ?_) (.inr hc)
    exact h.stop_le_of_back (mem_cons_of_mem _ (mem_of_mem_tail hc))
  have hold' : Listed memory large lo hi (front ++ (block :: [other] ++ back)) := h
  refine hold'.replace ⟨block.address, block.size + (other.size + HEADER), block.use⟩ [] rfl ?_
    hback ?_ ?_ ?_ ?_
  · intro c hc
    exact hother c (.inl (h.stop_le_of_front hc)) (.inl hc)
  · refine ⟨?_, ?_, trivial⟩
    · change (load _ block.address).prev = _
      rw [hjoined.front]
      exact h.prev_eq
    · change (load _ block.address).next = _
      rw [hjoined.front]
      exact hsecond.next_eq
  · intro stop htiles
    obtain ⟨_, hother, hend⟩ := htiles
    have hend' : other.stop = stop := hend
    refine ⟨rfl, ?_⟩
    change block.address + HEADER + (block.size + (other.size + HEADER)) = stop
    rw [← hend']
    unfold Large.stop at hother ⊢
    omega
  · intro c hc
    rw [mem_singleton.mp hc]
    rw [hjoined.front, hold.1, hold2.1]
    exact ⟨rfl, hold.2⟩
  intro c hc
  rw [mem_singleton.mp hc]
  have hwords := h.words block (by simp)
  have hwords2 := h.words other (by simp)
  change 8 ∣ block.size + (other.size + HEADER)
  unfold HEADER
  omega

end Listed

section Find

def Large.Fits (needed : Nat) (b : Large) : Prop := b.use = .free ∧ needed ≤ b.size

theorem findFit_eq (needed : Nat) {before fuel : Nat} {blocks : List Large}
    (hlinked : Linked (fun a => (load memory a).next) (fun a => (load memory a).prev) before
      (blocks.map Large.address) 0)
    (hstored : ∀ b ∈ blocks, (load memory b.address).size = b.size
      ∧ ((load memory b.address).free = true ↔ b.use = .free))
    (haddress : ∀ b ∈ blocks, b.address ≠ 0) (hfuel : blocks.length < fuel) :
    (findFit memory needed fuel ((blocks.map Large.address).headD 0) = 0 ∧ ∀ b ∈ blocks,
      ¬ b.Fits needed)
    ∨ ∃ front block back, blocks = front ++ block :: back ∧ block.Fits needed
      ∧ findFit memory needed fuel ((blocks.map Large.address).headD 0) = block.address := by
  induction blocks generalizing before fuel with
  | nil =>
    cases fuel with
    | zero => exact absurd hfuel (Nat.not_lt_zero _)
    | succ => exact .inl ⟨rfl, nofun⟩
  | cons b blocks ih =>
    cases fuel with
    | zero => exact absurd hfuel (Nat.not_lt_zero _)
    | succ fuel =>
      obtain ⟨_, hlink, hrest⟩ := hlinked
      have hnext : (load memory b.address).next = (blocks.map Large.address).headD 0 := hlink
      obtain ⟨hsize, hfree⟩ := hstored b mem_cons_self
      have hne := haddress b mem_cons_self
      rw [map_cons, headD_cons, findFit, if_neg hne, hsize]
      by_cases hfits : b.Fits needed
      · rw [if_pos ⟨hfree.mpr hfits.1, hfits.2⟩]
        exact .inr ⟨[], b, blocks, rfl, hfits, rfl⟩
      rw [if_neg fun h => hfits ⟨hfree.mp h.1, h.2⟩, hnext]
      have hlater := ih hrest (fun c hc => hstored c (mem_cons_of_mem b hc))
        (fun c hc => haddress c (mem_cons_of_mem b hc)) (by simpa using hfuel)
      rcases hlater with ⟨hnull, hnone⟩ | ⟨front, block, back, rfl, hblock, hfound⟩
      · refine .inl ⟨hnull, fun c hc => ?_⟩
        rcases mem_cons.mp hc with rfl | hc
        · exact hfits
        · exact hnone c hc
      · exact .inr ⟨b :: front, block, back, rfl, hblock, hfound⟩

end Find

def Settled (blocks : List Large) : Prop :=
  (blocks.map Large.use).IsChain fun u v => ¬ (u = .free ∧ v = .free)

def Large.taken (b : Large) (needed : Nat) (use : Use) : List Large :=
  if HEADER + 16 ≤ b.size - needed then
    [⟨b.address, needed, use⟩, ⟨b.address + HEADER + needed, b.size - needed - HEADER, .free⟩]
  else [⟨b.address, b.size, use⟩]

theorem taken_eq (b : Large) {needed : Nat} (hle : needed ≤ b.size) (use : Use) :
    ∃ size rest, b.taken needed use = ⟨b.address, size, use⟩ :: rest ∧ needed ≤ size ∧ size ≤ b.size
      ∧ ∀ c ∈ rest, c.use = .free := by
  unfold Large.taken
  split
  · refine ⟨needed, _, rfl, Nat.le_refl _, hle, fun c hc => ?_⟩
    rw [mem_singleton.mp hc]
  · exact ⟨b.size, [], rfl, hle, Nat.le_refl _, nofun⟩

theorem settled_taken {front back : List Large} {block : Large}
    (h : Settled (front ++ block :: back)) (hfree : block.use = .free) (needed : Nat) {use : Use}
    (huse : use ≠ .free) : Settled (front ++ (block.taken needed use ++ back)) := by
  unfold Settled at h ⊢
  rw [map_append, map_cons, hfree, isChain_append] at h
  obtain ⟨hfront, hback, _⟩ := h
  rw [map_append, map_append, isChain_append]
  unfold Large.taken
  split
  · refine ⟨hfront, isChain_cons_cons.mpr ⟨fun hboth => huse hboth.1, hback⟩, ?_⟩
    intro u _ v hv
    cases hv
    exact fun hboth => huse hboth.2
  have hrest : ((back.map Large.use).IsChain fun u v => ¬ (u = .free ∧ v = .free)) := hback.tail
  refine ⟨hfront, ?_, ?_⟩
  · refine isChain_cons.mpr ⟨fun v _ => ?_, hrest⟩
    exact fun hboth => huse hboth.1
  · intro u _ v hv
    cases hv
    exact fun hboth => huse hboth.2

section AllocLarge
variable {lo hi size : Nat} {h : Heap} {blocks : List Large}

theorem allocLarge_spec (hlisted : Listed h.memory h.large lo hi blocks) (hasked : 0 < size) :
    h.allocLarge size = (0, h)
    ∨ ∃ front block back needed memory, blocks = front ++ block :: back ∧ block.use = .free
      ∧ size ≤ needed ∧ needed ≤ block.size
      ∧ h.allocLarge size = (block.address + HEADER, { h with memory := memory })
      ∧ (∀ use ≠ .free, Listed memory h.large lo hi (front ++ (block.taken needed use ++ back)))
      ∧ ∀ x, Outside blocks x → ¬ (block.address ≤ x ∧ x < block.stop) → memory x = h.memory x := by
  unfold allocLarge
  split
  · exact .inl rfl
  rename_i hsize
  dsimp only
  obtain ⟨needed, hneeded⟩ : ∃ needed, needed = (size + 7) / 8 * 8 := ⟨_, rfl⟩
  rw [← hneeded]
  have hfuel : blocks.length < 2 ^ 64 := by
    have hlength := hlisted.tiles.length_le
    have hpositive := hlisted.positive
    have hbounded := hlisted.bounded
    unfold HEADER at hlength
    omega
  have hfound := findFit_eq needed hlisted.linked hlisted.stored
    (fun b hb => Nat.ne_of_gt (hlisted.bounds hb).1) hfuel
  rw [← hlisted.head] at hfound
  rcases hfound with ⟨hnull, _⟩ | ⟨front, block, back, rfl, hfits, hcurrent⟩
  · rw [if_pos hnull]
    exact .inl rfl
  right
  obtain ⟨hpositive, hlo, hhi, hstop⟩ := hlisted.block_bounds
  obtain ⟨hfree, hle⟩ := hfits
  have hdvd : 8 ∣ needed := ⟨(size + 7) / 8, by omega⟩
  have hblock : block.stop = block.address + HEADER + block.size := rfl
  have hadd : add block.address HEADER = block.address + HEADER := by
    exact add_of_lt (by omega)
  rw [hcurrent, if_neg (Nat.ne_of_gt hpositive), (hlisted.stored block (by simp)).1, hadd]
  refine ⟨front, block, back, needed, _, rfl, hfree, by omega, hle, rfl, ?_, ?_⟩
  · intro use huse
    have hflag : decide (use = .free) = false := decide_eq_false huse
    unfold Large.taken
    split
    · rename_i hroom
      have hsplit := hlisted.isSplit (by omega : needed + HEADER ≤ block.size)
      have hmarked := (hlisted.split hsplit (by omega) hdvd).mark use
      rw [hflag] at hmarked
      exact hmarked
    · have hmarked := hlisted.mark use
      rw [hflag] at hmarked
      exact hmarked
  · intro x hx hout
    have hback : Outside back x := fun c hc => hx c (by simp [hc])
    rw [setFree_apply (hx block (by simp))]
    split
    · rename_i hroom
      have hsplit := hlisted.isSplit (by omega : needed + HEADER ≤ block.size)
      refine hsplit.bytes x (hx block (by simp)) ?_ (hlisted.not_mem_next hback)
      omega
    · rfl

end AllocLarge

section FreeLarge
variable {lo hi large : Nat} {front back : List Large} {block other : Large}

section Absorb
variable (h : Listed memory large lo hi (front ++ block :: other :: back))
include h

theorem Listed.clear_neighbour : Clear block.address other.address := by
  have hstop := h.stop_le_of_back mem_cons_self
  unfold Large.stop at hstop
  exact .inl (by omega)

theorem Listed.joined_size_lt :
    (load memory block.address).size + ((load memory other.address).size + HEADER) < 2 ^ 64 := by
  have hmem : other ∈ front ++ block :: other :: back := by simp
  have hother := h.bounds hmem
  have hstop := h.stop_le_of_back mem_cons_self
  rw [(h.stored block (by simp)).1, (h.stored other (by simp)).1]
  unfold Large.stop HEADER at *
  omega

theorem Listed.isJoined :
    IsJoined block.address other.address memory (absorb block.address other.address memory) := by
  have hblock := h.block_bounds
  have hsecond : Listed memory large lo hi ((front ++ [block]) ++ other :: back) := by
    rw [append_assoc]
    exact h
  refine isJoined_absorb ?_ (hsecond.clear_next (.inl (by simp))) h.joined_size_lt
  unfold Large.stop HEADER at hblock
  omega

theorem Listed.absorb_bytes {x : Nat} (hx : Outside (front ++ block :: other :: back) x) :
    absorb block.address other.address memory x = memory x := by
  have hsecond : Listed memory large lo hi ((front ++ [block]) ++ other :: back) := by
    rw [append_assoc]
    exact h
  refine h.isJoined.bytes x (hx block (by simp)) (hsecond.not_mem_next fun c hc => ?_)
  exact hx c (by simp [hc])

end Absorb

section
variable (h : Listed memory large lo hi (front ++ block :: back))
include h

theorem mergeNext_spec (hfree : block.use = .free) (hsettled : Settled back) :
    ∃ joined rest, Listed (mergeNext block.address memory) large lo hi (front ++ joined :: rest)
      ∧ joined.address = block.address ∧ joined.use = .free ∧ Settled (joined :: rest)
      ∧ (∀ c, c.use ≠ .free → (c ∈ rest ↔ c ∈ back)) ∧ (∀ c ∈ rest, c ∈ back)
      ∧ ∀ x, Outside (front ++ block :: back) x → mergeNext block.address memory x = memory x := by
  cases back with
  | nil =>
    have hsame : mergeNext block.address memory = memory := by
      unfold mergeNext
      rw [h.next_eq]
      rfl
    rw [hsame]
    exact ⟨block, [], h, rfl, hfree, .singleton _, fun _ _ => Iff.rfl, fun _ hc => hc,
      fun _ _ => rfl⟩
  | cons c back =>
    obtain ⟨hnext, hne⟩ := h.next_of_head (c := c) rfl
    have hstored := h.stored c (by simp)
    by_cases hc : c.use = .free
    · have hmerge : mergeNext block.address memory = absorb block.address c.address memory :=
        mergeNext_eq h.joined_size_lt hnext hne (hstored.2.mpr hc) h.clear_neighbour
      have hjoin := h.join h.isJoined
      rw [← hmerge] at hjoin
      refine ⟨_, back, hjoin, rfl, hfree, ?_, ?_, ?_, ?_⟩
      · unfold Settled at hsettled ⊢
        rw [map_cons, hc] at hsettled
        rw [map_cons, hfree]
        exact hsettled
      · intro d hd
        rw [mem_cons]
        refine ⟨.inr, fun hor => hor.resolve_left ?_⟩
        rintro rfl
        exact hd hc
      · exact fun d hd => mem_cons_of_mem c hd
      · intro x hx
        rw [hmerge]
        exact h.absorb_bytes hx
    · have hsame : mergeNext block.address memory = memory := by
        unfold mergeNext
        rw [hnext]
        exact if_neg fun hjoin => hc (hstored.2.mp hjoin.2)
      rw [hsame]
      refine ⟨block, c :: back, h, rfl, hfree, ?_, fun _ _ => Iff.rfl, fun _ hd => hd,
        fun _ _ => rfl⟩
      exact isChain_cons_cons.mpr ⟨fun hboth => hc hboth.2, hsettled⟩

theorem mergePrev_spec (hfree : block.use = .free) (hfront : Settled front)
    (hback : Settled (block :: back)) :
    ∃ blocks, Listed (mergePrev block.address memory) large lo hi blocks ∧ Settled blocks
      ∧ (∀ c, c.use ≠ .free → (c ∈ blocks ↔ c ∈ front ∨ c ∈ back))
      ∧ ∀ x, Outside (front ++ block :: back) x → mergePrev block.address memory x = memory x := by
  have hused : ∀ c : Large, c.use ≠ .free → c ≠ block := by
    rintro c hc rfl
    exact hc hfree
  rcases eq_nil_or_concat front with rfl | ⟨front, a, rfl⟩
  · have hsame : mergePrev block.address memory = memory := by
      unfold mergePrev
      rw [h.prev_eq]
      rfl
    rw [hsame]
    refine ⟨block :: back, h, hback, fun c hc => ?_, fun _ _ => rfl⟩
    simp [hused c hc]
  have hprev : (load memory block.address).prev = a.address := by
    rw [h.prev_eq]
    simp
  have hstored := h.stored a (by simp)
  have hmem : a ∈ front.concat a ++ block :: back := by simp
  have hne := Nat.ne_of_gt (h.bounds hmem).1
  have hsecond : Listed memory large lo hi (front ++ a :: block :: back) := by
    simpa using h
  unfold Settled at hfront hback
  rw [concat_eq_append, map_append] at hfront
  by_cases ha : a.use = .free
  · have hmerge : mergePrev block.address memory = absorb a.address block.address memory :=
      mergePrev_eq hsecond.joined_size_lt hprev hne (hstored.2.mpr ha) hsecond.clear_neighbour
    have hjoin := hsecond.join hsecond.isJoined
    rw [← hmerge] at hjoin
    refine ⟨_, hjoin, ?_, fun c hc => ?_, fun x hx => ?_⟩
    · unfold Settled
      rw [map_append, map_cons, isChain_split]
      rw [map_cons, hfree] at hback
      exact ⟨hfront, ha ▸ hback⟩
    · have hnew : c ≠ ⟨a.address, a.size + (block.size + HEADER), a.use⟩ := by
        rintro rfl
        exact hc ha
      have hold : c ≠ a := by
        rintro rfl
        exact hc ha
      simp [hnew, hold]
    · rw [hmerge]
      refine hsecond.absorb_bytes ?_
      simpa using hx
  · have hsame : mergePrev block.address memory = memory := by
      unfold mergePrev
      rw [hprev]
      exact if_neg fun hjoin => ha (hstored.2.mp hjoin.2)
    rw [hsame]
    refine ⟨front ++ a :: block :: back, hsecond, ?_, fun c hc => ?_, fun _ _ => rfl⟩
    · unfold Settled
      rw [map_append, map_cons, isChain_split, map_cons, isChain_cons_cons]
      exact ⟨hfront, fun hboth => ha hboth.1, hback⟩
    · simp [hused c hc, or_assoc]

end

/-- **`free_large` makes the block free** and joins it with its neighbours. -/
theorem freeLarge_spec {h : Heap} (hlisted : Listed h.memory h.large lo hi (front ++ block :: back))
    (hsettled : Settled (front ++ block :: back)) (hused : block.use ≠ .free)
    (hsize : 0 < block.size) :
    ∃ memory blocks, h.freeLarge (block.address + HEADER) = { h with memory := memory }
      ∧ Listed memory h.large lo hi blocks ∧ Settled blocks
      ∧ (∀ c, c.use ≠ .free → (c ∈ blocks ↔ c ∈ front ∨ c ∈ back))
      ∧ ∀ x, Outside (front ++ block :: back) x → memory x = h.memory x := by
  have hbounds := hlisted.block_bounds
  have hblock : sub (block.address + HEADER) HEADER = block.address := by
    unfold Large.stop at hbounds
    rw [sub_of_le (by omega) (by omega), Nat.add_sub_cancel]
  have hunfree : ¬ (load h.memory block.address).free = true := by
    rw [(hlisted.stored block (by simp)).2]
    exact hused
  have hfrontSettled : Settled front := by
    unfold Settled at hsettled ⊢
    rw [map_append] at hsettled
    exact hsettled.left_of_append
  have hbackSettled : Settled back := by
    unfold Settled at hsettled ⊢
    rw [map_append, map_cons] at hsettled
    exact hsettled.right_of_append.tail
  have hmarked := hlisted.mark .free
  obtain ⟨joined, rest, hnext, haddress, hfree, hrest, hsame, hsub, hbytes⟩ :=
    mergeNext_spec hmarked rfl hbackSettled
  obtain ⟨blocks, hprev, hblocks, hsame', hbytes'⟩ := mergePrev_spec hnext hfree hfrontSettled hrest
  refine ⟨_, blocks, ?_, hprev, hblocks, ?_, ?_⟩
  · unfold freeLarge
    rw [if_neg (by unfold HEADER; omega)]
    rw [hblock, if_neg hunfree, haddress]
    rfl
  · intro c hc
    rw [hsame' c hc, hsame c hc]
  intro x hx
  have hmid : Outside (front ++ joined :: rest) x := by
    intro c hc
    rcases mem_append.mp hc with hc | hc
    · exact hx c (mem_append_left _ hc)
    rcases mem_cons.mp hc with rfl | hc
    · rw [haddress]
      exact hx block (by simp)
    · exact hx c (by simp [hsub c hc])
  rw [hbytes' x hmid]
  refine (hbytes x ?_).trans (setFree_apply (hx block (by simp)))
  intro c hc
  rcases mem_append.mp hc with hc | hc
  · exact hx c (mem_append_left _ hc)
  · rcases mem_cons.mp hc with rfl | hc
    · exact hx block (by simp)
    · exact hx c (by simp [hc])

end FreeLarge

end Kaguya.Heap
