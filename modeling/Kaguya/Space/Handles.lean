import Kaguya.Lib.Handles
import Kaguya.Space.Operations

/-!
# Address spaces and their handles

`space.jh`: an address space is shared by its clones and destroyed by the last of them. A call
through a handle leaves the space live, destroys it, or panics; in each case the frames are
accounted for.
-/

namespace Kaguya.Space

open Paging List Machine

def HEAP_START : Nat := 0x700000000000
def STACK_TOP : Nat := 0x7fffffff0000

/-- What the clones of an address space share. The lock makes each call one step. -/
structure Shared where
  references : Nat
  root : Nat
  heapEnd : Nat
  deriving DecidableEq

namespace Shared

/-- `AddressSpace.new`; `granted` tells whether the heap has room for the shared part. -/
def new (kernel : Nat) (granted : Bool) (m : Machine) : Option Shared × Machine :=
  let call := spaceCreate kernel m
  let root := call.1
  if root = 0 then (none, call.2)
  else if granted then (some ⟨1, root, HEAP_START⟩, call.2)
  else (none, spaceDestroy root call.2)

def pageFlags (writable executable : Bool) : Nat :=
  let flags := 5
  let flags := if writable then flags ||| 2 else flags
  if executable then flags else flags ||| 0x8000000000000000

variable (shared : Shared)

def mapPage (address : Nat) (writable executable : Bool) (m : Machine) :
    Nat × Machine :=
  if address < USER_START ∨ address ≥ USER_END ∨ address &&& 4095 ≠ 0 then (0, m)
  else spaceMap shared.root address (pageFlags writable executable) m

/-- `grow`, with no result for a panic. -/
def grow (bytes : Nat) (m : Machine) : Option (Nat × Shared) × Machine :=
  let old := shared.heapEnd
  let call := spaceGrow shared.root old bytes m
  (call.1.map fun limit =>
    if limit ≠ 0 then (old, { shared with heapEnd := limit }) else (0, shared), call.2)

/-- `clone`, with no result for a panic. -/
def clone : Option Shared :=
  if shared.references ≥ 0x7fffffffffffffff then none
  else some { shared with references := addOne shared.references }

/-- `drop`, with no result when the space is destroyed. -/
def drop (m : Machine) : Option Shared × Machine :=
  if shared.references = 1 then (none, spaceDestroy shared.root m)
  else (some { shared with references := subOne shared.references }, m)

end Shared

inductive Call where
  | mapPage (address : Nat) (writable executable : Bool)
  | grow (bytes : Nat)
  | clone
  | drop

inductive Outcome where
  | live (shared : Shared)
  | gone
  | panicked
  deriving DecidableEq

structure Return where
  outcome : Outcome
  value : Nat
  machine : Machine

namespace Shared

def call (shared : Shared) (m : Machine) : Call → Return
  | .mapPage address writable executable =>
    let mapped := shared.mapPage address writable executable m
    ⟨.live shared, mapped.1, mapped.2⟩
  | .grow bytes =>
    let grown := shared.grow bytes m
    ⟨grown.1.elim .panicked fun result => .live result.2, grown.1.elim 0 Prod.fst, grown.2⟩
  | .clone => ⟨shared.clone.elim .panicked .live, 0, m⟩
  | .drop =>
    let dropped := shared.drop m
    ⟨dropped.1.elim .gone .live, 0, dropped.2⟩

def taken (shared : Shared) (m : Machine) : Call → List Nat
  | .mapPage _ _ _ => [m.alloc.1]
  | .grow bytes => growStaging shared.root shared.heapEnd bytes m
  | .clone => []
  | .drop => []

end Shared

variable {m m' : Machine} {root frame kernel : Nat} {others start : List Nat} {shared : Shared}

def emptyMachine : Machine :=
  { memory := Buffer.zeroed, inUse := [], supply := fun n => 4096 * (n + 1), links := fun _ => 0,
    calls := 0, allocated := [], freed := [] }

theorem Holds.pool (h : Holds m root others start) : Pool m start := ⟨h.nodup, h.usable, h.ledger⟩

theorem pool_freeAll {frames rest : List Nat} (h : Pool m start)
    (hsplit : m.inUse.Perm (frames ++ rest)) :
    Pool (freeAll frames m) start ∧ (freeAll frames m).inUse.Perm rest
      ∧ ∀ x ∈ rest, Machine.SameFrame m (freeAll frames m) x := by
  have hleft := inUse_freeAll hsplit
  have hnodup := hsplit.nodup_iff.mp h.nodup
  obtain ⟨-, hrest, hapart⟩ := nodup_append.mp hnodup
  have husable : ∀ x ∈ frames ++ rest, Usable x := fun x hx => h.usable x (hsplit.mem_iff.mpr hx)
  refine ⟨⟨hleft.nodup_iff.mpr hrest, ?_, ?_⟩, hleft, ?_⟩
  · intro x hx
    exact husable x (mem_append_right _ (hleft.mem_iff.mp hx))
  · rw [freed_freeAll, allocated_freeAll]
    calc Perm (frames.reverse ++ m.freed ++ (Space.freeAll frames m).inUse)
          (frames ++ m.freed ++ rest) := ((reverse_perm frames).append_right m.freed).append hleft
      _ = frames ++ (m.freed ++ rest) := append_assoc _ _ _
      Perm _ (m.freed ++ (frames ++ rest)) := perm_append_comm_assoc _ _ _
      Perm _ (m.freed ++ m.inUse) := hsplit.symm.append_left _
      Perm _ (m.allocated ++ start) := h.ledger
  · intro x hx
    exact sameFrame_freeAll (fun y hy => husable y (mem_append_left _ hy))
      (husable x (mem_append_right _ hx)) fun hmem => hapart x hmem x hx rfl

def copySlot (kernel root : Nat) (m : Machine) (i : Nat) : Machine :=
  if i < 128 ∨ i ≥ 256 then m.setEntry root i (m.entry kernel i) else m

structure Copied (m m' : Machine) (root : Nat) (indices : List Nat) : Prop where
  inUse : m'.inUse = m.inUse
  allocated : m'.allocated = m.allocated
  freed : m'.freed = m.freed
  frames : ∀ x, Usable x → x ≠ root → Machine.SameFrame m m' x
  slots : ∀ j, j ∉ indices ∨ j ∈ userSlots → m'.entry root j = m.entry root j

variable {i : Nat} {indices : List Nat}

theorem copySlot_copied (hroot : Usable root) (hi : i < 512) :
    Copied m (copySlot kernel root m i) root [i] := by
  rw [copySlot]
  split
  next hkernel =>
    refine ⟨rfl, rfl, rfl, fun x hx hne => sameFrame_setEntry hx hroot hi hne, ?_⟩
    intro j hj
    rw [mem_singleton, mem_userSlots] at hj
    exact entry_setEntry_of_ne (by omega)
  next => exact ⟨rfl, rfl, rfl, fun _ _ _ => Machine.SameFrame.refl, fun _ _ => rfl⟩

theorem copySlots_copied (hroot : Usable root) (hbound : ∀ i ∈ indices, i < 512) :
    Copied m (indices.foldl (copySlot kernel root) m) root indices := by
  induction indices generalizing m with
  | nil => exact ⟨rfl, rfl, rfl, fun _ _ _ => Machine.SameFrame.refl, fun _ _ => rfl⟩
  | cons i indices ih =>
    have hstep : Copied m (copySlot kernel root m i) root [i] :=
      copySlot_copied hroot (hbound i mem_cons_self)
    have hrest : Copied (copySlot kernel root m i)
        (indices.foldl (copySlot kernel root) (copySlot kernel root m i)) root indices :=
      ih fun j hj => hbound j (mem_cons_of_mem _ hj)
    rw [foldl_cons]
    refine ⟨hrest.inUse.trans hstep.inUse, hrest.allocated.trans hstep.allocated,
      hrest.freed.trans hstep.freed, fun x hx hne =>
      (hstep.frames x hx hne).trans (hrest.frames x hx hne), ?_⟩
    intro j hj
    rw [mem_cons, not_or] at hj
    rw [hrest.slots j (hj.imp_left And.right), hstep.slots j]
    rw [mem_singleton]
    exact hj.imp_left And.left

theorem copySlots_slots (hnodup : indices.Nodup) (hbound : ∀ i ∈ indices, i < 512)
    (hroot : Usable root) (hkernel : Usable kernel) (hne : kernel ≠ root) (hi : i ∈ indices)
    (hslot : i ∉ userSlots) :
    (indices.foldl (copySlot kernel root) m).entry root i = m.entry kernel i := by
  induction indices generalizing m with
  | nil => cases hi
  | cons j indices ih =>
    obtain ⟨hout, hrest⟩ := nodup_cons.mp hnodup
    have hbound' : ∀ i ∈ indices, i < 512 := fun i hi => hbound i (mem_cons_of_mem _ hi)
    rw [foldl_cons]
    by_cases hsame : i = j
    · subst hsame
      have hcopy : copySlot kernel root m i = m.setEntry root i (m.entry kernel i) := by
        rw [mem_userSlots] at hslot
        exact if_pos (by omega)
      have hlt : m.entry kernel i < 2 ^ 64 := Buffer.get_lt _ _ _
      rw [(copySlots_copied hroot hbound').slots i (.inl hout), hcopy, entry_setEntry_self hlt]
    · have hstep : Copied m (copySlot kernel root m j) root [j] :=
        copySlot_copied hroot (hbound j mem_cons_self)
      have hlater : i ∈ indices := (mem_cons.mp hi).resolve_left hsame
      rw [ih hrest hbound' hlater]
      exact (hstep.frames kernel hkernel hne).entry (hbound i hi)

theorem spaceCreate_spec (kernel : Nat) (h : Pool m start) :
    (spaceCreate kernel m).1 = 0 ∧ (spaceCreate kernel m).2 = { m with calls := m.calls + 1 }
      ∨ Holds (spaceCreate kernel m).2 (spaceCreate kernel m).1 m.inUse start
        ∧ tree (spaceCreate kernel m).2 (spaceCreate kernel m).1 = []
        ∧ (∀ x ∈ m.inUse, Machine.SameFrame m (spaceCreate kernel m).2 x)
        ∧ (spaceCreate kernel m).2.freed = m.freed
        ∧ (kernel ∈ m.inUse → ∀ i < 512, i ∉ userSlots →
          (spaceCreate kernel m).2.entry (spaceCreate kernel m).1 i = m.entry kernel i) := by
  cases alloc_cases (m := m) with
  | inl hfailed =>
    left
    simp only [spaceCreate, hfailed.1, if_true]
    exact ⟨trivial, hfailed.2⟩
  | inr hgiven =>
    right
    obtain ⟨husable, hfree, hstate⟩ := hgiven
    have hcreate : spaceCreate kernel m = (m.alloc.1, (range 512).foldl (copySlot kernel m.alloc.1)
        m.alloc.2) := by
      simp only [spaceCreate, husable.ne_zero, if_false]
      rfl
    rw [hcreate]
    have hbound : ∀ i ∈ range 512, i < 512 := fun i hi => mem_range.mp hi
    have hcopied : Copied m.alloc.2 ((range 512).foldl (copySlot kernel m.alloc.1) m.alloc.2)
        m.alloc.1 (range 512) := copySlots_copied husable hbound
    generalize hm' : (range 512).foldl (copySlot kernel m.alloc.1) m.alloc.2 = m' at hcopied ⊢
    have hinUse : m'.inUse = m.alloc.1 :: m.inUse := by rw [hcopied.inUse, hstate]
    have hused : ∀ x ∈ m.inUse, x ≠ m.alloc.1 := fun x hx heq => hfree (heq ▸ hx)
    have htree : tree m' m.alloc.1 = [] := by
      rw [tree, Trie.span, flatMap_eq_nil_iff]
      intro i hi
      have hzero : m'.entry m.alloc.1 i = 0 := by
        rw [hcopied.slots i (.inr hi), hstate]
        rw [mem_userSlots] at hi
        exact entry_memFill (by omega)
      rw [hzero]
      rfl
    have hsame : ∀ x ∈ m.inUse, Machine.SameFrame m m' x := fun x hx =>
      (sameFrame_alloc hx (h.usable x hx)).trans
        (hcopied.frames x (h.usable x hx) (hused x hx))
    refine ⟨?_, htree, hsame, hcopied.freed.trans freed_alloc, ?_⟩
    · constructor
      case nodup =>
        rw [hinUse]
        exact nodup_cons.mpr ⟨hfree, h.nodup⟩
      case usable =>
        intro x hx
        rw [hinUse, mem_cons] at hx
        exact hx.elim (fun heq => heq ▸ husable) (h.usable x)
      case account =>
        rw [hinUse, htree]
        exact Perm.refl _
      case ledger =>
        rw [hinUse, hcopied.freed, hcopied.allocated, hstate]
        exact perm_middle.trans (h.ledger.cons _)
    · intro hkernel i hi hslot
      rw [← hm', copySlots_slots nodup_range hbound husable (h.usable kernel hkernel)
        (hused kernel hkernel) (mem_range.mpr hi) hslot]
      exact (sameFrame_alloc hkernel (h.usable kernel hkernel)).entry hi

theorem spaceDestroy_spec (h : Holds m root others start) :
    Pool (spaceDestroy root m) start ∧ (spaceDestroy root m).inUse.Perm others
      ∧ ∀ x ∈ others, Machine.SameFrame m (spaceDestroy root m) x := by
  rw [spaceDestroy_eq h]
  apply pool_freeAll h.pool
  exact h.account.trans ((perm_append_singleton root (tree m root)).symm.append_right others)

theorem new_spec (kernel : Nat) (granted : Bool) (h : Pool m start) :
    (∀ shared, (Shared.new kernel granted m).1 = some shared → Holds (Shared.new kernel granted m).2
        shared.root m.inUse start
        ∧ (∀ x ∈ m.inUse, Machine.SameFrame m (Shared.new kernel granted m).2 x)
        ∧ (Shared.new kernel granted m).2.freed = m.freed
          ∧ (kernel ∈ m.inUse → ∀ i < 512, i ∉ userSlots →
          (Shared.new kernel granted m).2.entry shared.root i = m.entry kernel i))
      ∧ ((Shared.new kernel granted m).1 = none → Pool (Shared.new kernel granted m).2 start
          ∧ (Shared.new kernel granted m).2.inUse.Perm m.inUse
          ∧ ∀ x ∈ m.inUse, Machine.SameFrame m (Shared.new kernel granted m).2 x) := by
  cases spaceCreate_spec kernel h with
  | inl hfailed =>
    simp only [Shared.new, hfailed.1, if_true]
    refine ⟨fun _ hsome => (nomatch hsome), fun _ => ?_⟩
    rw [hfailed.2]
    exact ⟨⟨h.nodup, h.usable, h.ledger⟩, Perm.refl _, fun _ _ => Machine.SameFrame.refl⟩
  | inr hcreated =>
    obtain ⟨hholds, -, hsame, hfreed, hslots⟩ := hcreated
    simp only [Shared.new, hholds.root_usable.ne_zero, if_false]
    cases granted with
    | true =>
      refine ⟨?_, fun hnone => (nomatch hnone)⟩
      intro shared hshared
      cases hshared
      exact ⟨hholds, hsame, hfreed, hslots⟩
    | false =>
      refine ⟨fun _ hsome => (nomatch hsome), fun _ => ?_⟩
      obtain ⟨hpool, hleft, hkept⟩ := spaceDestroy_spec hholds
      exact ⟨hpool, hleft, fun x hx => (hsame x hx).trans (hkept x hx)⟩

theorem pageFlags_flags (writable executable : Bool) :
    PageFlags (Shared.pageFlags writable executable) := by
  cases writable <;> cases executable <;> exact ⟨by decide, by decide, by decide⟩

def Outcome.Accounted (m m' : Machine) (root : Nat) (others start : List Nat) : Outcome → Prop
  | .live shared => shared.root = root ∧ Holds m' root others start ∧ Kept m m' root others
  | .gone => Pool m' start ∧ m'.inUse.Perm others ∧ ∀ x ∈ others, Machine.SameFrame m m' x
  | .panicked => ∃ rest, Holds m' root (rest ++ others) start ∧ Kept m m' root others

theorem call_accounted (call : Call) (h : Holds m shared.root others start) :
    (shared.call m call).outcome.Accounted m (shared.call m call).machine shared.root others
      start := by
  cases call with
  | mapPage address writable executable =>
    refine ⟨rfl, ?_⟩
    simp only [Shared.call, Shared.mapPage]
    split
    · exact ⟨h, Kept.refl⟩
    · obtain ⟨hholds, hkept, -⟩ := spaceMap_spec address (pageFlags_flags writable executable) h
      exact ⟨hholds, hkept⟩
  | grow bytes =>
    obtain ⟨rest, hholds, hkept, hnone, -⟩ := spaceGrow_spec shared.heapEnd bytes h
    simp only [Shared.call, Shared.grow]
    cases hgrown : (spaceGrow shared.root shared.heapEnd bytes m).1 with
    | none => exact ⟨rest, hholds, hkept⟩
    | some =>
      rw [hnone (by rw [hgrown]; exact Option.some_ne_none _)] at hholds
      refine ⟨?_, hholds, hkept⟩
      dsimp only [Option.map, Option.elim]
      split <;> rfl
  | clone =>
    simp only [Shared.call, Shared.clone]
    split
    · exact ⟨[], h, Kept.refl⟩
    · exact ⟨rfl, h, Kept.refl⟩
  | drop =>
    simp only [Shared.call, Shared.drop]
    split
    · exact spaceDestroy_spec h
    · exact ⟨rfl, h, Kept.refl⟩

/-- While a clone remains, a call gives frames back only when it fails, and then those it has taken
for data. -/
theorem call_freed (call : Call) (h : Holds m shared.root others start)
    (hlive : (shared.call m call).outcome ≠ .gone) :
    (shared.call m call).machine.freed = m.freed ∨ (shared.call m call).value = 0
        ∧ (shared.call m call).machine.freed = (shared.taken m call).reverse ++ m.freed := by
  cases call with
  | mapPage address writable executable =>
    simp only [Shared.call, Shared.mapPage]
    split
    · exact .inl rfl
    · obtain ⟨-, -, hfreed, -⟩ := spaceMap_spec address (pageFlags_flags writable executable) h
      exact hfreed.imp_right fun hfailed => ⟨hfailed.1, hfailed.2.2⟩
  | grow bytes =>
    obtain ⟨-, -, -, -, hfreed⟩ := spaceGrow_spec shared.heapEnd bytes h
    apply hfreed.imp_right
    intro hfailed
    refine ⟨?_, hfailed.2⟩
    simp only [Shared.call, Shared.grow, hfailed.1]
    rfl
  | clone => exact .inl rfl
  | drop =>
    simp only [Shared.call, Shared.drop] at hlive ⊢
    split
    next hlast =>
      rw [if_pos hlast] at hlive
      exact absurd rfl hlive
    next => exact .inl rfl

end Kaguya.Space
