import Kaguya.Paging.Guarded
import Kaguya.Space.Handles

/-!
# Address spaces side by side

Any number of address spaces share the pool of frames and the kernel's tables. Spaces are created,
called through their handles and dropped in any order, and the kernel adds mappings of its own in
between. The frames in use are split into those of each space and those reserved for everything
else.
-/

namespace Kaguya.Space

open Paging List

structure World where
  machine : Machine
  kernel : Nat
  spaces : List (Nat × Shared)
  next : Nat
  panicked : Bool

inductive Action where
  | new (granted : Bool)
  | call (id : Nat) (call : Call)
  | mmio (base bytes : Nat)
  | firmware (base bytes : Nat)
  | ramDisk (page : Nat)

def Action.kernel : Action → Bool
  | .mmio _ _ => true
  | .firmware _ _ => true
  | .ramDisk _ => true
  | _ => false

namespace World

def settle (w : World) (id : Nat) (shared : Shared) (result : Return) : World :=
  match result.outcome with
  | .live later =>
    { w with
      machine := result.machine
      spaces := (id, later) :: w.spaces.erase (id, shared) }
  | .gone =>
    { w with
      machine := result.machine
      spaces := w.spaces.erase (id, shared) }
  | .panicked =>
    { w with
      machine := result.machine
      panicked := true }

def accept (w : World) (created : Option Shared × Machine) : World :=
  match created.1 with
  | some shared =>
    { w with
      machine := created.2
      spaces := (w.next, shared) :: w.spaces
      next := w.next + 1 }
  | none => { w with machine := created.2 }

def step (w : World) (action : Action) : World :=
  if w.panicked then w
  else match action with
    | .new granted => w.accept (Shared.new w.kernel granted w.machine)
    | .call id call =>
      match w.spaces.lookup id with
      | some shared => w.settle id shared (shared.call w.machine call)
      | none => w
    | .mmio base bytes => { w with machine := (mapMmio w.kernel base bytes w.machine).2 }
    | .firmware base bytes => { w with machine := (firmwareRange w.kernel base bytes w.machine).2 }
    | .ramDisk page => { w with machine := (mapRamDisk w.kernel page w.machine).2 }

def run (w : World) (actions : List Action) : World := actions.foldl step w

end World

def frames (m : Machine) (shared : Shared) : List Nat := shared.root :: tree m shared.root

def allFrames (m : Machine) (spaces : List (Nat × Shared)) : List Nat :=
  spaces.flatMap fun entry => frames m entry.2

structure Sound (w : World) (reserved start : List Nat) : Prop where
  pool : Pool w.machine start
  account : w.machine.inUse.Perm (reserved ++ allFrames w.machine w.spaces)
  slots : ∀ entry ∈ w.spaces, ∀ i < 512, i ∉ userSlots →
    w.machine.entry entry.2.root i = w.machine.entry w.kernel i
  kernel : ∀ x ∈ tables w.machine w.kernel, x ∈ reserved

variable {w : World} {m m' : Machine} {reserved start : List Nat} {spaces : List (Nat × Shared)}
  {id : Nat} {shared : Shared} {entry : Nat × Shared}

theorem mem_allFrames {x : Nat} (hentry : entry ∈ spaces) (hx : x ∈ frames m entry.2) :
    x ∈ allFrames m spaces := mem_flatMap.mpr ⟨entry, hentry, hx⟩

theorem allFrames_perm (hentry : (id, shared) ∈ spaces) :
    (allFrames m spaces).Perm (frames m shared ++ allFrames m (spaces.erase (id, shared))) := by
  have hperm := (perm_cons_erase hentry).flatMap_right fun entry => frames m entry.2
  exact hperm

theorem allFrames_congr (h : ∀ x ∈ allFrames m spaces, Machine.SameFrame m m' x) :
    allFrames m' spaces = allFrames m spaces := by
  apply flatMap_congr
  intro entry hentry
  rw [frames, frames, tree_of_sameFrame fun x hx => h x (mem_allFrames hentry hx)]

theorem tables_congr {kernel : Nat}
    (h : ∀ x ∈ tables m kernel, Machine.SameFrame m m' x) : tables m' kernel = tables m kernel :=
  Trie.subtree_congr_all fun x hx _ hi => (h x hx).entry hi

namespace Sound

variable (h : Sound w reserved start)
include h

theorem nodup :
    (reserved ++ allFrames w.machine w.spaces).Nodup := h.account.nodup_iff.mp h.pool.nodup

theorem root_reserved : w.kernel ∈ reserved := h.kernel _ Trie.mem_subtree_self

theorem inUse_of_reserved {x : Nat} (hx : x ∈ reserved) :
    x ∈ w.machine.inUse := h.account.mem_iff.mpr (mem_append_left _ hx)

theorem holds (hentry : (id, shared) ∈ w.spaces) :
    Holds w.machine shared.root (reserved ++ allFrames w.machine (w.spaces.erase (id, shared)))
      start := by
  refine ⟨h.pool.nodup, h.pool.usable, ?_, h.pool.ledger⟩
  exact (h.account.trans ((allFrames_perm hentry).append_left reserved)).trans
    (perm_append_comm_assoc _ _ _)

theorem unchanged (hsome : ∀ entry ∈ spaces, entry ∈ w.spaces)
    (hsame : ∀ x ∈ reserved ++ allFrames w.machine spaces, Machine.SameFrame w.machine m' x) :
    allFrames m' spaces = allFrames w.machine spaces ∧ tables m' w.kernel = tables w.machine
      w.kernel
      ∧ (∀ i < 512, m'.entry w.kernel i = w.machine.entry w.kernel i)
      ∧ ∀ entry ∈ spaces, ∀ i < 512, i ∉ userSlots → m'.entry entry.2.root i = m'.entry w.kernel
        i := by
  have hkernel : ∀ i < 512, m'.entry w.kernel i = w.machine.entry w.kernel i :=
    fun i hi => (hsame _ (mem_append_left _ h.root_reserved)).entry hi
  refine ⟨allFrames_congr fun x hx => hsame x (mem_append_right _ hx),
    tables_congr fun x hx => hsame x (mem_append_left _ (h.kernel x hx)), hkernel, ?_⟩
  intro entry hentry i hi hslot
  have hroot : entry.2.root ∈ allFrames w.machine spaces := mem_allFrames hentry mem_cons_self
  rw [(hsame _ (mem_append_right _ hroot)).entry hi, hkernel i hi]
  exact h.slots entry (hsome entry hentry) i hi hslot

end Sound

theorem settle_sound (call : Call) (h : Sound w reserved start) (hentry : (id, shared) ∈ w.spaces) :
    (∃ more, Sound (w.settle id shared (shared.call w.machine call)) (more ++ reserved) start)
      ∧ (∀ x ∈ reserved ++ allFrames w.machine (w.spaces.erase (id, shared)),
        Machine.SameFrame w.machine (shared.call w.machine call).machine x)
      ∧ ∀ entry ∈ w.spaces.erase (id, shared),
        entry ∈ (w.settle id shared (shared.call w.machine call)).spaces := by
  have hheld := h.holds hentry
  have haccounted := call_accounted call hheld
  have hsome : ∀ entry ∈ w.spaces.erase (id, shared), entry ∈ w.spaces := fun entry hmem =>
    mem_of_mem_erase hmem
  generalize shared.call w.machine call = result at haccounted ⊢
  rw [World.settle]
  cases houtcome : result.outcome with
  | live =>
    rw [houtcome] at haccounted
    obtain ⟨hroot, hholds, hkept⟩ := haccounted
    obtain ⟨hframes, htables, hkernel, hslots⟩ := h.unchanged hsome hkept.frames
    refine ⟨⟨[], hholds.pool, ?_, ?_, ?_⟩, hkept.frames, fun entry => mem_cons_of_mem _⟩
    · rw [allFrames, flatMap_cons, ← allFrames, hframes, frames, hroot]
      exact hholds.account.trans (perm_append_comm_assoc _ _ _)
    · intro entry hmem i hi hslot
      cases mem_cons.mp hmem with
      | inl heq =>
        rw [heq, hroot]
        rw [hkept.slots i hi hslot, hkernel i hi]
        exact h.slots _ hentry i hi hslot
      | inr hother => exact hslots entry hother i hi hslot
    · rw [htables]
      exact h.kernel
  | gone =>
    rw [houtcome] at haccounted
    obtain ⟨hpool, hinUse, hsame⟩ := haccounted
    obtain ⟨hframes, htables, hkernel, hslots⟩ := h.unchanged hsome hsame
    refine ⟨⟨[], hpool, ?_, hslots, ?_⟩, hsame, fun entry hmem => hmem⟩
    · rw [hframes]
      exact hinUse
    · rw [htables]
      exact h.kernel
  | panicked =>
    rw [houtcome] at haccounted
    obtain ⟨rest, hholds, hkept⟩ := haccounted
    obtain ⟨hframes, htables, hkernel, hslots⟩ := h.unchanged hsome hkept.frames
    refine ⟨⟨rest, hholds.pool, ?_, ?_, ?_⟩, hkept.frames, hsome⟩
    · have hsplit := allFrames_perm (m := result.machine) hentry
      rw [hframes] at hsplit
      calc result.machine.inUse
        Perm _ (frames result.machine shared
        ++ (rest ++ (reserved ++ allFrames w.machine (w.spaces.erase (id, shared))))) :=
          hholds.account
        _ = frames result.machine shared ++ ((rest ++ reserved) ++ allFrames w.machine
        (w.spaces.erase (id, shared))) := by
          rw [append_assoc]
        Perm _ ((rest ++ reserved) ++ (frames result.machine shared ++ allFrames w.machine
        (w.spaces.erase (id, shared)))) :=
          perm_append_comm_assoc _ _ _
        Perm _ ((rest ++ reserved) ++ allFrames result.machine w.spaces) :=
        hsplit.symm.append_left _
    · intro entry hmem i hi hslot
      by_cases heq : entry = (id, shared)
      · rw [heq]
        rw [hkept.slots i hi hslot, hkernel i hi]
        exact h.slots _ hentry i hi hslot
      · exact hslots entry ((mem_erase_of_ne heq).mpr hmem) i hi hslot
    · rw [htables]
      exact fun x hx => mem_append_right _ (h.kernel x hx)

theorem accept_sound (granted : Bool) (h : Sound w reserved start) :
    Sound (w.accept (Shared.new w.kernel granted w.machine)) reserved start
        ∧ (∀ x ∈ w.machine.inUse,
        Machine.SameFrame w.machine (Shared.new w.kernel granted w.machine).2 x)
      ∧ ∀ entry ∈ w.spaces, entry ∈ (w.accept (Shared.new w.kernel granted w.machine)).spaces := by
  obtain ⟨hsome, hnone⟩ := new_spec w.kernel granted h.pool
  have hused : ∀ x ∈ reserved ++ allFrames w.machine w.spaces, x ∈ w.machine.inUse := fun x hx =>
    h.account.mem_iff.mpr hx
  have hkernelUsed : w.kernel ∈ w.machine.inUse := h.inUse_of_reserved h.root_reserved
  generalize Shared.new w.kernel granted w.machine = created at hsome hnone ⊢
  rw [World.accept]
  cases hcreated : created.1 with
  | none =>
    obtain ⟨hpool, hinUse, hsame⟩ := hnone hcreated
    obtain ⟨hframes, htables, hkernel, hslots⟩ := h.unchanged (fun _ hentry => hentry) fun x hx =>
      hsame x (hused x hx)
    refine ⟨⟨hpool, ?_, hslots, ?_⟩, hsame, fun _ hentry => hentry⟩
    · rw [hframes]
      exact hinUse.trans h.account
    · rw [htables]
      exact h.kernel
  | some shared =>
    obtain ⟨hholds, hsame, -, hcopied⟩ := hsome shared hcreated
    obtain ⟨hframes, htables, hkernel, hslots⟩ := h.unchanged (fun _ hentry => hentry) fun x hx =>
      hsame x (hused x hx)
    refine ⟨⟨hholds.pool, ?_, ?_, ?_⟩, hsame, fun entry => mem_cons_of_mem _⟩
    · rw [allFrames, flatMap_cons, ← allFrames, hframes]
      exact (hholds.account.trans (h.account.append_left _)).trans (perm_append_comm_assoc _ _ _)
    · intro entry hmem i hi hslot
      cases mem_cons.mp hmem with
      | inl heq =>
        rw [heq]
        rw [hcopied hkernelUsed i hi hslot, hkernel i hi]
      | inr hother => exact hslots entry hother i hi hslot
    · rw [htables]
      exact h.kernel

/-- A mapping of the kernel's adds to what is reserved, as long as it does not change the slots that
the live spaces have copied. -/
theorem maps_sound (h : Sound w reserved start) (hmaps : Maps w.machine m' w.kernel start)
    (hsteady : w.spaces = [] ∨ ∀ i < 512, i ∉ userSlots → m'.entry w.kernel i = w.machine.entry
      w.kernel i) : ∃ more, Sound { w with machine := m' } (more ++ reserved) start := by
  obtain ⟨⟨more, hgrown, htables⟩, hframes⟩ := hmaps.grows
  have hapart := (nodup_append.mp h.nodup).2.2
  have hsame : ∀ x ∈ allFrames w.machine w.spaces, Machine.SameFrame w.machine m' x := by
    intro x hx
    apply hframes x (h.account.mem_iff.mpr (mem_append_right _ hx))
    intro htable
    exact hapart x (h.kernel x htable) x hx rfl
  refine ⟨more, hmaps.guarded.pool, ?_, ?_, ?_⟩
  · rw [allFrames_congr hsame, append_assoc]
    exact hgrown.trans (h.account.append_left more)
  · intro entry hentry i hi hslot
    have hroot : entry.2.root ∈ allFrames w.machine w.spaces := mem_allFrames hentry mem_cons_self
    rw [(hsame _ hroot).entry hi]
    cases hsteady with
    | inl hnone =>
      rw [hnone] at hentry
      cases hentry
    | inr hkept =>
      rw [hkept i hi hslot]
      exact h.slots entry hentry i hi hslot
  · intro x hx
    rw [mem_append]
    exact (htables x hx).symm.imp_right (h.kernel x)

end Kaguya.Space
