import Kaguya.Space.World

/-!
# Isolation

In every world that can be reached the frames of the live spaces are apart, the kernel's half of
each is the kernel's own, what is done to one space changes no translation of another, and nothing
outside the user's range is the user's.
-/

namespace Kaguya.Space

open Paging List

variable {w : World} {m m' : Machine} {reserved start : List Nat} {entry : Nat × Shared}
  {action : Action} {kernel : Nat}

/-- The walk for a canonical address finds nothing absent and nothing that is not the user's. -/
def Accessible (m : Machine) (root address : Nat) : Prop :=
  (address / 2 ^ 47 = 0 ∨ address / 2 ^ 47 = 0x1ffff)
    ∧ ∀ word ∈ translation m root address, word &&& (PRESENT ||| USER) = PRESENT ||| USER

variable {word address : Nat} {actions : List Action}

theorem childOf_of_tableOf {next : Nat} (h : tableOf word = some next) :
    childOf word = some next := by
  rw [tableOf] at h
  split at h
  · cases h
  next hpresent =>
    rw [childOf_eq_some fun hempty => hpresent (.inl hempty)]
    exact h

theorem translation_congr (h : Sound w reserved start) (hentry : entry ∈ w.spaces)
    (hspace : ∀ x ∈ frames w.machine entry.2, Machine.SameFrame w.machine m' x)
    (hkernel : ∀ x ∈ reserved, Machine.SameFrame w.machine m' x) (address : Nat) :
    translation m' entry.2.root address = translation w.machine entry.2.root address := by
  have hroot : m'.entry entry.2.root (slot 39 address) = w.machine.entry entry.2.root
      (slot 39 address) :=
    (hspace _ mem_cons_self).entry (slot_lt 39 address)
  have hbound : ∀ i ∈ slots address [30, 21, 12], i < 512 := slots_lt
  change _ :: _ = _ :: _
  rw [hroot]
  congr 1
  cases hnext : tableOf (w.machine.entry entry.2.root (slot 39 address)) with
  | none => rfl
  | some next =>
    by_cases huser : slot 39 address ∈ userSlots
    · refine Trie.walk_congr (fun _ _ => childOf_of_tableOf) (show 3 ≤ 3 + 1 by decide) hbound ?_
      intro x hx i hi
      have hmem : x ∈ tree w.machine entry.2.root :=
        Trie.mem_span_of_child huser (childOf_of_tableOf hnext) hx
      exact (hspace x (mem_cons_of_mem _ hmem)).entry hi
    refine Trie.walk_congr (fun _ _ htable => htable) (show 3 ≤ 2 + 1 by decide) hbound ?_
    intro x hx i hi
    rw [h.slots entry hentry _ (slot_lt 39 address) huser] at hnext
    have hmem : x ∈ tables w.machine w.kernel := by
      rw [tables, Trie.subtree_succ]
      apply mem_append_left
      exact Trie.mem_span_of_child (mem_range.mpr (slot_lt 39 address)) hnext hx
    exact (hkernel x (h.kernel x hmem)).entry hi

theorem bits_of_user (h : word &&& (PRESENT ||| USER) = PRESENT ||| USER) :
    word &&& PRESENT ≠ 0 ∧ word &&& USER ≠ 0 := by
  have hpresent : word &&& PRESENT = word &&& (PRESENT ||| USER) &&& PRESENT := by
    rw [Nat.and_assoc]
    rfl
  have huser : word &&& USER = word &&& (PRESENT ||| USER) &&& USER := by
    rw [Nat.and_assoc]
    rfl
  rw [hpresent, huser, h]
  decide

theorem walk_guarded {levels node : Nat} {path : List Nat}
    (h : Trie.Every 512 tableOf m.entry Guard levels node) (hlength : path.length = levels + 1)
    (hbound : ∀ i ∈ path, i < 512) :
    ∃ word ∈ Trie.walk tableOf m.entry path node, word &&& (PRESENT ||| USER) ≠ PRESENT |||
      USER := by
  induction levels generalizing node path with
  | zero =>
    cases path with
    | nil => cases hlength
    | cons i =>
      refine ⟨m.entry node i, mem_cons_self, fun hbits => ?_⟩
      exact (bits_of_user hbits).2 (h i (hbound i mem_cons_self))
  | succ levels ih =>
    cases path with
    | nil => cases hlength
    | cons i path =>
      by_cases hbits : m.entry node i &&& (PRESENT ||| USER) = PRESENT ||| USER
      · obtain ⟨hhuge, hbelow⟩ := h i (hbound i mem_cons_self)
        have hnext := tableOf_eq_some (bits_of_user hbits).1 hhuge
        obtain ⟨word, hword, hne⟩ := ih (hbelow _ hnext) (Nat.succ.inj hlength) fun j hj =>
          hbound j (mem_cons_of_mem _ hj)
        refine ⟨word, mem_cons_of_mem _ ?_, hne⟩
        rw [hnext]
        exact hword
      · exact ⟨m.entry node i, mem_cons_self, hbits⟩

theorem slot_kernel (hcanonical : address / 2 ^ 47 = 0 ∨ address / 2 ^ 47 = 0x1ffff)
    (houtside : address < USER_START ∨ USER_END ≤ address) : slot 39 address ∉ userSlots := by
  rw [mem_userSlots, slot, Nat.shiftRight_eq_div_pow, show (511 : Nat) = 2 ^ 9 - 1 from rfl,
    Nat.and_two_pow_sub_one_eq_mod]
  unfold USER_START USER_END at houtside
  omega

theorem not_accessible (h : Sound w reserved start) (hguarded : Guarded w.machine w.kernel start)
    (hentry : entry ∈ w.spaces) (houtside : address < USER_START ∨ USER_END ≤ address) :
    ¬ Accessible w.machine entry.2.root address := by
  rintro ⟨hcanonical, hwords⟩
  have hslot := slot_kernel hcanonical houtside
  have hroot : w.machine.entry entry.2.root (slot 39 address) = w.machine.entry w.kernel
      (slot 39 address) :=
    h.slots entry hentry _ (slot_lt 39 address) hslot
  have hsame : translation w.machine entry.2.root address = translation w.machine w.kernel
      address := by
    change _ :: _ = _ :: _
    rw [hroot]
  obtain ⟨word, hword, hne⟩ :=
    walk_guarded hguarded.every (show (slots address [39, 30, 21, 12]).length = 3 + 1 from rfl)
    slots_lt
  apply hne
  apply hwords
  rw [hsame]
  exact hword

def Action.target : Action → Option Nat
  | .call id _ => some id
  | _ => none

theorem World.kernel_step : (w.step action).kernel = w.kernel := by
  unfold World.step
  split
  · rfl
  cases action with
  | new =>
    dsimp only
    rw [World.accept]
    split <;> rfl
  | call =>
    dsimp only
    split
    · rw [World.settle]
      split <;> rfl
    · rfl
  | mmio => rfl
  | firmware => rfl
  | ramDisk => rfl

theorem mem_of_lookup {spaces : List (Nat × Shared)} {id : Nat} {shared : Shared}
    (h : spaces.lookup id = some shared) : (id, shared) ∈ spaces := by
  obtain ⟨before, after, hsplit, -⟩ := lookup_eq_some_iff.mp h
  rw [hsplit]
  exact mem_append_right _ mem_cons_self

/-- What is done to a space, or to make one, keeps the split, changes no reserved frame, and leaves
the other spaces and their translations as they are. -/
theorem step_space (h : Sound w reserved start) (hspace : action.kernel = false) :
    (∃ more, Sound (w.step action) (more ++ reserved) start)
      ∧ (∀ x ∈ reserved, Machine.SameFrame w.machine (w.step action).machine x)
      ∧ ∀ entry ∈ w.spaces, some entry.1 ≠ action.target → entry ∈ (w.step action).spaces
          ∧ ∀ address, translation (w.step action).machine entry.2.root address
            = translation w.machine entry.2.root address := by
  have hstay : (∃ more, Sound w (more ++ reserved) start)
      ∧ (∀ x ∈ reserved, Machine.SameFrame w.machine w.machine x) ∧ ∀ entry ∈ w.spaces,
        some entry.1 ≠ action.target → entry ∈ w.spaces ∧ ∀ address,
        translation w.machine entry.2.root address = translation w.machine entry.2.root address :=
    ⟨⟨[], h⟩, fun _ _ => Machine.SameFrame.refl, fun _ hentry _ => ⟨hentry, fun _ => rfl⟩⟩
  have hspaceUsed : ∀ entry ∈ w.spaces, ∀ x ∈ frames w.machine entry.2, x ∈ w.machine.inUse :=
    fun entry hentry x hx =>
      h.account.mem_iff.mpr (mem_append_right _ (mem_allFrames hentry hx))
  unfold World.step
  split
  · exact hstay
  cases action with
  | new granted =>
    obtain ⟨hsound, hsame, hstill⟩ := accept_sound granted h
    have hmachine : (w.accept (Shared.new w.kernel granted w.machine)).machine
        = (Shared.new w.kernel granted w.machine).2 := by
      rw [World.accept]
      split <;> rfl
    rw [hmachine]
    have hreserved : ∀ x ∈ reserved,
        Machine.SameFrame w.machine (Shared.new w.kernel granted w.machine).2 x :=
      fun x hx => hsame x (h.inUse_of_reserved hx)
    refine ⟨⟨[], hsound⟩, hreserved, fun entry hentry _ => ⟨hstill entry hentry, ?_⟩⟩
    exact translation_congr h hentry (fun x hx => hsame x (hspaceUsed entry hentry x hx)) hreserved
  | call id call =>
    dsimp only
    cases hlookup : w.spaces.lookup id with
    | none => exact hstay
    | some shared =>
      have hmem := mem_of_lookup hlookup
      obtain ⟨hsound, hsame, hstill⟩ := settle_sound call h hmem
      have hmachine : (w.settle id shared (shared.call w.machine call)).machine
          = (shared.call w.machine call).machine := by
        rw [World.settle]
        split <;> rfl
      rw [hmachine]
      refine ⟨hsound, fun x hx => hsame x (mem_append_left _ hx), ?_⟩
      intro entry hentry htarget
      have hother : entry ∈ w.spaces.erase (id, shared) := by
        rw [mem_erase_of_ne]
        · exact hentry
        · rintro rfl
          exact htarget rfl
      refine ⟨hstill entry hother, ?_⟩
      exact translation_congr h hentry
        (fun x hx => hsame x (mem_append_right _ (mem_allFrames hother hx))) fun x hx =>
        hsame x (mem_append_left _ hx)
  | mmio => cases hspace
  | firmware => cases hspace
  | ramDisk => cases hspace

theorem step_kernel (hguarded : Guarded w.machine w.kernel start) (hkernel : action.kernel = true) :
    (w.step action) = { w with machine := (w.step action).machine }
      ∧ Maps w.machine (w.step action).machine w.kernel start := by
  unfold World.step
  split
  · exact ⟨rfl, Maps.refl hguarded⟩
  cases action with
  | new => cases hkernel
  | call => cases hkernel
  | mmio base bytes => exact ⟨rfl, mapMmio_spec base bytes hguarded⟩
  | firmware base bytes => exact ⟨rfl, firmwareRange_spec base bytes hguarded⟩
  | ramDisk page => exact ⟨rfl, mapRamDisk_spec page hguarded⟩

/-- The kernel's mappings do not change the slots that live spaces have copied. -/
def World.Steady (w : World) (action : Action) : Prop :=
  action.kernel = true → w.spaces = [] ∨ ∀ i < 512, i ∉ userSlots →
    (w.step action).machine.entry w.kernel i = w.machine.entry w.kernel i

def World.SteadyRun : World → List Action → Prop
  | _, [] => True
  | w, action :: actions => w.Steady action ∧ (w.step action).SteadyRun actions

theorem step_guarded (h : Sound w reserved start) (hguarded : Guarded w.machine w.kernel start)
    (hsteady : w.Steady action) : (∃ more, Sound (w.step action) (more ++ reserved) start)
      ∧ Guarded (w.step action).machine (w.step action).kernel start := by
  rw [World.kernel_step]
  cases hkernel : action.kernel with
  | true =>
    obtain ⟨hstep, hmaps⟩ := step_kernel hguarded hkernel
    refine ⟨?_, hmaps.guarded⟩
    rw [hstep]
    exact maps_sound h hmaps (hsteady hkernel)
  | false =>
    obtain ⟨⟨more, hsound⟩, hsame, -⟩ := step_space h hkernel
    refine ⟨⟨more, hsound⟩, ?_⟩
    have htables : tables (w.step action).machine w.kernel = tables w.machine w.kernel :=
      tables_congr fun x hx => hsame x (h.kernel x hx)
    have hused : ∀ x ∈ tables w.machine w.kernel, x ∈ (w.step action).machine.inUse := by
      intro x hx
      apply hsound.inUse_of_reserved
      apply hsound.kernel
      rw [World.kernel_step, htables]
      exact hx
    exact (hguarded.congr hsound.pool hused fun x hx i hi =>
      (hsame x (h.kernel x hx)).entry hi).1

theorem run_space (h : Sound w reserved start)
    (hspace : ∀ action ∈ actions, action.kernel = false) :
    ∃ reserved, Sound (w.run actions) reserved start := by
  induction actions generalizing w reserved with
  | nil => exact ⟨reserved, h⟩
  | cons action _ ih =>
    obtain ⟨⟨more, hsound⟩, -, -⟩ := step_space h (hspace action mem_cons_self)
    exact ih hsound fun other hother => hspace other (mem_cons_of_mem _ hother)

theorem run_guarded (h : Sound w reserved start) (hguarded : Guarded w.machine w.kernel start)
    (hsteady : w.SteadyRun actions) :
    (∃ reserved, Sound (w.run actions) reserved start) ∧ Guarded (w.run actions).machine
      (w.run actions).kernel start := by
  induction actions generalizing w reserved with
  | nil => exact ⟨⟨reserved, h⟩, hguarded⟩
  | cons _ _ ih =>
    obtain ⟨⟨more, hsound⟩, hstill⟩ := step_guarded h hguarded hsteady.1
    exact ih hsound hstill hsteady.2

def World.initial (m : Machine) (kernel : Nat) : World := ⟨m, kernel, [], 0, false⟩

theorem initial_sound (hpool : Pool m start) (hkernel : ∀ x ∈ tables m kernel, x ∈ m.inUse) :
    Sound (World.initial m kernel) m.inUse start where
  pool := hpool
  account := by
    change m.inUse.Perm (m.inUse ++ [])
    rw [append_nil]
  slots _ hentry := nomatch hentry
  kernel := hkernel

structure Isolated (w : World) : Prop where
  once : ∀ entry ∈ w.spaces, (frames w.machine entry.2).Nodup
  apart : w.spaces.Pairwise fun entry other =>
    (frames w.machine entry.2).Disjoint (frames w.machine other.2)
  slots : ∀ entry ∈ w.spaces, ∀ i < 512, i ∉ userSlots →
    w.machine.entry entry.2.root i = w.machine.entry w.kernel i

def Undisturbed (w : World) : Prop :=
  ∀ action, action.kernel = false → ∀ entry ∈ w.spaces, some entry.1 ≠ action.target →
    entry ∈ (w.step action).spaces ∧ ∀ address, translation (w.step action).machine entry.2.root
        address = translation w.machine entry.2.root address

theorem Sound.isolated (h : Sound w reserved start) : Isolated w := by
  obtain ⟨heach, hapart⟩ := nodup_flatMap.mp (nodup_append.mp h.nodup).2.1
  exact ⟨heach, hapart, h.slots⟩

theorem Sound.undisturbed (h : Sound w reserved start) :
    Undisturbed w := fun _ hspace => (step_space h hspace).2.2

structure Fresh (m : Machine) : Prop where
  nodup : m.inUse.Nodup
  usable : ∀ frame ∈ m.inUse, Usable frame
  allocated : m.allocated = []
  freed : m.freed = []

theorem Fresh.pool (h : Fresh m) : Pool m m.inUse := by
  refine ⟨h.nodup, h.usable, ?_⟩
  rw [h.allocated, h.freed]

/-- **Address-space isolation.** From any kernel root whose tables are frames in use, and after any
calls on spaces created from it, the spaces are apart and what is done to one leaves the others'
translations alone. If the root was made at boot, and the kernel adds mappings for devices, firmware
tables and the RAM disk that keep the top-level slots of live spaces, then moreover no address
outside the user's range is the user's in any space. -/
theorem spaces_isolated :
    (∀ (m : Machine) (kernel : Nat) (actions : List Action), Fresh m →
      (∀ x ∈ tables m kernel, x ∈ m.inUse) → (∀ action ∈ actions, action.kernel = false) →
      Isolated ((World.initial m kernel).run actions)
        ∧ Undisturbed ((World.initial m kernel).run actions))
      ∧ ∀ (m m' : Machine) (fuel kernel framebuffer framebufferSize : Nat)
          (descriptors : List Descriptor) (actions : List Action), Fresh m →
        (∀ descriptor ∈ descriptors, descriptor.physicalStart % 4096 = 0) → framebuffer % 4096 = 0 →
        pagingInit fuel descriptors framebuffer framebufferSize m = some (kernel, m') → kernel ≠ 0 →
        (World.initial m' kernel).SteadyRun actions →
        Isolated ((World.initial m' kernel).run actions)
          ∧ Undisturbed ((World.initial m' kernel).run actions)
          ∧ ∀ entry ∈ ((World.initial m' kernel).run actions).spaces, ∀ address,
            address < USER_START ∨ USER_END ≤ address →
            ¬ Accessible ((World.initial m' kernel).run actions).machine entry.2.root address := by
  constructor
  · intro m kernel actions hfresh hkernel hspace
    obtain ⟨reserved, hsound⟩ := run_space (initial_sound hfresh.pool hkernel) hspace
    exact ⟨hsound.isolated, hsound.undisturbed⟩
  intro m m' fuel kernel framebuffer framebufferSize descriptors actions hfresh haligned
    hframebuffer hinit hkernel hsteady
  have hguarded := pagingInit_spec hfresh.pool haligned hframebuffer hinit hkernel
  obtain ⟨⟨reserved, hsound⟩, hstill⟩ :=
    run_guarded (initial_sound hguarded.pool hguarded.inUse) hguarded hsteady
  refine ⟨hsound.isolated, hsound.undisturbed, ?_⟩
  intro entry hentry address houtside
  exact not_accessible hsound hstill hentry houtside

/-- Two spaces under a kernel root that maps one page, of which the first is dropped. -/
theorem spaces_isolated_pair :
    ∃ m', pagingInit 3 [⟨7, 0x100000, 1⟩] 0 0 emptyMachine = some (4096, m')
      ∧ Isolated ((World.initial m' 4096).run
        [.new true, .new true, .call 1 (.mapPage USER_START true true), .call 0 .drop]) := by
  obtain ⟨m', hinit⟩ : ∃ m', pagingInit 3 [⟨7, 0x100000, 1⟩] 0 0 emptyMachine = some (4096, m') :=
    ⟨_, rfl⟩
  refine ⟨m', hinit, ?_⟩
  have hfresh : Fresh emptyMachine := ⟨nodup_nil, fun _ hframe => (nomatch hframe), rfl, rfl⟩
  have hsteady : (World.initial m' 4096).SteadyRun
      [.new true, .new true, .call 1 (.mapPage USER_START true true), .call 0 .drop] :=
    ⟨(nomatch ·), (nomatch ·), (nomatch ·), (nomatch ·), trivial⟩
  exact (spaces_isolated.2 emptyMachine m' 3 4096 0 0 [⟨7, 0x100000, 1⟩] _ hfresh (by decide)
    (by decide) hinit (by decide) hsteady).1

end Kaguya.Space
