import Kaguya.Space.Handles

/-!
# Loading a program and giving its memory back

`loader.jh` and `kef.jh`, and the life of an address space: it is created, a program is loaded into
it, calls grow it, and the last drop gives back exactly what was taken on its behalf.
-/

namespace Kaguya.Space

open Paging

/-! ## The header of a program -/

structure Header where
  error : Nat
  entryOffset : Nat
  codeOffset : Nat
  codeSize : Nat
  initSize : Nat
  deriving DecidableEq

def failure (code : Nat) : Header := ⟨code, 0, 0, 0, 0⟩

def word (bytes : Buffer) (offset : Nat) : Nat :=
  (bytes offset).toNat ||| (bytes (offset + 1)).toNat <<< 8 ||| (bytes (offset + 2)).toNat <<< 16
    ||| (bytes (offset + 3)).toNat <<< 24

def parseKef (bytes : Buffer) (length : Nat) : Header :=
  if length < 4 then failure 2
  else if bytes 0 ≠ 0x4b ∨ bytes 1 ≠ 0x45 ∨ bytes 2 ≠ 0x46 ∨ bytes 3 > 1 then failure 1
  else
    let version := bytes 3
    if length < 16 ∨ version = 1 ∧ length < 20 then failure 2
    else
      let entryOffset := word bytes 4
      let codeOffset := word bytes 8
      let codeSize := word bytes 12
      let initSize := if version = 0 then codeSize else word bytes 16
      if codeSize = 0 then failure 3
      else if initSize > codeSize ∨ entryOffset ≥ codeSize then failure 4
      else if codeOffset + initSize > length then failure 5
      else ⟨0, entryOffset, codeOffset, codeSize, initSize⟩

/-! ## Loading -/

structure Loaded where
  entry : Nat
  stack : Nat
  arguments : Nat
  argumentCount : Nat
  deriving DecidableEq

def copyIn (m : Machine) (target : Nat) (source : Buffer) (start count : Nat) : Machine :=
  { m with memory := m.memory.memCopy target source start count }

/-- The first loop of `load`: map the pages of the image from `offset` on and fill them. -/
def loadCode (bytes : Buffer) (header : Header) (destination : Shared) :
    Nat → Nat → Machine → Bool × Machine
  | 0, _, m => (true, m)
  | pages + 1, offset, m =>
    let call := destination.mapPage (USER_START + offset) true true m
    let frame := call.1
    if frame = 0 then (false, call.2)
    else
      let m :=
        if offset < header.initSize then
          copyIn call.2 frame bytes (header.codeOffset + offset)
            (min (header.initSize - offset) 4096)
        else call.2
      loadCode bytes header destination pages (offset + 4096) m

def loadStack (destination : Shared) : Nat → Nat → Machine → Nat × Machine
  | 0, top, m => (top, m)
  | i + 1, _, m =>
    let call := destination.mapPage (STACK_TOP - (i + 1) * 4096) true false m
    if call.1 = 0 then (0, call.2) else loadStack destination i call.1 call.2

def load (bytes : Buffer) (length : Nat) (destination : Shared) (args : Buffer) (count : Nat)
    (m : Machine) : Except String Loaded × Machine :=
  let header := parseKef bytes length
  if header.error ≠ 0 then (.error "invalid KEF header", m)
  else if count > 2048 then (.error "KEF arguments too long", m)
  else
    let pages := (header.codeSize + 4095) / 4096
    let code := loadCode bytes header destination pages 0 m
    if code.1 = false then (.error "OOM mapping KEF code", code.2)
    else
      let stack := loadStack destination 4 0 code.2
      if stack.1 = 0 then (.error "OOM mapping KEF stack", stack.2)
      else
        let arguments := (STACK_TOP - count) / 16 * 16
        let inPage := arguments - (STACK_TOP - 4096)
        (.ok ⟨USER_START + header.entryOffset, arguments, arguments, count⟩,
          copyIn stack.2 (stack.1 + inPage) args 0 count)

variable {m m' m'' : Machine} {root frame address : Nat} {others start : List Nat} {shared : Shared}

variable {offset count pages : Nat} {bytes : Buffer}

theorem Holds.copyIn (source : Buffer) (first : Nat) (h : Holds m root others start)
    (hrange : USER_START ≤ address ∧ address < USER_END)
    (hfollow : Trie.follow childOf m.entry (slots address [39, 30, 21, 12]) root = some frame)
    (hfits : offset + count ≤ 4096) :
    Runs m (copyIn m (frame + offset) source first count) root others start := by
  have hfirst : ∀ i ∈ (slots address [39, 30, 21, 12]).head?, i ∈ userSlots := by
    intro i hi
    cases hi
    exact slot_mem_userSlots hrange.1 hrange.2
  have hmem : frame ∈ tree m root :=
    (h.tree_page rfl hfirst slots_lt hfollow fun _ _ _ _ _ => rfl).1
  have husable := h.usable_tree hmem
  have hsame : ∀ x ∈ m.inUse, x ≠ frame →
      Machine.SameFrame m (Space.copyIn m (frame + offset) source first count) x := by
    intro x hx hne i hlo hhi
    have hapart := (h.usable x hx).apart husable hne
    exact Buffer.memCopy_of_not_mem (by omega)
  have hkept : tree (Space.copyIn m (frame + offset) source first count) root = tree m root := by
    apply (h.tree_page rfl hfirst slots_lt hfollow _).2
    intro x hx hne i hi
    exact (hsame x (h.mem_iff.mpr ((List.mem_cons.mp hx).imp_right .inl)) hne).entry hi
  refine ⟨h.congr rfl rfl rfl hkept, ⟨?_, ?_⟩, rfl⟩
  · intro x hx
    apply hsame x (h.mem_iff.mpr (.inr (.inr hx)))
    rintro rfl
    exact (h.apart hx).2 hmem
  · intro i hi _
    apply (hsame root (h.mem_iff.mpr (.inl rfl)) _).entry hi
    rintro rfl
    exact (List.nodup_cons.mp (List.nodup_append.mp h.nodup_account).1).1 hmem

def RolledBack (shared : Shared) (m m' : Machine) : Prop :=
  m'.freed = m.freed ∨ ∃ before address writable executable, before.freed = m.freed
    ∧ shared.mapPage address writable executable before = (0, m')
    ∧ m'.freed = before.alloc.1 :: m.freed

structure Loads (shared : Shared) (m m' : Machine) (others start : List Nat) : Prop where
  holds : Holds m' shared.root others start
  kept : Kept m m' shared.root others
  rolledBack : RolledBack shared m m'

theorem Loads.after (hruns : Runs m m' shared.root others start)
    (h : Loads shared m' m'' others start) : Loads shared m m'' others start where
  holds := h.holds
  kept := hruns.kept.trans h.kept
  rolledBack := by
    have hrolled := h.rolledBack
    rw [RolledBack, hruns.freed] at hrolled
    exact hrolled

theorem Runs.loads (h : Runs m m' shared.root others start) : Loads shared m m' others start :=
  ⟨h.holds, h.kept, .inl h.freed⟩

theorem mapPage_spec (address : Nat) (writable executable : Bool)
    (h : Holds m shared.root others start) :
    Loads shared m (shared.mapPage address writable executable m).2 others start
      ∧ ((shared.mapPage address writable executable m).1 ≠ 0 →
        Runs m (shared.mapPage address writable executable m).2 shared.root others start
          ∧ (USER_START ≤ address ∧ address < USER_END)
          ∧ Trie.follow childOf (shared.mapPage address writable executable m).2.entry
            (slots address [39, 30, 21, 12]) shared.root
              = some (shared.mapPage address writable executable m).1) := by
  by_cases hrefused : address < USER_START ∨ address ≥ USER_END ∨ address &&& 4095 ≠ 0
  · simp only [Shared.mapPage, if_pos hrefused]
    exact ⟨(Runs.refl h).loads, fun hne => absurd rfl hne⟩
  have hmap : shared.mapPage address writable executable m
      = spaceMap shared.root address (Shared.pageFlags writable executable) m := if_neg hrefused
  obtain ⟨hholds, hkept, hfreed, hmapped⟩ :=
    spaceMap_spec address (pageFlags_flags writable executable) h
  rw [← hmap] at hholds hkept hfreed hmapped
  refine ⟨⟨hholds, hkept, hfreed.imp_right ?_⟩, ?_⟩
  · intro hfailed
    exact ⟨m, address, writable, executable, rfl, Prod.ext hfailed.1 rfl, hfailed.2.2⟩
  · intro hne
    obtain ⟨hrange, hsaved, hfollow⟩ := hmapped hne
    exact ⟨⟨hholds, hkept, hsaved⟩, hrange, hfollow⟩

theorem loadCode_spec {header : Header} (h : Holds m shared.root others start) :
    Loads shared m (loadCode bytes header shared pages offset m).2 others start
      ∧ ((loadCode bytes header shared pages offset m).1 = true →
        Runs m (loadCode bytes header shared pages offset m).2 shared.root others start) := by
  induction pages generalizing offset m with
  | zero => exact ⟨(Runs.refl h).loads, fun _ => Runs.refl h⟩
  | succ _ ih =>
    obtain ⟨hloads, hmapped⟩ := mapPage_spec (USER_START + offset) true true h
    simp only [loadCode]
    by_cases hfailed : (shared.mapPage (USER_START + offset) true true m).1 = 0
    · rw [if_pos hfailed]
      exact ⟨hloads, fun hfalse => absurd hfalse Bool.false_ne_true⟩
    rw [if_neg hfailed]
    obtain ⟨hruns, hrange, hfollow⟩ := hmapped hfailed
    split
    · have hcopied :=
        hruns.trans (hruns.holds.copyIn bytes (header.codeOffset + offset) hrange hfollow
        (show 0 + min (header.initSize - offset) 4096 ≤ 4096 by omega))
      obtain ⟨hrest, hdone⟩ := ih hcopied.holds
      exact ⟨hrest.after hcopied, fun htrue => hcopied.trans (hdone htrue)⟩
    · obtain ⟨hrest, hdone⟩ := ih hruns.holds
      exact ⟨hrest.after hruns, fun htrue => hruns.trans (hdone htrue)⟩

theorem loadStack_spec {top : Nat} (h : Holds m shared.root others start) :
    Loads shared m (loadStack shared pages top m).2 others start
        ∧ (0 < pages → (loadStack shared pages top m).1 ≠ 0 →
        Runs m (loadStack shared pages top m).2 shared.root others start
          ∧ ∃ address, (USER_START ≤ address ∧ address < USER_END)
            ∧ Trie.follow childOf (loadStack shared pages top m).2.entry
              (slots address [39, 30, 21, 12]) shared.root
                = some (loadStack shared pages top m).1) := by
  induction pages generalizing top m with
  | zero => exact ⟨(Runs.refl h).loads, fun hpos => absurd hpos (Nat.lt_irrefl 0)⟩
  | succ i ih =>
    obtain ⟨hloads, hmapped⟩ := mapPage_spec (STACK_TOP - (i + 1) * 4096) true false h
    simp only [loadStack]
    by_cases hfailed : (shared.mapPage (STACK_TOP - (i + 1) * 4096) true false m).1 = 0
    · rw [if_pos hfailed]
      exact ⟨hloads, fun _ hne => absurd rfl hne⟩
    rw [if_neg hfailed]
    obtain ⟨hruns, hrange, hfollow⟩ := hmapped hfailed
    obtain ⟨hrest, hdone⟩ := ih hruns.holds
    refine ⟨hrest.after hruns, ?_⟩
    intro _ hne
    -- the page mapped last is the top of the stack
    cases i with
    | zero => exact ⟨hruns, _, hrange, hfollow⟩
    | succ i =>
      obtain ⟨hruns', hpage⟩ := hdone (Nat.succ_pos i) hne
      exact ⟨hruns.trans hruns', hpage⟩

theorem load_spec {args : Buffer} {length : Nat} (h : Holds m shared.root others start) :
    Loads shared m (load bytes length shared args count m).2 others start := by
  rw [load]
  split
  · exact (Runs.refl h).loads
  split
  · exact (Runs.refl h).loads
  next hcount =>
  obtain ⟨hcode, hcoded⟩ := loadCode_spec h
  dsimp only
  split
  · exact hcode
  next hsuccess =>
  have hruns := hcoded (Bool.eq_true_of_not_eq_false hsuccess)
  obtain ⟨hstack, hstacked⟩ := loadStack_spec hruns.holds
  split
  · exact hstack.after hruns
  next hne =>
  obtain ⟨hruns', address, hrange, hfollow⟩ := hstacked (by decide) hne
  have hfits : (STACK_TOP - count) / 16 * 16 - (STACK_TOP - 4096) + count ≤ 4096 := by
    rw [STACK_TOP]
    omega
  exact ((hruns.trans hruns').trans (hruns'.holds.copyIn args 0 hrange hfollow hfits)).loads

/-! ## The life of a space -/

def Shared.run (shared : Shared) : List Call → Machine → Outcome × Machine
  | [], m => (.live shared, m)
  | call :: calls, m =>
    let result := shared.call m call
    match result.outcome with
    | .live shared => shared.run calls result.machine
    | .panicked => (.panicked, result.machine)
    | .gone => (.gone, result.machine)

theorem Outcome.Accounted.after {outcome : Outcome} (hkept : Kept m m' root others)
    (h : outcome.Accounted m' m'' root others start) :
    outcome.Accounted m m'' root others start := by
  cases outcome with
  | live => exact ⟨h.1, h.2.1, hkept.trans h.2.2⟩
  | gone => exact ⟨h.1, h.2.1, fun x hx => (hkept.frames x hx).trans (h.2.2 x hx)⟩
  | panicked =>
    obtain ⟨rest, hholds, hrest⟩ := h
    exact ⟨rest, hholds, hkept.trans hrest⟩

theorem run_accounted {calls : List Call} (h : Holds m shared.root others start) :
    (shared.run calls m).1.Accounted m (shared.run calls m).2 shared.root others start := by
  induction calls generalizing shared m with
  | nil => exact ⟨rfl, h, Kept.refl⟩
  | cons call calls ih =>
    have hcall := call_accounted call h
    rw [Shared.run]
    cases houtcome : (shared.call m call).outcome with
    | live =>
      rw [houtcome] at hcall
      obtain ⟨hroot, hholds, hkept⟩ := hcall
      rw [← hroot] at hholds
      rw [← hroot] at hkept
      have hrest := ih hholds
      rw [← hroot]
      exact hrest.after hkept
    | gone =>
      rw [houtcome] at hcall
      exact hcall
    | panicked =>
      rw [houtcome] at hcall
      exact hcall

theorem balanced_of_pool (h : Pool m start) (hinUse : m.inUse.Perm start) :
    m.allocated.Perm m.freed := by
  have hledger : (m.freed ++ start).Perm (m.allocated ++ start) :=
    (hinUse.symm.append_left m.freed).trans h.ledger
  exact ((List.perm_append_right_iff start).mp hledger).symm

def Reclaimed (before after : Machine) : Prop :=
  after.inUse.Perm before.inUse ∧ after.allocated.Perm after.freed

def GivesBack (shared : Shared) (m : Machine) (call : Call) : Prop :=
  (shared.call m call).machine.freed = m.freed ∨ (shared.call m call).value = 0
      ∧ (shared.call m call).machine.freed = (shared.taken m call).reverse ++ m.freed

/-- **Process memory is reclaimed exactly.** Counting from the creation of a space, when it is gone
every frame handed out has been given back once and the frames in use are those of before, whatever
was loaded and wherever memory ran out. While a clone remains only a page whose mapping failed, or
frames staged by a `grow` that failed, are given back. -/
theorem memory_reclaimed (m : Machine) (hnodup : m.inUse.Nodup)
    (husable : ∀ frame ∈ m.inUse, Usable frame) (hallocated : m.allocated = [])
    (hfreed : m.freed = []) (kernel : Nat) (granted : Bool) :
    let created := Shared.new kernel granted m
    (created.1 = none → Reclaimed m created.2)
      ∧ ∀ shared, created.1 = some shared → created.2.freed = [] ∧ ∀ image length args count calls,
          let loaded := (load image length shared args count created.2).2
          let ended := shared.run calls loaded
          RolledBack shared created.2 loaded ∧ (ended.1 = .gone → Reclaimed m ended.2)
            ∧ ∀ next call, ended.1 = .live next → (next.call ended.2 call).outcome ≠ .gone →
              GivesBack next ended.2 call := by
  have hpool : Pool m m.inUse := by
    refine ⟨hnodup, husable, ?_⟩
    rw [hallocated, hfreed]
  intro created
  obtain ⟨hsome, hnone⟩ := new_spec kernel granted hpool
  constructor
  · intro hfailed
    obtain ⟨hleft, hinUse, -⟩ := hnone hfailed
    exact ⟨hinUse, balanced_of_pool hleft hinUse⟩
  intro shared hshared
  obtain ⟨hholds, -, hsaved, -⟩ := hsome shared hshared
  refine ⟨hsaved.trans hfreed, ?_⟩
  intro image length args count calls loaded ended
  have hload : Loads shared created.2 loaded m.inUse m.inUse := load_spec hholds
  have hrun : ended.1.Accounted loaded ended.2 shared.root m.inUse m.inUse :=
    run_accounted hload.holds
  refine ⟨hload.rolledBack, ?_, ?_⟩
  · intro hgone
    rw [hgone] at hrun
    obtain ⟨hleft, hinUse, -⟩ := hrun
    exact ⟨hinUse, balanced_of_pool hleft hinUse⟩
  intro next call hlive
  rw [hlive] at hrun
  obtain ⟨hroot, hheld, -⟩ := hrun
  rw [← hroot] at hheld
  exact call_freed call hheld

def busyMachine : Machine :=
  { emptyMachine with inUse := [4096, 8192], supply := fun n => 4096 * (n + 3) }

def smallImage : Buffer :=
  .ofList [0x4b, 0x45, 0x46, 0, 0, 0, 0, 0, 16, 0, 0, 0, 1, 0, 0, 0, 0xc3]

/-- Two frames are in use. Loading the program with three bytes of arguments takes twelve more, and
a page, a heap of two pages and their tables nine. -/
theorem memory_reclaimed_busyMachine :
    let shared : Shared := ⟨1, 12288, HEAP_START⟩
    let loaded := load smallImage 17 shared smallImage 3 (Shared.new 4096 true busyMachine).2
    let calls : List Call := [.mapPage 0x500000000000 true false, .clone, .grow 5000, .drop]
    loaded.1.isOk = true ∧ loaded.2.inUse.length = 14
      ∧ (shared.run calls loaded.2).2.inUse.length = 23
      ∧ Reclaimed busyMachine (shared.run (calls ++ [.drop]) loaded.2).2 := by
  intro shared loaded calls
  refine ⟨by decide +kernel, by decide +kernel, by decide +kernel, ?_⟩
  have hspace := (memory_reclaimed busyMachine (by decide) (by decide) rfl rfl 4096 true).2
  exact ((hspace shared (by decide +kernel)).2 smallImage 17 smallImage 3 (calls ++ [.drop])).2.1
    (by decide +kernel)

end Kaguya.Space
