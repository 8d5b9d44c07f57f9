import Kaguya.Scheduler.Retirement
import Mathlib.Data.List.Basic

/-!
# Stacks are freed once and when they are not in use

A stack that `maintenance` frees belongs to a task that every processor has left: none runs on the
stack, and none has loaded the page tables for it. Stacks are conserved: those that were freed and
those of the tasks in the table are together the ones that were handed to the scheduler.
-/

namespace Kaguya.Scheduler

open List

variable {s s' : State} {action : Action} {cpu index : Nat} {task task' : Task}

namespace State

def bottoms (s : State) : List Nat := s.tasks.map Task.kernelBottom

theorem bottoms_congr
    (h : ∀ i : Nat, (s'.tasks[i]?).map Task.kernelBottom = (s.tasks[i]?).map Task.kernelBottom) :
    s'.bottoms = s.bottoms := by
  unfold bottoms
  refine ext_getElem? fun i => ?_
  rw [List.getElem?_map, List.getElem?_map]
  exact h i

theorem bottoms_release (slot : Nat) (htask : s.tasks[index]? = some task)
    (hwoken : s' = (s.release index slot task).wakeAll wakeWaiter task.id) :
    s'.bottoms = s.bottoms.set index 0 := by
  have hwake : s'.bottoms = (s.release index slot task).bottoms := by
    rw [hwoken]
    refine bottoms_congr fun i => ?_
    cases ht : (s.release index slot task).tasks[i]? with
    | none => rw [getElem?_wakeAll_of_none task.id ht]
    | some =>
      obtain ⟨t', ht', hchange⟩ := wakeAll_waiters task.id ht
      rw [ht']
      rcases hchange with heq | ⟨_, _, status, _, heq⟩
      · rw [heq]
      · rw [heq]
        rfl
  rw [hwake]
  unfold bottoms State.release
  rw [update_tasks, modify_eq_set_getElem?, htask]
  exact map_set

variable {bottom : Nat}

theorem bottoms_move (hs : s.Consistent) (hmove : Move action s s') (hnone : action.bottom = none)
    (hbottom : bottom ≠ 0) :
    s'.freed.count bottom + s'.bottoms.count bottom = s.freed.count bottom + s.bottoms.count
      bottom := by
  have hsame : s'.freed = s.freed → s'.freed.count bottom + s'.bottoms.count bottom
      = s.freed.count bottom + s.bottoms.count bottom := by
    intro hfreed
    have hstacks : s'.bottoms = s.bottoms := by
      refine bottoms_congr fun i => ?_
      cases ht : s.tasks[i]? with
      | none =>
        cases ht' : s'.tasks[i]? with
        | none => rfl
        | some =>
          obtain ⟨cpu, hnew⟩ := hs.homed.born hmove ht ht'
          rw [hnew.bottom] at hnone
          cases hnone
      | some =>
        obtain ⟨t', ht', hchange⟩ := hs.seated.change hs.homed hmove ht
        rw [ht', Option.map_some, Option.map_some]
        rcases hchange.kernelBottom with ⟨heq, _⟩ | ⟨_, _, _, _, _, slot, _, hwoken⟩
        · rw [heq]
        · have hlonger := congrArg List.length (freed_release slot hwoken)
          rw [hfreed, length_append, length_singleton] at hlonger
          omega
    rw [hfreed, hstacks]
  cases hs.homed.words hmove with
  | same hwords => exact hsame hwords.freed
  | given hcreates => exact absurd hnone hcreates
  | counted _ hcounted => exact hsame (by rw [hcounted, countEvent_frame])
  | forgotten _ hforgotten => exact hsame (by rw [hforgotten]; rfl)
  | switched _ _ hswitched => exact hsame hswitched.freed
  | released htask hzombie hstack hretired hwoken =>
    rename_i index slot task
    have hlt : index < s.bottoms.length := by
      unfold bottoms
      rw [length_map]
      exact (List.getElem?_eq_some_iff.mp htask).1
    have hget : s.bottoms[index] = task.kernelBottom := by
      obtain ⟨_, heq⟩ := List.getElem?_eq_some_iff.mp htask
      simp [bottoms, heq]
    rw [freed_release slot hwoken, bottoms_release slot htask hwoken, count_append, count_set hlt,
      hget, count_singleton]
    have hzero : (0 == bottom) = false := by simpa using Ne.symm hbottom
    rw [hzero]
    by_cases heq : task.kernelBottom = bottom
    · have hpos : 0 < s.bottoms.count bottom := by
        rw [count_pos_iff, ← heq, ← hget]
        exact getElem_mem hlt
      simp only [heq, beq_self_eq_true, if_true]
      simp
      omega
    · have hne : (task.kernelBottom == bottom) = false := by simpa using heq
      simp [hne]

theorem bottoms_create (hsome : action.bottom.isSome) (hbottom : bottom ≠ 0) (s : State) :
    (s.step action).freed.count bottom + (s.step action).bottoms.count bottom
      = s.freed.count bottom + s.bottoms.count bottom + if action.bottom = some bottom then 1
        else 0 := by
  have hadd : ∀ (s : State) (cpu : Nat) (task : Task), (s.addTask cpu task).bottoms.count bottom
        = s.bottoms.count bottom + if task.kernelBottom = bottom then 1 else 0 := by
    intro s cpu task
    simp [bottoms, addTask, enqueue, count_singleton]
  cases action with
  | addUser online b userRsp addressSpace files =>
    change (s.addUser online b userRsp addressSpace files).2.freed.count bottom
      + (s.addUser online b userRsp addressSpace files).2.bottoms.count bottom = _
    unfold addUser
    split
    · rename_i hzero
      simp [bottoms, Action.bottom, hzero, Ne.symm hbottom]
    · rw [hadd]
      simp [addTask, enqueue, bottoms, Action.bottom]
      omega
  | addKernel online b bytes =>
    change (s.addKernel online b bytes).2.freed.count bottom
      + (s.addKernel online b bytes).2.bottoms.count bottom = _
    unfold addKernel
    rw [hadd]
    simp [addTask, enqueue, bottoms, Action.bottom]
    omega
  | _ => cases hsome

theorem bottoms_run (hs : s.Consistent) (hbottom : bottom ≠ 0) (actions : List Action) :
    (s.run actions).freed.count bottom + (s.run actions).bottoms.count bottom = s.freed.count bottom
        + s.bottoms.count bottom
        + actions.countP fun action => action.bottom = some bottom := by
  induction actions generalizing s with
  | nil => simp
  | cons action _ ih =>
    rw [run_cons, ih (hs.step action), countP_cons]
    have hstep : (s.step action).freed.count bottom + (s.step action).bottoms.count bottom
        = s.freed.count bottom + s.bottoms.count bottom + if action.bottom = some bottom then 1
        else 0 := by
      cases hcreate : action.bottom.isSome with
      | true => exact bottoms_create hcreate hbottom s
      | false =>
        have hnone : action.bottom = none := by simpa using hcreate
        have hmoved := hs.preserve (I := fun s1 => s1.freed.count bottom + s1.bottoms.count bottom
          = s.freed.count bottom + s.bottoms.count bottom) action
          (fun s1 s2 hs1 hmove h => (bottoms_move hs1 hmove hnone hbottom).trans h) rfl
        rw [hmoved.2.2.2, hnone]
        simp
    rw [hstep]
    simp only [decide_eq_true_eq]
    omega

/-- `kaguya_prepare_switch` loads the page tables of the task that comes in, or those of the kernel.
-/
def loads (cpu : Nat) (s : State) (action : Action) (owner : Option Nat) : Option Nat :=
  match (s.cpus cpu).mode with
  | .preparing pending => if action = .prepare cpu then pending.incoming else owner
  | _ => owner

def loadedFor (cpu : Nat) : State → List Action → Option Nat → Option Nat
  | _, [], owner => owner
  | s, action :: actions, owner => loadedFor cpu (s.step action) actions (s.loads cpu action owner)

end State

/-- A processor is on the stack of its task, with its page tables; while it changes to another task
the page tables go first. -/
def Cpu.Carries (c : Cpu) (owner : Option Nat) : Prop :=
  match c.mode with
  | .preparing pending => c.onStack = pending.outgoing ∧ owner = pending.outgoing
  | .switching pending => c.onStack = pending.outgoing ∧ owner = pending.incoming
  | _ => c.onStack = c.currentTask ∧ owner = c.currentTask

theorem Cpu.carries_of_pending {c : Cpu} {owner : Option Nat} (hpending : c.mode.pending = none) :
    c.Carries owner ↔ c.onStack = c.currentTask ∧ owner = c.currentTask := by
  unfold Cpu.Carries
  cases hmode : c.mode with
  | preparing | switching =>
    rw [hmode] at hpending
    cases hpending
  | _ => exact Iff.rfl

namespace State

variable {owner : Option Nat}

theorem carries_move (hs : s.Consistent) (hmove : Move action s s')
    (h : (s.cpus cpu).Carries owner) :
    (s'.cpus cpu).Carries owner ∨ action = .prepare cpu ∧ ∃ pending : Switch,
      (s'.cpus cpu).Carries pending.incoming := by
  cases hs.homed.turn hmove cpu with
  | same hsame =>
    left
    unfold Cpu.Carries
    rw [hsame.mode, hsame.currentTask, hsame.onStack]
    exact h
  | called hbefore hafter htask hstack =>
    left
    rw [Cpu.carries_of_pending hafter, htask, hstack]
    exact (Cpu.carries_of_pending hbefore).mp h
  | departed hbefore hdeparted =>
    left
    obtain ⟨c, hcpus, _, _, hmode, hstack⟩ := hdeparted.cpus
    rw [Cpu.carries_of_pending hbefore] at h
    unfold Cpu.Carries
    rw [hcpus, Function.update_self, hmode, hstack]
    dsimp only
    rw [hdeparted.outgoing]
    exact h
  | prepared haction hbefore hafter htask hstack =>
    rename_i pending
    refine .inr ⟨haction, pending, ?_⟩
    unfold Cpu.Carries at h ⊢
    rw [hbefore] at h
    rw [hafter, hstack]
    exact ⟨h.1, rfl⟩
  | switched _ hbefore hswitched =>
    left
    obtain ⟨c, hcpus, htask, _, hmode, hstack⟩ := hswitched.cpus
    have hincoming := ((hs.seated.settled cpu).coming (by rw [hbefore]; rfl)).1
    unfold Cpu.Carries at h ⊢
    rw [hbefore] at h
    rw [hcpus, Function.update_self, hmode]
    rw [hstack, htask, h.2, hincoming]
    exact ⟨rfl, rfl⟩
  | idled _ hbefore hcurrent hmode htask hstack =>
    left
    rw [Cpu.carries_of_pending hbefore, hcurrent] at h
    rw [Cpu.carries_of_pending (by rw [hmode]; exact hbefore), htask, hstack]
    exact ⟨rfl, h.2⟩

theorem carries_of_ne (hs : s.Consistent) (hmove : Move action s s')
    (hprepare : action ≠ .prepare cpu) (h : (s.cpus cpu).Carries owner) :
    (s'.cpus cpu).Carries owner :=
  (carries_move hs hmove h).resolve_right fun hp => hprepare hp.1

theorem loads_of_ne (hprepare : action ≠ .prepare cpu) : s.loads cpu action owner = owner := by
  unfold loads
  split
  · exact if_neg hprepare
  · rfl

theorem carries_step (hs : s.Consistent) (action : Action) (h : (s.cpus cpu).Carries owner) :
    ((s.step action).cpus cpu).Carries (s.loads cpu action owner) := by
  by_cases hprepare : action = .prepare cpu
  · rw [hprepare]
    change ((s.prepare cpu).cpus cpu).Carries _
    unfold loads State.prepare
    cases hmode : (s.cpus cpu).mode with
    | preparing =>
      unfold Cpu.Carries at h ⊢
      rw [hmode] at h
      simp [h.1]
    | _ => exact h
  · rw [loads_of_ne hprepare]
    have hmoved := hs.preserve (I := fun s1 => (s1.cpus cpu).Carries owner) action
      (fun s1 s2 hs1 hmove h1 => carries_of_ne hs1 hmove hprepare h1) h
    exact hmoved.2.2.2

theorem Consistent.has_loaded (hs : s.Consistent) (h : (s.cpus cpu).Carries (some index)) :
    (s.cpus cpu).Has index := by
  unfold Cpu.Carries at h
  cases hmode : (s.cpus cpu).mode with
  | preparing =>
    rw [hmode] at h
    exact outgoing_has (by rw [hmode]; rfl) h.2.symm
  | switching =>
    rw [hmode] at h
    refine .inl ?_
    rw [← ((hs.seated.settled cpu).coming (by rw [hmode]; rfl)).1]
    exact h.2.symm
  | _ =>
    rw [hmode] at h
    exact .inl h.2.symm

/-! ### The root in CR3 -/

theorem Acknowledged.rootOf_move (h : s.Acknowledged) (hs : s.Consistent) (hsep : s.Separate)
    (hmove : Move action s s') (howner : ∀ index, owner = some index → (s.cpus cpu).Has index) :
    s'.rootOf owner = s.rootOf owner := by
  unfold rootOf
  rw [hs.homed.kernelRoot hmove]
  cases owner with
  | none => rfl
  | some index =>
    -- the flag of a task that a processor has is up, and stacks are only taken from others
    have hon : s.onCpu index = true := hs.owned.exclusive.taken_of_holds (howner index rfl)
    cases ht : s.tasks[index]? with
    | none => simp [onCpu, ht] at hon
    | some =>
      obtain ⟨t', ht', hchange⟩ := hs.seated.change hs.homed hmove ht
      rw [Option.bind_some, Option.bind_some, ht, ht', Option.bind_some, Option.bind_some]
      rcases hchange.kernelBottom with ⟨_, hspace⟩ | ⟨_, _, _, _, hbottom, slot, hslot, _⟩
      · rw [hspace]
      · rw [onCpu_of_getElem? ht, h.not_held hsep ht hbottom hslot] at hon
        cases hon

/-- The page tables that a processor has loaded are those of `owner`, and the ones that it is about
to load are those of the task that comes in. -/
structure Rooted (s : State) (cpu : Nat) (owner : Option Nat) : Prop where
  carries : (s.cpus cpu).Carries owner
  loaded : (s.cpus cpu).root = s.rootOf owner
  chosen : ∀ pending, (s.cpus cpu).mode = .preparing pending →
    pending.root = s.rootOf pending.incoming

theorem Rooted.move (h : s.Rooted cpu owner) (hack : s.Acknowledged) (hs : s.Consistent)
    (hsep : s.Separate) (hmove : Move action s s') (hprepare : action ≠ .prepare cpu) :
    s'.Rooted cpu owner := by
  have hcarries := carries_of_ne hs hmove hprepare h.carries
  have hhas : ∀ index, owner = some index → (s.cpus cpu).Has index := by
    rintro index rfl
    exact hs.has_loaded h.carries
  have howner := hack.rootOf_move hs hsep hmove hhas
  have hsettled : (s'.cpus cpu).mode.pending = none → (s'.cpus cpu).root = (s.cpus cpu).root →
      s'.Rooted cpu owner := by
    intro hpending hroot
    refine ⟨hcarries, by rw [hroot, howner, h.loaded], fun pending hmode => ?_⟩
    rw [hmode] at hpending
    cases hpending
  cases hs.homed.turn hmove cpu with
  | same hsame =>
    refine ⟨hcarries, by rw [hsame.root, howner, h.loaded], fun pending hmode => ?_⟩
    rw [hsame.mode] at hmode
    rw [h.chosen pending hmode]
    have hcoming : ∀ index, pending.incoming = some index → (s.cpus cpu).Has index := by
      intro index hincoming
      exact .inl (((hs.seated.settled cpu).coming (by rw [hmode]; rfl)).1.symm.trans hincoming)
    exact (hack.rootOf_move hs hsep hmove hcoming).symm
  | called _ hafter _ _ hroot => exact hsettled hafter hroot
  | departed hbefore hdeparted =>
    refine ⟨hcarries, by rw [hdeparted.loaded, howner, h.loaded], fun pending' hmode => ?_⟩
    obtain ⟨c, hcpus, _, _, hmode', _⟩ := hdeparted.cpus
    rw [hcpus, Function.update_self, hmode'] at hmode
    cases hmode
    rw [hdeparted.root, hdeparted.incoming]
  | prepared haction => exact absurd haction hprepare
  | switched _ _ hswitched =>
    obtain ⟨c, hcpus, _, _, hmode, _⟩ := hswitched.cpus
    refine hsettled ?_ hswitched.loaded
    rw [hcpus, Function.update_self, hmode]
    rfl
  | idled _ hbefore _ hmode _ _ hroot =>
    exact hsettled (by rw [hmode]; exact hbefore) hroot

theorem Rooted.step (h : s.Rooted cpu owner) (hack : s.Acknowledged) (hs : s.Consistent)
    (hsep : s.Separate) (action : Action) :
    (s.step action).Rooted cpu (s.loads cpu action owner) := by
  by_cases hprepare : action = .prepare cpu
  · have hcarries := carries_step hs action h.carries
    rw [hprepare] at hcarries ⊢
    change (s.prepare cpu).Rooted cpu _
    change ((s.prepare cpu).cpus cpu).Carries _ at hcarries
    unfold loads State.prepare at hcarries ⊢
    cases hmode : (s.cpus cpu).mode with
    | preparing pending =>
      rw [hmode] at hcarries
      refine ⟨hcarries, ?_, ?_⟩
      · simpa [rootOf] using h.chosen pending hmode
      · simp
    | _ => exact h
  · rw [loads_of_ne hprepare]
    exact (hack.preserve (I := fun s1 => s1.Rooted cpu owner) hs hsep action
      (fun s1 s2 hs1 hsep1 hack1 hmove h1 => h1.move hack1 hs1 hsep1 hmove hprepare) h).2

theorem Rooted.run {actions : List Action} (h : s.Rooted cpu owner) (hack : s.Acknowledged)
    (hs : s.Consistent) (hsep : s.Separated actions) :
    (s.run actions).Rooted cpu (loadedFor cpu s actions owner) := by
  induction actions generalizing s owner with
  | nil => exact h
  | cons action _ ih =>
    exact ih (h.step hack hs hsep.head action) (hack.step hs hsep.head action) (hs.step action)
      hsep.2

def Freed (s : State) (index : Nat) : Prop :=
  ∃ task, s.tasks[index]? = some task ∧ task.kernelBottom = 0 ∧ task.addressSpace = none

theorem Freed.run (h : s.Freed index) (hs : s.Consistent) (actions : List Action) :
    (s.run actions).Freed index := by
  induction actions generalizing s with
  | nil => exact h
  | cons action _ ih =>
    refine ih (hs.preserve (I := fun s1 => s1.Freed index) action ?_ h).2.2.2 (hs.step action)
    intro s1 s2 hs1 hmove ⟨t, ht, hbottom, hspace⟩
    obtain ⟨t', ht', hchange⟩ := hs1.seated.change hs1.homed hmove ht
    rcases hchange.kernelBottom with ⟨hbottom', hspace'⟩ | ⟨_, _, _, _, hbottom', _⟩
    · exact ⟨t', ht', hbottom'.trans hbottom, hspace'.trans hspace⟩
    · exact absurd hbottom hbottom'

theorem Consistent.freed_step (hs : s.Consistent) (htask : s.tasks[index]? = some task)
    (hbottom : task.kernelBottom ≠ 0) (htask' : (s.step action).tasks[index]? = some task')
    (hfreed : task'.kernelBottom = 0) : action.Maintains ∧ task'.addressSpace = none := by
  have hmoved := hs.preserve (I := fun s1 => ∃ t, s1.tasks[index]? = some t
    ∧ (t.kernelBottom = 0 → action.Maintains ∧ t.addressSpace = none)) action
    (fun s1 s2 hs1 hmove hI => ?_)
    ⟨task, htask, fun hzero => absurd hzero hbottom⟩
  · obtain ⟨t, ht, hgiven⟩ := hmoved.2.2.2
    rw [htask'] at ht
    cases ht
    exact hgiven hfreed
  obtain ⟨t, ht, hgiven⟩ := hI
  obtain ⟨t', ht', hchange⟩ := hs1.seated.change hs1.homed hmove ht
  refine ⟨t', ht', ?_⟩
  rcases hchange.kernelBottom with ⟨hbottom', hspace'⟩ | ⟨_, hspace', hmaintains, _⟩
  · rw [hbottom', hspace']
    exact hgiven
  · exact fun _ => ⟨hmaintains, hspace'⟩

theorem Acknowledged.free_of_freed (h : s.Acknowledged) (hs : s.Consistent) (hsep : s.Separate)
    (htask : s.tasks[index]? = some task) (hbottom : task.kernelBottom ≠ 0)
    (htask' : (s.step action).tasks[index]? = some task') (hfreed : task'.kernelBottom = 0) :
    task.onCpu = false := by
  have hmaintains := (hs.freed_step htask hbottom htask' hfreed).1
  rw [← Bool.not_eq_true]
  intro hon
  -- while the flag is up the task is either alive or not acknowledged
  have hmoved := h.preserve (I := fun s1 => ∃ t, s1.tasks[index]? = some t ∧ t.kernelBottom ≠ 0
    ∧ (t.status = .zombie → t.onCpu = true)) hs hsep action (fun s1 s2 hs1 hsep1 h1 hmove hI => ?_)
    ⟨task, htask, hbottom, fun _ => hon⟩
  · obtain ⟨t, ht, hstack, _⟩ := hmoved.2
    rw [htask'] at ht
    cases ht
    exact hstack hfreed
  obtain ⟨t, ht, hstack, hheld⟩ := hI
  obtain ⟨t', ht', hchange⟩ := hs1.seated.change hs1.homed hmove ht
  rcases hchange.kernelBottom with ⟨hsame, _⟩ | ⟨_, _, _, hzombie, _, slot, hslot, _⟩
  · refine ⟨t', ht', by rw [hsame]; exact hstack, fun hzombie' => ?_⟩
    rcases hchange.zombie_of hzombie' with hzombie | ⟨cpu, code, haction, _⟩
    · rw [(hchange.of_zombie hzombie).2.2.1 hmaintains]
      exact hheld hzombie
    · rw [haction] at hmaintains
      exact hmaintains.elim
  · have hoff := h1.not_held hsep1 ht hstack hslot
    rw [hheld hzombie] at hoff
    cases hoff

theorem rooted_start (kernelRoot cpu : Nat) : (start kernelRoot).Rooted cpu none := by
  have hmode := mode_start kernelRoot cpu
  refine ⟨?_, ?_, fun pending hpreparing => ?_⟩
  · rw [Cpu.carries_of_pending (by rw [hmode]; rfl), currentTask_start]
    refine ⟨?_, rfl⟩
    by_cases hcpu : cpu = 0 <;> simp [start, init, enterIdle, hcpu]
  · by_cases hcpu : cpu = 0 <;> simp [start, init, enterIdle, rootOf, hcpu]
  · rw [hmode] at hpreparing
    cases hpreparing

/-- No task but `index` has the page tables at `root`, nor has the kernel. -/
structure Private (s : State) (root index : Nat) : Prop where
  kernel : root ≠ s.kernelRoot
  tasks : ∀ other task, s.tasks[other]? = some task → task.addressSpace = some root → other = index

theorem Private.owner_eq {root : Nat} (h : s.Private root index) (hroot : s.rootOf owner = root) :
    owner = some index := by
  unfold rootOf at hroot
  cases owner with
  | none => exact absurd hroot.symm h.kernel
  | some other =>
    rw [Option.bind_some] at hroot
    cases ht : s.tasks[other]? with
    | none =>
      rw [ht] at hroot
      exact absurd hroot.symm h.kernel
    | some t =>
      rw [ht, Option.bind_some] at hroot
      cases hspace : t.addressSpace with
      | none =>
        rw [hspace] at hroot
        exact absurd hroot.symm h.kernel
      | some =>
        rw [hspace, Option.getD_some] at hroot
        rw [h.tasks other t ht (by rw [hspace, hroot])]

/-- **Stacks are freed once and when they are not in use.** When a step frees the stack of a task,
it gives up the page tables too, no processor is on this stack or has loaded page tables for this
task, and the task has neither stack nor page tables ever after. What a processor has in CR3 is the
root of the task that it has loaded it for, so that a root which this task alone uses is in no CR3.
The stacks that were freed and those in the table are, each as often as it was handed out, the ones
that tasks were created with. -/
theorem freed_once_unused (kernelRoot : Nat) (actions : List Action)
    (hsep : (start kernelRoot).Separated actions) : let s := (start kernelRoot).run actions
    (∀ action index task task', s.tasks[index]? = some task → task.kernelBottom ≠ 0 →
      (s.step action).tasks[index]? = some task' → task'.kernelBottom = 0 →
        action.Maintains ∧ task'.addressSpace = none
        ∧ (∀ cpu, (s.cpus cpu).onStack ≠ some index
          ∧ loadedFor cpu (start kernelRoot) actions none ≠ some index
          ∧ (s.cpus cpu).root = s.rootOf (loadedFor cpu (start kernelRoot) actions none)
          ∧ (∀ root, task.addressSpace = some root → s.Private root index →
            (s.cpus cpu).root ≠ root)
          ∧ ∀ other task1, (s.cpus cpu).onStack = some other → s.tasks[other]? = some task1 →
            task1.kernelBottom ≠ task.kernelBottom)
        ∧ ∀ later, ((s.step action).run later).Freed index)
    ∧ ∀ bottom, bottom ≠ 0 → s.freed.count bottom + s.bottoms.count bottom
        = actions.countP fun action => action.bottom = some bottom := by
  intro s
  have hs : s.Consistent := (consistent_start kernelRoot).run actions
  have hack : s.Acknowledged :=
    (acknowledged_start kernelRoot).run (consistent_start kernelRoot) hsep
  constructor
  · intro action index task task' htask hbottom htask' hfreed
    obtain ⟨hmaintains, hspace⟩ := hs.freed_step htask hbottom htask' hfreed
    have hoff := hack.free_of_freed hs hsep.last htask hbottom htask' hfreed
    have hfree : ∀ cpu, ¬ (s.cpus cpu).Has index := by
      intro cpu
      refine hs.owned.exclusive.not_holds ?_
      rw [onCpu_of_getElem? htask, hoff]
      exact Bool.false_ne_true
    have hrooted : ∀ cpu, s.Rooted cpu (loadedFor cpu (start kernelRoot) actions none) := fun cpu =>
      (rooted_start kernelRoot cpu).run (acknowledged_start kernelRoot)
        (consistent_start kernelRoot) hsep
    have hloaded : ∀ cpu, loadedFor cpu (start kernelRoot) actions none ≠ some index := by
      intro cpu hloaded
      have hcarries := (hrooted cpu).carries
      rw [hloaded] at hcarries
      exact hfree cpu (hs.has_loaded hcarries)
    refine ⟨hmaintains, hspace, fun cpu => ⟨?_, hloaded cpu, (hrooted cpu).loaded, ?_, ?_⟩,
      fun later => ?_⟩
    · exact fun hstack => hfree cpu (.inr (.inr hstack))
    · intro root hroot hprivate hcr3
      exact hloaded cpu (hprivate.owner_eq ((hrooted cpu).loaded.symm.trans hcr3))
    · intro other task1 hstack hother heq
      have hsame := hsep.last index other task task1 htask hother hbottom heq.symm
      rw [← hsame] at hstack
      exact hfree cpu (.inr (.inr hstack))
    · have hgone : (s.step action).Freed index := ⟨task', htask', hfreed, hspace⟩
      exact hgone.run (hs.step action) later
  · intro bottom hbottom
    have hrun := bottoms_run (consistent_start kernelRoot) hbottom actions
    have hstart : (start kernelRoot).freed.count bottom + (start kernelRoot).bottoms.count bottom
        = 0 := by
      simp [start, init, enterIdle, bottoms, Ne.symm hbottom]
    rw [hstart, Nat.zero_add] at hrun
    exact hrun

theorem separate_of_pairwise
    (h : s.tasks.Pairwise fun t u => t.kernelBottom ≠ 0 → t.kernelBottom ≠ u.kernelBottom) :
    s.Separate := by
  intro i j t u ht hu hbottom heq
  obtain ⟨hi, hti⟩ := List.getElem?_eq_some_iff.mp ht
  obtain ⟨hj, huj⟩ := List.getElem?_eq_some_iff.mp hu
  have hordered := pairwise_iff_getElem.mp h
  rcases Nat.lt_trichotomy i j with hlt | hsame | hlt
  · have hne := hordered i j hi hj hlt
    rw [hti, huj] at hne
    exact absurd heq (hne hbottom)
  · exact hsame
  · have hne := hordered j i hj hi hlt
    rw [hti, huj] at hne
    exact absurd heq.symm (hne (by rw [← heq]; exact hbottom))

theorem freed_once_unused_first :
    let actions : List Action :=
      [.addUser 1 4096 0 28672 0, .schedule 1 0, .prepare 0, .switchStack 0 8,
      .dropFiles 0, .exit 0 7, .schedule 1 0, .prepare 0, .switchStack 0 16]
    (((start 0).run (actions.take 4)).cpus 0).root = 28672
    ∧ ((start 0).run actions).bottoms = [0, 4096]
    ∧ (((start 0).run actions).step .collect).bottoms = [0, 0]
    ∧ ∀ cpu, (((start 0).run actions).cpus cpu).onStack ≠ some 1
      ∧ loadedFor cpu (start 0) actions none ≠ some 1
      ∧ (((start 0).run actions).cpus cpu).root ≠ 28672 := by
  intro actions
  have hsep : (start 0).Separated actions := by
    refine ⟨?_, ?_, ?_, ?_, ?_, ?_, ?_, ?_, ?_, ?_⟩ <;> exact separate_of_pairwise (by decide)
  have hfreed := (freed_once_unused 0 actions hsep).1 .collect 1 _ _ rfl (by decide) rfl (by decide)
  have hprivate : ((start 0).run actions).Private 28672 1 := by
    refine ⟨by decide, fun other task htask hspace => ?_⟩
    have hlt := (List.getElem?_eq_some_iff.mp htask).1
    rcases Nat.le_one_iff_eq_zero_or_eq_one.mp (Nat.le_of_lt_succ hlt) with hzero | hone
    · rw [hzero] at htask
      cases htask
      cases hspace
    · exact hone
  refine ⟨by decide, by decide, by decide, fun cpu => ?_⟩
  obtain ⟨hstack, hloaded, _, hroot, _⟩ := hfreed.2.2.1 cpu
  exact ⟨hstack, hloaded, hroot 28672 rfl hprivate⟩

/-- **Stacks and page tables change hands together.** In every state that the system reaches, a
processor is on the stack of its task, and the root in its CR3 is that of the page tables of this
task; while it changes to another one, it has the page tables of the one whose turn it is. -/
theorem runs_with_own_tables (kernelRoot cpu : Nat) (actions : List Action)
    (hsep : (start kernelRoot).Separated actions) :
    let s := (start kernelRoot).run actions
    let owner := loadedFor cpu (start kernelRoot) actions none
    (s.cpus cpu).Carries owner ∧ (s.cpus cpu).root = s.rootOf owner := by
  intro s owner
  have hrooted : s.Rooted cpu owner :=
    (rooted_start kernelRoot cpu).run (acknowledged_start kernelRoot) (consistent_start kernelRoot)
    hsep
  exact ⟨hrooted.carries, hrooted.loaded⟩

theorem runs_with_own_tables_change :
    let actions : List Action :=
      [.addUser 1 4096 0 28672 0, .addUser 1 8192 0 32768 0, .schedule 1 0,
      .prepare 0, .switchStack 0 8, .schedule 1 0]
    let s := (start 0).run actions
    let owner := loadedFor 0 (start 0) actions none
    ((s.cpus 0).Carries owner ∧ (s.cpus 0).root = s.rootOf owner)
    ∧ owner = some 1 ∧ (s.cpus 0).currentTask = some 2 ∧ (s.cpus 0).root = 28672
    ∧ ((s.step (.prepare 0)).cpus 0).root = 32768 := by
  intro actions s owner
  refine ⟨runs_with_own_tables 0 0 actions ?_, by decide⟩
  refine ⟨?_, ?_, ?_, ?_, ?_, ?_, ?_⟩ <;> exact separate_of_pairwise (by decide)

end State

end Kaguya.Scheduler
