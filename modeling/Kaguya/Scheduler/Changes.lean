import Kaguya.Scheduler.Placement

/-!
# What can happen to a task, to a processor and to the rest

Every move, seen from a single task, from a single processor and from the words that belong to
neither. Tasks stay in the table, and a task that has exited stays as it is until its stack is
reclaimed.
-/

namespace Kaguya.Scheduler

open Function

inductive Change (action : Action) (s s' : State) (index : Nat) (task : Task) : Task → Prop where
  | same : Change action s s' index task task
  | timedOut {now : Nat} {status : Status} (hmaintains : action.Maintains)
      (hdue : State.due now task = true) (hawake : status = .running ∨ status = .ready) :
      Change action s s' index task
        { task with waitingFor := NONE, wakeTick := 0, status := status }
  | joined {target : Nat} {other : Task} {status : Status} (hmaintains : action.Maintains)
      (hwaiting : task.status = .waiting) (hid : task.waitingFor = other.id)
      (hbefore : s.tasks[target]? = some other) (hzombie : other.status = .zombie)
      (hbottom : other.kernelBottom ≠ 0)
      (hafter : s'.tasks[target]? = some { other with
        addressSpace := none, kernelBottom := 0, kernelTop := 0 })
      (hawake : status = .running ∨ status = .ready) :
      Change action s s' index task { task with waitingFor := NONE, status := status }
  | signalled {key : Nat} {status : Status} (haction : action = .wakeEvent key)
      (hwaiting : task.status = .waiting) (hkey : task.waitingFor = key)
      (hawake : status = .running ∨ status = .ready) :
      Change action s s' index task
        { task with waitingFor := NONE, wakeTick := 0, status := status }
  | handedOver {cpu : Nat} (hstatus : task.status = .switchingOut)
      (hschedules : action.Schedules cpu) : Change action s s' index task
      { task with status := .ready, affinity := cpu }
  | left {cpu : Nat} (hcurrent : (s.cpus cpu).currentTask = some index)
      (hschedules : action.Schedules cpu) :
      Change action s s' index task (State.left (s.cpus cpu) task)
  | entered {cpu : Nat} (hstatus : task.status = .ready) (hschedules : action.Schedules cpu) :
      Change action s s' index task { task with
        status := .running, onCpu := true, affinity := cpu, wakeTick := 0 }
  | saved {cpu rsp : Nat} (haction : action = .switchStack cpu rsp) :
      Change action s s' index task { task with stack := rsp, onCpu := false }
  | released {slot : Nat} (hmaintains : action.Maintains) (hzombie : task.status = .zombie)
      (hbottom : task.kernelBottom ≠ 0) (hleft : s.published index = false) (hslot : slot < 64)
      (hretired : s.retired slot = task.kernelBottom)
      (hwoken : s' = (s.release index slot task).wakeAll State.wakeWaiter task.id) :
      Change action s s' index task
        { task with addressSpace := none, kernelBottom := 0, kernelTop := 0 }
  | droppedFiles : Change action s s' index task { task with files := none }
  | exited {cpu code : Nat} (haction : action = .exit cpu code) (hstatus : task.status = .running)
      (hcurrent : (s.cpus cpu).currentTask = some index) :
      Change action s s' index task { task with status := .zombie, exitCode := code }
  | waited {cpu id target : Nat} {other : Task} (haction : action = .waitTask cpu id)
      (hstatus : task.status = .running) (hcurrent : (s.cpus cpu).currentTask = some index)
      (htarget : s.tasks.findIdx? (fun task => task.id == id) = some target)
      (hother : s.tasks[target]? = some other)
      (halive : ¬ (other.status = .zombie ∧ other.kernelBottom = 0)) :
      Change action s s' index task { task with status := .waiting, waitingFor := id }
  | waitedEvent {cpu key deadline observed : Nat}
      (haction : action = .waitEvent cpu key deadline observed) (hstatus : task.status = .running) :
      Change action s s' index task { task with
        waitingFor := key, wakeTick := deadline, status := .waiting }
  | slept {cpu milliseconds now : Nat} (haction : action = .sleep cpu milliseconds now)
      (hstatus : task.status = .running) :
      Change action s s' index task { task with
        wakeTick := State.sleepDeadline milliseconds now, status := .sleeping }

namespace Change

variable {action : Action} {s s' : State} {index : Nat} {task task' : Task}

variable (hchange : Change action s s' index task task')
include hchange

theorem id_eq : task'.id = task.id := by
  cases hchange <;> rfl

theorem zombie_of (hzombie : task'.status = .zombie) : task.status = .zombie
    ∨ ∃ cpu code, action = .exit cpu code ∧ (s.cpus cpu).currentTask = some index := by
  cases hchange with
  | same | saved | droppedFiles => exact .inl hzombie
  | released _ hbefore => exact .inl hbefore
  | exited haction _ hcurrent => exact .inr ⟨_, _, haction, hcurrent⟩
  | left =>
    by_cases hrunning : task.status = .running
    · simp [State.left, hrunning] at hzombie
    · exact .inl (by simpa [State.left, hrunning] using hzombie)
  | timedOut _ _ hawake | joined _ _ _ _ _ _ _ hawake | signalled _ _ _ hawake =>
    rcases hawake with ha | ha <;> simp [ha] at hzombie
  | handedOver | entered | waited | waitedEvent | slept => simp at hzombie

theorem of_zombie (hzombie : task.status = .zombie) :
    task'.status = .zombie ∧ (task.onCpu = false → task'.onCpu = false)
    ∧ (action.Maintains → task'.onCpu = task.onCpu) ∧ (task'.kernelBottom = task.kernelBottom
      ∨ (action.Maintains ∧ task.kernelBottom ≠ 0 ∧ ∃ slot, s.retired slot = task.kernelBottom
        ∧ s' = (s.release index slot task).wakeAll State.wakeWaiter task.id)) := by
  cases hchange with
  | same | droppedFiles => exact ⟨hzombie, id, fun _ => rfl, .inl rfl⟩
  | saved haction =>
    refine ⟨hzombie, fun _ => rfl, fun hmaintains => ?_, .inl rfl⟩
    rw [haction] at hmaintains
    exact hmaintains.elim
  | left hcurrent => exact ⟨by simp [State.left, hzombie], id, fun _ => rfl, .inl rfl⟩
  | released hmaintains _ hbottom _ _ hretired hwoken =>
    exact ⟨hzombie, id, fun _ => rfl, .inr ⟨hmaintains, hbottom, _, hretired, hwoken⟩⟩
  | timedOut _ hdue => simp [State.due, hzombie] at hdue
  | _ => simp_all

theorem kernelBottom :
    task'.kernelBottom = task.kernelBottom ∧ task'.addressSpace = task.addressSpace
    ∨ (task'.kernelBottom = 0 ∧ task'.addressSpace = none ∧ action.Maintains ∧ task.status = .zombie
      ∧ task.kernelBottom ≠ 0 ∧ ∃ slot, s.retired slot = task.kernelBottom
      ∧ s' = (s.release index slot task).wakeAll State.wakeWaiter task.id) := by
  cases hchange with
  | released hmaintains hzombie hbottom _ _ hretired hwoken =>
    exact .inr ⟨rfl, rfl, hmaintains, hzombie, hbottom, _, hretired, hwoken⟩
  | _ => exact .inl ⟨rfl, rfl⟩

end Change

namespace State

variable {s s' : State} {action : Action} {cpu index i : Nat} {task t : Task} {pending : Switch}

variable {f : Task → Task} {slot rsp : Nat} {next : Option Nat} {final : Bool}

theorem change_update (htasks : s'.tasks = (s.update index f).tasks) (ht : s.tasks[i]? = some t)
    (hf : i = index → Change action s s' i t (f t)) :
    ∃ t', s'.tasks[i]? = some t' ∧ Change action s s' i t t' := by
  rw [htasks]
  by_cases hi : i = index
  · refine ⟨f t, ?_, hf hi⟩
    rw [hi] at ht ⊢
    exact getElem?_update_self ht
  · exact ⟨t, (getElem?_update_of_ne hi).trans ht, .same⟩

theorem change_same (htasks : s'.tasks = s.tasks) (ht : s.tasks[i]? = some t) :
    ∃ t', s'.tasks[i]? = some t' ∧ Change action s s' i t t' := by
  rw [htasks]
  exact ⟨t, ht, .same⟩

theorem wake_tasks (reset : Task → Task) (place : Task → Nat)
    (htask : s.tasks[index]? = some task) :
    ∃ status, (status = .running ∨ status = .ready) ∧ (s.wake reset place index).tasks
      = (s.update index fun t => { reset t with status := status }).tasks := by
  rcases wake_cases reset place htask with ⟨_, hwake⟩ | ⟨_, hwake⟩
  · exact ⟨.running, .inl rfl, by rw [hwake]⟩
  · exact ⟨.ready, .inr rfl, by rw [hwake]; rfl⟩

theorem getElem?_update_of_none (hnone : s.tasks[i]? = none) :
    (s.update index f).tasks[i]? = none := by
  rw [getElem?_update, hnone]
  split <;> rfl

theorem wakeAll_waiters (id : Nat) (ht : s.tasks[i]? = some t) :
    ∃ t', (s.wakeAll wakeWaiter id).tasks[i]? = some t'
        ∧ (t' = t ∨ (t.status = .waiting ∧ t.waitingFor = id
        ∧ ∃ status, (status = .running ∨ status = .ready)
          ∧ t' = { t with waitingFor := NONE, status := status })) := by
  refine wakeAll_preserve (I := fun s1 => ∃ t', s1.tasks[i]? = some t'
    ∧ (t' = t ∨ (t.status = .waiting ∧ t.waitingFor = id ∧ ∃ status,
    (status = .running ∨ status = .ready)
        ∧ t' = { t with waitingFor := NONE, status := status }))) ?_ ⟨t, ht, .inl rfl⟩
  intro s1 index hwaits ⟨t', ht', hchange⟩
  obtain ⟨task, htask, hwaiting, hkey⟩ := waitsFor_iff.mp hwaits
  obtain ⟨status, hawake, htasks⟩ :=
      wake_tasks (fun t => { t with waitingFor := NONE }) Task.affinity htask
  unfold wakeWaiter
  rw [htasks]
  by_cases hi : i = index
  · rw [hi] at ht' ⊢
    cases htask.symm.trans ht'
    refine ⟨_, getElem?_update_self ht', .inr ?_⟩
    rcases hchange with heq | ⟨_, _, status', hawake', heq⟩
    · rw [← heq]
      exact ⟨hwaiting, hkey, status, hawake, rfl⟩
    · rw [heq] at hwaiting
      rcases hawake' with hs | hs <;> simp [hs] at hwaiting
  · exact ⟨t', (getElem?_update_of_ne hi).trans ht', hchange⟩

theorem getElem?_released (htask : s.tasks[index]? = some task) (hzombie : task.status = .zombie)
    (hs' : s' = (s.release index slot task).wakeAll wakeWaiter task.id) :
    s'.tasks[index]?
      = some { task with addressSpace := none, kernelBottom := 0, kernelTop := 0 } := by
  have hreleased : (s.release index slot task).tasks[index]? = some { task with
      addressSpace := none, kernelBottom := 0, kernelTop := 0 } := getElem?_update_self htask
  obtain ⟨t', ht', hchange⟩ := wakeAll_waiters task.id hreleased
  rw [hs', ht']
  rcases hchange with heq | ⟨hwaiting, _⟩
  · rw [heq]
  · simp [hzombie] at hwaiting

theorem change_reclaim (hmaintains : action.Maintains) (htask : s.tasks[index]? = some task)
    (hzombie : task.status = .zombie) (hbottom : task.kernelBottom ≠ 0)
    (hleft : s.published index = false) (hslot : slot < 64)
    (hretired : s.retired slot = task.kernelBottom) (ht : s.tasks[i]? = some t)
    (hs' : s' = (s.release index slot task).wakeAll wakeWaiter task.id) :
    ∃ t', s'.tasks[i]? = some t' ∧ Change action s s' i t t' := by
  have hafter := getElem?_released htask hzombie hs'
  by_cases hi : i = index
  · rw [hi] at ht ⊢
    cases htask.symm.trans ht
    exact ⟨_, hafter, .released hmaintains hzombie hbottom hleft hslot hretired hs'⟩
  have hother : (s.release index slot task).tasks[i]? = some t :=
    (getElem?_update_of_ne hi).trans ht
  obtain ⟨t', ht', hchange⟩ := wakeAll_waiters task.id hother
  rw [← hs'] at ht'
  refine ⟨t', ht', ?_⟩
  rcases hchange with heq | ⟨hwaiting, hid, status, hawake, heq⟩
  · rw [heq]
    exact .same
  · rw [heq]
    exact .joined hmaintains hwaiting hid htask hzombie hbottom hafter hawake

theorem Departed.none (hdeparted : Departed cpu next pending s s') (hnone : s.tasks[i]? = none)
    (hnext : next ≠ some i) : s'.tasks[i]? = none := by
  by_cases hcurrent : (s.cpus cpu).currentTask = some i
  · rw [hdeparted.left i hcurrent, hnone, Option.map_none]
  · rw [hdeparted.others i hnext hcurrent, hnone]

theorem Switched.none (hswitched : Switched cpu rsp pending s s') (hnone : s.tasks[i]? = none) :
    s'.tasks[i]? = none := by
  by_cases hi : pending.outgoing = some i
  · rw [hswitched.left i hi, hnone, Option.map_none]
  · rw [hswitched.others i hi, hnone]

theorem getElem?_block_of_none (hnone : s.tasks[i]? = none) :
    (s.block cpu final f).tasks[i]? = none := by
  unfold block
  split
  · exact getElem?_update_of_none hnone
  · exact hnone

theorem change_departed (hschedules : action.Schedules cpu)
    (hdeparted : Departed cpu next pending s s')
    (hnext : next = some i → ∃ t', s'.tasks[i]? = some t' ∧ Change action s s' i t t')
    (ht : s.tasks[i]? = some t) : ∃ t', s'.tasks[i]? = some t' ∧ Change action s s' i t t' := by
  by_cases hi : next = some i
  · exact hnext hi
  by_cases hcurrent : (s.cpus cpu).currentTask = some i
  · refine ⟨State.left (s.cpus cpu) t, ?_, .left hcurrent hschedules⟩
    rw [hdeparted.left i hcurrent, ht, Option.map_some]
  · exact ⟨t, (hdeparted.others i hi hcurrent).trans ht, .same⟩

theorem change_switched (haction : action = .switchStack cpu rsp)
    (hswitched : Switched cpu rsp pending s s') (ht : s.tasks[i]? = some t) :
    ∃ t', s'.tasks[i]? = some t' ∧ Change action s s' i t t' := by
  by_cases hi : pending.outgoing = some i
  · refine ⟨{ t with stack := rsp, onCpu := false }, ?_, .saved haction⟩
    rw [hswitched.left i hi, ht, Option.map_some]
  · exact ⟨t, (hswitched.others i hi).trans ht, .same⟩

theorem Seated.running_of_mode (h : s.Seated) (hcurrent : (s.cpus cpu).currentTask = some i)
    (hmode : (s.cpus cpu).mode = .running ∨ (s.cpus cpu).mode = .exiting)
    (ht : s.tasks[i]? = some t) : t.status = .running := by
  have hfits := (h.settled cpu).fits hcurrent
  rw [← statusOf_of_getElem? ht]
  rcases hmode with hm | hm <;> rw [hm] at hfits <;> exact hfits

theorem change_block (hcurrent : (s.cpus cpu).currentTask = some index) (ht : s.tasks[i]? = some t)
    (hf : i = index → Change action s (s.block cpu final f) i t (f t)) :
    ∃ t', (s.block cpu final f).tasks[i]? = some t' ∧ Change action s (s.block cpu final f) i t
      t' := by
  have htasks : (s.block cpu final f).tasks = (s.update index f).tasks := by
    unfold block
    rw [hcurrent]
    rfl
  exact change_update htasks ht hf

theorem Seated.change (hseated : s.Seated) (hhomed : s.Homed) (hmove : Move action s s')
    (ht : s.tasks[i]? = some t) : ∃ t', s'.tasks[i]? = some t' ∧ Change action s s' i t t' := by
  cases hmove with
  | clerical hsame => exact change_same hsame.tasks ht
  | record => exact change_same rfl ht
  | create =>
    have hlt := (List.getElem?_eq_some_iff.mp ht).1
    refine ⟨t, ?_, .same⟩
    rw [getElem?_addTask_of_ne]
    · exact ht
    · exact Nat.ne_of_lt hlt
  | wakeDue now hmaintains htask hdue =>
    obtain ⟨status, hawake, htasks⟩ := wake_tasks _ _ htask
    refine change_update htasks ht fun hi => ?_
    rw [← hi, ht] at htask
    cases htask
    exact .timedOut hmaintains hdue hawake
  | reclaim hmaintains htask hzombie hbottom hleft hslot hretired =>
    exact change_reclaim hmaintains htask hzombie hbottom hleft hslot hretired ht rfl
  | count =>
    rw [countEvent_frame]
    exact change_same rfl ht
  | forget => exact change_same rfl ht
  | wakeBlocked hwaits =>
    obtain ⟨task, htask, hwaiting, hkey⟩ := waitsFor_iff.mp hwaits
    obtain ⟨status, hawake, htasks⟩ := wake_tasks _ _ htask
    refine change_update htasks ht fun hi => ?_
    rw [← hi, ht] at htask
    cases htask
    exact .signalled rfl hwaiting hkey hawake
  | handoff hat hschedules =>
    unfold State.takeHandoff
    dsimp only
    split
    · rename_i hfinished
      refine change_update rfl ht fun hi => .handedOver ?_ hschedules
      rw [← statusOf_of_getElem? ht, hi]
      exact hfinished.2.2
    · exact change_same rfl ht
  | stay => exact change_same rfl ht
  | idle hat _ _ _ _ _ hdeparted hschedules =>
    exact change_departed hschedules hdeparted (by simp) ht
  | dispatch hat _ hclaimed hdeparted hentered hschedules =>
    refine change_departed hschedules hdeparted (fun hi => ?_) ht
    cases hi
    cases ht.symm.trans hclaimed.found
    exact ⟨_, hentered, .entered hclaimed.ready hschedules⟩
  | bounce hfound hqueue hpinned hother =>
    exact absurd (hhomed.own hfound hpinned hqueue) hother
  | prepare hmode =>
    refine change_same ?_ ht
    unfold State.prepare
    rw [hmode]
    rfl
  | switchStack _ hrsp hswitched => exact change_switched rfl hswitched ht
  | dropFiles hat hcurrent => exact change_update rfl ht fun _ => .droppedFiles
  | halt => exact change_same rfl ht
  | exit hat =>
    rename_i cpu code
    have hmode := mode_of_isExiting hat.2
    obtain ⟨current, hcurrent⟩ :=
      Option.ne_none_iff_exists'.mp ((hseated.settled cpu).manned (.inl hmode))
    refine change_block hcurrent ht fun hi => ?_
    rw [← hi] at hcurrent
    exact .exited rfl (hseated.running_of_mode hcurrent (.inr hmode) ht) hcurrent
  | waitTask hat hcurrent htarget htask hne halive =>
    refine change_block hcurrent ht fun hi => ?_
    rw [← hi] at hcurrent
    exact .waited rfl (hseated.running_of_mode hcurrent (.inl (mode_of_isRunning hat.2)) ht)
      hcurrent htarget htask halive
  | waitEvent hat hcurrent =>
    refine change_block hcurrent ht fun hi => ?_
    rw [← hi] at hcurrent
    exact .waitedEvent rfl (hseated.running_of_mode hcurrent (.inl (mode_of_isRunning hat.2)) ht)
  | sleep hat hcurrent =>
    refine change_block hcurrent ht fun hi => ?_
    rw [← hi] at hcurrent
    exact .slept rfl (hseated.running_of_mode hcurrent (.inl (mode_of_isRunning hat.2)) ht)
  | yield => exact change_same rfl ht
  | enterIdle hat hcurrent =>
    refine change_same ?_ ht
    unfold State.enterIdle
    rw [hcurrent]
    rfl

theorem getElem?_wake_of_none {reset : Task → Task} {place : Task → Nat}
    (hnone : s.tasks[i]? = none) : (s.wake reset place index).tasks[i]? = none := by
  unfold wake
  split
  · exact hnone
  · split <;> exact getElem?_update_of_none hnone

theorem getElem?_wakeAll_of_none (key : Nat) (hnone : s.tasks[i]? = none) :
    (s.wakeAll wakeWaiter key).tasks[i]? = none :=
  wakeAll_preserve (I := fun s1 => s1.tasks[i]? = none) (fun _ _ _ h => getElem?_wake_of_none h)
  hnone

theorem Homed.born (hhomed : s.Homed) (hmove : Move action s s') (hnone : s.tasks[i]? = none)
    (ht : s'.tasks[i]? = some t) : ∃ cpu, New action s cpu t := by
  have hempty : s'.tasks[i]? = none → ∃ cpu, New action s cpu t := by
    intro hnone'
    rw [hnone'] at ht
    cases ht
  cases hmove with
  | clerical hsame => exact hempty (by rw [hsame.tasks, hnone])
  | create hnew =>
    rename_i cpu task
    by_cases hi : i = s.tasks.length
    · have htask : s.tasks.length = i := hi.symm
      subst htask
      rw [getElem?_addTask_self] at ht
      cases ht
      exact ⟨cpu, hnew⟩
    · refine hempty ?_
      rw [getElem?_addTask_of_ne]
      · exact hnone
      · exact hi
  | wakeDue => exact hempty (getElem?_wake_of_none hnone)
  | reclaim =>
    exact hempty (getElem?_wakeAll_of_none _ (getElem?_update_of_none hnone))
  | count => exact hempty (by rw [countEvent_frame]; exact hnone)
  | wakeBlocked => exact hempty (getElem?_wake_of_none hnone)
  | handoff =>
    refine hempty ?_
    unfold State.takeHandoff
    dsimp only
    split
    · exact getElem?_update_of_none hnone
    · exact hnone
  | idle hat _ _ _ _ _ hdeparted =>
    exact hempty (hdeparted.none hnone (by simp))
  | dispatch hat _ hclaimed hdeparted =>
    refine hempty (hdeparted.none hnone ?_)
    rintro ⟨⟩
    exact absurd hclaimed.found (by simp [hnone])
  | bounce hfound hqueue hpinned hother =>
    exact absurd (hhomed.own hfound hpinned hqueue) hother
  | prepare hmode =>
    refine hempty ?_
    unfold State.prepare
    rw [hmode]
    exact hnone
  | switchStack _ hrsp hswitched => exact hempty (hswitched.none hnone)
  | dropFiles => exact hempty (getElem?_update_of_none hnone)
  | exit | waitTask | waitEvent | sleep => exact hempty (getElem?_block_of_none hnone)
  | enterIdle hat hcurrent =>
    refine hempty ?_
    unfold State.enterIdle
    rw [hcurrent]
    exact hnone
  | record | forget | stay | halt | yield => exact hempty hnone

theorem Consistent.origin (h : s.Consistent) (hmove : Move action s s')
    (ht : s'.tasks[i]? = some t) :
    (∃ t0, s.tasks[i]? = some t0 ∧ Change action s s' i t0 t) ∨ ∃ cpu, New action s cpu t := by
  cases ht0 : s.tasks[i]? with
  | none => exact .inr (h.homed.born hmove ht0 ht)
  | some t0 =>
    obtain ⟨t', ht', hchange⟩ := h.seated.change h.homed hmove ht0
    rw [ht] at ht'
    cases ht'
    exact .inl ⟨t0, rfl, hchange⟩

end State

inductive Turn (action : Action) (s s' : State) (cpu : Nat) : Prop where
  | same (hsame : State.SamePlace (s.cpus cpu) (s'.cpus cpu)) : Turn action s s' cpu
  | called (hbefore : (s.cpus cpu).mode.pending = none) (hafter : (s'.cpus cpu).mode.pending = none)
      (htask : (s'.cpus cpu).currentTask = (s.cpus cpu).currentTask)
      (hstack : (s'.cpus cpu).onStack = (s.cpus cpu).onStack)
      (hroot : (s'.cpus cpu).root = (s.cpus cpu).root) : Turn action s s' cpu
  | departed {next : Option Nat} {pending : Switch} (hbefore : (s.cpus cpu).mode.pending = none)
      (hdeparted : State.Departed cpu next pending s s') : Turn action s s' cpu
  | prepared {pending : Switch} (haction : action = .prepare cpu)
      (hbefore : (s.cpus cpu).mode = .preparing pending)
      (hafter : (s'.cpus cpu).mode = .switching pending)
      (htask : (s'.cpus cpu).currentTask = (s.cpus cpu).currentTask)
      (hstack : (s'.cpus cpu).onStack = (s.cpus cpu).onStack) : Turn action s s' cpu
  | switched {rsp : Nat} {pending : Switch} (haction : action = .switchStack cpu rsp)
      (hbefore : (s.cpus cpu).mode = .switching pending)
      (hswitched : State.Switched cpu rsp pending s s') : Turn action s s' cpu
  | idled (haction : action = .enterIdle cpu) (hbefore : (s.cpus cpu).mode.pending = none)
      (hcurrent : (s.cpus cpu).currentTask = none) (hmode : (s'.cpus cpu).mode = (s.cpus cpu).mode)
      (htask : (s'.cpus cpu).currentTask = none) (hstack : (s'.cpus cpu).onStack = none)
      (hroot : (s'.cpus cpu).root = (s.cpus cpu).root) : Turn action s s' cpu

namespace State

variable {s s' : State} {action : Action} {a b : Nat}

theorem turn_same (hcpus : s'.cpus = s.cpus) : Turn action s s' a := by
  apply Turn.same
  rw [hcpus]
  exact ⟨rfl, rfl, rfl, rfl, rfl⟩

theorem turn_update {c : Cpu} (hcpus : s'.cpus = Function.update s.cpus b c)
    (hturn : s'.cpus b = c → Turn action s s' b) : Turn action s s' a := by
  by_cases hab : a = b
  · rw [hab]
    apply hturn
    rw [hcpus, update_self]
  · apply Turn.same
    rw [hcpus, update_of_ne hab]
    exact ⟨rfl, rfl, rfl, rfl, rfl⟩

theorem turn_mode {m : Mode}
    (hcpus : s'.cpus = Function.update s.cpus b { s.cpus b with mode := m })
    (hbefore : (s.cpus b).mode.pending = none) (hafter : m.pending = none) :
    Turn action s s' a := by
  refine turn_update hcpus fun hc => .called hbefore ?_ ?_ ?_ ?_
  · rw [hc]
    exact hafter
  · rw [hc]
  · rw [hc]
  · rw [hc]

theorem turn_block {final : Bool} {f : Task → Task} (hbefore : (s.cpus b).mode.pending = none) :
    Turn action s (s.block b final f) a := by
  refine turn_mode (m := .blocking final) ?_ hbefore rfl
  unfold block
  split <;> rfl

theorem Homed.turn (hhomed : s.Homed) (hmove : Move action s s') (a : Nat) :
    Turn action s s' a := by
  cases hmove with
  | clerical hsame => exact turn_same hsame.cpus
  | record hsame =>
    refine turn_update rfl fun hc => .same ?_
    rw [hc]
    exact hsame
  | wakeDue => exact turn_same (kept_wakeDue _ s).cpus
  | reclaim =>
    exact turn_same ((kept_release _ _ _ s).trans (kept_wakeAll kept_wakeWaiter _ _)).cpus
  | count => exact turn_same (kept_countEvent _ s).cpus
  | wakeBlocked => exact turn_same (kept_wakeBlocked _ s).cpus
  | handoff => exact turn_same (kept_takeHandoff _ s).cpus
  | stay hat => exact turn_mode rfl (pending_of_maySchedule hat.2) (pending_returned _)
  | idle hat _ _ _ _ _ hdeparted =>
    obtain ⟨c, hcpus, _⟩ := hdeparted.cpus
    exact turn_update hcpus fun _ => .departed (pending_of_maySchedule hat.2) hdeparted
  | dispatch hat _ _ hdeparted =>
    obtain ⟨c, hcpus, _⟩ := hdeparted.cpus
    exact turn_update hcpus fun _ => .departed (pending_of_maySchedule hat.2) hdeparted
  | bounce hfound hqueue hpinned hother =>
    exact absurd (hhomed.own hfound hpinned hqueue) hother
  | prepare hmode =>
    unfold State.prepare
    rw [hmode]
    refine turn_update rfl fun hc => .prepared rfl hmode ?_ ?_ ?_
    · rw [hc]
    · rw [hc]
    · rw [hc]
  | switchStack hmode hrsp hswitched =>
    obtain ⟨c, hcpus, _⟩ := hswitched.cpus
    exact turn_update hcpus fun _ => .switched rfl hmode hswitched
  | dropFiles hat =>
    refine turn_mode (m := .exiting) ?_ (pending_of_isRunning hat.2) rfl
    rfl
  | halt hat => exact turn_mode rfl (pending_of_isRunning hat.2) rfl
  | exit hat =>
    have hmode := mode_of_isExiting hat.2
    exact turn_block (by rw [hmode]; rfl)
  | waitTask hat | waitEvent hat | sleep hat => exact turn_block (pending_of_isRunning hat.2)
  | yield hat => exact turn_mode rfl (pending_of_isRunning hat.2) rfl
  | enterIdle hat hcurrent =>
    unfold State.enterIdle
    rw [hcurrent]
    refine turn_update rfl fun hc => .idled rfl (pending_of_isRunning hat.2) hcurrent ?_ ?_ ?_ ?_
    · rw [hc]
    · rw [hc]
    · rw [hc]
    · rw [hc]
  | create | forget => exact turn_same rfl

end State

structure SameWords (s s' : State) : Prop where
  events : s'.events = s.events
  retired : s'.retired = s.retired
  freed : s'.freed = s.freed
  nextId : s'.nextId = s.nextId
  kernelRoot : s'.kernelRoot = s.kernelRoot

inductive Words (action : Action) (s s' : State) : Prop where
  | same (hsame : SameWords s s') : Words action s s'
  | given (hcreates : action.bottom ≠ none) (hevents : s'.events = s.events)
      (hretired : s'.retired = s.retired) (hfreed : s'.freed = s.freed)
      (hroot : s'.kernelRoot = s.kernelRoot) : Words action s s'
  | counted {key : Nat} (haction : action = .wakeEvent key) (hcounted : s' = s.countEvent key) :
      Words action s s'
  | forgotten {key : Nat} (haction : action = .forgetEvent key)
      (hforgotten : s' = s.forgetEvent key) : Words action s s'
  | released {index slot : Nat} {task : Task} (htask : s.tasks[index]? = some task)
      (hzombie : task.status = .zombie) (hbottom : task.kernelBottom ≠ 0)
      (hretired : s.retired slot = task.kernelBottom)
      (hwoken : s' = (s.release index slot task).wakeAll State.wakeWaiter task.id) : Words action s
      s'
  | switched {cpu rsp : Nat} {pending : Switch} (haction : action = .switchStack cpu rsp)
      (hbefore : (s.cpus cpu).mode = .switching pending)
      (hswitched : State.Switched cpu rsp pending s s') : Words action s s'

namespace State

variable {s s' : State} {action : Action}

theorem sameWords_wake (reset : Task → Task) (place : Task → Nat) (index : Nat) (s : State) :
    SameWords s (s.wake reset place index) := by
  unfold wake
  split
  · exact ⟨rfl, rfl, rfl, rfl, rfl⟩
  · split <;> exact ⟨rfl, rfl, rfl, rfl, rfl⟩

theorem sameWords_wakeAll {reset : Task → Task} {place : Task → Nat} (key : Nat) (s : State) :
    SameWords s (s.wakeAll (State.wake reset place) key) := by
  refine wakeAll_preserve (I := SameWords s) (fun s1 index _ h => ?_) ⟨rfl, rfl, rfl, rfl, rfl⟩
  have h1 := sameWords_wake reset place index s1
  exact ⟨h1.events.trans h.events, h1.retired.trans h.retired, h1.freed.trans h.freed,
    h1.nextId.trans h.nextId, h1.kernelRoot.trans h.kernelRoot⟩

theorem sameWords_block (cpu : Nat) (final : Bool) (f : Task → Task) (s : State) :
    SameWords s (s.block cpu final f) := by
  unfold block
  split <;> exact ⟨rfl, rfl, rfl, rfl, rfl⟩

theorem Homed.words (hhomed : s.Homed) (hmove : Move action s s') : Words action s s' := by
  cases hmove with
  | clerical hsame =>
    by_cases hnone : action.bottom = none
    · exact .same ⟨hsame.events, hsame.retired, hsame.freed, hsame.nextId.trans (if_pos hnone),
        hsame.kernelRoot⟩
    · exact .given hnone hsame.events hsame.retired hsame.freed hsame.kernelRoot
  | create hnew => exact .given (by simp [hnew.bottom]) rfl rfl rfl rfl
  | wakeDue => exact .same (sameWords_wake _ _ _ s)
  | reclaim _ htask hzombie hbottom _ _ hretired =>
    exact .released htask hzombie hbottom hretired rfl
  | count => exact .counted rfl rfl
  | forget => exact .forgotten rfl rfl
  | wakeBlocked => exact .same (sameWords_wake _ _ _ s)
  | handoff =>
    unfold State.takeHandoff
    dsimp only
    split <;> exact .same ⟨rfl, rfl, rfl, rfl, rfl⟩
  | idle hat _ _ _ _ _ hdeparted =>
    exact .same ⟨hdeparted.events, hdeparted.retired, hdeparted.freed, hdeparted.nextId,
      hdeparted.kernelRoot⟩
  | dispatch hat _ _ hdeparted =>
    exact .same ⟨hdeparted.events, hdeparted.retired, hdeparted.freed, hdeparted.nextId,
      hdeparted.kernelRoot⟩
  | bounce hfound hqueue hpinned hother =>
    exact absurd (hhomed.own hfound hpinned hqueue) hother
  | prepare hmode =>
    unfold State.prepare
    rw [hmode]
    exact .same ⟨rfl, rfl, rfl, rfl, rfl⟩
  | switchStack hmode hrsp hswitched => exact .switched rfl hmode hswitched
  | exit | waitTask | waitEvent | sleep => exact .same (sameWords_block _ _ _ s)
  | enterIdle hat hcurrent =>
    unfold State.enterIdle
    rw [hcurrent]
    exact .same ⟨rfl, rfl, rfl, rfl, rfl⟩
  | record | stay | dropFiles | halt | yield => exact .same ⟨rfl, rfl, rfl, rfl, rfl⟩

theorem Homed.kernelRoot (hhomed : s.Homed) (hmove : Move action s s') :
    s'.kernelRoot = s.kernelRoot := by
  cases hhomed.words hmove with
  | same hsame => exact hsame.kernelRoot
  | given _ _ _ _ hroot => exact hroot
  | counted _ hcounted => rw [hcounted, countEvent_frame]
  | forgotten _ hforgotten => rw [hforgotten, forgetEvent]
  | released _ _ _ _ hwoken =>
    rw [hwoken]
    exact (sameWords_wakeAll _ _).kernelRoot
  | switched _ _ hswitched => exact hswitched.kernelRoot

end State

end Kaguya.Scheduler
