import Kaguya.Scheduler.Ownership

/-!
# Leaving a task

What `schedule` writes down when it has found another task, or none for a processor that cannot go
on with its own, and what the context switch does with it. These are the only places where a
processor comes to another task.
-/

namespace Kaguya.Scheduler

namespace State

variable {s s' : State} {cpu index next : Nat} {task : Task}

def left (c : Cpu) (task : Task) : Task := { task with
  status := if task.status = .running then .switchingOut else task.status
  userRsp := c.userStack
  userGs := c.userGs }

/-- The root of the page tables of a task, or of the kernel's for the idle loop and for tasks that
have none of their own. -/
def rootOf (owner : Option Nat) (s : State) : Nat :=
  ((owner.bind fun index => s.tasks[index]?).bind Task.addressSpace).getD s.kernelRoot

/-- The processor has decided to leave its task: for another one, or for the idle loop. -/
structure Departed (cpu : Nat) (next : Option Nat) (pending : Switch) (s s' : State) : Prop where
  left : ∀ i, (s.cpus cpu).currentTask = some i →
    s'.tasks[i]? = (s.tasks[i]?).map (left (s.cpus cpu))
  others : ∀ i, next ≠ some i → (s.cpus cpu).currentTask ≠ some i → s'.tasks[i]? = s.tasks[i]?
  cpus : ∃ c, s'.cpus = Function.update s.cpus cpu c ∧ c.currentTask = next
    ∧ c.idleStack = (s.cpus cpu).idleStack ∧ c.mode = .preparing pending
    ∧ c.onStack = (s.cpus cpu).onStack
  current : s'.current = Function.update s.current cpu next
  handoff : s'.handoff = s.handoff
  retired : s'.retired = s.retired
  freed : s'.freed = s.freed
  events : s'.events = s.events
  nextId : s'.nextId = s.nextId
  outgoing : pending.outgoing = (s.cpus cpu).currentTask
  incoming : pending.incoming = next
  encoded : pending.encoded = (s.switchOut cpu).1
  bottom : pending.bottom = s.retiring cpu
  root : pending.root = s'.rootOf next
  loaded : (s'.cpus cpu).root = (s.cpus cpu).root
  kernelRoot : s'.kernelRoot = s.kernelRoot

theorem getElem?_switchOut (cpu i : Nat) (s : State) :
    (s.switchOut cpu).2.tasks[i]? = if (s.cpus cpu).currentTask = some i then
      (s.tasks[i]?).map fun t => { t with
        status := if t.status = .running then .switchingOut else t.status }
      else s.tasks[i]? := by
  unfold switchOut
  cases hcurrent : (s.cpus cpu).currentTask with
  | none => simp
  | some current =>
    dsimp only
    by_cases hi : current = i
    · subst hi
      cases htask : s.tasks[current]? with
      | none => simp [statusOf, htask]
      | some task =>
        rw [statusOf_of_getElem? htask, if_pos rfl]
        split
        · rename_i hrunning
          rw [getElem?_update_self htask]
          simp [hrunning]
        · rename_i hother
          rw [htask]
          simp [hother]
    · have hne : ¬ some current = some i := by simpa using hi
      rw [if_neg hne]
      split
      · exact getElem?_update_of_ne (Ne.symm hi)
      · rfl

theorem getElem?_saveUser (cpu i : Nat) (s : State) :
    (s.saveUser cpu).tasks[i]? = if (s.cpus cpu).currentTask = some i then
      (s.tasks[i]?).map fun t => { t with
        userRsp := (s.cpus cpu).userStack, userGs := (s.cpus cpu).userGs }
      else s.tasks[i]? := by
  unfold saveUser
  cases hcurrent : (s.cpus cpu).currentTask with
  | none => simp
  | some =>
    rw [getElem?_update]
    simp

theorem Owned.onCpu_current (h : s.Owned) (hcurrent : (s.cpus cpu).currentTask = some index) :
    s.onCpu index = true := h.exclusive.taken_of_holds (a := cpu) (.inl hcurrent)

theorem current_ne_of_free (h : s.Owned) (hfound : s.tasks[next]? = some task)
    (hfree : task.onCpu = false) : (s.cpus cpu).currentTask ≠ some next := by
  intro hcurrent
  have hon := h.onCpu_current hcurrent
  rw [onCpu_of_getElem? hfound, hfree] at hon
  cases hon

theorem switchOut_frame (cpu : Nat) (s : State) :
    ∃ tasks, (s.switchOut cpu).2 = { s with tasks := tasks } := by
  unfold switchOut
  split
  · exact ⟨_, rfl⟩
  · split <;> exact ⟨_, rfl⟩

theorem saveUser_frame (cpu : Nat) (s : State) :
    ∃ tasks, s.saveUser cpu = { s with tasks := tasks } := by
  unfold saveUser
  split <;> exact ⟨_, rfl⟩

theorem retiring_switchOut (cpu : Nat) (s : State) :
    (s.switchOut cpu).2.retiring cpu = s.retiring cpu := by
  have hcpus : (s.switchOut cpu).2.cpus = s.cpus := (kept_switchOut cpu s).cpus
  unfold retiring
  rw [hcpus]
  cases hcurrent : (s.cpus cpu).currentTask with
  | none => rfl
  | some current =>
    dsimp only
    rw [getElem?_switchOut, if_pos hcurrent]
    cases s.tasks[current]? with
    | none => rfl
    | some task =>
      by_cases hrunning : task.status = .running
      · simp [hrunning]
      · simp [hrunning]

section Congr
variable (hcpus : s'.cpus = s.cpus)
  (htasks : ∀ i, (s.cpus cpu).currentTask = some i → s'.tasks[i]? = s.tasks[i]?)
include hcpus htasks

theorem switchOut_congr : (s'.switchOut cpu).1 = (s.switchOut cpu).1 := by
  unfold switchOut
  rw [hcpus]
  cases hcurrent : (s.cpus cpu).currentTask with
  | none => rfl
  | some current =>
    dsimp only
    rw [statusOf_congr (htasks current hcurrent)]
    split <;> rfl

theorem retiring_congr : s'.retiring cpu = s.retiring cpu := by
  unfold retiring
  rw [hcpus]
  cases hcurrent : (s.cpus cpu).currentTask with
  | none => rfl
  | some current =>
    dsimp only
    rw [htasks current hcurrent]

end Congr

section Dispatch
variable {queues : Nat → List Nat}

theorem departed_scheduleTask {f : Task → Task} (h : s.Owned)
    (hclaimed : Claimed cpu next task s queues)
    (hf : ∃ affinity, f task = { task with status := .claimed, affinity := affinity })
    (hpinned : ¬ (task.pinned.isSome ∧ task.pinned ≠ some cpu)) :
    ∃ pending, Departed cpu (some next) pending s
        ((({ s with queues := queues }).update next f).scheduleTask cpu next)
      ∧ ((({ s with queues := queues }).update next f).scheduleTask cpu next).tasks[next]?
        = some { task with status := .running, onCpu := true, affinity := cpu, wakeTick := 0 }
      ∧ ((({ s with queues := queues }).update next f).scheduleTask cpu next).queues = queues := by
  have hne : (s.cpus cpu).currentTask ≠ some next :=
    current_ne_of_free h hclaimed.found hclaimed.free
  obtain ⟨affinity, hf⟩ := hf
  generalize hs1 : ({ s with queues := queues }).update next f = s1
  have hcpus : s1.cpus = s.cpus := by rw [← hs1]; rfl
  have htask : s1.tasks[next]? = some { task with status := .claimed, affinity := affinity } := by
    rw [← hs1, ← hf]
    exact getElem?_update_self hclaimed.found
  have hothers : ∀ i, i ≠ next → s1.tasks[i]? = s.tasks[i]? := by
    intro i hi
    rw [← hs1]
    exact getElem?_update_of_ne hi
  obtain ⟨tasks1, hframe1⟩ : ∃ tasks, s1 = { s with tasks := tasks, queues := queues } :=
    ⟨_, hs1.symm⟩
  have hcurrent : ∀ i, (s.cpus cpu).currentTask = some i → s1.tasks[i]? = s.tasks[i]? := by
    intro i hi
    apply hothers
    rintro rfl
    exact hne hi
  have hencoded := switchOut_congr hcpus hcurrent
  have hbottom := retiring_congr hcpus hcurrent
  have hretiring := retiring_switchOut cpu s1
  have hframe2 := switchOut_frame cpu s1
  have hswitched := fun i => getElem?_switchOut cpu i s1
  unfold scheduleTask
  generalize s1.switchOut cpu = out at hencoded hretiring hframe2 hswitched ⊢
  obtain ⟨encoded, s2⟩ := out
  simp only at hencoded hretiring hframe2 hswitched
  obtain ⟨tasks2, hframe2⟩ := hframe2
  have hcpus2 : s2.cpus = s.cpus := by rw [hframe2]; exact hcpus
  have htask2 : s2.tasks[next]? = some { task with status := .claimed, affinity := affinity } := by
    rw [hswitched, hcpus, if_neg hne, htask]
  obtain ⟨tasks3, hframe3⟩ := saveUser_frame cpu s2
  have hsaved := fun i => getElem?_saveUser cpu i s2
  dsimp only
  rw [htask2]
  dsimp only
  rw [if_neg hpinned]
  generalize s2.saveUser cpu = s3 at hframe3 hsaved ⊢
  have htask3 : s3.tasks[next]? = some { task with status := .claimed, affinity := affinity } := by
    rw [hsaved, hcpus2, if_neg hne, htask2]
  have hframe : s3 = { s with tasks := tasks3, queues := queues } := by
    rw [hframe3, hframe2, hframe1]
  have hentered := getElem?_update_self (f := fun t => { t with
    status := .running, onCpu := true, affinity := cpu, wakeTick := 0 }) htask3
  refine ⟨s2.switchTo cpu encoded next { task with status := .claimed, affinity := affinity },
    ⟨?_, ?_, ?_, ?_, ?_, ?_, ?_, ?_, ?_, ?_, rfl, hencoded, ?_, ?_, ?_, ?_⟩, hentered, ?_⟩
  · intro i hi
    have hin : i ≠ next := by
      rintro rfl
      exact hne hi
    refine (getElem?_update_of_ne hin).trans ?_
    rw [hsaved, hcpus2, if_pos hi, hswitched, hcpus, if_pos hi, hothers i hin, Option.map_map]
    rfl
  · intro i hnext hi
    have hin : i ≠ next := by
      rintro rfl
      exact hnext rfl
    refine (getElem?_update_of_ne hin).trans ?_
    rw [hsaved, hcpus2, if_neg hi, hswitched, hcpus, if_neg hi, hothers i hin]
  · refine ⟨{ s.cpus cpu with
      currentTask := some next
      ticksLeft := QUANTUM
      needReschedule := false
      mode := .preparing _ }, ?_, rfl, rfl, rfl, rfl⟩
    simp [hframe]
  iterate 6 · simp [hframe]
  · simp [switchTo, hcpus2]
  · simp [switchTo, hretiring, hbottom]
  · have hkernel : s2.kernelRoot = s3.kernelRoot := by rw [hframe, hframe2, hframe1]
    rw [switchTo, rootOf, hkernel]
    exact congrArg (fun t => Option.getD (Option.bind t Task.addressSpace) _) hentered.symm
  all_goals simp [hframe]

theorem departed_scheduleIdle (queues : Nat → List Nat) {current : Nat}
    (hcurrent : (s.cpus cpu).currentTask = some current) (hidle : (s.cpus cpu).idleStack ≠ 0)
    (hstatus : s.statusOf current = .zombie ∨ s.statusOf current = .sleeping
      ∨ s.statusOf current = .waiting) :
    ∃ pending, Departed cpu none pending s (({ s with queues := queues }).scheduleIdle cpu)
      ∧ (({ s with queues := queues }).scheduleIdle cpu).queues = queues := by
  have hrunning : s.statusOf current ≠ .running := by
    rcases hstatus with hstatus | hstatus | hstatus <;> simp [hstatus]
  have hgo : ¬ ((s.cpus cpu).idleStack = 0 ∨ (s.statusOf current ≠ .zombie
      ∧ s.statusOf current ≠ .sleeping ∧ s.statusOf current ≠ .waiting)) := by
    rcases hstatus with hstatus | hstatus | hstatus <;> simp [hidle, hstatus]
  have hgo' : ¬ ((s.cpus cpu).idleStack = 0
      ∨ (({ s with queues := queues } : State).statusOf current ≠ .zombie
        ∧ ({ s with queues := queues } : State).statusOf current ≠ .sleeping
        ∧ ({ s with queues := queues } : State).statusOf current ≠ .waiting)) := hgo
  obtain ⟨tasks, hframe⟩ := saveUser_frame cpu { s with queues := queues }
  have hsaved := fun i => getElem?_saveUser cpu i { s with queues := queues }
  unfold scheduleIdle
  simp only [hcurrent]
  rw [if_neg hgo']
  generalize ({ s with queues := queues } : State).saveUser cpu = s1 at hframe hsaved ⊢
  refine ⟨⟨some current, none, (s.cpus cpu).idleStack, 0, s.retiring cpu, 0, 0, 0, s.kernelRoot⟩,
    ⟨?_, ?_, ?_, ?_, ?_, ?_, ?_, ?_, ?_, hcurrent.symm, rfl, ?_, rfl, ?_, ?_, ?_⟩, ?_⟩
  · intro i hi
    refine (hsaved i).trans ?_
    rw [if_pos hi]
    cases htask : s.tasks[i]? with
    | none => simp
    | some task =>
      have hother : task.status ≠ .running := by
        rw [← statusOf_of_getElem? htask]
        rw [hcurrent] at hi
        cases hi
        exact hrunning
      simp [State.left, hother]
  · intro i _ hi
    refine (hsaved i).trans ?_
    rw [if_neg hi]
  · refine ⟨{ s.cpus cpu with
      currentTask := none
      userStack := 0
      ticksLeft := 0
      needReschedule := false
      mode := .preparing _ }, ?_, rfl, rfl, rfl, rfl⟩
    rw [hframe]
    rfl
  iterate 6 · simp [hframe]
  · simp [switchOut, hcurrent, hrunning]
  · simp [hframe, rootOf]
  all_goals simp [hframe]

end Dispatch

structure Switched (cpu rsp : Nat) (pending : Switch) (s s' : State) : Prop where
  left : ∀ i, pending.outgoing = some i →
    s'.tasks[i]? = (s.tasks[i]?).map fun t => { t with stack := rsp, onCpu := false }
  others : ∀ i, pending.outgoing ≠ some i → s'.tasks[i]? = s.tasks[i]?
  cpus : ∃ c, s'.cpus = Function.update s.cpus cpu c ∧ c.currentTask = (s.cpus cpu).currentTask
    ∧ c.idleStack = (if pending.outgoing = none then rsp else (s.cpus cpu).idleStack)
    ∧ c.mode = .running ∧ c.onStack = pending.incoming
  current : s'.current = s.current
  queues : s'.queues = s.queues
  handoff : s'.handoff = if pending.encoded = 0 then s.handoff
    else Function.update s.handoff cpu pending.encoded
  retired : s'.retired = (s.retire pending.bottom).retired
  freed : s'.freed = s.freed
  events : s'.events = s.events
  nextId : s'.nextId = s.nextId
  loaded : (s'.cpus cpu).root = (s.cpus cpu).root
  kernelRoot : s'.kernelRoot = s.kernelRoot

theorem retire_frame (bottom : Nat) (s : State) :
    s.retire bottom = { s with retired := (s.retire bottom).retired } := by
  unfold retire
  split
  · rfl
  · split <;> rfl

theorem retired_retire_congr (bottom : Nat) (hretired : s'.retired = s.retired) :
    (s'.retire bottom).retired = (s.retire bottom).retired := by
  unfold retire
  rw [hretired]
  split
  · exact hretired
  · split
    · rfl
    · exact hretired

theorem publish_eq (cpu : Nat) (pending : Switch) (s : State) : s.publish cpu pending = { s with
    handoff := if pending.encoded = 0 then s.handoff
      else Function.update s.handoff cpu pending.encoded
    retired := (s.retire pending.bottom).retired } := by
  have hslots : (({ s with
      handoff := Function.update s.handoff cpu pending.encoded } : State).retire
        pending.bottom).retired
        = (s.retire pending.bottom).retired := retired_retire_congr pending.bottom rfl
  unfold publish
  by_cases hencoded : pending.encoded = 0
  · simp only [hencoded, ne_eq, not_true_eq_false, if_false, if_true]
    exact retire_frame pending.bottom s
  · simp only [hencoded, ne_eq, not_false_eq_true, if_false, if_true]
    rw [retire_frame, hslots]

theorem switched_switchStack {pending : Switch} {rsp : Nat}
    (hmode : (s.cpus cpu).mode = .switching pending) :
    Switched cpu rsp pending s (s.switchStack cpu rsp) := by
  unfold switchStack
  rw [hmode]
  dsimp only
  rw [publish_eq]
  cases hout : pending.outgoing with
  | none =>
    constructor
    · intro i hi
      simp [hout] at hi
    · intro i _
      rfl
    · refine ⟨{ s.cpus cpu with
        idleStack := rsp, mode := .running, onStack := pending.incoming }, ?_, rfl, ?_, rfl, rfl⟩
      · simp [saveStack]
      · simp [hout]
    · rfl
    · rfl
    · rfl
    · exact retired_retire_congr pending.bottom rfl
    · rfl
    · rfl
    · rfl
    · simp [saveStack]
    · rfl
  | some task =>
    constructor
    · intro i hi
      rw [hout] at hi
      cases hi
      refine (getElem?_update task task _ s).trans ?_
      rw [if_pos rfl]
    · intro i hi
      refine getElem?_update_of_ne ?_
      rintro rfl
      exact hi hout
    · refine ⟨{ s.cpus cpu with mode := .running, onStack := pending.incoming }, rfl, rfl, ?_, rfl,
        rfl⟩
      simp [hout]
    · rfl
    · rfl
    · rfl
    · exact retired_retire_congr pending.bottom rfl
    · rfl
    · rfl
    · rfl
    · simp [saveStack]
    · rfl

end State

end Kaguya.Scheduler
