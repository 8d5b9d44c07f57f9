import Kaguya.Lib.Queues
import Kaguya.Scheduler.Seating

/-!
# Where the tasks are

A task that has not exited is in one place: on a processor, in a run queue, on its way out of a
processor, or asleep. The run queues share out the ready tasks, and every move takes a task from one
of its places to another.
-/

namespace Kaguya.Scheduler

namespace State

variable {s s' : State} {action : Action} {cpu index : Nat} {task : Task} {pending : Switch}

def Queued (s : State) : Prop := SharedOut (fun i => s.statusOf i = .ready) s.queues

section
variable (h : s.Queued)
include h

theorem Queued.congr (hqueues : s'.queues = s.queues)
    (hready : ∀ i, s'.statusOf i = .ready ↔ s.statusOf i = .ready) : s'.Queued := by
  unfold Queued
  rw [hqueues]
  exact SharedOut.congr h hready

theorem Queued.push (index : Nat) (hbefore : s.statusOf index ≠ .ready)
    (hafter : s'.statusOf index = .ready) (hothers : ∀ i, i ≠ index → s'.statusOf i = s.statusOf i)
    (hqueues : s'.queues = Function.update s.queues cpu (s.queues cpu ++ [index])) : s'.Queued := by
  unfold Queued
  rw [hqueues]
  refine SharedOut.push h hbefore cpu fun i => ?_
  by_cases hi : i = index
  · simp [hi, hafter]
  · simp [hi, hothers i hi]

theorem Queued.other (index : Nat) (hbefore : s.statusOf index ≠ .ready)
    (hafter : s'.statusOf index ≠ .ready) (hothers : ∀ i, i ≠ index → s'.statusOf i = s.statusOf i)
    (hqueues : s'.queues = s.queues) : s'.Queued := by
  refine h.congr hqueues fun i => ?_
  by_cases hi : i = index
  · simp [hi, hbefore, hafter]
  · rw [hothers i hi]

theorem Queued.wake {reset : Task → Task} {place : Task → Nat} (htask : s.tasks[index]? = some task)
    (hblocked : task.status = .waiting ∨ task.status = .sleeping) :
    (s.wake reset place index).Queued := by
  have hbefore : s.statusOf index ≠ .ready := by
    rw [statusOf_of_getElem? htask]
    rcases hblocked with hs | hs <;> simp [hs]
  rcases wake_cases reset place htask with ⟨_, hwake⟩ | ⟨_, hwake⟩
  · rw [hwake]
    refine h.other index hbefore ?_ (fun i hi => statusOf_congr (getElem?_update_of_ne hi)) rfl
    rw [statusOf_of_getElem? (getElem?_update_self htask)]
    simp
  · rw [hwake]
    exact h.push index hbefore (statusOf_of_getElem? (getElem?_update_self htask))
      (fun i hi => statusOf_congr (getElem?_update_of_ne hi)) rfl

theorem Queued.wakeWaiter {key : Nat} (hwaits : s.waitsFor key index = true) :
    (s.wakeWaiter index).Queued := by
  obtain ⟨task, htask, hwaiting, _⟩ := waitsFor_iff.mp hwaits
  exact h.wake htask (.inl hwaiting)

theorem Queued.takeHandoff (cpu : Nat) : (s.takeHandoff cpu).Queued := by
  have hcleared : ({ s with handoff := Function.update s.handoff cpu 0 } : State).Queued := h
  unfold State.takeHandoff
  dsimp only
  split
  · rename_i hfinished
    obtain ⟨_, _, hswitching⟩ := hfinished
    have hzombie : ({ s with handoff := Function.update s.handoff cpu 0 } : State).statusOf
        (s.handoff cpu - 1) ≠ .zombie := by simp [hswitching]
    obtain ⟨task, htask, _⟩ := exists_of_statusOf hzombie
    exact hcleared.push (s.handoff cpu - 1) (by simp [hswitching])
      (statusOf_of_getElem? (getElem?_update_self htask))
      (fun i hi => statusOf_congr (getElem?_update_of_ne hi)) rfl
  · exact hcleared

theorem Queued.searched (hsearched : Searched s s'.queues)
    (hready : ∀ i, s'.statusOf i = .ready ↔ s.statusOf i = .ready) : s'.Queued := by
  apply SharedOut.shrink h (fun i hi => (hready i).mp hi) hsearched.sub
  · exact fun q i hi hr => hsearched.kept q i hi ((hready i).mp hr)
  · exact fun q i hi => (hready i).mpr ((h.waits_iff i).mpr ⟨q, (hsearched.sub q).subset hi⟩)

end

variable {next : Nat} {f : Task → Task} {I : State → Prop}

theorem Queued.claimed (h : s.Queued) (hclaimed : Claimed cpu next task s s'.queues)
    (hready : ∀ i, s'.statusOf i = .ready ↔ s.statusOf i = .ready ∧ i ≠ next) : s'.Queued := by
  obtain ⟨q, hsource, _⟩ := hclaimed.source
  exact SharedOut.pop h q hclaimed.sub hsource hclaimed.kept hready

theorem Departed.ready_iff {next : Option Nat} (hdeparted : Departed cpu next pending s s')
    (hi : next ≠ some index)
    (hcurrent : (s.cpus cpu).currentTask = some index → s.statusOf index ≠ .ready) :
    s'.statusOf index = .ready ↔ s.statusOf index = .ready := by
  by_cases hold : (s.cpus cpu).currentTask = some index
  · have hnot := hcurrent hold
    rcases hdeparted.status hold with ⟨_, hstatus, _⟩ | ⟨_, hstatus, _⟩
    · simp [hstatus, hnot]
    · rw [hstatus]
  · rw [statusOf_congr (hdeparted.others index hi hold)]

theorem Queued.own (h : s.Queued) (howned : s.Owned) (hseated : s.Seated)
    (hcurrent : (s.cpus cpu).currentTask = some index) (hf : ∀ t, (f t).status ≠ .ready)
    (htasks : s'.tasks = (s.update index f).tasks) (hqueues : s'.queues = s.queues) :
    s'.Queued := by
  obtain ⟨task, htask⟩ := howned.exists_current hcurrent
  have hself : s'.tasks[index]? = some (f task) := by
    rw [htasks]
    exact getElem?_update_self htask
  refine h.other index ((hseated.settled cpu).fits hcurrent).not_switching.2 ?_ (fun i hi => ?_)
    hqueues
  · rw [statusOf_of_getElem? hself]
    exact hf task
  · apply statusOf_congr
    rw [htasks]
    exact getElem?_update_of_ne hi

theorem Queued.block {final : Bool} (h : s.Queued) (howned : s.Owned) (hseated : s.Seated)
    (hf : ∀ t, (f t).status ≠ .ready) : (s.block cpu final f).Queued := by
  unfold State.block
  cases hcurrent : (s.cpus cpu).currentTask with
  | none => exact h
  | some => exact h.own howned hseated hcurrent hf rfl rfl

theorem Queued.move (h : s.Queued) (howned : s.Owned) (hhomed : s.Homed) (hseated : s.Seated)
    (hmove : Move action s s') : s'.Queued := by
  cases hmove with
  | clerical hsame =>
    refine h.congr hsame.queues fun i => ?_
    have hstatus : s'.statusOf i = s.statusOf i := statusOf_congr (by rw [hsame.tasks])
    rw [hstatus]
  | record => exact h
  | create hnew =>
    have hcounted : ({ s with nextId := (s.nextId + 1) % 2 ^ 64 } : State).Queued := h
    refine hcounted.push s.tasks.length (by simp [statusOf]) ?_
      (fun i hi => statusOf_congr (getElem?_addTask_of_ne hi)) rfl
    exact (statusOf_of_getElem? (getElem?_addTask_self ..)).trans hnew.status
  | wakeDue now _ htask hdue => exact h.wake htask (blocked_of_due hdue)
  | reclaim =>
    refine wakeAll_preserve (fun _ _ hwaits h => h.wakeWaiter hwaits) ?_
    refine h.congr rfl fun i => ?_
    rw [statusOf_release]
  | count =>
    rw [countEvent_frame]
    exact h
  | forget => exact h
  | wakeBlocked hwaits =>
    obtain ⟨task, htask, hwaiting, _⟩ := waitsFor_iff.mp hwaits
    exact h.wake htask (.inl hwaiting)
  | handoff => exact h.takeHandoff _
  | stay hat hsearched hstay => exact h.searched hsearched fun _ => Iff.rfl
  | idle hat _ _ _ _ hsearched hdeparted =>
    refine h.searched hsearched fun i => hdeparted.ready_iff (by simp) fun hi => ?_
    exact ((hseated.settled _).fits hi).not_switching.2
  | dispatch hat hhandoff hclaimed hdeparted hentered hschedules =>
    rename_i cpu pending next task
    refine h.claimed hclaimed fun i => ?_
    by_cases hi : i = next
    · rw [hi, statusOf_of_getElem? hentered]
      simp
    · have hne : some next ≠ some i := fun hsome => hi (Option.some.inj hsome).symm
      rw [hdeparted.ready_iff hne fun hold => ((hseated.settled cpu).fits hold).not_switching.2]
      simp [hi]
  | bounce hfound hqueue hpinned hother =>
    exact absurd (hhomed.own hfound hpinned hqueue) hother
  | prepare hmode =>
    unfold State.prepare
    rw [hmode]
    exact h
  | switchStack _ hrsp hswitched =>
    refine h.congr hswitched.queues fun i => ?_
    rw [hswitched.statusOf]
  | dropFiles =>
    refine h.congr rfl fun i => ?_
    exact Eq.congr_left (statusOf_dropFiles _ s i)
  | halt => exact h
  | exit => exact h.block howned hseated (by simp)
  | waitTask => exact h.block howned hseated (by simp)
  | waitEvent => exact h.block howned hseated (by simp)
  | sleep => exact h.block howned hseated (by simp)
  | yield => exact h
  | enterIdle hat hcurrent =>
    unfold State.enterIdle
    rw [hcurrent]
    exact h

structure Consistent (s : State) : Prop where
  owned : s.Owned
  homed : s.Homed
  seated : s.Seated
  queued : s.Queued

theorem Consistent.moves (h : s.Consistent) (hmoves : Moves action s s')
    (hmove : ∀ s s', s.Consistent → Move action s s' → I s → I s') (hI : I s) :
    s'.Homed ∧ s'.Seated ∧ s'.Queued ∧ I s' := by
  refine hmoves.preserve (I := fun s => s.Homed ∧ s.Seated ∧ s.Queued ∧ I s)
    (fun s s' howned hm hs => ?_) ⟨h.homed, h.seated, h.queued, hI⟩
  obtain ⟨hhomed, hseated, hqueued, hI⟩ := hs
  exact ⟨hhomed.move hm, hseated.move howned hhomed hm, hqueued.move howned hhomed hseated hm,
    hmove s s' ⟨howned, hhomed, hseated, hqueued⟩ hm hI⟩

theorem Consistent.preserve (h : s.Consistent) (action : Action)
    (hmove : ∀ s s', s.Consistent → Move action s s' → I s → I s') (hI : I s) :
    (s.step action).Homed ∧ (s.step action).Seated ∧ (s.step action).Queued ∧ I (s.step action) :=
  h.moves (moves_step h.owned action) hmove hI

theorem Consistent.step (h : s.Consistent) (action : Action) : (s.step action).Consistent := by
  have hmoved := h.preserve (I := fun _ => True) action (fun _ _ _ _ _ => trivial) trivial
  exact ⟨h.owned.step action, hmoved.1, hmoved.2.1, hmoved.2.2.1⟩

theorem Consistent.run (h : s.Consistent) (actions : List Action) : (s.run actions).Consistent := by
  induction actions generalizing s with
  | nil => exact h
  | cons action _ ih => exact ih (h.step action)

section Start
variable (kernelRoot : Nat)

@[simp]
theorem currentTask_start (cpu : Nat) : ((start kernelRoot).cpus cpu).currentTask = none := by
  by_cases hcpu : cpu = 0 <;> simp [start, init, enterIdle, hcpu]

@[simp]
theorem mode_start (cpu : Nat) : ((start kernelRoot).cpus cpu).mode = .running := by
  by_cases hcpu : cpu = 0 <;> simp [start, init, enterIdle, hcpu]

@[simp]
theorem statusOf_start (i : Nat) : (start kernelRoot).statusOf i = .zombie := by
  cases i with
  | zero => rfl
  | succ => simp [statusOf, start, init, enterIdle]

@[simp]
theorem handoff_start (cpu : Nat) : (start kernelRoot).handoff cpu = 0 := rfl

@[simp]
theorem queues_start (cpu : Nat) : (start kernelRoot).queues cpu = [] := rfl

theorem homed_start : (start kernelRoot).Homed := by
  have hlocated : ∀ {cpu i}, ¬ (start kernelRoot).Located cpu i := by
    intro cpu i hi
    simp [Located, Cpu.Names, Mode.pending] at hi
  refine ⟨fun hi => absurd hi hlocated, fun {i t} ht _ => ?_, fun _ _ hi => absurd hi hlocated⟩
  cases i with
  | zero =>
    cases ht
    exact ⟨rfl, rfl⟩
  | succ => simp [start, init, enterIdle] at ht

theorem seated_start : (start kernelRoot).Seated := by
  constructor
  · intro cpu
    apply Cpu.settled_of_pending <;> simp [Mode.pending]
  all_goals simp

theorem queued_start : (start kernelRoot).Queued := by
  constructor <;> simp

theorem consistent_start : (start kernelRoot).Consistent :=
  ⟨owned_start kernelRoot, homed_start kernelRoot, seated_start kernelRoot, queued_start kernelRoot⟩

end Start

inductive Place where
  | processor | queue | leaving | asleep
  deriving DecidableEq, Repr

/-- What it means for a task to be there. A task that is leaving is still being switched out, or its
processor has yet to take it from its word. -/
def IsAt (s : State) (index : Nat) : Place → Prop
  | .processor => s.statusOf index = .running ∧ ∃! cpu, s.current cpu = some index
  | .queue => s.statusOf index = .ready
      ∧ ∃ cpu, (s.queues cpu).count index = 1 ∧ ∀ b, b ≠ cpu → index ∉ s.queues b
  | .leaving => s.statusOf index = .switchingOut
      ∧ ((∃ cpu, s.Leaving cpu index) ∨ ∃! cpu, s.handoff cpu = index + 1)
  | .asleep => (s.statusOf index = .waiting ∨ s.statusOf index = .sleeping)
      ∧ ∀ cpu, index ∉ s.queues cpu

theorem Consistent.placed (h : s.Consistent) (halive : s.statusOf index ≠ .zombie) :
    ∃! place, s.IsAt index place := by
  have hunqueued : s.statusOf index ≠ .ready → ∀ cpu, index ∉ s.queues cpu :=
    fun hnot cpu => SharedOut.not_mem h.queued hnot cpu
  cases hstatus : s.statusOf index with
  | ready =>
    refine ⟨.queue, ⟨hstatus, SharedOut.count_eq_one h.queued hstatus⟩, fun place hplace => ?_⟩
    cases place <;> simp [IsAt, hstatus] at hplace ⊢
  | claimed => exact absurd hstatus h.seated.unclaimed
  | switchingOut =>
    refine ⟨.leaving, ⟨hstatus, ?_⟩, fun place hplace => ?_⟩
    · refine (h.seated.switching hstatus).imp_right fun ⟨cpu, hcpu⟩ => ⟨cpu, hcpu, fun b hb => ?_⟩
      exact h.seated.handedOnce hb hcpu
    · cases place <;> simp [IsAt, hstatus] at hplace ⊢
  | running =>
    refine ⟨.processor, ⟨hstatus, ?_⟩, fun place hplace => ?_⟩
    · obtain ⟨cpu, hcpu⟩ := h.seated.running hstatus
      refine ⟨cpu, (h.owned.current cpu).trans hcpu, fun b hb => ?_⟩
      dsimp only at hb
      rw [h.owned.current] at hb
      exact h.owned.exclusive.unique (.inl hb) (.inl hcpu)
    · cases place <;> simp [IsAt, hstatus] at hplace ⊢
  | sleeping =>
    refine ⟨.asleep, ⟨.inr hstatus, hunqueued (by simp [hstatus])⟩, fun place hplace => ?_⟩
    cases place <;> simp [IsAt, hstatus] at hplace ⊢
  | waiting =>
    refine ⟨.asleep, ⟨.inl hstatus, hunqueued (by simp [hstatus])⟩, fun place hplace => ?_⟩
    cases place <;> simp [IsAt, hstatus] at hplace ⊢
  | zombie => exact absurd hstatus halive

theorem schedule_cpu (online cpu : Nat) (s : State) :
    (s.schedule online cpu).cpus cpu = { s.cpus cpu with mode := (s.cpus cpu).mode.returned }
    ∨ ((s.schedule online cpu).cpus cpu).mode.pending ≠ none := by
  have hmaintained : Kept s (if cpu = 0 then s.maintenance else s) := by
    split
    · exact kept_maintenance s
    · exact Kept.refl s
  unfold schedule
  dsimp only
  generalize (if cpu = 0 then s.maintenance else s) = s1 at hmaintained ⊢
  have hkept := (hmaintained.trans (kept_takeHandoff cpu s1)).trans (claim_spec online cpu _).1
  generalize (s1.takeHandoff cpu).claim online cpu = claimed at hkept ⊢
  obtain ⟨next, s2⟩ := claimed
  have hcpus : s2.cpus = s.cpus := hkept.cpus
  cases next with
  | none =>
    unfold scheduleIdle
    dsimp only
    split
    · simp [resume, hcpus]
    · split
      · simp [resume, hcpus]
      · simp [Mode.pending]
  | some =>
    dsimp only
    unfold scheduleTask
    have hout := (kept_switchOut cpu s2).cpus
    generalize s2.switchOut cpu = out at hout ⊢
    obtain ⟨encoded, s3⟩ := out
    have hcpus3 : s3.cpus = s.cpus := hout.trans hcpus
    dsimp only
    split
    · simp [resume, hcpus3]
    · split
      · simp [resume, enqueue, hcpus3]
      · simp [Mode.pending]

theorem Consistent.exit_leaves (h : s.Consistent) (hmode : (s.cpus cpu).mode = .blocking true)
    (hcpu : cpu < 64) (online : Nat) :
    ((s.step (.schedule online cpu)).cpus cpu).mode.pending ≠ none := by
  have hafter := h.step (.schedule online cpu)
  have hstep : s.step (.schedule online cpu) = s.schedule online cpu := by
    exact if_pos ⟨hcpu, by simp [hmode, maySchedule]⟩
  rw [hstep] at hafter ⊢
  rcases schedule_cpu online cpu s with hreturned | hleft
  · obtain ⟨i, hi⟩ := Option.ne_none_iff_exists'.mp ((h.seated.settled cpu).manned (.inr hmode))
    have hfits : ((s.schedule online cpu).cpus cpu).mode.Fits
        ((s.schedule online cpu).statusOf i) :=
      (hafter.seated.settled cpu).fits (by rw [hreturned]; exact hi)
    rw [hreturned, hmode] at hfits
    exact hfits.elim
  · exact hleft

theorem Seated.exited (h : s.Seated) (hcurrent : (s.cpus cpu).currentTask = some index) :
    (s.cpus cpu).mode ≠ .halted
      ∧ (s.statusOf index = .zombie → (s.cpus cpu).mode = .blocking true) := by
  have hfits := (h.settled cpu).fits hcurrent
  cases hmode : (s.cpus cpu).mode with
  | halted =>
    rw [hmode] at hfits
    exact hfits.elim
  | blocking final =>
    rw [hmode] at hfits
    cases final with
    | true => simp
    | false => rcases hfits with hs | hs | hs <;> simp [hs]
  | running | exiting | preparing | switching =>
    simp_all [Mode.Fits]

/-- **No task is lost or duplicated.** Every task that has not exited is in exactly one place,
nothing is left claimed, and no queue holds a task twice. The call of `schedule` in `exit` does not
return: it leaves the task, and a task that has exited is not a processor's own after that. -/
theorem no_task_lost (kernelRoot : Nat) (actions : List Action) :
    (∀ index, ((start kernelRoot).run actions).statusOf index ≠ .zombie →
      ∃! place, ((start kernelRoot).run actions).IsAt index place)
    ∧ (∀ index, ((start kernelRoot).run actions).statusOf index ≠ .claimed)
    ∧ (∀ cpu, (((start kernelRoot).run actions).queues cpu).Nodup)
    ∧ (∀ online cpu, (((start kernelRoot).run actions).cpus cpu).mode = .blocking true → cpu < 64 →
      ((((start kernelRoot).run actions).step (.schedule online cpu)).cpus cpu).mode.pending ≠ none)
    ∧ ∀ cpu index, (((start kernelRoot).run actions).cpus cpu).currentTask = some index →
      (((start kernelRoot).run actions).cpus cpu).mode ≠ .halted
      ∧ (((start kernelRoot).run actions).statusOf index = .zombie →
        (((start kernelRoot).run actions).cpus cpu).mode = .blocking true) := by
  have h := (consistent_start kernelRoot).run actions
  generalize (start kernelRoot).run actions = s at h ⊢
  refine ⟨fun index halive => h.placed halive, fun index => h.seated.unclaimed, h.queued.nodup, ?_,
    ?_⟩
  · intro online cpu hmode hcpu
    exact h.exit_leaves hmode hcpu online
  · intro cpu index hcurrent
    exact h.seated.exited hcurrent

/-- `schedule` on this processor finds that the task it has claimed is bound to another one. -/
def Bounces (online cpu : Nat) (s : State) : Prop :=
  ∃ next s' task,
    ((if cpu = 0 then s.maintenance else s).takeHandoff cpu).claim online cpu = (some next, s')
    ∧ (s'.switchOut cpu).2.tasks[next]? = some task
    ∧ task.pinned.isSome ∧ task.pinned ≠ some cpu

theorem Homed.moves (h : s.Homed) (hmoves : Moves action s s') : s'.Homed :=
  hmoves.preserve (fun _ _ _ hmove hhomed => hhomed.move hmove) h

theorem Homed.maintenance (h : s.Homed) (howned : s.Owned) : s.maintenance.Homed := by
  have hmoves : Moves .collect s s.maintenance := moves_maintenance trivial howned
  exact h.moves hmoves

theorem pinned_switchOut {i : Nat} (ht : (s.switchOut cpu).2.tasks[i]? = some task) :
    ∃ t, s.tasks[i]? = some t ∧ t.pinned = task.pinned := by
  rw [getElem?_switchOut] at ht
  split at ht
  · obtain ⟨t, hfound, hsame⟩ := Option.map_eq_some_iff.mp ht
    exact ⟨t, hfound, hsame ▸ rfl⟩
  · exact ⟨task, ht, rfl⟩

theorem Homed.not_claimed_elsewhere (h : s.Homed) (online : Nat)
    (hclaim : s.claim online cpu = (some next, s'))
    (ht : (s'.switchOut cpu).2.tasks[next]? = some task) (hbound : task.pinned.isSome) :
    task.pinned = some cpu := by
  rcases claim_cases online cpu s with ⟨queues, hmiss, _⟩ | ⟨index, found, queues, affinity,
    hclaimed, htaken⟩
  · rw [hmiss] at hclaim
    simp at hclaim
  rw [htaken] at hclaim
  obtain ⟨hnext, hs'⟩ := Prod.mk.inj hclaim
  cases hnext
  obtain ⟨t, hfound, hpinned⟩ := pinned_switchOut ht
  have hqueued : ({ s with queues := queues } : State).tasks[next]? = some found := hclaimed.found
  rw [← hs', getElem?_update_self hqueued] at hfound
  have hsame : found.pinned = task.pinned := by
    rw [← hpinned, ← Option.some.inj hfound]
  rw [← hsame] at hbound ⊢
  have hne : found.pinned ≠ none := Option.isSome_iff_ne_none.mp hbound
  obtain ⟨q, hsource, hq⟩ := hclaimed.source
  rcases hq with hq | hfree
  · have hcpu := h.placed hclaimed.found hne (.inl (hsource.subset List.mem_cons_self))
    rw [← hq, hcpu]
    exact (h.home hclaimed.found hne).1
  · exact absurd hfree hne

theorem Homed.not_bounces (h : s.Homed) (howned : s.Owned) (online cpu : Nat) :
    ¬ s.Bounces online cpu := by
  rintro ⟨next, s', task, hclaim, ht, hbound, hother⟩
  have hmaintained : (if cpu = 0 then s.maintenance else s).Homed := by
    split
    · exact h.maintenance howned
    · exact h
  exact hother ((hmaintained.takeHandoff cpu).not_claimed_elsewhere online hclaim ht hbound)

/-- **Bound tasks stay on their processor.** After any run, and after each of the moves that the
next step is made of, a task that is bound to a processor is in no other queue and is no other
processor's own. The branch of `schedule` for a claimed task that is bound elsewhere is never taken.
-/
theorem pinned_stays (kernelRoot : Nat) (actions : List Action) (action : Action) (s : State)
    (hmoves : Moves action ((start kernelRoot).run actions) s) :
    (∀ index task p, s.tasks[index]? = some task → task.pinned = some p →
      (∀ cpu, index ∈ s.queues cpu → cpu = p)
      ∧ ∀ cpu, (s.cpus cpu).currentTask = some index → cpu = p)
    ∧ ∀ online cpu, ¬ ((start kernelRoot).run actions).Bounces online cpu := by
  have h := (consistent_start kernelRoot).run actions
  refine ⟨?_, h.homed.not_bounces h.owned⟩
  have hhomed : s.Homed := h.homed.moves hmoves
  intro index task p htask hpinned
  have hbound : task.pinned ≠ none := by simp [hpinned]
  have hzero : p = 0 := by
    have := (hhomed.home htask hbound).1
    rw [hpinned] at this
    exact Option.some.inj this
  rw [hzero]
  exact ⟨fun cpu hqueue => hhomed.placed htask hbound (.inl hqueue),
    fun cpu hcurrent => hhomed.placed htask hbound (.inr (.inr (.inl hcurrent)))⟩

/-- The first program is queued on processor 0 and on no other. -/
theorem pinned_stays_first :
    ∃ task, ((start 0).run [.addUser 2 4096 0 0 0]).tasks[1]? = some task ∧ task.pinned = some 0
      ∧ 1 ∈ ((start 0).run [.addUser 2 4096 0 0 0]).queues 0
      ∧ ∀ cpu, 1 ∈ ((start 0).run [.addUser 2 4096 0 0 0]).queues cpu → cpu = 0 := by
  refine ⟨_, rfl, rfl, by decide, ?_⟩
  exact ((pinned_stays 0 [.addUser 2 4096 0 0 0] .collect _ .refl).1 1 _ 0 rfl rfl).1

end State

end Kaguya.Scheduler
