import Kaguya.Scheduler.Wakeups

/-!
# How a wait ends

A task that waits for an event goes on waiting until the event happens or its deadline is past, as
long as no task has the key of the event as its id, and a task that sleeps goes on sleeping until
its deadline is past. The rounds of `maintenance` are followed one by one, and then the rest of
`schedule`.
-/

namespace Kaguya.Scheduler

open List

namespace State

variable {s s' : State} {action : Action} {cpu online index key deadline now : Nat} {task : Task}
  {status : Status}

/-- The task waits for the key until this time; there is no deadline at time 0. -/
def Waits (s : State) (key deadline index : Nat) : Prop :=
  ∃ task, s.tasks[index]? = some task ∧ task.status = .waiting ∧ task.waitingFor = key
    ∧ task.wakeTick = deadline

def Passed (s : State) (deadline : Nat) : Prop := deadline ≠ 0 ∧ deadline ≤ s.ticks

def Rests (s : State) (status : Status) (key deadline index : Nat) : Prop :=
  (status = .waiting ∨ status = .sleeping) ∧ ∃ task, s.tasks[index]? = some task
    ∧ task.status = status ∧ task.waitingFor = key ∧ task.wakeTick = deadline

def Ended (s : State) (status : Status) (deadline : Nat) : Prop :=
  (status = .waiting → deadline ≠ 0) ∧ deadline ≤ s.ticks

def ids (s : State) : List Nat := s.tasks.map Task.id

theorem Rests.of_tasks (h : s.Rests status key deadline index)
    (htasks : s'.tasks[index]? = s.tasks[index]?) : s'.Rests status key deadline index := by
  rw [Rests, htasks]
  exact h

variable {other milliseconds n : Nat} {f : Task → Task}

theorem Rests.ne_of_status (h : s.Rests status key deadline index)
    (hother : s.statusOf other ≠ status) : index ≠ other := by
  obtain ⟨-, task, htask, hstatus, _⟩ := h
  rintro rfl
  rw [statusOf_of_getElem? htask] at hother
  exact hother hstatus

theorem ids_update (hf : ∀ t, (f t).id = t.id) : (s.update index f).ids = s.ids := by
  apply ext_getElem?
  intro i
  rw [ids, ids, List.getElem?_map, List.getElem?_map, getElem?_update]
  split
  · rw [Option.map_map]
    congr 1
    funext t
    exact hf t
  · rfl

theorem ids_wake {reset : Task → Task} {place : Task → Nat} (hreset : ∀ t, (reset t).id = t.id) :
    (s.wake reset place index).ids = s.ids := by
  cases htask : s.tasks[index]? with
  | none =>
    unfold wake
    rw [htask]
  | some =>
    obtain ⟨status, _, htasks⟩ := wake_tasks reset place htask
    rw [ids, htasks]
    exact ids_update hreset

theorem ids_wakeAll (id : Nat) : (s.wakeAll wakeWaiter id).ids = s.ids := by
  apply wakeAll_preserve (I := fun s1 => s1.ids = s.ids) _ rfl
  intro s1 i _ hids
  have hwoken : (s1.wakeWaiter i).ids = s1.ids := ids_wake fun _ => rfl
  exact hwoken.trans hids

theorem ids_reclaim (other : Nat) : (s.reclaim other).ids = s.ids := by
  unfold reclaim
  split
  · rfl
  split
  · split
    · rfl
    · rw [ids_wakeAll]
      exact ids_update fun _ => rfl
  · rfl

theorem ids_maintain (other : Nat) : (s.maintain now other).ids = s.ids := by
  have hwoken : (s.wakeDue other).ids = s.ids := ids_wake fun _ => rfl
  unfold maintain
  split
  · rfl
  split
  · split
    · exact hwoken
    · rw [ids_reclaim, hwoken]
  · exact ids_reclaim other

theorem getElem?_reclaim (htask : s.tasks[index]? = some task) (hzombie : task.status ≠ .zombie)
    (hid : task.status = .waiting → task.waitingFor ∉ s.ids) (other : Nat) :
    (s.reclaim other).tasks[index]? = some task := by
  unfold reclaim
  split
  · exact htask
  rename_i zombie hother
  split
  · rename_i hgone
    have hne : index ≠ other := by
      rintro rfl
      rw [htask] at hother
      rw [← Option.some.inj hother] at hgone
      exact hzombie hgone.1
    split
    · exact htask
    rename_i slot hslot
    have hreleased : (s.release other slot zombie).tasks[index]? = some task :=
      (getElem?_update_of_ne hne).trans htask
    obtain ⟨t', ht', rfl | ⟨hwaiting, hsame, _⟩⟩ := wakeAll_waiters zombie.id hreleased
    · exact ht'
    · rw [hsame] at hid
      exact absurd (mem_map_of_mem (mem_of_getElem? hother)) (hid hwaiting)
  · exact htask

theorem getElem?_maintain (htask : s.tasks[index]? = some task) (hzombie : task.status ≠ .zombie)
    (hid : task.status = .waiting → task.waitingFor ∉ s.ids) (hdue : due now task = false)
    (other : Nat) : (s.maintain now other).tasks[index]? = some task := by
  unfold maintain
  split
  · exact htask
  rename_i found hother
  split
  · rename_i hnow
    have hne : index ≠ other := by
      rintro rfl
      rw [htask] at hother
      rw [← Option.some.inj hother, hdue] at hnow
      cases hnow
    have hwoken : (s.wakeDue other).tasks[index]? = some task :=
      (getElem?_wake_of_ne hne).trans htask
    split
    · exact hwoken
    apply getElem?_reclaim hwoken hzombie
    have hids : (s.wakeDue other).ids = s.ids := ids_wake fun _ => rfl
    rw [hids]
    exact hid
  · exact getElem?_reclaim htask hzombie hid other

theorem Rests.maintenance (h : s.Rests status key deadline index)
    (hid : status = .waiting → key ∉ s.ids) (hearly : ¬ s.Ended status deadline) :
    s.maintenance.Rests status key deadline index := by
  obtain ⟨hrests, task, htask, rfl, rfl, rfl⟩ := h
  have hzombie : task.status ≠ .zombie := by
    rcases hrests with hstatus | hstatus <;> simp [hstatus]
  have hdue : due s.ticks task = false := by
    rw [Ended, not_and] at hearly
    rcases hrests with hstatus | hstatus <;> simpa [due, hstatus] using hearly
  refine ⟨hrests, task, ?_, rfl, rfl, rfl⟩
  unfold maintenance
  generalize range s.tasks.length = indices
  generalize s.ticks = now at hdue ⊢
  clear hearly
  induction indices generalizing s with
  | nil => exact htask
  | cons other _ ih =>
    apply ih
    · exact getElem?_maintain htask hzombie hid hdue other
    · rw [ids_maintain]
      exact hid

section
variable (h : s.Rests status key deadline index)
include h

theorem Rests.takeHandoff (cpu : Nat) : (s.takeHandoff cpu).Rests status key deadline index := by
  unfold State.takeHandoff
  dsimp only
  split
  · rename_i hfinished
    refine h.of_tasks (getElem?_update_of_ne ?_)
    apply h.ne_of_status
    have hswitching : s.statusOf (s.handoff cpu - 1) = .switchingOut := hfinished.2.2
    rw [hswitching]
    rcases h.1 with hstatus | hstatus <;> simp [hstatus]
  · exact h

theorem Rests.update_of_ne (hne : index ≠ other) :
    (s.update other f).Rests status key deadline index :=
  h.of_tasks (getElem?_update_of_ne hne)

theorem Rests.saveUser (cpu : Nat) : (s.saveUser cpu).Rests status key deadline index := by
  obtain ⟨hrests, task, htask, hfields⟩ := h
  rw [Rests, getElem?_saveUser, htask]
  split <;> exact ⟨hrests, _, rfl, hfields⟩

theorem Rests.switchOut (cpu : Nat) : (s.switchOut cpu).2.Rests status key deadline index := by
  obtain ⟨hrests, task, htask, hstatus, hfields⟩ := h
  rw [Rests, getElem?_switchOut, htask]
  split
  · refine ⟨hrests, _, rfl, ?_, hfields⟩
    rcases hrests with hrests | hrests <;> simp [hstatus, hrests]
  · exact ⟨hrests, _, rfl, hstatus, hfields⟩

theorem Rests.scheduleIdle (cpu : Nat) : (s.scheduleIdle cpu).Rests status key deadline index := by
  unfold State.scheduleIdle
  dsimp only
  split
  · exact h
  · split
    · exact h
    · exact h.saveUser cpu

theorem Rests.scheduleTask {next : Nat} (hne : index ≠ next) (cpu : Nat) :
    (s.scheduleTask cpu next).Rests status key deadline index := by
  have hout := h.switchOut cpu
  unfold State.scheduleTask
  generalize s.switchOut cpu = out at hout ⊢
  dsimp only at hout ⊢
  split
  · exact hout
  · split
    · exact hout.update_of_ne hne
    · exact (hout.saveUser cpu).update_of_ne hne

theorem Rests.schedule
    (hmaintained : cpu = 0 → (status = .waiting → key ∉ s.ids) ∧ ¬ s.Ended status deadline)
    (online : Nat) : (s.schedule online cpu).Rests status key deadline index := by
  have hfirst : (if cpu = 0 then s.maintenance else s).Rests status key deadline index := by
    split
    · rename_i hcpu
      exact h.maintenance (hmaintained hcpu).1 (hmaintained hcpu).2
    · exact h
  unfold State.schedule
  dsimp only
  generalize (if cpu = 0 then s.maintenance else s) = s1 at hfirst ⊢
  have hhandoff := hfirst.takeHandoff cpu
  generalize s1.takeHandoff cpu = s2 at hhandoff ⊢
  rcases claim_cases online cpu s2 with ⟨queues, hclaim, _⟩ | ⟨next, task, queues, affinity,
    hclaimed, hclaim⟩
  · rw [hclaim]
    exact Rests.scheduleIdle (s := { s2 with queues := queues }) hhandoff cpu
  -- what is claimed is ready, so it is another task
  have hne : index ≠ next := by
    apply hhandoff.ne_of_status
    rw [statusOf_of_getElem? hclaimed.found, hclaimed.ready]
    rcases h.1 with hstatus | hstatus <;> simp [hstatus]
  have hclaimed' := Rests.update_of_ne (s := { s2 with queues := queues })
    (f := fun t => { t with status := .claimed, affinity := affinity t }) hhandoff hne
  rw [hclaim]
  exact hclaimed'.scheduleTask hne cpu

theorem Rests.step_of_not_maintains (hs : s.Consistent)
    (hmaintains : ¬ action.Maintains) (hwake : status = .waiting → action ≠ .wakeEvent key) :
    (s.step action).Rests status key deadline index := by
  refine (hs.preserve (I := fun s1 => s1.Rests status key deadline index) action ?_ h).2.2.2
  intro s1 s2 hs1 hmove ⟨hrests, task, htask, hstatus, hkey, htick⟩
  obtain ⟨task', htask', hchange⟩ := hs1.seated.change hs1.homed hmove htask
  have hother : ∀ {other : Status}, task.status = other → other = .waiting ∨ other = .sleeping :=
    fun heq => heq ▸ hstatus ▸ hrests
  cases hchange with
  | same | saved | droppedFiles => exact ⟨hrests, _, htask', hstatus, hkey, htick⟩
  | timedOut hmaintains' | joined hmaintains' | released hmaintains' =>
    exact absurd hmaintains' hmaintains
  | signalled haction hwaiting hkey' =>
    refine absurd ?_ (hwake (hstatus.symm.trans hwaiting))
    rw [haction, ← hkey', hkey]
  | left =>
    refine ⟨hrests, _, htask', ?_, hkey, htick⟩
    rcases hrests with hrests | hrests <;> simp [State.left, hstatus, hrests]
  | handedOver hbefore | entered hbefore | exited _ hbefore | waited _ hbefore
  | waitedEvent _ hbefore | slept _ hbefore => simpa using hother hbefore

/-- **How a rest ends.** A task goes on waiting or sleeping at every step, unless the step wakes its
key or runs maintenance at a time when the deadline is past. -/
theorem Rests.step (hs : s.Consistent) (hid : status = .waiting → key ∉ s.ids) (action : Action) :
    (s.step action).Rests status key deadline index ∨ (status = .waiting ∧ action = .wakeEvent key)
      ∨ (action.Maintains ∧ s.Ended status deadline) := by
  by_cases hwake : status = .waiting ∧ action = .wakeEvent key
  · exact .inr (.inl hwake)
  by_cases hpassed : action.Maintains ∧ s.Ended status deadline
  · exact .inr (.inr hpassed)
  left
  by_cases hmaintains : action.Maintains
  · have hearly : ¬ s.Ended status deadline := fun hp => hpassed ⟨hmaintains, hp⟩
    cases action with
    | collect => exact h.maintenance hid hearly
    | schedule online cpu =>
      change (s.when cpu maySchedule (State.schedule online cpu)).Rests status key deadline index
      unfold State.when
      split
      · exact h.schedule (fun _ => ⟨hid, hearly⟩) online
      · exact h
    | interrupt online cpu =>
      change (s.when cpu isRunning (State.interrupt online cpu)).Rests status key deadline index
      unfold State.when
      split
      · unfold State.interrupt
        dsimp only
        split
        · exact h
        · split
          · exact Rests.schedule (s := s.updateCpu cpu _) h (fun _ => ⟨hid, hearly⟩) online
          · exact h
      · exact h
    | _ => cases hmaintains
  · exact h.step_of_not_maintains hs hmaintains fun hwaiting heq => hwake ⟨hwaiting, heq⟩

end

theorem Waits.step (h : s.Waits key deadline index) (hs : s.Consistent) (hid : key ∉ s.ids)
    (action : Action) :
    (s.step action).Waits key deadline index ∨ action = .wakeEvent key
      ∨ (action.Maintains ∧ s.Passed deadline) := by
  have hrests : s.Rests .waiting key deadline index := ⟨.inl rfl, h⟩
  rcases hrests.step hs (fun _ => hid) action with hwaits | hwake | hended
  · exact .inl hwaits.2
  · exact .inr (.inl hwake.2)
  · exact .inr (.inr ⟨hended.1, hended.2.1 rfl, hended.2.2⟩)

def Runs (s : State) (index : Nat) : Prop :=
  s.statusOf index = .running
    ∨ ∃ cpu, (s.cpus cpu).currentTask = some index ∧ (s.cpus cpu).mode = .running

theorem Rests.not_runs (h : s.Rests .sleeping key deadline index) (hs : s.Consistent) :
    ¬ s.Runs index := by
  obtain ⟨-, task, htask, hstatus, -⟩ := h
  have hsleeping : s.statusOf index ≠ .running := by
    rw [statusOf_of_getElem? htask, hstatus]
    decide
  rintro (hrunning | ⟨cpu, hcurrent, hmode⟩)
  · exact hsleeping hrunning
  · have hfits := (hs.seated.settled cpu).fits hcurrent
    rw [hmode] at hfits
    exact hsleeping hfits

/-- A task sleeps at the end of a run, or at some time of the run its deadline was past. -/
theorem Rests.run (h : s.Rests .sleeping key deadline index) (hs : s.Consistent)
    (actions : List Action) : (s.run actions).Rests .sleeping key deadline index
      ∨ ∃ n ≤ actions.length, deadline ≤ (s.run (actions.take n)).ticks := by
  induction actions generalizing s with
  | nil => exact .inl h
  | cons action actions ih =>
    rcases h.step hs (fun hwaiting => (nomatch hwaiting)) action with hnext | hwake | hended
    · rcases ih hnext (hs.step action) with hrests | ⟨n, hn, hpast⟩
      · exact .inl hrests
      · exact .inr ⟨n + 1, Nat.succ_le_succ hn, hpast⟩
    · cases hwake.1
    · exact .inr ⟨0, Nat.zero_le _, hended.2.2⟩

theorem rests_of_sleep (hs : s.Consistent) (hat : s.At cpu isRunning)
    (hcurrent : (s.cpus cpu).currentTask = some index) (hlong : 0 < milliseconds) :
    ∃ key, (s.step (.sleep cpu milliseconds now)).Rests .sleeping key
      (sleepDeadline milliseconds now) index := by
  have hknown : index < s.tasks.length := hs.homed.known (.inr (.inr (.inl hcurrent)))
  have hstep : (s.step (.sleep cpu milliseconds now)).tasks = (s.update index fun t => { t with
      wakeTick := sleepDeadline milliseconds now, status := .sleeping }).tasks := by
    have hwhen : s.step (.sleep cpu milliseconds now) = s.sleep cpu milliseconds now := if_pos hat
    rw [hwhen, State.sleep, if_neg (by omega), block, hcurrent]
    rfl
  refine ⟨s.tasks[index].waitingFor, .inr rfl, { s.tasks[index] with
    wakeTick := sleepDeadline milliseconds now, status := .sleeping }, ?_, rfl, rfl, rfl⟩
  rw [hstep]
  exact getElem?_update_self (List.getElem?_eq_getElem hknown)

theorem sleepDeadline_eq (hfits : milliseconds ≤ 2 ^ 64 - 6) (hnow : now < 2 ^ 64) :
    sleepDeadline milliseconds now = min (now + max ((milliseconds + 9) / 10) 1) (2 ^ 64 - 1) := by
  have hrounded : (if milliseconds > NONE - 9 then NONE else milliseconds + 9) / 10
      = (milliseconds + 9) / 10 := by
    unfold NONE
    split <;> omega
  simp only [sleepDeadline, hrounded]
  unfold NONE
  split <;> omega

/-- **Sleep is not cut short**, unless it is for one of the five longest times. A task that sleeps
does not run before the clock has reached its deadline. -/
theorem sleep_lasts (kernelRoot : Nat) (before after : List Action)
    {cpu index milliseconds now : Nat} (hlong : 0 < milliseconds)
    (hfits : milliseconds ≤ 2 ^ 64 - 6) (hnow : now < 2 ^ 64)
    (hat : ((start kernelRoot).run before).At cpu isRunning)
    (hcurrent : (((start kernelRoot).run before).cpus cpu).currentTask = some index)
    (hruns : ((((start kernelRoot).run before).step (.sleep cpu milliseconds now)).run after).Runs
      index) : ∃ n ≤ after.length, min (now + max ((milliseconds + 9) / 10) 1) (2 ^ 64 - 1)
      ≤ ((((start kernelRoot).run before).step (.sleep cpu milliseconds now)).run
        (after.take n)).ticks := by
  have hs : ((start kernelRoot).run before).Consistent := (consistent_start kernelRoot).run before
  have hslept := hs.step (.sleep cpu milliseconds now)
  obtain ⟨key, hrests⟩ := @rests_of_sleep _ cpu index now milliseconds hs hat hcurrent hlong
  rw [sleepDeadline_eq hfits hnow] at hrests
  rcases hrests.run hslept after with hstill | hpast
  · exact absurd hruns (hstill.not_runs (hslept.run after))
  · exact hpast

theorem run_clockTicks (h : s.ticks + n < 2 ^ 64) :
    s.run (replicate n .clockTick) = { s with ticks := s.ticks + n } := by
  induction n generalizing s with
  | zero => rfl
  | succ n ih =>
    have htick : s.step .clockTick = { s with ticks := s.ticks + 1 } := by
      change { s with ticks := (s.ticks + 1) % 2 ^ 64 } = _
      rw [Nat.mod_eq_of_lt (by omega)]
    rw [replicate_succ, run, foldl_cons, ← run, htick, ih (by dsimp only; omega), Nat.add_assoc,
      Nat.add_comm 1]

def later (n : Nat) : List Action := replicate n .clockTick ++ [.schedule 1 0]

theorem run_later (h : s.ticks + n < 2 ^ 64) :
    s.run (later n) = { s with ticks := s.ticks + n }.step (.schedule 1 0) := by
  have hsplit : s.run (later n) = (s.run (replicate n .clockTick)).run [.schedule 1 0] :=
    foldl_append
  rw [hsplit, run_clockTicks h]
  rfl

theorem sleep_lasts_first : ∃ n ≤ (later 1).length, min (0 + max ((10 + 9) / 10) 1) (2 ^ 64 - 1)
      ≤ ((((start 0).run firstProgram).step (.sleep 0 10 0)).run ((later 1).take n)).ticks :=
  sleep_lasts 0 firstProgram (later 1) (by decide) (by decide) (by decide)
    ⟨by decide, by decide⟩
    (show (((start 0).run firstProgram).cpus 0).currentTask = some 1 by decide) (.inl (by decide))

/-- A task that is to sleep for the longest time goes on one tick early. -/
theorem sleep_cut_short :
    ((start 0).run firstProgram).ticks = 0 ∧ ((start 0).run firstProgram).At 0 isRunning
      ∧ (((start 0).run firstProgram).cpus 0).currentTask = some 1
      ∧ ((((start 0).run firstProgram).step (.sleep 0 (2 ^ 64 - 1) 0)).run
        (later 1844674407370955161)).Runs 1
      ∧ ∀ n, ((((start 0).run firstProgram).step (.sleep 0 (2 ^ 64 - 1) 0)).run
          ((later 1844674407370955161).take n)).ticks
        < min (0 + max ((2 ^ 64 - 1 + 9) / 10) 1) (2 ^ 64 - 1) := by
  have hticks : (((start 0).run firstProgram).step (.sleep 0 (2 ^ 64 - 1) 0)).ticks = 0 := by decide
  refine ⟨by decide, ⟨by decide, by decide⟩, by decide, ?_, fun n => ?_⟩
  · rw [run_later (by rw [hticks]; decide)]
    exact .inl (by decide +kernel)
  by_cases hn : n ≤ 1844674407370955161
  · rw [later, take_append_of_le_length (by rwa [length_replicate]), take_replicate,
      Nat.min_eq_left hn, run_clockTicks (by omega)]
    dsimp only
    omega
  have hall : (later 1844674407370955161).length ≤ n := by
    rw [later, length_append, length_replicate]
    exact Nat.lt_of_not_le hn
  rw [take_of_length_le hall, run_later (by rw [hticks]; decide)]
  decide +kernel

end State

end Kaguya.Scheduler
