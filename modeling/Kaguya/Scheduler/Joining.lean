import Kaguya.Scheduler.Ledger

/-!
# Waiting for a task to exit

`wait_task` does not look again when `schedule` returns. It may rely on that nothing but the end of
the task wakes it, as long as no id is mistaken for another.
-/

namespace Kaguya.Scheduler

open List

namespace State

variable {s s' : State} {action : Action} {cpu index n : Nat} {task : Task} {K : Nat → Prop}

structure Awaits (id caller target : Nat) (s : State) : Prop where
  found : ∃ task, s.tasks[target]? = some task ∧ task.id = id
  still : s.Blocked id caller ∨ ∃ other, s.Gone id other

variable {id caller target : Nat} {codes : List Nat}

theorem Awaits.move (h : s.Awaits id caller target) (hs : s.Consistent) (hmove : Move action s s')
    (hkey : ∀ key, action.key = some key → K key) : s'.Clash K ∨ s'.Awaits id caller target := by
  obtain ⟨⟨task, htask, hid⟩, hstill⟩ := h
  by_cases hwake : action = .wakeEvent id
  · left
    have hclash : s.Clash K := ⟨target, task, htask, hkey _ (by rw [hwake, hid]; rfl)⟩
    exact hclash.move hs hmove
  right
  obtain ⟨task', htask', hchange⟩ := hs.seated.change hs.homed hmove htask
  refine ⟨⟨task', htask', hchange.id_eq.trans hid⟩, ?_⟩
  rcases hstill with hblocked | ⟨other, hgone⟩
  · exact (hblocked.move hs hmove hwake).imp_right fun ⟨other, _, hgone⟩ => ⟨other, hgone⟩
  · exact .inr ⟨other, hgone.move hs hmove⟩

def Released (id target : Nat) (s : State) : Prop :=
  (∃ task, s.tasks[target]? = some task ∧ task.id = id ∧ task.kernelBottom ≠ 0)
  ∨ (s.Gone id target ∧ ∀ waiter, s.waitsFor id waiter = false)

theorem waitsFor_wakeAll {reset : Task → Task} {place : Task → Nat} (key waiter : Nat) (s : State) :
    (s.wakeAll (State.wake reset place) key).waitsFor key waiter = false := by
  cases hwaits : s.waitsFor key waiter with
  | true =>
    rw [Bool.eq_false_iff]
    intro hstill
    obtain ⟨task, htask, hwaiting, _⟩ := waitsFor_iff.mp hstill
    have hawake : (s.wakeAll (State.wake reset place) key).statusOf waiter = .running
        ∨ (s.wakeAll (State.wake reset place) key).statusOf waiter = .ready :=
        statusOf_wakeAll hwaits
    rw [statusOf_of_getElem? htask, hwaiting] at hawake
    simp at hawake
  | false =>
    refine wakeAll_preserve (I := fun s1 => s1.waitsFor key waiter = false) ?_ hwaits
    intro s1 index hindex hnot
    have hne : waiter ≠ index := by
      rintro rfl
      rw [hnot] at hindex
      cases hindex
    unfold waitsFor at hnot ⊢
    rw [getElem?_wake_of_ne hne]
    exact hnot

theorem Distinct.findIdx? {found : Nat} (h : s.Distinct) (htask : s.tasks[target]? = some task)
    (hid : task.id = id) (hfound : s.tasks.findIdx? (fun task => task.id == id) = some found) :
    found = target := by
  obtain ⟨hlt, hkey, _⟩ := List.findIdx?_eq_some_iff_getElem.mp hfound
  have hget : s.tasks[found]? = some s.tasks[found] := List.getElem?_eq_getElem hlt
  exact h found target _ _ hget htask (by rw [hid]; simpa using hkey)

theorem Released.move (h : s.Released id target) (hs : s.Consistent)
    (hd : ∀ cpu id, action = .waitTask cpu id → s.Distinct) (hmove : Move action s s')
    (hkey : ∀ key, action.key = some key → K key) : s'.Clash K ∨ s'.Released id target := by
  rcases h with ⟨task, htask, hid, hbottom⟩ | ⟨hgone, hnobody⟩
  · right
    obtain ⟨task', htask', hchange⟩ := hs.seated.change hs.homed hmove htask
    have hid' : task'.id = id := hchange.id_eq.trans hid
    cases hchange with
    | released _ hzombie _ _ _ _ hwoken =>
      refine .inr ⟨⟨_, htask', hid', hzombie, rfl⟩, fun waiter => ?_⟩
      rw [hwoken, hid]
      exact waitsFor_wakeAll id waiter _
    | _ => exact .inl ⟨_, htask', hid', hbottom⟩
  by_cases hclash : s'.Clash K
  · exact .inl hclash
  refine .inr (.inr ⟨hgone.move hs hmove, fun waiter => ?_⟩)
  rw [Bool.eq_false_iff]
  intro hwaits
  obtain ⟨t, ht, hwaiting, hfor⟩ := waitsFor_iff.mp hwaits
  obtain ⟨task, htask, hid, hzombie, hbottom⟩ := hgone
  have hbefore : ∀ t0, s.tasks[waiter]? = some t0 → t0.status = .waiting → t0.waitingFor ≠ id := by
    intro t0 ht0 hwaiting0 hfor0
    have hwaits0 := waitsFor_iff.mpr ⟨t0, ht0, hwaiting0, hfor0⟩
    rw [hnobody waiter] at hwaits0
    cases hwaits0
  rcases hs.origin hmove ht with ⟨t0, ht0, hchange⟩ | ⟨cpu, hnew⟩
  · cases hchange with
    | same | saved | droppedFiles => exact hbefore _ ht0 hwaiting hfor
    | left =>
      refine hbefore _ ht0 ?_ hfor
      by_cases hrunning : t0.status = .running
      · simp [State.left, hrunning] at hwaiting
      · simpa [State.left, hrunning] using hwaiting
    | waited haction _ _ htarget hother halive =>
      have hfound := (hd _ _ haction).findIdx? htask (hid.trans hfor.symm) htarget
      rw [hfound, htask] at hother
      cases hother
      exact halive ⟨hzombie, hbottom⟩
    | waitedEvent haction =>
      have hK := hkey _ (by rw [haction]; rfl)
      have hsame : s.Clash K := ⟨target, task, htask, by rw [hid, ← hfor]; exact hK⟩
      exact hclash (hsame.move hs hmove)
    | timedOut _ _ hawake | joined _ _ _ _ _ _ _ hawake | signalled _ _ _ hawake =>
      rcases hawake with hs' | hs' <;> simp [hs'] at hwaiting
    | released _ hzombie' => simp [hzombie'] at hwaiting
    | handedOver | entered | exited | slept => simp at hwaiting
  · rw [hnew.status] at hwaiting
    cases hwaiting

def passed (index : Nat) (s : State) : Action → List Nat
  | .exit cpu code =>
    if cpu < 64 ∧ isExiting (s.cpus cpu).mode = true ∧ (s.cpus cpu).currentTask = some index
      then [code]
    else []
  | _ => []

def exitCodes (index : Nat) : State → List Action → List Nat
  | _, [] => []
  | s, action :: actions => s.passed index action ++ exitCodes index (s.step action) actions

structure Accounts (index : Nat) (codes : List Nat) (s : State) : Prop where
  exited : ∀ task, s.tasks[index]? = some task → task.status = .zombie → codes = [task.exitCode]
  alive : (∀ task, s.tasks[index]? = some task → task.status ≠ .zombie) → codes = []

section
variable (h : s.Accounts index codes)
include h

theorem Accounts.move (hs : s.Consistent) (hmove : Move action s s')
    (hexit : ∀ cpu code, action ≠ .exit cpu code) : s'.Accounts index codes := by
  have hcode : ∀ {t t' : Task}, Change action s s' index t t' → t'.exitCode = t.exitCode := by
    intro t t' hchange
    cases hchange with
    | exited haction => exact absurd haction (hexit _ _)
    | _ => rfl
  constructor
  · intro t' ht' hzombie
    rcases hs.origin hmove ht' with ⟨t, ht, hchange⟩ | ⟨cpu, hnew⟩
    · rcases hchange.zombie_of hzombie with hbefore | ⟨cpu, code, haction, _⟩
      · rw [hcode hchange]
        exact h.exited t ht hbefore
      · exact absurd haction (hexit cpu code)
    · rw [hnew.status] at hzombie
      cases hzombie
  · intro halive
    apply h.alive
    intro t ht hzombie
    obtain ⟨t', ht', hchange⟩ := hs.seated.change hs.homed hmove ht
    exact halive t' ht' (hchange.of_zombie hzombie).1

theorem Accounts.congr (htask : s'.tasks[index]? = s.tasks[index]?) : s'.Accounts index codes := by
  constructor
  · rw [htask]
    exact h.exited
  · rw [htask]
    exact h.alive

theorem Accounts.exit (hs : s.Consistent) (cpu code : Nat) :
    (s.step (.exit cpu code)).Accounts index (codes ++ s.passed index (.exit cpu code)) := by
  change (s.when cpu isExiting (State.exit cpu code)).Accounts index (codes ++ if cpu < 64
    ∧ isExiting (s.cpus cpu).mode = true ∧ (s.cpus cpu).currentTask = some index then [code]
    else [])
  unfold State.when
  by_cases hat : cpu < 64 ∧ isExiting (s.cpus cpu).mode = true
  · rw [if_pos hat]
    have hmode := mode_of_isExiting hat.2
    obtain ⟨current, hcurrent⟩ :=
      Option.ne_none_iff_exists'.mp ((hs.seated.settled cpu).manned (.inl hmode))
    have htasks : (s.exit cpu code).tasks
        = (s.update current fun t => { t with status := .zombie, exitCode := code }).tasks := by
      unfold State.exit block
      rw [hcurrent]
      rfl
    by_cases hindex : current = index
    · subst hindex
      obtain ⟨task, htask⟩ := hs.owned.exists_current hcurrent
      have hrunning := hs.seated.running_of_mode hcurrent (.inr hmode) htask
      have hnone : codes = [] := by
        apply h.alive
        intro t ht
        rw [htask] at ht
        cases ht
        simp [hrunning]
      have hafter : (s.exit cpu code).tasks[current]?
          = some { task with status := .zombie, exitCode := code } := by
        rw [htasks]
        exact getElem?_update_self htask
      rw [if_pos ⟨hat.1, hat.2, hcurrent⟩, hnone]
      constructor
      · intro t ht _
        rw [hafter] at ht
        cases ht
        rfl
      · intro halive
        exact absurd rfl (halive _ hafter)
    · have hother : ¬ (cpu < 64 ∧ isExiting (s.cpus cpu).mode = true ∧ (s.cpus cpu).currentTask
          = some index) := by
        simp [hcurrent, hindex]
      rw [if_neg hother, append_nil]
      apply h.congr
      rw [htasks]
      exact getElem?_update_of_ne (Ne.symm hindex)
  · have hother : ¬ (cpu < 64 ∧ isExiting (s.cpus cpu).mode = true
        ∧ (s.cpus cpu).currentTask = some index) := fun hall => hat ⟨hall.1, hall.2.1⟩
    rw [if_neg hat, if_neg hother, append_nil]
    exact h

theorem Accounts.step (hs : s.Consistent) (action : Action) :
    (s.step action).Accounts index (codes ++ s.passed index action) := by
  by_cases hexit : ∃ cpu code, action = .exit cpu code
  · obtain ⟨cpu, code, rfl⟩ := hexit
    exact h.exit hs cpu code
  push Not at hexit
  have hnone : s.passed index action = [] := by
    cases action with
    | exit cpu code => exact absurd rfl (hexit cpu code)
    | _ => rfl
  rw [hnone, append_nil]
  have hmoved := hs.preserve (I := State.Accounts index codes) action
    (fun s1 s2 hs1 hmove h1 => h1.move hs1 hmove hexit) h
  exact hmoved.2.2.2

theorem Accounts.run (hs : s.Consistent) (actions : List Action) :
    (s.run actions).Accounts index (codes ++ exitCodes index s actions) := by
  induction actions generalizing s codes with
  | nil =>
    rw [exitCodes, append_nil]
    exact h
  | cons action _ ih =>
    rw [exitCodes, ← append_assoc]
    exact ih (h.step hs action) (hs.step action)

end

theorem accounts_start (kernelRoot : Nat) (hindex : index ≠ 0) :
    (start kernelRoot).Accounts index [] := by
  have hnone : (start kernelRoot).tasks[index]? = none := by
    cases index with
    | zero => exact absurd rfl hindex
    | succ => simp [start, init, enterIdle]
  constructor
  · intro task htask
    rw [hnone] at htask
    cases htask
  · exact fun _ => rfl

theorem Distinct.exitCode (h : s.Distinct) (htask : s.tasks[index]? = some task)
    (hid : task.id = id) : s.exitCode id = task.exitCode := by
  unfold State.exitCode
  cases hfound : s.tasks.find? fun task => task.id == id with
  | none =>
    have hnot := List.find?_eq_none.mp hfound task (mem_of_getElem? htask)
    simp [hid] at hnot
  | some other =>
    obtain ⟨i, hi⟩ := mem_iff_getElem?.mp (mem_of_find?_eq_some hfound)
    have hkey := List.find?_some hfound
    have hsame := h i index other task hi htask (by rw [hid]; simpa using hkey)
    rw [hsame, htask] at hi
    cases hi
    rfl

def Executes (s : State) (index : Nat) : Prop :=
  ∃ cpu, (s.cpus cpu).currentTask = some index ∧ (s.cpus cpu).mode = .running

theorem Awaits.gone (h : s.Awaits id caller target) (hs : s.Consistent) (hd : s.Distinct)
    (hexecutes : s.Executes caller) : s.Gone id target := by
  rcases h.still with ⟨t, ht, hwaiting, _⟩ | ⟨other, hgone⟩
  · obtain ⟨cpu, hcurrent, hmode⟩ := hexecutes
    have hrunning := hs.seated.running_of_mode hcurrent (.inl hmode) ht
    rw [hwaiting] at hrunning
    cases hrunning
  obtain ⟨task, htask, hid⟩ := h.found
  obtain ⟨gone, hother, hid', hzombie⟩ := hgone
  have hsame := hd other target gone task hother htask (hid'.trans hid.symm)
  rw [← hsame]
  exact ⟨gone, hother, hid', hzombie⟩

theorem waitTask_blocks (hcurrent : (s.cpus cpu).currentTask = some caller)
    (hblocks : (s.waitTask cpu id).1 = none) :
    ∃ target task, s.tasks[target]? = some task ∧ task.id = id ∧ caller ≠ target
      ∧ ¬ (task.status = .zombie ∧ task.kernelBottom = 0)
      ∧ (s.waitTask cpu id).2 = s.block cpu false fun t =>
        { t with status := .waiting, waitingFor := id } := by
  unfold waitTask at hblocks ⊢
  cases hfound : s.tasks.findIdx? fun task => task.id == id with
  | none => simp [hfound] at hblocks
  | some target =>
    simp only [hfound] at hblocks ⊢
    cases htask : s.tasks[target]? with
    | none => simp [htask] at hblocks
    | some task =>
      simp only [htask, hcurrent] at hblocks ⊢
      have hid : task.id = id := by
        obtain ⟨hlt, hkey, _⟩ := List.findIdx?_eq_some_iff_getElem.mp hfound
        rw [List.getElem?_eq_getElem hlt] at htask
        cases htask
        simpa using hkey
      by_cases hgone : task.status = .zombie ∧ task.kernelBottom = 0
      · simp [hgone] at hblocks
      by_cases hself : caller = target
      · simp [hgone, hself] at hblocks
      · refine ⟨target, task, htask, hid, hself, hgone, ?_⟩
        simp [hgone, hself]

theorem Ledger.awaits (h : s.Ledger K n) (hboot : s.Gone 0 0) (hcpu : cpu < 64)
    (hmode : (s.cpus cpu).mode = .running) (hcurrent : (s.cpus cpu).currentTask = some caller)
    (hblocks : (s.waitTask cpu id).1 = none) :
    ∃ target, target ≠ caller ∧ target ≠ 0 ∧ (s.step (.waitTask cpu id)).Awaits id caller
      target := by
  obtain ⟨target, task, htask, hid, hne, halive, hafter⟩ := waitTask_blocks hcurrent hblocks
  have hstep : (s.step (.waitTask cpu id)).tasks
      = (s.update caller fun t => { t with status := .waiting, waitingFor := id }).tasks := by
    have hwhen : s.step (.waitTask cpu id) = (s.waitTask cpu id).2 :=
      if_pos ⟨hcpu, by simp [hmode, isRunning]⟩
    rw [hwhen, hafter]
    unfold block
    rw [hcurrent]
    rfl
  obtain ⟨t, ht⟩ := h.consistent.owned.exists_current hcurrent
  have hrunning := h.consistent.seated.running_of_mode hcurrent (.inl hmode) ht
  have htick : t.wakeTick = 0 := by
    by_contra hticks
    have hasleep := h.unhurried caller t ht hticks
    simp [hrunning] at hasleep
  refine ⟨target, Ne.symm hne, ?_, ⟨⟨task, ?_, hid⟩, .inl ?_⟩⟩
  · rintro rfl
    obtain ⟨boot, hfirst, _, hzombie, hbottom⟩ := hboot
    rw [hfirst] at htask
    cases htask
    exact halive ⟨hzombie, hbottom⟩
  · rw [hstep, getElem?_update_of_ne (Ne.symm hne)]
    exact htask
  · refine ⟨{ t with status := .waiting, waitingFor := id }, ?_, rfl, rfl, htick⟩
    rw [hstep]
    exact getElem?_update_self ht

theorem Gone.run (h : s.Gone id index) (hs : s.Consistent) (actions : List Action) :
    (s.run actions).Gone id index := by
  induction actions generalizing s with
  | nil => exact h
  | cons action _ ih =>
    have hstep := hs.preserve (I := fun s1 => s1.Gone id index) action
      (fun s1 s2 hs1 hmove hgone => hgone.move hs1 hmove) h
    exact ih hstep.2.2.2 (hs.step action)

/-- **`wait_task` returns when its task is gone.** When a task that has called `wait_task` and did
not get an answer at once executes again, the other task has exited, its stack has been reclaimed,
and the exit code in the table is the one that it passed to `exit`, once. From the moment the stack
of a task has been reclaimed nobody waits for it. -/
theorem wait_task_gone (kernelRoot cpu id : Nat) (earlier after : List Action)
    (h : Unmistakable kernelRoot (earlier ++ .waitTask cpu id :: after)) :
    let actions := earlier ++ .waitTask cpu id :: after
    let called := (start kernelRoot).run earlier
    let final := (start kernelRoot).run actions
    (∀ caller, cpu < 64 → (called.cpus cpu).mode = .running →
      (called.cpus cpu).currentTask = some caller → (called.waitTask cpu id).1 = none →
      final.Executes caller → ∃ target, target ≠ caller ∧ final.Gone id target
          ∧ exitCodes target (start kernelRoot) actions = [final.exitCode id])
    ∧ ∀ first second target task, first ++ second = actions →
        ((start kernelRoot).run first).tasks[target]? = some task → task.id = id →
        task.kernelBottom ≠ 0 → final.Gone id target → ∀ waiter,
          final.waitsFor id waiter = false := by
  intro actions called final
  have hdistinct : final.Distinct := by
    have hwhole : Unmistakable kernelRoot (actions ++ []) := by
      rw [append_nil]
      exact h
    exact hwhole.ledger.numbered.distinct
  constructor
  · intro caller hcpu hmode hcurrent hblocks hexecutes
    have hboot : called.Gone 0 0 := by
      have hstart : (start kernelRoot).Gone 0 0 := ⟨_, rfl, rfl, rfl, rfl⟩
      exact hstart.run (consistent_start kernelRoot) earlier
    obtain ⟨target, hne, hnotBoot, hawaits⟩ := h.ledger.awaits hboot hcpu hmode hcurrent hblocks
    have hsplit : actions = (earlier ++ [.waitTask cpu id]) ++ after := by
      rw [append_assoc]
      rfl
    have hfinal : final.Awaits id caller target := by
      have hwhole := h
      change Unmistakable kernelRoot actions at hwhole
      change ((start kernelRoot).run actions).Awaits id caller target
      rw [hsplit] at hwhole ⊢
      refine hwhole.preserve (fun action s1 s2 hkey hs1 _ hmove hI => hI.move hs1 hmove hkey) ?_
      rw [run_append]
      exact hawaits
    have hs : final.Consistent := (consistent_start kernelRoot).run actions
    have hgone : final.Gone id target := hfinal.gone hs hdistinct hexecutes
    refine ⟨target, hne, hgone, ?_⟩
    obtain ⟨task, htask, hid, hzombie, _⟩ := hgone
    have haccounts := (accounts_start kernelRoot hnotBoot).run (consistent_start kernelRoot) actions
    rw [nil_append] at haccounts
    rw [hdistinct.exitCode htask hid]
    exact haccounts.exited task htask hzombie
  · intro first second target task hsplit htask hid hbottom hgone
    have hwhole := h
    change Unmistakable kernelRoot actions at hwhole
    rw [← hsplit] at hwhole
    have hreleased := hwhole.preserve (I := State.Released id target)
      (fun action s1 s2 hkey hs1 hd hmove hI => hI.move hs1 (fun _ _ _ => hd) hmove hkey)
      (.inl ⟨task, htask, hid, hbottom⟩)
    rw [hsplit] at hreleased
    rcases hreleased with ⟨t, ht, _, hstack⟩ | ⟨_, hnobody⟩
    · obtain ⟨t', ht', _, _, hstack'⟩ := hgone
      rw [ht] at ht'
      cases ht'
      exact absurd hstack' hstack
    · exact hnobody

/-- Processor 0 goes on to the next task, which exits with code 7; it idles, reclaims the stack and
comes back. -/
def exitOfNext : List Action :=
  [.schedule 2 0, .prepare 0, .switchStack 0 16, .dropFiles 0, .exit 0 7, .schedule 2 0, .prepare 0,
    .switchStack 0 24, .schedule 2 0, .prepare 0, .switchStack 0 32]

theorem wait_task_gone_second :
    let earlier : List Action :=
      [.addUser 1 4096 0 0 0, .addUser 1 20480 0 0 0, .schedule 2 0, .prepare 0,
      .switchStack 0 8]
    let actions := earlier ++ .waitTask 0 2 :: exitOfNext
    ((start 0).run actions).Executes 1
    ∧ ∃ target, target ≠ 1 ∧ ((start 0).run actions).Gone 2 target
      ∧ exitCodes target (start 0) actions = [((start 0).run actions).exitCode 2] := by
  intro earlier actions
  have hkeys : ∀ action ∈ actions, action.key = none := by decide
  have hsound : Unmistakable 0 actions := by
    refine ⟨fun action haction key hkey => ?_, by decide⟩
    rw [hkeys action haction] at hkey
    cases hkey
  have hexecutes : ((start 0).run actions).Executes 1 := ⟨0, by decide, by decide⟩
  exact ⟨hexecutes, (wait_task_gone 0 0 2 earlier exitOfNext hsound).1 1 (by decide) (by decide)
    (by decide) (by decide) hexecutes⟩

theorem run_failed (online userRsp addressSpace files n : Nat) (s : State)
    (hnext : s.nextId < 2 ^ 64) :
    s.run (replicate n (.addUser online 0 userRsp addressSpace files))
      = { s with nextId := (s.nextId + n) % 2 ^ 64 } := by
  induction n generalizing s with
  | zero => rw [replicate_zero, run_nil, Nat.add_zero, Nat.mod_eq_of_lt hnext]
  | succ n ih =>
    have hstep : s.step (.addUser online 0 userRsp addressSpace files)
        = { s with nextId := (s.nextId + 1) % 2 ^ 64 } := rfl
    rw [replicate_succ, run_cons, hstep, ih _ (Nat.mod_lt _ (by decide))]
    congr 1
    dsimp only
    omega

/-- When all ids have been given out two tasks can have the same one. Task 1 waits for task 2, which
has not run yet, and goes on when task 3 with the same id has exited. -/
theorem wait_task_same_id :
    let failed : Action := .addUser 2 0 0 0 0
    let earlier : List Action := [.addUser 2 4096 0 0 0, .addUser 2 20480 0 0 0]
      ++ (replicate (2 ^ 64 - 1) failed
        ++ [.addUser 2 36864 0 0 0, .schedule 2 0, .prepare 0, .switchStack 0 8])
    let called := (start 0).run earlier
    let final := (start 0).run (earlier ++ .waitTask 0 2 :: exitOfNext)
    (∀ action ∈ earlier ++ .waitTask 0 2 :: exitOfNext, action.key = none)
    ∧ (called.cpus 0).currentTask = some 1
    ∧ called.tasks.findIdx? (fun task => task.id == 2) = some 2
    ∧ (called.waitTask 0 2).1 = none
    ∧ final.Executes 1 ∧ final.statusOf 2 = .ready := by
  intro failed earlier called final
  let programs : List Action := [.addUser 2 4096 0 0 0, .addUser 2 20480 0 0 0]
  let another : List Action := [.addUser 2 36864 0 0 0, .schedule 2 0, .prepare 0, .switchStack 0 8]
  have hnext : (((start 0).run programs).nextId + (2 ^ 64 - 1)) % 2 ^ 64 = 2 := by decide
  have hcalled : called = ({ (start 0).run programs with nextId := 2 }).run another := by
    change (start 0).run (programs ++ (replicate (2 ^ 64 - 1) failed ++ another)) = _
    rw [run_append, run_append, run_failed _ _ _ _ _ _ (by decide), hnext]
  have hfinal : final = called.run (.waitTask 0 2 :: exitOfNext) := run_append _ _ _
  rw [hfinal, hcalled]
  refine ⟨fun action haction =>
    ?_, by decide, by decide, by decide, ⟨0, by decide, by decide⟩, by decide⟩
  rcases mem_append.mp haction with hearlier | hlater
  · rcases mem_append.mp hearlier with hfirst | hsecond
    · exact (by decide : ∀ action ∈ programs, action.key = none) action hfirst
    rcases mem_append.mp hsecond with hfailed | hthird
    · rw [eq_of_mem_replicate hfailed]
      rfl
    · exact (by decide : ∀ action ∈ another, action.key = none) action hthird
  · exact (by decide : ∀ action ∈ Action.waitTask 0 2 :: exitOfNext, action.key = none) action
      hlater

end State

end Kaguya.Scheduler
