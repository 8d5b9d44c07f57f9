import Kaguya.Scheduler.Moves

/-!
# Tasks that are bound to a processor

The first program is bound to processor 0. It is queued there and nowhere else, and no other
processor takes it, so `schedule` never has to put a task back that it has claimed.
-/

namespace Kaguya.Scheduler

open Function

def Cpu.Names (c : Cpu) (index : Nat) : Prop :=
  c.currentTask = some index ∨ ∃ pending, c.mode.pending = some pending
  ∧ pending.encoded = index + 1

def Task.AtHome (task task' : Task) : Prop :=
  task'.pinned = task.pinned
  ∧ (task.pinned ≠ none → task'.affinity = task.affinity ∨ task'.affinity = 0)

theorem Task.AtHome.refl (task : Task) : task.AtHome task := ⟨rfl, fun _ => .inl rfl⟩

namespace State

variable {s s' : State} {action : Action} {cpu index : Nat} {task : Task}

def Located (s : State) (cpu index : Nat) : Prop :=
  index ∈ s.queues cpu ∨ s.handoff cpu = index + 1 ∨ (s.cpus cpu).Names index

structure Homed (s : State) : Prop where
  known : ∀ {cpu i : Nat}, s.Located cpu i → i < s.tasks.length
  home : ∀ {i : Nat} {t : Task}, s.tasks[i]? = some t → t.pinned ≠ none →
    t.pinned = some 0 ∧ t.affinity = 0
  placed : ∀ {cpu i : Nat} {t : Task}, s.tasks[i]? = some t → t.pinned ≠ none → s.Located cpu i →
    cpu = 0

variable {i : Nat} {f : Task → Task} {pending : Switch}

theorem Homed.own {t : Task} (h : s.Homed) (hfound : s.tasks[i]? = some t)
    (hpinned : t.pinned ≠ none) (hqueue : i ∈ s.queues cpu) : t.pinned = some cpu := by
  rw [h.placed hfound hpinned (.inl hqueue)]
  exact (h.home hfound hpinned).1

/-- The processor may get a task that is not bound, or any task if it is processor 0. -/
def Welcome (s : State) (cpu index : Nat) : Prop :=
  ∃ t, s.tasks[index]? = some t ∧ (t.pinned ≠ none → cpu = 0)

theorem Homed.welcome (h : s.Homed) (hlocated : s.Located cpu index) : s.Welcome cpu index := by
  have hsome := List.getElem?_eq_getElem (h.known hlocated)
  exact ⟨_, hsome, fun hpinned => h.placed hsome hpinned hlocated⟩

theorem Homed.of (h : s.Homed) (htasks : ∀ i : Nat, s'.tasks[i]? = s.tasks[i]?
      ∨ ∃ t t', s.tasks[i]? = some t ∧ s'.tasks[i]? = some t' ∧ t.AtHome t')
    (hlocated : ∀ b i, s'.Located b i → s.Located b i ∨ s.Welcome b i) : s'.Homed := by
  have hback : ∀ {i : Nat} {t' : Task}, s'.tasks[i]? = some t' → ∃ t, s.tasks[i]? = some t
      ∧ t.AtHome t' := by
    intro i t' ht'
    rcases htasks i with hsame | ⟨t, t'', ht, ht'', hhome⟩
    · exact ⟨t', hsame ▸ ht', .refl t'⟩
    · cases ht'.symm.trans ht''
      exact ⟨t, ht, hhome⟩
  have hwelcome : ∀ {b i : Nat}, s'.Located b i → s.Welcome b i := by
    intro b i hi
    rcases hlocated b i hi with hbefore | hwelcome
    · exact h.welcome hbefore
    · exact hwelcome
  refine ⟨fun {b i} hi => ?_, fun {i t'} ht' hpinned => ?_, fun {b i t'} ht' hpinned hi => ?_⟩
  · obtain ⟨t, ht, _⟩ := hwelcome hi
    rcases htasks i with hsame | ⟨_, t', _, ht', _⟩
    · exact (List.getElem?_eq_some_iff.mp (hsame.trans ht)).1
    · exact (List.getElem?_eq_some_iff.mp ht').1
  · obtain ⟨t, ht, hsame, haffinity⟩ := hback ht'
    rw [hsame] at hpinned ⊢
    obtain ⟨hzero, haff⟩ := h.home ht hpinned
    refine ⟨hzero, ?_⟩
    rcases haffinity hpinned with hkept | hset
    · rw [hkept, haff]
    · exact hset
  · obtain ⟨t, ht, hsame, _⟩ := hback ht'
    obtain ⟨u, hu, hzero⟩ := hwelcome hi
    cases ht.symm.trans hu
    apply hzero
    rwa [← hsame]

theorem Homed.sameTasks (h : s.Homed) (htasks : s'.tasks = s.tasks)
    (hlocated : ∀ b i, s'.Located b i → s.Located b i ∨ s.Welcome b i) : s'.Homed := by
  refine h.of (fun i => .inl ?_) hlocated
  rw [htasks]

theorem Homed.update (h : s.Homed) (index : Nat)
    (hf : ∀ t, s.tasks[index]? = some t → t.AtHome (f t)) : (s.update index f).Homed := by
  refine h.of (fun i => ?_) fun b i hi => .inl hi
  by_cases hi : i = index
  · rw [hi]
    cases htask : s.tasks[index]? with
    | none => simp [htask]
    | some task => exact .inr ⟨task, f task, rfl, getElem?_update_self htask, hf task htask⟩
  · exact .inl (getElem?_update_of_ne hi)

theorem Homed.enqueue (h : s.Homed) (hwelcome : s.Welcome cpu index) :
    (s.enqueue cpu index).Homed := by
  refine h.sameTasks rfl fun b i hi => ?_
  rcases hi with hqueue | hrest
  · by_cases hb : b = cpu
    · rw [State.enqueue, setQueue_queues, hb, update_self, List.mem_append,
        List.mem_singleton] at hqueue
      rcases hqueue with hbefore | hnew
      · exact .inl (.inl (hb ▸ hbefore))
      · rw [hb, hnew]
        exact .inr hwelcome
    · simp only [State.enqueue, setQueue_queues, update_of_ne hb] at hqueue
      exact .inl (.inl hqueue)
  · exact .inl (.inr hrest)

theorem located_of_cpu {c : Cpu} {b : Nat} (hi : s'.Located b i)
    (hqueues : ∀ q i, i ∈ s'.queues q → i ∈ s.queues q) (hhandoff : s'.handoff = s.handoff)
    (hcpus : s'.cpus = Function.update s.cpus cpu c)
    (hnames : c.Names i → (s.cpus cpu).Names i ∨ s.Welcome cpu i) :
    s.Located b i ∨ s.Welcome b i := by
  rcases hi with hqueue | hhanded | hname
  · exact .inl (.inl (hqueues b i hqueue))
  · exact .inl (.inr (.inl (hhandoff ▸ hhanded)))
  rw [hcpus] at hname
  by_cases hb : b = cpu
  · rw [hb, update_self] at hname
    rw [hb]
    rcases hnames hname with hbefore | hwelcome
    · exact .inl (.inr (.inr hbefore))
    · exact .inr hwelcome
  · rw [update_of_ne hb] at hname
    exact .inl (.inr (.inr hname))

theorem Homed.updateCpu {f : Cpu → Cpu} (h : s.Homed)
    (hnames : ∀ i, (f (s.cpus cpu)).Names i → (s.cpus cpu).Names i) : (s.updateCpu cpu f).Homed :=
  h.sameTasks rfl fun _ i hi =>
    located_of_cpu hi (fun _ _ hq => hq) rfl rfl fun hname => .inl (hnames i hname)

theorem Homed.setMode {mode : Mode} (h : s.Homed) (hmode : mode.pending = none) :
    (s.updateCpu cpu fun c => { c with mode := mode }).Homed := by
  apply h.updateCpu
  intro i hname
  rcases hname with hcurrent | ⟨pending, hsome, _⟩
  · exact .inl hcurrent
  · simp [hmode] at hsome

variable (h : s.Homed)
include h

theorem Homed.addTask
    (hpinned : task.pinned ≠ none → task.pinned = some 0 ∧ task.affinity = 0 ∧ cpu = 0) :
    (s.addTask cpu task).Homed := by
  have hold : ∀ {i : Nat} {t : Task}, (s.addTask cpu task).tasks[i]? = some t →
      s.tasks[i]? = some t ∨ (i = s.tasks.length ∧ t = task) := by
    intro i t ht
    by_cases hi : i = s.tasks.length
    · rw [hi, getElem?_addTask_self] at ht
      exact .inr ⟨hi, (Option.some.inj ht).symm⟩
    · rw [getElem?_addTask_of_ne hi] at ht
      exact .inl ht
  have hlocated : ∀ {b i : Nat}, (s.addTask cpu task).Located b i → s.Located b i
      ∨ (b = cpu ∧ i = s.tasks.length) := by
    intro b i hi
    rcases hi with hqueue | hrest
    · by_cases hb : b = cpu
      · simp only [State.addTask, State.enqueue, setQueue_queues, hb, update_self,
          List.mem_append, List.mem_singleton] at hqueue
        rcases hqueue with hbefore | hlast
        · exact .inl (.inl (hb ▸ hbefore))
        · exact .inr ⟨hb, hlast⟩
      · simp only [State.addTask, State.enqueue, setQueue_queues, update_of_ne hb] at hqueue
        exact .inl (.inl hqueue)
    · exact .inl (.inr hrest)
  refine ⟨fun {b i} hi => ?_, fun {i t} ht hbound => ?_, fun {b i t} ht hbound hi => ?_⟩
  · have hlength : (s.addTask cpu task).tasks.length = s.tasks.length + 1 := by
      simp [State.addTask, State.enqueue]
    rw [hlength]
    rcases hlocated hi with hbefore | ⟨_, hlast⟩
    · exact Nat.lt_succ_of_lt (h.known hbefore)
    · omega
  · rcases hold ht with hbefore | ⟨_, hlast⟩
    · exact h.home hbefore hbound
    · rw [hlast] at hbound ⊢
      exact ⟨(hpinned hbound).1, (hpinned hbound).2.1⟩
  rcases hold ht with hbefore | ⟨hend, hlast⟩
  · rcases hlocated hi with hlocated | ⟨_, hend⟩
    · exact h.placed hbefore hbound hlocated
    · have := (List.getElem?_eq_some_iff.mp hbefore).1
      omega
  rcases hlocated hi with hlocated | ⟨hb, _⟩
  · have := h.known hlocated
    omega
  · rw [hlast] at hbound
    exact hb.trans (hpinned hbound).2.2

theorem Homed.wake {reset : Task → Task} {place : Task → Nat} (htask : s.tasks[index]? = some task)
    (hreset : ∀ t, (reset t).pinned = t.pinned ∧ (reset t).affinity = t.affinity)
    (hplace : task.pinned = some 0 ∧ task.affinity = 0 → place task = 0) :
    (s.wake reset place index).Homed := by
  have hhome : ∀ (status : Status) (t : Task), t.AtHome { reset t with status := status } :=
    fun _ t => ⟨(hreset t).1, fun _ => .inl (hreset t).2⟩
  rcases wake_cases reset place htask with ⟨_, hwake⟩ | ⟨_, hwake⟩
  · rw [hwake]
    exact h.update index fun t _ => hhome _ t
  rw [hwake]
  have hready : (s.update index fun t => { reset t with status := .ready }).Homed :=
    h.update index fun t _ => hhome _ t
  refine hready.enqueue ⟨_, getElem?_update_self htask, fun hpinned => ?_⟩
  have hbound : task.pinned ≠ none := by
    rw [← (hreset task).1]
    exact hpinned
  rw [hplace (h.home htask hbound)]
  rfl

theorem Homed.wakeWaiter {key : Nat} (hwaits : s.waitsFor key index = true) :
    (s.wakeWaiter index).Homed := by
  obtain ⟨task, htask, _⟩ := waitsFor_iff.mp hwaits
  exact h.wake htask (fun _ => ⟨rfl, rfl⟩) fun hhome => hhome.2

theorem Homed.release {slot : Nat} : (s.release index slot task).Homed := by
  have hfreed : ({ s with
      retired := Function.update s.retired slot 0
      freed := s.freed ++ [task.kernelBottom] } : State).Homed := h.sameTasks rfl fun _ _ hi => .inl
        hi
  exact hfreed.update index fun t _ => .refl t

theorem Homed.block {final : Bool} (hf : ∀ t : Task, t.AtHome (f t)) :
    (s.block cpu final f).Homed := by
  unfold State.block
  cases (s.cpus cpu).currentTask with
  | none => exact h.setMode rfl
  | some current => exact (h.update current fun t _ => hf t).setMode rfl

theorem Homed.takeHandoff (cpu : Nat) : (s.takeHandoff cpu).Homed := by
  have hcleared : ({ s with handoff := Function.update s.handoff cpu 0 } : State).Homed := by
    refine h.sameTasks rfl fun b i hi => .inl ?_
    rcases hi with hqueue | hhanded | hname
    · exact .inl hqueue
    · by_cases hb : b = cpu
      · simp [hb] at hhanded
      · simp only [update_of_ne hb] at hhanded
        exact .inr (.inl hhanded)
    · exact .inr (.inr hname)
  unfold State.takeHandoff
  dsimp only
  split
  · rename_i hfinished
    have hhanded : s.handoff cpu = s.handoff cpu - 1 + 1 := by omega
    obtain ⟨t, ht, hzero⟩ := h.welcome (.inr (.inl hhanded))
    have hready : (({ s with handoff := Function.update s.handoff cpu 0 } : State).update
        (s.handoff cpu - 1) fun t => { t with status := .ready, affinity := cpu }).Homed := by
      refine hcleared.update _ fun u hu => ⟨rfl, fun hpinned => .inr ?_⟩
      cases ht.symm.trans hu
      exact hzero hpinned
    exact hready.enqueue ⟨_, getElem?_update_self ht, hzero⟩
  · exact hcleared

theorem Homed.departed {next : Option Nat} (hdeparted : Departed cpu next pending s s')
    (hqueues : ∀ q i, i ∈ s'.queues q → i ∈ s.queues q)
    (hnext : ∀ i, next = some i → s.Welcome cpu i ∧ ∃ t t', s.tasks[i]? = some t
      ∧ s'.tasks[i]? = some t' ∧ t.AtHome t') : s'.Homed := by
  obtain ⟨c, hcpus, hcurrent, _, hmode, _⟩ := hdeparted.cpus
  apply h.of
  · intro i
    by_cases hi : next = some i
    · exact .inr (hnext i hi).2
    by_cases hold : (s.cpus cpu).currentTask = some i
    · rw [hdeparted.left i hold]
      cases htask : s.tasks[i]? with
      | none => exact .inl rfl
      | some task => exact .inr ⟨task, _, rfl, rfl, rfl, fun _ => .inl rfl⟩
    · exact .inl (hdeparted.others i hi hold)
  intro b i hi
  refine located_of_cpu hi hqueues hdeparted.handoff hcpus fun hname => ?_
  rcases hname with hnew | ⟨p, hpending, hencoded⟩
  · exact .inr (hnext i (hcurrent ▸ hnew)).1
  -- the task that is switched out was the processor's own
  rw [hmode] at hpending
  cases hpending
  rw [hdeparted.encoded] at hencoded
  refine .inl (.inl ?_)
  unfold switchOut at hencoded
  cases hold : (s.cpus cpu).currentTask with
  | none => simp [hold] at hencoded
  | some =>
    simp only [hold] at hencoded
    split at hencoded
    · simp only [Nat.add_right_cancel_iff] at hencoded
      rw [hencoded]
    · simp at hencoded

theorem Homed.switched {rsp : Nat} (hmode : (s.cpus cpu).mode = .switching pending)
    (hswitched : Switched cpu rsp pending s s') : s'.Homed := by
  obtain ⟨c, hcpus, hcurrent, _, hrunning, _⟩ := hswitched.cpus
  apply h.of
  · intro i
    by_cases hi : pending.outgoing = some i
    · rw [hswitched.left i hi]
      cases htask : s.tasks[i]? with
      | none => exact .inl rfl
      | some task => exact .inr ⟨task, _, rfl, rfl, rfl, fun _ => .inl rfl⟩
    · exact .inl (hswitched.others i hi)
  intro b i hi
  left
  rcases hi with hqueue | hhanded | hname
  · exact .inl (hswitched.queues ▸ hqueue)
  · rw [hswitched.handoff] at hhanded
    split at hhanded
    · exact .inr (.inl hhanded)
    by_cases hb : b = cpu
    · rw [hb, update_self] at hhanded
      refine .inr (.inr (.inr ⟨pending, ?_, hhanded⟩))
      rw [hb, hmode]
      rfl
    · rw [update_of_ne hb] at hhanded
      exact .inr (.inl hhanded)
  · right
    right
    rw [hcpus] at hname
    by_cases hb : b = cpu
    · rw [hb, update_self] at hname
      rw [hb]
      rcases hname with hsame | ⟨p, hpending, _⟩
      · exact .inl (hcurrent ▸ hsame)
      · simp [hrunning, Mode.pending] at hpending
    · rwa [update_of_ne hb] at hname

theorem Homed.prepare (hmode : (s.cpus cpu).mode = .preparing pending) : (s.prepare cpu).Homed := by
  unfold State.prepare
  rw [hmode]
  apply h.updateCpu
  intro i hname
  rcases hname with hcurrent | ⟨p, hpending, hencoded⟩
  · exact .inl hcurrent
  · refine .inr ⟨p, ?_, hencoded⟩
    rw [hmode]
    exact hpending

theorem Homed.enterIdle (hat : s.At cpu isRunning) (hcurrent : (s.cpus cpu).currentTask = none) :
    (s.enterIdle cpu).Homed := by
  unfold State.enterIdle
  rw [hcurrent]
  refine h.sameTasks rfl fun b i hi => ?_
  refine located_of_cpu hi (fun _ _ hq => hq) rfl rfl fun hname => .inl ?_
  rcases hname with hnone | ⟨p, hsome, _⟩
  · cases hnone
  · rw [pending_of_isRunning hat.2] at hsome
    cases hsome

theorem Homed.move (hmove : Move action s s') : s'.Homed := by
  cases hmove with
  | clerical hsame =>
    refine h.sameTasks hsame.tasks fun b i hi => .inl ?_
    unfold Located at hi ⊢
    rwa [hsame.queues, hsame.handoff, hsame.cpus] at hi
  | record hsame =>
    apply h.updateCpu
    intro i hname
    unfold Cpu.Names at hname ⊢
    rwa [hsame.currentTask, hsame.mode] at hname
  | create hnew =>
    have hcounted : ({ s with nextId := (s.nextId + 1) % 2 ^ 64 } : State).Homed :=
      h.sameTasks rfl fun _ _ hi => .inl hi
    refine hcounted.addTask fun hpinned => ?_
    obtain ⟨hzero, hcpu⟩ := hnew.pinned hpinned
    exact ⟨hzero, hnew.affinity.trans hcpu, hcpu⟩
  | wakeDue now _ htask =>
    exact h.wake htask (fun _ => ⟨rfl, rfl⟩) fun hhome => by simp [hhome.1]
  | reclaim =>
    exact wakeAll_preserve (fun _ _ hwaits h => h.wakeWaiter hwaits) h.release
  | count =>
    rw [countEvent_frame]
    exact h.sameTasks rfl fun _ _ hi => .inl hi
  | forget => exact h.sameTasks rfl fun _ _ hi => .inl hi
  | wakeBlocked hwaits =>
    obtain ⟨task, htask, _⟩ := waitsFor_iff.mp hwaits
    exact h.wake htask (fun _ => ⟨rfl, rfl⟩) fun hhome => hhome.2
  | handoff => exact h.takeHandoff _
  | stay hat hsearched =>
    refine Homed.setMode (h.sameTasks rfl fun b i hi => .inl ?_) (pending_returned _)
    exact hi.imp_left fun hqueue => (hsearched.sub b).subset hqueue
  | idle hat _ _ _ _ hsearched hdeparted =>
    exact h.departed hdeparted (fun q i hi => (hsearched.sub q).subset hi) (by simp)
  | dispatch hat hhandoff hclaimed hdeparted hentered hschedules =>
    rename_i cpu pending next task
    have hwelcome : task.pinned ≠ none → cpu = 0 := by
      intro hpinned
      obtain ⟨q, hsource, hq⟩ := hclaimed.source
      rcases hq with hq | hfree
      · rw [← hq]
        exact h.placed hclaimed.found hpinned (.inl (hsource.subset List.mem_cons_self))
      · exact absurd hfree hpinned
    refine h.departed hdeparted (fun q i hi => (hclaimed.sub q).subset hi) fun i hi => ?_
    cases hi
    exact ⟨⟨task, hclaimed.found, hwelcome⟩, task, _, hclaimed.found, hentered, rfl,
      fun hpinned => .inr (hwelcome hpinned)⟩
  | bounce hfound hqueue hpinned hother =>
    exact absurd (h.own hfound hpinned hqueue) hother
  | prepare hmode => exact h.prepare hmode
  | switchStack hmode hrsp hswitched => exact h.switched hmode hswitched
  | dropFiles hat hcurrent =>
    rename_i current
    have hdropped : (s.update current fun t => { t with files := none }).Homed :=
      h.update current fun _ _ => ⟨rfl, fun _ => .inl rfl⟩
    exact hdropped.setMode rfl
  | halt => exact h.setMode rfl
  | exit hat => exact h.block fun _ => ⟨rfl, fun _ => .inl rfl⟩
  | waitTask =>
    exact h.block fun _ => ⟨rfl, fun _ => .inl rfl⟩
  | waitEvent hat hcurrent hgeneration => exact h.block fun _ => ⟨rfl, fun _ => .inl rfl⟩
  | sleep hat hcurrent => exact h.block fun _ => ⟨rfl, fun _ => .inl rfl⟩
  | yield => exact h.setMode rfl
  | enterIdle hat hcurrent => exact h.enterIdle hat hcurrent

end State

end Kaguya.Scheduler
