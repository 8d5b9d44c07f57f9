import Kaguya.Lib.Handles
import Kaguya.Scheduler.Claiming

/-!
# One processor for every stack

A task's stack is a resource, and a processor holds it while the task is its current one, while the
stack pointer is still to be saved, and while it runs on the stack. `onCpu` is the flag of that
lease: `schedule` takes a task only if the flag is down, and the context switch lowers it after it
has saved the stack pointer.
-/

namespace Kaguya.Scheduler

open Function Lease

namespace Cpu

def Has (c : Cpu) (index : Nat) : Prop :=
  c.currentTask = some index ∨ c.mode.outgoing = some index ∨ c.onStack = some index

structure Ordered (c : Cpu) : Prop where
  entering : ∀ index, c.mode.incoming = some index → c.currentTask = some index
  leaving : ∀ index, c.mode.outgoing = some index → c.currentTask ≠ some index

theorem ordered_of_pending {c : Cpu} (h : c.mode.pending = none) : c.Ordered := by
  constructor
  · intro index hin
    simp [Mode.incoming, h] at hin
  · intro index hout
    simp [Mode.outgoing, h] at hout

end Cpu

namespace State

def onCpu (s : State) (index : Nat) : Bool :=
  match s.tasks[index]? with
  | some task => task.onCpu
  | none => false

/-- Every stack has at most one holder, which is what the flag says, and `CURRENT` is right. -/
structure Owned (s : State) : Prop where
  exclusive : Exclusive (fun index => s.onCpu index = true) fun cpu index => (s.cpus cpu).Has index
  current : ∀ cpu, s.current cpu = (s.cpus cpu).currentTask
  ordered : ∀ cpu, (s.cpus cpu).Ordered

variable {s s' s'' : State} {cpu online index task next : Nat} {c' : Cpu}

section Processor
variable (cpu) (h : s.Owned) (hcpus : s'.cpus = Function.update s.cpus cpu c')
  (hcurrent : s'.current = Function.update s.current cpu c'.currentTask) (hordered : c'.Ordered)
include h hcpus hcurrent hordered

theorem Owned.of_exclusive
    (hexclusive : Exclusive (fun index => s'.onCpu index = true) fun cpu index => (s'.cpus cpu).Has
      index) : s'.Owned := by
  refine ⟨hexclusive, fun b => ?_, fun b => ?_⟩
  · rw [hcpus, hcurrent]
    by_cases hb : b = cpu
    · rw [hb, update_self, update_self]
    · rw [update_of_ne hb, update_of_ne hb]
      exact h.current b
  · rw [hcpus]
    by_cases hb : b = cpu
    · rw [hb, update_self]
      exact hordered
    · rw [update_of_ne hb]
      exact h.ordered b

theorem Owned.keep (honCpu : ∀ index, s.onCpu index = true → s'.onCpu index = true)
    (hhas : ∀ index, c'.Has index → (s.cpus cpu).Has index) : s'.Owned := by
  refine h.of_exclusive cpu hcpus hcurrent hordered (h.exclusive.mono honCpu fun b index hb => ?_)
  rw [hcpus] at hb
  by_cases hne : b = cpu
  · rw [hne, update_self] at hb
    exact hne ▸ hhas index hb
  · rw [update_of_ne hne] at hb
    exact hb

theorem Owned.acquire (next : Nat) (hfree : s.onCpu next = false)
    (honCpu : ∀ index, s.onCpu index = true ∨ index = next → s'.onCpu index = true)
    (hhas : ∀ index, c'.Has index → (s.cpus cpu).Has index ∨ index = next) : s'.Owned := by
  refine h.of_exclusive cpu hcpus hcurrent hordered
    (h.exclusive.acquire (a := cpu) (r := next) (by simp [hfree]) honCpu fun b index hb => ?_)
  rw [hcpus] at hb
  by_cases hne : b = cpu
  · rw [hne, update_self] at hb
    rcases hhas index hb with hbefore | hnext
    · exact .inl (hne ▸ hbefore)
    · exact .inr ⟨hne, hnext⟩
  · rw [update_of_ne hne] at hb
    exact .inl hb

theorem Owned.release (task : Nat) (hheld : (s.cpus cpu).Has task)
    (honCpu : ∀ index, s.onCpu index = true → index ≠ task → s'.onCpu index = true)
    (hhas : ∀ index, c'.Has index → (s.cpus cpu).Has index ∧ index ≠ task) : s'.Owned := by
  refine h.of_exclusive cpu hcpus hcurrent hordered
    (h.exclusive.release (a := cpu) (r := task) hheld honCpu fun b index hb => ?_)
  rw [hcpus] at hb
  by_cases hne : b = cpu
  · rw [hne, update_self] at hb
    obtain ⟨hbefore, hother⟩ := hhas index hb
    exact ⟨hne ▸ hbefore, fun hsame => hother hsame.2⟩
  · rw [update_of_ne hne] at hb
    exact ⟨hb, fun hsame => hne hsame.1⟩

end Processor

theorem Owned.updateCpu {f : Cpu → Cpu} (h : s.Owned)
    (htask : (f (s.cpus cpu)).currentTask = (s.cpus cpu).currentTask)
    (hhas : ∀ index, (f (s.cpus cpu)).Has index → (s.cpus cpu).Has index)
    (hordered : (f (s.cpus cpu)).Ordered) : (s.updateCpu cpu f).Owned := by
  refine h.keep cpu rfl ?_ hordered (fun _ hon => hon) hhas
  change s.current = _
  rw [htask, ← h.current cpu, update_eq_self]

structure Kept (s s' : State) : Prop where
  onCpu : ∀ index, s'.onCpu index = s.onCpu index
  current : s'.current = s.current
  cpus : s'.cpus = s.cpus

theorem Kept.refl (s : State) : Kept s s := ⟨fun _ => rfl, rfl, rfl⟩

theorem Kept.trans (h : Kept s s') (h' : Kept s' s'') : Kept s s'' :=
  ⟨fun index => (h'.onCpu index).trans (h.onCpu index), h'.current.trans h.current,
  h'.cpus.trans h.cpus⟩

theorem Kept.owned (hkept : Kept s s') (h : s.Owned) : s'.Owned := by
  obtain ⟨honCpu, hcurrent, hcpus⟩ := hkept
  refine ⟨?_, ?_, ?_⟩
  · rw [hcpus]
    simp only [honCpu]
    exact h.exclusive
  · rw [hcurrent, hcpus]
    exact h.current
  · rw [hcpus]
    exact h.ordered

theorem kept_foldl {round : State → Nat → State} (hround : ∀ s index, Kept s (round s index))
    (indices : List Nat) (s : State) : Kept s (indices.foldl round s) := by
  induction indices generalizing s with
  | nil => exact Kept.refl s
  | cons index _ ih => exact (hround s index).trans (ih _)

theorem onCpu_update (index i : Nat) (f : Task → Task) (s : State) :
    (s.update index f).onCpu i = if index = i
        then ((s.tasks[i]?).map fun task => (f task).onCpu).getD false
        else s.onCpu i := by
  unfold onCpu update
  rw [List.getElem?_modify]
  by_cases hi : index = i
  · rw [if_pos hi]
    cases s.tasks[i]? <;> simp [hi]
  · rw [if_neg hi]
    cases s.tasks[i]? <;> simp [hi]

theorem kept_update (index : Nat) (f : Task → Task) (s : State)
    (hf : ∀ task, (f task).onCpu = task.onCpu) : Kept s (s.update index f) := by
  refine ⟨fun i => ?_, rfl, rfl⟩
  rw [onCpu_update]
  split
  · unfold onCpu
    cases s.tasks[i]? with
    | none => rfl
    | some task => exact hf task
  · rfl

theorem kept_enqueue (cpu index : Nat) (s : State) :
    Kept s (s.enqueue cpu index) := ⟨fun _ => rfl, rfl, rfl⟩

variable {new : Task} {mode : Mode} {pending : Switch} {rsp : Nat}

theorem onCpu_of_getElem? (h : s.tasks[index]? = some new) : s.onCpu index = new.onCpu := by
  unfold onCpu
  rw [h]

theorem onCpu_congr (h : s'.tasks[index]? = s.tasks[index]?) : s'.onCpu index = s.onCpu index := by
  unfold onCpu
  rw [h]

theorem kept_addTask (hnew : new.onCpu = false) (cpu : Nat) (s : State) :
    Kept s (s.addTask cpu new) := by
  refine ⟨fun i => ?_, rfl, rfl⟩
  by_cases hi : i = s.tasks.length
  · rw [hi, onCpu_of_getElem? (getElem?_addTask_self cpu new s), hnew]
    simp [onCpu]
  · exact onCpu_congr (getElem?_addTask_of_ne hi)

theorem kept_wake (reset : Task → Task) (place : Task → Nat) (index : Nat) (s : State)
    (hreset : ∀ task, (reset task).onCpu = task.onCpu) : Kept s (s.wake reset place index) := by
  unfold wake
  split
  · exact Kept.refl s
  split
  · exact kept_update index _ s hreset
  · refine Kept.trans ?_ (kept_enqueue ..)
    exact kept_update index _ s hreset

theorem kept_wakeDue (index : Nat) (s : State) :
    Kept s (s.wakeDue index) := kept_wake _ _ index s fun _ => rfl

theorem kept_wakeWaiter (index : Nat) (s : State) :
    Kept s (s.wakeWaiter index) := kept_wake _ _ index s fun _ => rfl

theorem kept_wakeBlocked (index : Nat) (s : State) :
    Kept s (s.wakeBlocked index) := kept_wake _ _ index s fun _ => rfl

theorem kept_wakeAll {wakeOne : Nat → State → State} (hwake : ∀ index s, Kept s (wakeOne index s))
    (key : Nat) (s : State) : Kept s (s.wakeAll wakeOne key) := by
  refine kept_foldl (fun s index => ?_) _ s
  split
  · exact hwake index s
  · exact Kept.refl s

theorem kept_reclaim (index : Nat) (s : State) : Kept s (s.reclaim index) := by
  unfold reclaim
  split
  · exact Kept.refl s
  split
  · split
    · exact Kept.refl s
    rename_i task _ _ _ slot _
    have hfreed : Kept s { s with
        retired := Function.update s.retired slot 0
        freed := s.freed ++ [task.kernelBottom] } := ⟨fun _ => rfl, rfl, rfl⟩
    refine hfreed.trans ((kept_update index _ _ ?_).trans (kept_wakeAll kept_wakeWaiter task.id _))
    exact fun _ => rfl
  · exact Kept.refl s

theorem kept_maintain (now index : Nat) (s : State) : Kept s (s.maintain now index) := by
  have hwake := kept_wakeDue index s
  unfold maintain
  split
  · exact Kept.refl s
  split
  · split
    · exact hwake
    · exact hwake.trans (kept_reclaim index _)
  · exact kept_reclaim index s

theorem kept_maintenance (s : State) :
    Kept s s.maintenance := kept_foldl (fun s' index => kept_maintain s.ticks index s') _ s

theorem kept_takeHandoff (cpu : Nat) (s : State) : Kept s (s.takeHandoff cpu) := by
  have hcleared : Kept s { s with handoff := Function.update s.handoff cpu 0 } :=
    ⟨fun _ => rfl, rfl, rfl⟩
  unfold takeHandoff
  dsimp only
  split
  · refine hcleared.trans ((kept_update _ _ _ ?_).trans (kept_enqueue ..))
    exact fun _ => rfl
  · exact hcleared

theorem kept_countEvent (key : Nat) (s : State) : Kept s (s.countEvent key) := by
  unfold countEvent
  split <;> exact ⟨fun _ => rfl, rfl, rfl⟩

theorem kept_wakeEvent (key : Nat) (s : State) : Kept s (s.wakeEvent key) :=
  (kept_countEvent key s).trans (kept_wakeAll kept_wakeBlocked key _)

theorem kept_addUser (online bottom userRsp addressSpace files : Nat) (s : State) :
    Kept s (s.addUser online bottom userRsp addressSpace files).2 := by
  have hcounted : Kept s { s with nextId := (s.nextId + 1) % 2 ^ 64 } := ⟨fun _ => rfl, rfl, rfl⟩
  unfold addUser
  split
  · exact hcounted
  · exact hcounted.trans (kept_addTask rfl _ _)

theorem kept_addKernel (online bottom bytes : Nat) (s : State) :
    Kept s (s.addKernel online bottom bytes).2 := by
  have hcounted : Kept s { s with nextId := (s.nextId + 1) % 2 ^ 64 } := ⟨fun _ => rfl, rfl, rfl⟩
  exact hcounted.trans (kept_addTask rfl _ _)

theorem claim_spec (online cpu : Nat) (s : State) : Kept s (s.claim online cpu).2
    ∧ ∀ index, (s.claim online cpu).1 = some index → (s.claim online cpu).2.onCpu index
      = false := by
  have hqueues : ∀ queues, Kept s { s with queues := queues } := fun _ => ⟨fun _ => rfl, rfl, rfl⟩
  rcases claim_cases online cpu s with ⟨queues, hclaim, _⟩ | ⟨next, task, queues, affinity, htaken,
    hclaim⟩
  · rw [hclaim]
    exact ⟨hqueues queues, by simp⟩
  rw [hclaim]
  have hkept : Kept s (({ s with queues := queues }).update next fun t =>
      { t with status := .claimed, affinity := affinity t }) := by
    apply (hqueues queues).trans
    exact kept_update _ _ _ fun _ => rfl
  refine ⟨hkept, fun index hindex => ?_⟩
  cases hindex
  rw [hkept.onCpu, onCpu_of_getElem? htaken.found, htaken.free]

theorem kept_saveUser (cpu : Nat) (s : State) : Kept s (s.saveUser cpu) := by
  unfold saveUser
  split
  · exact kept_update _ _ _ fun _ => rfl
  · exact Kept.refl s

theorem kept_switchOut (cpu : Nat) (s : State) : Kept s (s.switchOut cpu).2 := by
  unfold switchOut
  split
  · exact Kept.refl s
  · split
    · exact kept_update _ _ _ fun _ => rfl
    · exact Kept.refl s

theorem Owned.setMode (h : s.Owned) (hmode : mode.pending = none) :
    (s.updateCpu cpu fun c => { c with mode := mode }).Owned := by
  refine h.updateCpu rfl (fun index hhas => ?_) (Cpu.ordered_of_pending hmode)
  rcases hhas with htask | hout | hstack
  · exact .inl htask
  · simp [Mode.outgoing, hmode] at hout
  · exact .inr (.inr hstack)

theorem pending_returned (mode : Mode) : mode.returned.pending = none := by
  unfold Mode.returned
  split <;> rfl

theorem Owned.resume (h : s.Owned) :
    (s.resume cpu).Owned := h.setMode (pending_returned (s.cpus cpu).mode)

theorem Owned.scheduleIdle (h : s.Owned) : (s.scheduleIdle cpu).Owned := by
  unfold State.scheduleIdle
  dsimp only
  split
  · exact h.resume
  rename_i current hcurrent
  split
  · exact h.resume
  -- the task was the processor's own, so it may be on its way out
  have hkept := kept_saveUser cpu s
  refine (hkept.owned h).keep cpu rfl rfl ⟨?_, ?_⟩ (fun _ hon => hon) fun index hhas => ?_
  · intro index hin
    cases hin
  · intro index _ hnone
    cases hnone
  rw [hkept.cpus]
  rcases hhas with hnone | hout | hstack
  · cases hnone
  · cases hout
    exact .inl hcurrent
  · rw [hkept.cpus] at hstack
    exact .inr (.inr hstack)

theorem Owned.scheduleTask (h : s.Owned) (hfree : s.onCpu next = false) :
    (s.scheduleTask cpu next).Owned := by
  have hout := kept_switchOut cpu s
  unfold State.scheduleTask
  generalize s.switchOut cpu = out at hout
  obtain ⟨encoded, s1⟩ := out
  have hs1 : s1.Owned := hout.owned h
  have hfree1 : s1.onCpu next = false := (hout.onCpu next).trans hfree
  dsimp only
  split
  · exact hs1.resume
  rename_i task htask
  split
  · -- the task goes back into the queue of its processor
    refine Owned.resume (Kept.owned (Kept.trans ?_ (kept_enqueue ..)) hs1)
    exact kept_update _ _ _ fun _ => rfl
  have hkept := kept_saveUser cpu s1
  have hs2 : (s1.saveUser cpu).Owned := hkept.owned hs1
  have hfree2 : (s1.saveUser cpu).onCpu next = false := (hkept.onCpu next).trans hfree1
  have hcpus : (s1.saveUser cpu).cpus = s1.cpus := hkept.cpus
  obtain ⟨task2, htask2⟩ : ∃ task2, (s1.saveUser cpu).tasks[next]? = some task2 := by
    unfold saveUser
    split
    · unfold update
      rw [List.getElem?_modify, htask]
      exact ⟨_, rfl⟩
    · exact ⟨task, htask⟩
  refine hs2.acquire cpu rfl rfl ⟨?_, ?_⟩ next hfree2 ?_ ?_
  · intro index hin
    exact hin
  · -- the task that is left is on a processor, the one that is taken was not
    intro index hleft hsame
    have hhas : ((s1.saveUser cpu).cpus cpu).Has index := by
      rw [hcpus]
      exact .inl hleft
    have hon := hs2.exclusive.taken_of_holds hhas
    cases hsame
    rw [hfree2] at hon
    cases hon
  · intro index hon
    refine (onCpu_update next index _ _).trans ?_
    by_cases hindex : next = index
    · rw [if_pos hindex, ← hindex, htask2]
      rfl
    rw [if_neg hindex]
    rcases hon with hon | hnext
    · exact hon
    · exact absurd hnext.symm hindex
  · intro index hhas
    rcases hhas with hnew | hleft | hstack
    · cases hnew
      exact .inr rfl
    · left
      rw [hcpus]
      exact .inl hleft
    · exact .inl (.inr (.inr hstack))

theorem Owned.schedule (h : s.Owned) (online cpu : Nat) : (s.schedule online cpu).Owned := by
  have hmaintained : (if cpu = 0 then s.maintenance else s).Owned := by
    split
    · exact (kept_maintenance s).owned h
    · exact h
  unfold State.schedule
  dsimp only
  generalize (if cpu = 0 then s.maintenance else s) = s1 at hmaintained
  have hready := (kept_takeHandoff cpu s1).owned hmaintained
  obtain ⟨hkept, hfree⟩ := claim_spec online cpu (s1.takeHandoff cpu)
  generalize (s1.takeHandoff cpu).claim online cpu = claimed at hkept hfree
  obtain ⟨next, s2⟩ := claimed
  cases next with
  | none => exact (hkept.owned hready).scheduleIdle
  | some next => exact (hkept.owned hready).scheduleTask (hfree next rfl)

theorem Owned.prepare (h : s.Owned) : (s.prepare cpu).Owned := by
  have hordered := h.ordered cpu
  unfold State.prepare
  split
  · rename_i pending hmode
    have hout : (s.cpus cpu).mode.outgoing = pending.outgoing := by rw [hmode]; rfl
    have hin : (s.cpus cpu).mode.incoming = pending.incoming := by rw [hmode]; rfl
    refine h.updateCpu rfl (fun index hhas => ?_) ⟨fun index hnext => ?_, fun index hleft => ?_⟩
    · rcases hhas with htask | hleft | hstack
      · exact .inl htask
      · exact .inr (.inl (hout.trans hleft))
      · exact .inr (.inr hstack)
    · exact hordered.entering index (hin.trans hnext)
    · exact hordered.leaving index (hout.trans hleft)
  · exact h

theorem kept_retire (bottom : Nat) (s : State) : Kept s (s.retire bottom) := by
  unfold retire
  split
  · exact Kept.refl s
  · split
    · exact ⟨fun _ => rfl, rfl, rfl⟩
    · exact Kept.refl s

theorem kept_publish (cpu : Nat) (pending : Switch) (s : State) :
    Kept s (s.publish cpu pending) := by
  refine Kept.trans ?_ (kept_retire ..)
  split
  · exact ⟨fun _ => rfl, rfl, rfl⟩
  · exact Kept.refl s

theorem has_of_switched {c : Cpu} (hmode : c.mode = .switching pending) (hordered : c.Ordered)
    (hhas : ({ c with mode := .running, onStack := pending.incoming } : Cpu).Has index) :
    c.currentTask = some index := by
  rcases hhas with htask | hout | hstack
  · exact htask
  · cases hout
  · apply hordered.entering
    rw [hmode]
    exact hstack

section
variable (h : s.Owned)
include h

theorem Owned.leaveTask (hmode : (s.cpus cpu).mode = .switching pending)
    (hout : pending.outgoing = some task) :
    (((s.saveStack cpu rsp (some task)).publish cpu pending).updateCpu cpu fun c => { c with
      mode := .running
      onStack := pending.incoming }).Owned := by
  have hordered := h.ordered cpu
  have hleft : (s.cpus cpu).mode.outgoing = some task := by
    rw [hmode]
    exact hout
  have hpublish := kept_publish cpu pending (s.saveStack cpu rsp (some task))
  have hpublished : ((s.saveStack cpu rsp (some task)).publish cpu pending).cpus = s.cpus :=
    hpublish.cpus
  have hcpus : (((s.saveStack cpu rsp (some task)).publish cpu pending).updateCpu cpu fun c =>
    { c with
      mode := .running
      onStack := pending.incoming }).cpus = Function.update s.cpus cpu
        { s.cpus cpu with mode := .running, onStack := pending.incoming } := by
    unfold State.updateCpu
    rw [hpublished]
  refine h.release cpu hcpus ?_ (Cpu.ordered_of_pending rfl) task (.inr (.inl hleft)) ?_ ?_
  · change ((s.saveStack cpu rsp (some task)).publish cpu pending).current
      = Function.update s.current cpu (s.cpus cpu).currentTask
    rw [hpublish.current, ← h.current cpu, update_eq_self]
    rfl
  · intro index hon hne
    refine (hpublish.onCpu index).trans ((onCpu_update task index _ s).trans ?_)
    rw [if_neg (Ne.symm hne)]
    exact hon
  intro index hhas
  have htask := has_of_switched hmode hordered hhas
  refine ⟨.inl htask, fun hsame => hordered.leaving task hleft ?_⟩
  rw [← hsame]
  exact htask

theorem Owned.leaveIdle (hmode : (s.cpus cpu).mode = .switching pending) :
    (((s.saveStack cpu rsp none).publish cpu pending).updateCpu cpu fun c => { c with
      mode := .running
      onStack := pending.incoming }).Owned := by
  have hordered := h.ordered cpu
  have hsaved : (s.updateCpu cpu fun c => { c with idleStack := rsp }).Owned :=
    h.updateCpu rfl (fun _ hhas => hhas) ⟨hordered.entering, hordered.leaving⟩
  have hpublish := kept_publish cpu pending (s.saveStack cpu rsp none)
  have hpublished := hpublish.owned hsaved
  have hmode' : (((s.saveStack cpu rsp none).publish cpu pending).cpus cpu).mode = .switching
      pending := by
    rw [hpublish.cpus]
    change (Function.update s.cpus cpu _ cpu).mode = _
    rw [update_self]
    exact hmode
  refine hpublished.updateCpu rfl (fun index hhas => .inl ?_) (Cpu.ordered_of_pending rfl)
  exact has_of_switched hmode' (hpublished.ordered cpu) hhas

theorem Owned.switchStack (cpu rsp : Nat) : (s.switchStack cpu rsp).Owned := by
  unfold State.switchStack
  split
  · rename_i pending hmode
    cases hout : pending.outgoing with
    | some => exact h.leaveTask hmode hout
    | none => exact h.leaveIdle hmode
  · exact h

theorem Owned.block {final : Bool} {f : Task → Task} (hf : ∀ task, (f task).onCpu = task.onCpu) :
    (s.block cpu final f).Owned := by
  refine Owned.setMode ?_ rfl
  split
  · exact (kept_update _ _ _ hf).owned h
  · exact h

theorem Owned.dropFiles : (s.dropFiles cpu).Owned := by
  unfold State.dropFiles
  split
  · exact h.setMode rfl
  · refine Owned.setMode (Kept.owned (kept_update _ _ s ?_) h) rfl
    exact fun _ => rfl

theorem Owned.waitTask (cpu id : Nat) : (s.waitTask cpu id).2.Owned := by
  unfold State.waitTask
  split
  · exact h
  split
  · exact h
  split
  · exact h
  split
  · exact h
  · split
    · exact h
    · exact h.block fun _ => rfl

theorem Owned.waitEvent (cpu key deadline observed : Nat) :
    (s.waitEvent cpu key deadline observed).Owned := by
  unfold State.waitEvent
  split
  · exact h
  · split
    · exact h
    · exact h.block fun _ => rfl

theorem Owned.sleep (cpu milliseconds now : Nat) : (s.sleep cpu milliseconds now).Owned := by
  unfold State.sleep
  split
  · exact h.setMode rfl
  · exact h.block fun _ => rfl

theorem Owned.interrupt (online cpu : Nat) : (s.interrupt online cpu).Owned := by
  have hordered := h.ordered cpu
  unfold State.interrupt
  dsimp only
  split
  · exact h
  split
  · refine Owned.schedule (h.updateCpu rfl (fun _ hhas => hhas) ?_) online cpu
    exact ⟨hordered.entering, hordered.leaving⟩
  · exact h.updateCpu rfl (fun _ hhas => hhas) ⟨hordered.entering, hordered.leaving⟩

theorem Owned.enterIdle (hrunning : (s.cpus cpu).mode.pending = none) :
    (s.enterIdle cpu).Owned := by
  have hidle : ∀ index, ¬ ({ s.cpus cpu with
      currentTask := none
      idleStack := 0
      ticksLeft := 0
      needReschedule := false
      onStack := none } : Cpu).Has index := by
    intro index hhas
    rcases hhas with htask | hout | hstack
    · cases htask
    · simp [Mode.outgoing, hrunning] at hout
    · cases hstack
  unfold State.enterIdle
  cases hcurrent : (s.cpus cpu).currentTask with
  | none =>
    exact h.keep cpu rfl rfl (Cpu.ordered_of_pending hrunning) (fun _ hon => hon)
      fun index hhas => absurd hhas (hidle index)
  | some task =>
    refine h.release cpu rfl rfl (Cpu.ordered_of_pending hrunning) task (.inl hcurrent) ?_
      fun index hhas => absurd hhas (hidle index)
    intro index hon hne
    refine (onCpu_update task index _ s).trans ?_
    rw [if_neg (Ne.symm hne)]
    exact hon

end

theorem owned_init (kernelRoot : Nat) : (init kernelRoot).Owned := by
  have hhas : ∀ cpu index, ((init kernelRoot).cpus cpu).Has index → cpu = 0 ∧ index = 0 := by
    intro cpu index hhas
    by_cases hcpu : cpu = 0
    · refine ⟨hcpu, ?_⟩
      rw [hcpu] at hhas
      rcases hhas with htask | hout | hstack
      · exact (Option.some.inj htask).symm
      · cases hout
      · exact (Option.some.inj hstack).symm
    · exfalso
      rcases hhas with htask | hout | hstack
      · simp [init, hcpu] at htask
      · cases hout
      · simp [init, hcpu] at hstack
  refine ⟨⟨?_, ?_⟩, fun cpu => ?_, fun cpu => Cpu.ordered_of_pending rfl⟩
  · intro cpu index hcpu
    rw [(hhas cpu index hcpu).2]
    rfl
  · intro a b index ha hb
    rw [(hhas a index ha).1, (hhas b index hb).1]
  by_cases hcpu : cpu = 0
  · rw [hcpu]
    rfl
  · simp [init, hcpu]

theorem Owned.when {enabled : Mode → Bool} {f : State → State} (h : s.Owned)
    (hf : enabled (s.cpus cpu).mode = true → (f s).Owned) : (s.when cpu enabled f).Owned := by
  unfold State.when
  split
  · rename_i hgo
    exact hf hgo.2
  · exact h

theorem pending_of_isRunning (h : isRunning mode = true) : mode.pending = none := by
  cases mode with
  | running => rfl
  | exiting | blocking | preparing | switching | halted => cases h

theorem Owned.step (h : s.Owned) (action : Action) : (s.step action).Owned := by
  cases action with
  | enterIdle cpu =>
    change State.Owned (if (s.cpus cpu).currentTask = none then s.when cpu isRunning
      (State.enterIdle cpu)
      else s)
    split
    · exact h.when fun hrunning => h.enterIdle (pending_of_isRunning hrunning)
    · exact h
  | addUser online bottom userRsp addressSpace files =>
    exact (kept_addUser online bottom userRsp addressSpace files s).owned h
  | addKernel online bottom bytes => exact (kept_addKernel online bottom bytes s).owned h
  | collect => exact (kept_maintenance s).owned h
  | schedule online cpu => exact h.when fun _ => h.schedule online cpu
  | prepare => exact h.prepare
  | switchStack cpu rsp =>
    change (if rsp = 0 then s else s.switchStack cpu rsp).Owned
    split
    · exact h
    · exact h.switchStack cpu rsp
  | dropFiles cpu => exact h.when fun _ => h.dropFiles
  | exit cpu code => exact h.when fun _ => h.block fun _ => rfl
  | waitTask cpu id =>
    exact h.when (f := fun s => (s.waitTask cpu id).2) fun _ => h.waitTask cpu id
  | waitEvent cpu key deadline observed =>
    exact h.when fun _ => h.waitEvent cpu key deadline observed
  | wakeEvent key => exact (kept_wakeEvent key s).owned h
  | forgetEvent key => exact Kept.owned (s := s) ⟨fun _ => rfl, rfl, rfl⟩ h
  | sleep cpu milliseconds now => exact h.when fun _ => h.sleep cpu milliseconds now
  | clockTick => exact Kept.owned (s := s) ⟨fun _ => rfl, rfl, rfl⟩ h
  | interrupt online cpu => exact h.when fun _ => h.interrupt online cpu
  | enterKernel cpu =>
    refine h.when fun _ => h.updateCpu rfl (fun _ hhas => hhas) ?_
    exact ⟨(h.ordered cpu).entering, (h.ordered cpu).leaving⟩

theorem Owned.run (h : s.Owned) (actions : List Action) : (s.run actions).Owned := by
  induction actions generalizing s with
  | nil => exact h
  | cons action _ ih => exact ih (h.step action)

theorem owned_start (kernelRoot : Nat) :
    (start kernelRoot).Owned := (owned_init kernelRoot).enterIdle rfl

/-- **One processor for every stack.** No task is the current one of two processors, and from the
moment a processor has read the stack pointer that it is going to load until it has loaded it, no
other has been switched to that task without having saved its stack pointer. -/
theorem one_cpu_per_stack (kernelRoot : Nat) (actions : List Action) :
    (∀ a b task, ((start kernelRoot).run actions).current a = some task →
      ((start kernelRoot).run actions).current b = some task → a = b)
    ∧ (∀ a b task, a ≠ b → (((start kernelRoot).run actions).cpus a).mode.incoming = some task →
      ¬ (((start kernelRoot).run actions).cpus b).Has task) := by
  have howned := (owned_start kernelRoot).run actions
  generalize (start kernelRoot).run actions = s at howned
  constructor
  · intro a b task ha hb
    rw [howned.current] at ha hb
    exact howned.exclusive.unique (.inl ha) (.inl hb)
  · intro a b task hne hin hhas
    have htask := (howned.ordered a).entering task hin
    exact hne (howned.exclusive.unique (.inl htask) hhas)

end State

end Kaguya.Scheduler
