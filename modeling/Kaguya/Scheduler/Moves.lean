import Kaguya.Scheduler.Switching
import Mathlib.Logic.Relation

/-!
# What a step can do

A step under the scheduler's lock is a sequence of moves: tasks are woken one by one, stacks are
reclaimed, a task that has been switched out is handed over, and at last the processor stays with
its task, goes idle or takes another task. A move comes with the conditions under which the code
makes it.
-/

namespace Kaguya.Scheduler

namespace Action

def Maintains : Action → Prop
  | .collect => True
  | .schedule _ cpu | .interrupt _ cpu => cpu = 0
  | _ => False

def Schedules (cpu : Nat) : Action → Prop
  | .schedule _ c | .interrupt _ c => c = cpu
  | _ => False

def bottom : Action → Option Nat
  | .addUser _ bottom .. | .addKernel _ bottom _ => some bottom
  | _ => none

end Action

namespace State

variable {s s' s'' : State} {cpu online index next : Nat} {task : Task} {action : Action}

structure Clerical (action : Action) (s s' : State) : Prop where
  tasks : s'.tasks = s.tasks
  events : s'.events = s.events
  queues : s'.queues = s.queues
  current : s'.current = s.current
  handoff : s'.handoff = s.handoff
  retired : s'.retired = s.retired
  cpus : s'.cpus = s.cpus
  freed : s'.freed = s.freed
  kernelRoot : s'.kernelRoot = s.kernelRoot
  nextId : s'.nextId = if action.bottom = none then s.nextId else (s.nextId + 1) % 2 ^ 64

structure SamePlace (c c' : Cpu) : Prop where
  currentTask : c'.currentTask = c.currentTask
  idleStack : c'.idleStack = c.idleStack
  mode : c'.mode = c.mode
  onStack : c'.onStack = c.onStack
  root : c'.root = c.root

structure New (action : Action) (s : State) (cpu : Nat) (task : Task) : Prop where
  cpu_lt : cpu < 64
  id : task.id = s.nextId
  status : task.status = .ready
  onCpu : task.onCpu = false
  affinity : task.affinity = cpu
  pinned : task.pinned ≠ none → task.pinned = some 0 ∧ cpu = 0
  wakeTick : task.wakeTick = 0
  bottom : action.bottom = some task.kernelBottom

def release (index slot : Nat) (task : Task) (s : State) : State :=
  ({ s with
    retired := Function.update s.retired slot 0
    freed := s.freed ++ [task.kernelBottom] }).update index fun t =>
      { t with addressSpace := none, kernelBottom := 0, kernelTop := 0 }

def At (s : State) (cpu : Nat) (enabled : Mode → Bool) : Prop :=
  cpu < 64 ∧ enabled (s.cpus cpu).mode = true

end State

open State

inductive Move : Action → State → State → Prop where
  | clerical {action s s'} (hsame : Clerical action s s') : Move action s s'
  | record {action s cpu f} (hsame : SamePlace (s.cpus cpu) (f (s.cpus cpu))) :
      Move action s (s.updateCpu cpu f)
  | create {action s cpu task} (hnew : New action s cpu task) :
      Move action s (({ s with nextId := (s.nextId + 1) % 2 ^ 64 }).addTask cpu task)
  | wakeDue {action s index task} (now : Nat) (hmaintains : action.Maintains)
      (htask : s.tasks[index]? = some task) (hdue : due now task = true) :
      Move action s (s.wakeDue index)
  | reclaim {action s index slot task} (hmaintains : action.Maintains)
      (htask : s.tasks[index]? = some task) (hzombie : task.status = .zombie)
      (hbottom : task.kernelBottom ≠ 0) (hleft : s.published index = false) (hslot : slot < 64)
      (hretired : s.retired slot = task.kernelBottom) :
      Move action s ((s.release index slot task).wakeAll wakeWaiter task.id)
  | count {s key} : Move (.wakeEvent key) s (s.countEvent key)
  | forget {s key} : Move (.forgetEvent key) s (s.forgetEvent key)
  | wakeBlocked {s index key} (hwaits : s.waitsFor key index = true) :
      Move (.wakeEvent key) s (s.wakeBlocked index)
  | handoff {action s cpu} (hat : s.At cpu maySchedule) (hschedules : action.Schedules cpu) :
      Move action s (s.takeHandoff cpu)
  | stay {action s cpu queues} (hat : s.At cpu maySchedule) (hsearched : Searched s queues)
      (hstay : ∀ current, (s.cpus cpu).currentTask = some current → (s.cpus cpu).idleStack = 0
        ∨ (s.statusOf current ≠ .zombie ∧ s.statusOf current ≠ .sleeping
          ∧ s.statusOf current ≠ .waiting))
      (hschedules : action.Schedules cpu) :
      Move action s (({ s with queues := queues }).resume cpu)
  | idle {action s s' cpu pending current} (hat : s.At cpu maySchedule)
      (hhandoff : s.handoff cpu = 0) (hcurrent : (s.cpus cpu).currentTask = some current)
      (hidle : (s.cpus cpu).idleStack ≠ 0) (hstatus : s.statusOf current = .zombie
      ∨ s.statusOf current = .sleeping
        ∨ s.statusOf current = .waiting)
      (hsearched : Searched s s'.queues) (hdeparted : Departed cpu none pending s s')
      (hschedules : action.Schedules cpu) : Move action s s'
  | dispatch {action s s' cpu pending next task} (hat : s.At cpu maySchedule)
      (hhandoff : s.handoff cpu = 0) (hclaimed : Claimed cpu next task s s'.queues)
      (hdeparted : Departed cpu (some next) pending s s')
      (hentered : s'.tasks[next]? = some { task with
        status := .running, onCpu := true, affinity := cpu, wakeTick := 0 })
      (hschedules : action.Schedules cpu) : Move action s s'
  | bounce {action s s' cpu next task} (hfound : s.tasks[next]? = some task)
      (hqueue : next ∈ s.queues cpu) (hpinned : task.pinned ≠ none)
      (hother : task.pinned ≠ some cpu) : Move action s s'
  | prepare {s cpu pending} (hmode : (s.cpus cpu).mode = .preparing pending) :
      Move (.prepare cpu) s (s.prepare cpu)
  | switchStack {s s' cpu rsp pending} (hmode : (s.cpus cpu).mode = .switching pending)
      (hrsp : rsp ≠ 0) (hswitched : Switched cpu rsp pending s s') :
      Move (.switchStack cpu rsp) s s'
  | dropFiles {s cpu current} (hat : s.At cpu isRunning)
      (hcurrent : (s.cpus cpu).currentTask = some current) :
      Move (.dropFiles cpu) s ((s.update current fun t => { t with files := none }).updateCpu cpu
        fun c => { c with mode := .exiting })
  | halt {s cpu} (hat : s.At cpu isRunning) (hcurrent : (s.cpus cpu).currentTask = none) :
      Move (.dropFiles cpu) s (s.updateCpu cpu fun c => { c with mode := .halted })
  | exit {s cpu code} (hat : s.At cpu isExiting) : Move (.exit cpu code) s (s.exit cpu code)
  | waitTask {s cpu id current target task} (hat : s.At cpu isRunning)
      (hcurrent : (s.cpus cpu).currentTask = some current)
      (htarget : s.tasks.findIdx? (fun task => task.id == id) = some target)
      (htask : s.tasks[target]? = some task) (hne : current ≠ target)
      (halive : ¬ (task.status = .zombie ∧ task.kernelBottom = 0)) :
      Move (.waitTask cpu id) s (s.block cpu false fun t =>
        { t with status := .waiting, waitingFor := id })
  | waitEvent {s cpu key deadline observed current} (hat : s.At cpu isRunning)
      (hcurrent : (s.cpus cpu).currentTask = some current)
      (hgeneration : s.generation key = observed) :
      Move (.waitEvent cpu key deadline observed) s (s.block cpu false fun t =>
        { t with waitingFor := key, wakeTick := deadline, status := .waiting })
  | sleep {s cpu milliseconds now current} (hat : s.At cpu isRunning)
      (hcurrent : (s.cpus cpu).currentTask = some current) :
      Move (.sleep cpu milliseconds now) s (s.block cpu false fun t =>
        { t with wakeTick := sleepDeadline milliseconds now, status := .sleeping })
  | yield {s cpu milliseconds now} (hat : s.At cpu isRunning) :
      Move (.sleep cpu milliseconds now) s
      (s.updateCpu cpu fun c => { c with mode := .blocking false })
  | enterIdle {s cpu} (hat : s.At cpu isRunning) (hcurrent : (s.cpus cpu).currentTask = none) :
      Move (.enterIdle cpu) s (s.enterIdle cpu)

def Moves (action : Action) : State → State → Prop :=
  Relation.ReflTransGen fun s s' => s.Owned ∧ Move action s s'

variable {action : Action} {s s' s'' : State} {cpu online : Nat}

theorem Moves.refl : Moves action s s := Relation.ReflTransGen.refl

theorem Moves.trans (h : Moves action s s') (h' : Moves action s' s'') : Moves action s s'' :=
  Relation.ReflTransGen.trans h h'

theorem Moves.single (h : s.Owned) (hmove : Move action s s') :
    Moves action s s' := Relation.ReflTransGen.single ⟨h, hmove⟩

theorem Moves.preserve {I : State → Prop} (h : Moves action s s')
    (hmove : ∀ s s', s.Owned → Move action s s' → I s → I s') (hI : I s) : I s' := by
  induction h with
  | refl => exact hI
  | tail _ hlast ih => exact hmove _ _ hlast.1 hlast.2 ih

namespace State

theorem kept_release (index slot : Nat) (task : Task) (s : State) :
    Kept s (s.release index slot task) := by
  have hfreed : Kept s { s with
      retired := Function.update s.retired slot 0
      freed := s.freed ++ [task.kernelBottom] } := ⟨fun _ => rfl, rfl, rfl⟩
  apply hfreed.trans
  exact kept_update index _ _ fun _ => rfl

theorem countEvent_frame (key : Nat) (s : State) :
    s.countEvent key = { s with events := (s.countEvent key).events } := by
  unfold countEvent
  split <;> rfl

theorem wake_cases {index : Nat} {task : Task} (reset : Task → Task) (place : Task → Nat)
    (htask : s.tasks[index]? = some task) :
    (s.published index = true ∧ s.wake reset place index = s.update index fun t =>
      { reset t with status := .running })
    ∨ (s.published index = false ∧ s.wake reset place index
        = (s.update index fun t => { reset t with status := .ready }).enqueue (min (place task) 63)
          index) := by
  unfold wake
  rw [htask]
  cases hpublished : s.published index with
  | true => exact .inl ⟨rfl, if_pos rfl⟩
  | false => exact .inr ⟨rfl, if_neg Bool.false_ne_true⟩

variable {key : Nat} {enabled : Mode → Bool}

theorem wakeAll_preserve {I : State → Prop} {wakeOne : Nat → State → State}
    (hwake : ∀ s index, s.waitsFor key index = true → I s → I (wakeOne index s)) (hI : I s) :
    I (s.wakeAll wakeOne key) := by
  unfold wakeAll
  generalize List.range s.tasks.length = indices
  induction indices generalizing s with
  | nil => exact hI
  | cons index indices ih =>
    apply ih
    dsimp only
    split
    · rename_i hwaits
      exact hwake s index hwaits hI
    · exact hI

theorem moves_foldl {round : State → Nat → State} (hkept : ∀ s index, Kept s (round s index))
    (hround : ∀ s index, s.Owned → Moves action s (round s index)) (indices : List Nat)
    (h : s.Owned) : Moves action s (indices.foldl round s) := by
  induction indices generalizing s with
  | nil => exact .refl
  | cons index _ ih => exact (hround s index h).trans (ih ((hkept s index).owned h))

section
variable (hmaintains : action.Maintains)
include hmaintains

theorem moves_reclaim (index : Nat) (h : s.Owned) : Moves action s (s.reclaim index) := by
  unfold reclaim
  split
  · exact .refl
  rename_i task htask
  split
  · rename_i hgone
    obtain ⟨hzombie, hbottom, hleft⟩ := hgone
    split
    · exact .refl
    rename_i slot hslot
    have hmem := List.mem_of_find?_eq_some hslot
    have hretired := List.find?_some hslot
    apply Moves.single h
    exact .reclaim hmaintains htask hzombie hbottom hleft (by simpa using hmem)
      (by simpa using hretired)
  · exact .refl

theorem moves_maintain (now index : Nat) (h : s.Owned) : Moves action s (s.maintain now index) := by
  unfold maintain
  split
  · exact .refl
  rename_i task htask
  split
  · rename_i hdue
    have hwoken : Moves action s (s.wakeDue index) := .single h (.wakeDue now hmaintains htask hdue)
    split
    · exact hwoken
    · exact hwoken.trans (moves_reclaim hmaintains index ((kept_wakeDue index s).owned h))
  · exact moves_reclaim hmaintains index h

theorem moves_rounds (now : Nat) (indices : List Nat) (h : s.Owned) :
    Moves action s (indices.foldl (fun s index => s.maintain now index) s) :=
  moves_foldl (fun s1 index => kept_maintain now index s1)
    (fun _ index h1 => moves_maintain hmaintains now index h1) indices h

theorem moves_maintenance (h : s.Owned) :
    Moves action s s.maintenance := moves_rounds hmaintains s.ticks _ h

end

theorem handoff_takeHandoff (cpu : Nat) (s : State) : (s.takeHandoff cpu).handoff cpu = 0 := by
  unfold takeHandoff
  dsimp only
  split
  · simp [enqueue]
  · simp

theorem At.congr (hat : s.At cpu enabled) (hcpus : s'.cpus = s.cpus) : s'.At cpu enabled := by
  unfold At
  rw [hcpus]
  exact hat

theorem move_schedule (h : s.Owned) (hat : s.At cpu maySchedule) (hhandoff : s.handoff cpu = 0)
    (hschedules : action.Schedules cpu) (online : Nat) :
    Move action s (match s.claim online cpu with
      | (none, s) => s.scheduleIdle cpu
      | (some next, s) => s.scheduleTask cpu next) := by
  rcases claim_cases online cpu s with ⟨queues, hclaim, hsearched⟩ | ⟨next, task, queues, affinity,
    hclaimed, hclaim⟩
  · rw [hclaim]
    dsimp only
    cases hcurrent : (s.cpus cpu).currentTask with
    | none =>
      have hstays : ({ s with queues := queues } : State).scheduleIdle cpu
          = ({ s with queues := queues } : State).resume cpu := by
        unfold scheduleIdle
        simp [hcurrent]
      rw [hstays]
      exact .stay hat hsearched (by simp [hcurrent]) hschedules
    | some current =>
      by_cases hstay : (s.cpus cpu).idleStack = 0 ∨ (s.statusOf current ≠ .zombie
          ∧ s.statusOf current ≠ .sleeping ∧ s.statusOf current ≠ .waiting)
      · have hstays : ({ s with queues := queues } : State).scheduleIdle cpu
            = ({ s with queues := queues } : State).resume cpu := by
          unfold scheduleIdle
          simp only [hcurrent]
          exact if_pos hstay
        rw [hstays]
        refine .stay hat hsearched (fun i hi => ?_) hschedules
        rw [hcurrent] at hi
        cases hi
        exact hstay
      · push Not at hstay
        obtain ⟨hidle, hblocked⟩ := hstay
        have hstatus : s.statusOf current = .zombie ∨ s.statusOf current = .sleeping
            ∨ s.statusOf current = .waiting := by
          by_cases hzombie : s.statusOf current = .zombie
          · exact .inl hzombie
          · by_cases hsleeping : s.statusOf current = .sleeping
            · exact .inr (.inl hsleeping)
            · exact .inr (.inr (hblocked hzombie hsleeping))
        obtain ⟨pending, hdeparted, hqueues⟩ := departed_scheduleIdle queues hcurrent hidle hstatus
        refine .idle hat hhandoff hcurrent hidle hstatus ?_ hdeparted hschedules
        rw [hqueues]
        exact hsearched
  · rw [hclaim]
    by_cases hpinned : task.pinned.isSome ∧ task.pinned ≠ some cpu
    · obtain ⟨hsome, hother⟩ := hpinned
      have hnone : task.pinned ≠ none := by
        intro hnone
        simp [hnone] at hsome
      obtain ⟨q, hsource, hq⟩ := hclaimed.source
      have hmem : next ∈ s.queues q := hsource.subset List.mem_cons_self
      rcases hq with hq | hfree
      · exact .bounce hclaimed.found (hq ▸ hmem) hnone hother
      · exact absurd hfree hnone
    · obtain ⟨pending, hdeparted, hentered, hqueues⟩ :=
        departed_scheduleTask (f := fun t => { t with status := .claimed, affinity := affinity t })
          h hclaimed ⟨affinity task, rfl⟩ hpinned
      refine .dispatch hat hhandoff ?_ hdeparted hentered hschedules
      rw [hqueues]
      exact hclaimed

theorem moves_schedule (h : s.Owned) (hat : s.At cpu maySchedule)
    (hmaintains : cpu = 0 → action.Maintains) (hschedules : action.Schedules cpu) (online : Nat) :
    Moves action s (s.schedule online cpu) := by
  have hmaintained : Moves action s (if cpu = 0 then s.maintenance else s)
      ∧ Kept s (if cpu = 0 then s.maintenance else s) := by
    split
    · rename_i hcpu
      exact ⟨moves_maintenance (hmaintains hcpu) h, kept_maintenance s⟩
    · exact ⟨.refl, Kept.refl s⟩
  unfold schedule
  generalize (if cpu = 0 then s.maintenance else s) = s1 at hmaintained ⊢
  obtain ⟨hmoves, hkept⟩ := hmaintained
  have hkept' := kept_takeHandoff cpu s1
  have hat1 := hat.congr hkept.cpus
  have hat2 := hat1.congr hkept'.cpus
  have howned1 := hkept.owned h
  have howned2 := hkept'.owned howned1
  apply hmoves.trans
  apply (Moves.single howned1 (.handoff hat1 hschedules)).trans
  apply Moves.single howned2
  exact move_schedule howned2 hat2 (handoff_takeHandoff cpu s1) hschedules online

theorem target_lt (online : Nat) (s : State) : s.target online < 64 := by
  unfold target
  cases hfound : (List.range' 1 (min online 64 - 1)).find? fun cpu =>
      (s.current cpu).isNone && (s.queues cpu).isEmpty with
  | none => simp
  | some cpu =>
    have hmem := List.mem_of_find?_eq_some hfound
    simp only [List.mem_range', Option.getD_some] at hmem ⊢
    omega

theorem moves_when {f : State → State} (hf : s.At cpu enabled → Moves action s (f s)) :
    Moves action s (s.when cpu enabled f) := by
  unfold State.when
  split
  · rename_i hat
    exact hf hat
  · exact .refl

theorem move_addUser (online bottom userRsp addressSpace files : Nat) (s : State) :
    Move (.addUser online bottom userRsp addressSpace files) s
      (s.addUser online bottom userRsp addressSpace files).2 := by
  unfold addUser
  split
  · exact .clerical ⟨rfl, rfl, rfl, rfl, rfl, rfl, rfl, rfl, rfl, rfl⟩
  refine .create ⟨?_, rfl, rfl, rfl, rfl, ?_, rfl, rfl⟩
  · split
    · decide
    · exact target_lt online s
  split
  · exact fun _ => ⟨rfl, rfl⟩
  · exact fun hpinned => absurd rfl hpinned

theorem move_addKernel (online bottom bytes : Nat) (s : State) :
    Move (.addKernel online bottom bytes) s (s.addKernel online bottom bytes).2 :=
  .create ⟨target_lt online s, rfl, rfl, rfl, rfl, fun hpinned => absurd rfl hpinned, rfl, rfl⟩

theorem moves_waitTask {id : Nat} (h : s.Owned) (hat : s.At cpu isRunning) :
    Moves (.waitTask cpu id) s (s.waitTask cpu id).2 := by
  unfold waitTask
  split
  · exact .refl
  rename_i target htarget
  split
  · exact .refl
  rename_i task htask
  split
  · exact .refl
  rename_i halive
  cases hcurrent : (s.cpus cpu).currentTask with
  | none => exact .refl
  | some current =>
    dsimp only
    split
    · exact .refl
    · rename_i hne
      exact .single h (.waitTask hat hcurrent htarget htask hne halive)

theorem moves_waitEvent {deadline observed : Nat} (h : s.Owned) (hat : s.At cpu isRunning) :
    Moves (.waitEvent cpu key deadline observed) s (s.waitEvent cpu key deadline observed) := by
  unfold waitEvent
  split
  · exact .refl
  rename_i hgeneration
  cases hcurrent : (s.cpus cpu).currentTask with
  | none => exact .refl
  | some => exact .single h (.waitEvent hat hcurrent (by simpa using hgeneration))

theorem moves_wakeEvent (key : Nat) (h : s.Owned) : Moves (.wakeEvent key) s (s.wakeEvent key) := by
  apply (Moves.single h .count).trans
  refine moves_foldl (fun s1 index => ?_) (fun s1 index h1 => ?_) _
    ((kept_countEvent key s).owned h)
  · split
    · exact kept_wakeBlocked index s1
    · exact Kept.refl s1
  split
  · rename_i hwaits
    exact .single h1 (.wakeBlocked hwaits)
  · exact .refl

theorem move_sleep {milliseconds now : Nat} (hat : s.At cpu isRunning) :
    Move (.sleep cpu milliseconds now) s (s.sleep cpu milliseconds now) := by
  unfold sleep
  split
  · exact .yield hat
  cases hcurrent : (s.cpus cpu).currentTask with
  | none =>
    unfold block
    rw [hcurrent]
    exact .yield hat
  | some => exact .sleep hat hcurrent

theorem moves_interrupt (h : s.Owned) (hat : s.At cpu isRunning) (online : Nat) :
    Moves (.interrupt online cpu) s (s.interrupt online cpu) := by
  have hrecord : ∀ f : Cpu → Cpu, (∀ c, SamePlace c (f c)) →
      Moves (.interrupt online cpu) s (s.updateCpu cpu f) := fun f hf => .single h (.record (hf _))
  have hmaintains : cpu = 0 → (Action.interrupt online cpu).Maintains := id
  have hschedules : (Action.interrupt online cpu).Schedules cpu := rfl
  have hmay : maySchedule (s.cpus cpu).mode = true := by
    have hrunning := hat.2
    cases hmode : (s.cpus cpu).mode <;> simp_all [isRunning, maySchedule]
  unfold interrupt
  dsimp only
  split
  · exact .refl
  split
  · refine (hrecord _ ?_).trans (moves_schedule ?_ ⟨hat.1, ?_⟩ hmaintains hschedules online)
    · exact fun _ => ⟨rfl, rfl, rfl, rfl, rfl⟩
    · refine h.updateCpu rfl (fun _ hhas => hhas) ?_
      exact ⟨(h.ordered cpu).entering, (h.ordered cpu).leaving⟩
    · simpa using hmay
  · exact hrecord _ fun _ => ⟨rfl, rfl, rfl, rfl, rfl⟩

theorem moves_prepare (cpu : Nat) (h : s.Owned) : Moves (.prepare cpu) s (s.prepare cpu) := by
  cases hmode : (s.cpus cpu).mode with
  | preparing => exact .single h (.prepare hmode)
  | running | exiting | blocking | switching | halted =>
    unfold prepare
    rw [hmode]
    exact .refl

theorem moves_switchStack (cpu rsp : Nat) (h : s.Owned) :
    Moves (.switchStack cpu rsp) s (if rsp = 0 then s else s.switchStack cpu rsp) := by
  split
  · exact .refl
  rename_i hrsp
  cases hmode : (s.cpus cpu).mode with
  | switching => exact .single h (.switchStack hmode hrsp (switched_switchStack hmode))
  | running | exiting | blocking | preparing | halted =>
    unfold switchStack
    rw [hmode]
    exact .refl

theorem move_dropFiles (hat : s.At cpu isRunning) : Move (.dropFiles cpu) s (s.dropFiles cpu) := by
  unfold dropFiles
  cases hcurrent : (s.cpus cpu).currentTask with
  | none => exact .halt hat hcurrent
  | some => exact .dropFiles hat hcurrent

theorem moves_step (h : s.Owned) (action : Action) : Moves action s (s.step action) := by
  cases action with
  | enterIdle cpu =>
    change Moves _ s (if (s.cpus cpu).currentTask = none then s.when cpu isRunning
      (State.enterIdle cpu)
      else s)
    split
    · rename_i hcurrent
      exact moves_when fun hat => .single h (.enterIdle hat hcurrent)
    · exact .refl
  | addUser online bottom userRsp addressSpace files =>
    exact .single h (move_addUser online bottom userRsp addressSpace files s)
  | addKernel online bottom bytes => exact .single h (move_addKernel online bottom bytes s)
  | collect =>
    have hmaintains : Action.collect.Maintains := trivial
    exact moves_maintenance hmaintains h
  | schedule online cpu =>
    have hmaintains : cpu = 0 → (Action.schedule online cpu).Maintains := id
    have hschedules : (Action.schedule online cpu).Schedules cpu := rfl
    exact moves_when fun hat => moves_schedule h hat hmaintains hschedules online
  | prepare cpu => exact moves_prepare cpu h
  | switchStack cpu rsp => exact moves_switchStack cpu rsp h
  | dropFiles cpu => exact moves_when fun hat => .single h (move_dropFiles hat)
  | exit cpu code => exact moves_when fun hat => .single h (.exit hat)
  | waitTask cpu id => exact moves_when (f := fun s => (s.waitTask cpu id).2) (moves_waitTask h)
  | waitEvent => exact moves_when (moves_waitEvent h)
  | wakeEvent key => exact moves_wakeEvent key h
  | forgetEvent => exact .single h .forget
  | sleep cpu milliseconds now => exact moves_when fun hat => .single h (move_sleep hat)
  | clockTick => exact .single h (.clerical ⟨rfl, rfl, rfl, rfl, rfl, rfl, rfl, rfl, rfl, rfl⟩)
  | interrupt online cpu => exact moves_when fun hat => moves_interrupt h hat online
  | enterKernel =>
    exact moves_when fun _ => .single h (.record ⟨rfl, rfl, rfl, rfl, rfl⟩)

end State

end Kaguya.Scheduler
