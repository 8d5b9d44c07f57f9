import Mathlib.Algebra.Group.Nat.Defs
import Mathlib.Logic.Function.Basic
import Mathlib.Tactic.Simps.Basic

/-!
# The scheduler

`task.jh` and the context switch of `task.S`. What happens under the scheduler's lock is one step of
the CPU that holds it. A switch decided on under the lock is carried out in two later steps of the
same CPU: `prepare` loads the page tables and the stacks for the next entry into the kernel, and
`switchStack` is `kaguya_context_switch`.

Tasks, run queues and processors are named by their indices. Tasks never move, so the pointers `old`
and `released` are the index of their task. The 64-entry arrays are functions; entries from 64 on
are not used.
-/

namespace Kaguya.Scheduler

/-- The 64-bit word that stands for the absence of a task, a processor or an event. -/
def NONE : Nat := 0xffffffffffffffff

def QUANTUM : Nat := 5

inductive Status where
  | ready | claimed | switchingOut | running | sleeping | waiting | zombie
  deriving DecidableEq, Repr

structure Task where
  id : Nat
  stack : Nat
  status : Status
  onCpu : Bool
  affinity : Nat
  pinned : Option Nat
  kernelBottom : Nat
  kernelTop : Nat
  userGs : Nat
  userRsp : Nat
  exitCode : Nat
  wakeTick : Nat
  waitingFor : Nat
  addressSpace : Option Nat
  files : Option Nat
  deriving DecidableEq, Repr

structure Event where
  key : Nat
  generation : Nat
  deriving DecidableEq, Repr

/-- A switch that has been decided on: whose stack pointer to save and whose to load, where `none`
is the idle loop of the processor, and the arguments of `prepare` and of the context switch. -/
structure Switch where
  outgoing : Option Nat
  incoming : Option Nat
  stack : Nat
  encoded : Nat
  bottom : Nat
  kernelTop : Nat
  userRsp : Nat
  userGs : Nat
  root : Nat
  deriving DecidableEq, Repr

/-- Where a processor is. `exiting` has given up the files of its task; `blocking` has marked its
task and is about to call `schedule`, for the last time if the task exits. -/
inductive Mode where
  | running
  | exiting
  | blocking (final : Bool)
  | preparing (pending : Switch)
  | switching (pending : Switch)
  | halted
  deriving DecidableEq, Repr

namespace Mode

def pending : Mode → Option Switch
  | .preparing pending | .switching pending => some pending
  | _ => none

def outgoing (m : Mode) : Option Nat := m.pending.bind Switch.outgoing

def incoming (m : Mode) : Option Nat := m.pending.bind Switch.incoming

/-- Where a processor is when `schedule` returns to its caller: `exit` does not expect that. -/
def returned : Mode → Mode
  | .blocking true => .halted
  | _ => .running

end Mode

/-- The record of a processor with the registers that a switch loads. No function of the source
reads `onStack`: it says on which task's stack the processor runs. -/
structure Cpu where
  currentTask : Option Nat
  idleStack : Nat
  kernelStack : Nat
  userStack : Nat
  userGs : Nat
  root : Nat
  ticksLeft : Nat
  needReschedule : Bool
  mode : Mode
  onStack : Option Nat
  deriving DecidableEq, Repr

/-- The scheduler, its global words and the processors, with a record of the kernel stacks that were
freed. -/
structure State where
  tasks : List Task
  events : List Event
  queues : Nat → List Nat
  current : Nat → Option Nat
  handoff : Nat → Nat
  retired : Nat → Nat
  nextId : Nat
  ticks : Nat
  kernelRoot : Nat
  cpus : Nat → Cpu
  freed : List Nat

namespace State

@[simps -fullyApplied]
def update (index : Nat) (f : Task → Task) (s : State) : State :=
  { s with tasks := s.tasks.modify index f }

@[simps -fullyApplied]
def updateCpu (cpu : Nat) (f : Cpu → Cpu) (s : State) : State :=
  { s with cpus := Function.update s.cpus cpu (f (s.cpus cpu)) }

@[simps -fullyApplied]
def setQueue (cpu : Nat) (queue : List Nat) (s : State) : State :=
  { s with queues := Function.update s.queues cpu queue }

@[simps -fullyApplied]
def setCurrent (cpu : Nat) (task : Option Nat) (s : State) : State :=
  { s with current := Function.update s.current cpu task }

/-! ### Starting up -/

/-- The scheduler after `init` on processor 0. -/
def init (kernelRoot : Nat) : State where
  tasks := [⟨0, 0, .running, true, 0, some 0, 0, 0, 0, 0, 0, 0, NONE, none, none⟩]
  events := []
  queues _ := []
  current := Function.update (fun _ => none) 0 (some 0)
  handoff _ := 0
  retired _ := 0
  nextId := 1
  ticks := 0
  kernelRoot := kernelRoot
  cpus cpu :=
    let task := if cpu = 0 then some 0 else none
    ⟨task, 0, 0, 0, 0, kernelRoot, 0, false, .running, task⟩
  freed := []

def enterIdle (cpu : Nat) (s : State) : State :=
  let s := match (s.cpus cpu).currentTask with
    | some task => s.update task fun t => { t with status := .zombie, onCpu := false }
    | none => s
  (s.updateCpu cpu fun c => { c with
    currentTask := none
    idleStack := 0
    ticksLeft := 0
    needReschedule := false
    onStack := none }).setCurrent cpu none

/-! ### Run queues -/

def target (online : Nat) (s : State) : Nat :=
  ((List.range' 1 (min online 64 - 1)).find? fun cpu =>
    (s.current cpu).isNone && (s.queues cpu).isEmpty).getD 0

def enqueue (cpu index : Nat) (s : State) : State := s.setQueue cpu (s.queues cpu ++ [index])

def addTask (cpu : Nat) (task : Task) (s : State) : State :=
  ({ s with tasks := s.tasks ++ [task] }).enqueue cpu s.tasks.length

def addUser (online bottom userRsp addressSpace files : Nat) (s : State) : Nat × State :=
  let id := s.nextId
  let s := { s with nextId := (s.nextId + 1) % 2 ^ 64 }
  if bottom = 0 then (NONE, s)
  else
    let top := bottom + 16384
    let cpu := if id = 1 then 0 else s.target online
    (id, s.addTask cpu ⟨id, top - 112, .ready, false, cpu, if id = 1 then some 0 else none, bottom,
      top,
      0, userRsp, 0, 0, NONE, some addressSpace, some files⟩)

def addKernel (online bottom bytes : Nat) (s : State) : Nat × State :=
  let id := s.nextId
  let s := { s with nextId := (s.nextId + 1) % 2 ^ 64 }
  let top := (bottom + bytes) / 16 * 16
  let cpu := s.target online
  (id, s.addTask cpu ⟨id, top - 112, .ready, false, cpu, none, bottom, top, 0, 0, 0, 0, NONE, none,
    none⟩)

/-- The loop of `claim_local`: the first task that is ready and on no processor, and the queue
without it. Tasks that are ready but still on a processor go to the end. -/
def claimLoop (tasks : List Task) : Nat → List Nat → Option Nat × List Nat
  | 0, queue => (none, queue)
  | _ + 1, [] => (none, [])
  | remaining + 1, index :: queue =>
    match tasks[index]? with
    | none => claimLoop tasks remaining queue
    | some task =>
      if task.status = .ready then
        if task.onCpu then claimLoop tasks remaining (queue ++ [index])
        else (some index, queue)
      else claimLoop tasks remaining queue

def claimLocal (cpu : Nat) (s : State) : Option Nat × State :=
  let claim := claimLoop s.tasks (s.queues cpu).length (s.queues cpu)
  let s := s.setQueue cpu claim.2
  match claim.1 with
  | some index => (some index, s.update index fun t => { t with status := .claimed })
  | none => (none, s)

def victim (cpu count : Nat) (s : State) : Option Nat :=
  ((List.range count).foldl (fun best other =>
    if other ≠ cpu ∧ (s.queues other).length > best.2 then (some other, (s.queues other).length)
    else best) ((none : Option Nat), 1)).1

def stealable (tasks : List Task) (index : Nat) : Bool :=
  match tasks[index]? with
  | some task => task.status = .ready && task.pinned.isNone && !task.onCpu
  | none => false

def stealScan (tasks : List Task) (queue : List Nat) : Nat → Option (Nat × Nat)
  | 0 => none
  | position + 1 =>
    match queue[position]? with
    | some index =>
      if stealable tasks index then some (position, index) else stealScan tasks queue position
    | none => stealScan tasks queue position

def steal (online cpu : Nat) (s : State) : Option Nat × State :=
  match s.victim cpu (min online 64) with
  | none => (none, s)
  | some other =>
    let queue := s.queues other
    if queue.length > 1 then
      match stealScan s.tasks queue queue.length with
      | some (position, index) =>
        (some index, (s.setQueue other (queue.eraseIdx position)).update index fun t =>
          { t with status := .claimed, affinity := cpu })
      | none => (none, s)
    else (none, s)

def claim (online cpu : Nat) (s : State) : Option Nat × State :=
  match s.claimLocal cpu with
  | (some index, s) => (some index, s)
  | (none, s) => s.steal online cpu

/-! ### Waking tasks up -/

def published (index : Nat) (s : State) : Bool :=
  (List.range 64).any fun cpu => s.current cpu == some index

/-- What the wake-ups have in common: a task that has not been switched out yet goes on running, any
other is ready again and goes into a queue. They differ in the fields that they reset and in the
queue. -/
def wake (reset : Task → Task) (place : Task → Nat) (index : Nat) (s : State) : State :=
  match s.tasks[index]? with
  | none => s
  | some task =>
    if s.published index then s.update index fun t => { reset t with status := .running }
    else (s.update index fun t => { reset t with status := .ready }).enqueue (min (place task) 63)
      index

def due (now : Nat) (task : Task) : Bool :=
  (task.status = .sleeping || (task.status = .waiting && task.wakeTick ≠ 0)) && task.wakeTick ≤ now

def wakeDue (index : Nat) (s : State) : State :=
  s.wake (fun t => { t with waitingFor := NONE, wakeTick := 0 })
    (fun t => t.pinned.getD t.affinity) index

def wakeWaiter (index : Nat) (s : State) : State :=
  s.wake (fun t => { t with waitingFor := NONE }) Task.affinity index

def wakeBlocked (index : Nat) (s : State) : State :=
  s.wake (fun t => { t with waitingFor := NONE, wakeTick := 0 }) Task.affinity index

def waitsFor (key index : Nat) (s : State) : Bool :=
  match s.tasks[index]? with
  | some task => task.status = .waiting && task.waitingFor = key
  | none => false

def wakeAll (wakeOne : Nat → State → State) (key : Nat) (s : State) : State :=
  (List.range s.tasks.length).foldl (fun s index =>
    if s.waitsFor key index then wakeOne index s else s) s

/-! ### Maintenance -/

def reclaim (index : Nat) (s : State) : State :=
  match s.tasks[index]? with
  | none => s
  | some task =>
    if task.status = .zombie ∧ task.kernelBottom ≠ 0 ∧ s.published index = false then
      match (List.range 64).find? fun slot => s.retired slot == task.kernelBottom with
      | none => s
      | some slot =>
        (({ s with
          retired := Function.update s.retired slot 0
          freed := s.freed ++ [task.kernelBottom] }).update index fun t =>
            { t with addressSpace := none, kernelBottom := 0, kernelTop := 0 }).wakeAll wakeWaiter
          task.id
    else s

def maintain (now index : Nat) (s : State) : State :=
  match s.tasks[index]? with
  | none => s
  | some task =>
    if due now task then
      if s.published index then s.wakeDue index else (s.wakeDue index).reclaim index
    else s.reclaim index

def maintenance (s : State) : State :=
  (List.range s.tasks.length).foldl (fun s' index => s'.maintain s.ticks index) s

def collect (s : State) : State := s.maintenance

/-! ### Switching -/

def statusOf (index : Nat) (s : State) : Status :=
  match s.tasks[index]? with
  | some task => task.status
  | none => .zombie

def takeHandoff (cpu : Nat) (s : State) : State :=
  let finished := s.handoff cpu
  let s := { s with handoff := Function.update s.handoff cpu 0 }
  if finished ≠ 0 ∧ finished ≤ s.tasks.length ∧ s.statusOf (finished - 1) = .switchingOut then
    (s.update (finished - 1) fun t => { t with status := .ready, affinity := cpu }).enqueue cpu
      (finished - 1)
  else s

def resume (cpu : Nat) (s : State) : State :=
  s.updateCpu cpu fun c => { c with mode := c.mode.returned }

def saveUser (cpu : Nat) (s : State) : State :=
  match (s.cpus cpu).currentTask with
  | some current => s.update current fun t => { t with
      userRsp := (s.cpus cpu).userStack, userGs := (s.cpus cpu).userGs }
  | none => s

def retiring (cpu : Nat) (s : State) : Nat :=
  match (s.cpus cpu).currentTask with
  | none => 0
  | some current =>
    match s.tasks[current]? with
    | some task => if task.status = .zombie then task.kernelBottom else 0
    | none => 0

def scheduleIdle (cpu : Nat) (s : State) : State :=
  let c := s.cpus cpu
  match c.currentTask with
  | none => s.resume cpu
  | some current =>
    let state := s.statusOf current
    if c.idleStack = 0 ∨ (state ≠ .zombie ∧ state ≠ .sleeping ∧ state ≠ .waiting) then s.resume cpu
    else
      let pending : Switch := ⟨some current, none, c.idleStack, 0, s.retiring cpu, 0, 0, 0,
        s.kernelRoot⟩
      ((s.saveUser cpu).updateCpu cpu fun c => { c with
        currentTask := none
        userStack := 0
        ticksLeft := 0
        needReschedule := false
        mode := .preparing pending }).setCurrent cpu none

def switchOut (cpu : Nat) (s : State) : Nat × State :=
  match (s.cpus cpu).currentTask with
  | none => (0, s)
  | some current =>
    if s.statusOf current = .running then
      (current + 1, s.update current fun t => { t with status := .switchingOut })
    else (0, s)

def switchTo (cpu encoded : Nat) (next : Nat) (task : Task) (s : State) : Switch :=
  ⟨(s.cpus cpu).currentTask, some next, task.stack, encoded, s.retiring cpu, task.kernelTop,
    task.userRsp, task.userGs, task.addressSpace.getD s.kernelRoot⟩

def scheduleTask (cpu next : Nat) (s : State) : State :=
  let (encoded, s) := s.switchOut cpu
  match s.tasks[next]? with
  | none => s.resume cpu -- what is claimed is in the table
  | some task =>
    if task.pinned.isSome ∧ task.pinned ≠ some cpu then
      ((s.update next fun t => { t with status := .ready }).enqueue
        (min (task.pinned.getD 0) 63) next).resume cpu
    else
      let pending := s.switchTo cpu encoded next task
      (((s.saveUser cpu).update next fun t => { t with
        status := .running, onCpu := true, affinity := cpu, wakeTick := 0 }).updateCpu cpu fun c =>
          { c with
            currentTask := some next
            ticksLeft := QUANTUM
            needReschedule := false
            mode := .preparing pending }).setCurrent cpu (some next)

def schedule (online cpu : Nat) (s : State) : State :=
  let s := if cpu = 0 then s.maintenance else s
  let s := s.takeHandoff cpu
  match s.claim online cpu with
  | (none, s) => s.scheduleIdle cpu
  | (some next, s) => s.scheduleTask cpu next

/-- `kaguya_prepare_switch`: the stacks and the page tables of the task that comes in. -/
def prepare (cpu : Nat) (s : State) : State :=
  match (s.cpus cpu).mode with
  | .preparing pending => s.updateCpu cpu fun c => { c with
      kernelStack := if pending.kernelTop ≠ 0 then pending.kernelTop else c.kernelStack
      userStack := pending.userRsp
      userGs := pending.userGs
      root := pending.root
      mode := .switching pending }
  | _ => s

def retire (bottom : Nat) (s : State) : State :=
  if bottom = 0 then s
  else
    match (List.range 64).find? fun slot => s.retired slot == 0 with
    | some slot => { s with retired := Function.update s.retired slot bottom }
    | none => s

def saveStack (cpu rsp : Nat) (outgoing : Option Nat) (s : State) : State :=
  match outgoing with
  | some task => s.update task fun t => { t with stack := rsp, onCpu := false }
  | none => s.updateCpu cpu fun c => { c with idleStack := rsp }

def publish (cpu : Nat) (pending : Switch) (s : State) : State :=
  (if pending.encoded ≠ 0 then
      { s with handoff := Function.update s.handoff cpu pending.encoded }
    else s).retire pending.bottom

/-- `kaguya_context_switch`: save this stack pointer, load the other, and publish what has become
free. -/
def switchStack (cpu rsp : Nat) (s : State) : State :=
  match (s.cpus cpu).mode with
  | .switching pending =>
    ((s.saveStack cpu rsp pending.outgoing).publish cpu pending).updateCpu cpu fun c => { c with
      mode := .running
      onStack := pending.incoming }
  | _ => s

/-! ### Blocking -/

def block (cpu : Nat) (final : Bool) (f : Task → Task) (s : State) : State :=
  let s := match (s.cpus cpu).currentTask with
    | some current => s.update current f
    | none => s
  s.updateCpu cpu fun c => { c with mode := .blocking final }

/-- The first half of `exit`: the task gives up its files. The idle loop must not exit. -/
def dropFiles (cpu : Nat) (s : State) : State :=
  match (s.cpus cpu).currentTask with
  | none => s.updateCpu cpu fun c => { c with mode := .halted }
  | some current =>
    (s.update current fun t => { t with files := none }).updateCpu cpu fun c =>
      { c with mode := .exiting }

def exit (cpu code : Nat) (s : State) : State :=
  s.block cpu true fun t => { t with status := .zombie, exitCode := code }

/-- The exit code of the first task with this id: what `wait_task` returns when `schedule` has. -/
def exitCode (id : Nat) (s : State) : Nat :=
  match s.tasks.find? fun task => task.id == id with
  | some task => task.exitCode
  | none => 0

/-- `wait_task` up to its call of `schedule`: it may return at once. -/
def waitTask (cpu id : Nat) (s : State) : Option Nat × State :=
  match s.tasks.findIdx? fun task => task.id == id with
  | none => (some NONE, s)
  | some target =>
    match s.tasks[target]? with
    | none => (some NONE, s)
    | some task =>
      if task.status = .zombie ∧ task.kernelBottom = 0 then (some task.exitCode, s)
      else
        match (s.cpus cpu).currentTask with
        | none => (some NONE, s)
        | some current =>
          if current = target then (some NONE, s)
          else (none, s.block cpu false fun t => { t with status := .waiting, waitingFor := id })

def generation (key : Nat) (s : State) : Nat :=
  match s.events.find? fun event => event.key == key with
  | some event => event.generation
  | none => 0

def waitEvent (cpu key deadline observed : Nat) (s : State) : State :=
  if s.generation key ≠ observed then s
  else
    match (s.cpus cpu).currentTask with
    | none => s
    | some _ => s.block cpu false fun t => { t with
        waitingFor := key, wakeTick := deadline, status := .waiting }

def countEvent (key : Nat) (s : State) : State :=
  match s.events.findIdx? fun event => event.key == key with
  | some index => { s with events := s.events.modify index fun event => { event with
      generation := if event.generation = NONE then 0 else event.generation + 1 } }
  | none => { s with events := s.events ++ [⟨key, 1⟩] }

def wakeEvent (key : Nat) (s : State) : State := (s.countEvent key).wakeAll wakeBlocked key

def forgetEvent (key : Nat) (s : State) : State :=
  { s with events := s.events.eraseP fun event => event.key == key }

def sleepDeadline (milliseconds now : Nat) : Nat :=
  let rounded := if milliseconds > NONE - 9 then NONE else milliseconds + 9
  let ticks := max (rounded / 10) 1
  if ticks > NONE - now then NONE else now + ticks

/-- `sleep` with the clock as it was read before the lock was taken. -/
def sleep (cpu milliseconds now : Nat) (s : State) : State :=
  if milliseconds = 0 then s.updateCpu cpu fun c => { c with mode := .blocking false }
  else s.block cpu false fun t => { t with
    wakeTick := sleepDeadline milliseconds now, status := .sleeping }

/-! ### Interrupts -/

def clockTick (s : State) : State := { s with ticks := (s.ticks + 1) % 2 ^ 64 }

/-- `kaguya_scheduler_interrupt`, from user mode: at the end of its time the task is preempted. -/
def interrupt (online cpu : Nat) (s : State) : State :=
  let c := s.cpus cpu
  if c.currentTask.isNone then s
  else
    let left := c.ticksLeft - 1
    if left = 0 ∨ c.needReschedule then
      (s.updateCpu cpu fun c => { c with ticksLeft := left, needReschedule := false }).schedule
        online cpu
    else s.updateCpu cpu fun c => { c with ticksLeft := left }

def enterKernel (cpu userStack userGs : Nat) (s : State) : State :=
  s.updateCpu cpu fun c => { c with userStack := userStack, userGs := userGs }

end State

/-! ### Runs -/

/-- The steps of the system. What `smp` reports as the number of processors, the allocator's answer,
the clock that a sleeper has read and the stack pointer at a switch come from outside. -/
inductive Action where
  | enterIdle (cpu : Nat)
  | addUser (online bottom userRsp addressSpace files : Nat)
  | addKernel (online bottom bytes : Nat)
  | collect
  | schedule (online cpu : Nat)
  | prepare (cpu : Nat)
  | switchStack (cpu rsp : Nat)
  | dropFiles (cpu : Nat)
  | exit (cpu code : Nat)
  | waitTask (cpu id : Nat)
  | waitEvent (cpu key deadline observed : Nat)
  | wakeEvent (key : Nat)
  | forgetEvent (key : Nat)
  | sleep (cpu milliseconds now : Nat)
  | clockTick
  | interrupt (online cpu : Nat)
  | enterKernel (cpu userStack userGs : Nat)
  deriving DecidableEq, Repr

namespace State

def when (cpu : Nat) (enabled : Mode → Bool) (f : State → State) (s : State) : State :=
  if cpu < 64 ∧ enabled (s.cpus cpu).mode = true then f s else s

def isRunning : Mode → Bool
  | .running => true
  | _ => false

def isExiting : Mode → Bool
  | .exiting => true
  | _ => false

/-- `schedule` is called by a running processor or behind one of the calls that block. -/
def maySchedule : Mode → Bool
  | .running | .blocking _ => true
  | _ => false

/-- One step. Nothing happens when a processor is not where the call is made: `enter_idle` is called
when a processor starts and has no task yet. A stack pointer is never null. -/
def step (s : State) : Action → State
  | .enterIdle cpu =>
    if (s.cpus cpu).currentTask = none then s.when cpu isRunning (enterIdle cpu) else s
  | .addUser online bottom userRsp addressSpace files =>
    (s.addUser online bottom userRsp addressSpace files).2
  | .addKernel online bottom bytes => (s.addKernel online bottom bytes).2
  | .collect => s.collect
  | .schedule online cpu => s.when cpu maySchedule (schedule online cpu)
  | .prepare cpu => s.prepare cpu
  | .switchStack cpu rsp => if rsp = 0 then s else s.switchStack cpu rsp
  | .dropFiles cpu => s.when cpu isRunning (dropFiles cpu)
  | .exit cpu code => s.when cpu isExiting (exit cpu code)
  | .waitTask cpu id => s.when cpu isRunning fun s => (s.waitTask cpu id).2
  | .waitEvent cpu key deadline observed =>
    s.when cpu isRunning (waitEvent cpu key deadline observed)
  | .wakeEvent key => s.wakeEvent key
  | .forgetEvent key => s.forgetEvent key
  | .sleep cpu milliseconds now => s.when cpu isRunning (sleep cpu milliseconds now)
  | .clockTick => s.clockTick
  | .interrupt online cpu => s.when cpu isRunning (interrupt online cpu)
  | .enterKernel cpu userStack userGs => s.when cpu isRunning (enterKernel cpu userStack userGs)

def run (s : State) (actions : List Action) : State := actions.foldl step s

@[simp]
theorem run_nil (s : State) : s.run [] = s := rfl

@[simp]
theorem run_cons (s : State) (action : Action) (actions : List Action) :
    s.run (action :: actions) = (s.step action).run actions := rfl

theorem run_append (s : State) (first second : List Action) :
    s.run (first ++ second) = (s.run first).run second := List.foldl_append

/-- The state in which the system starts: `init` and then `enter_idle` on processor 0. -/
def start (kernelRoot : Nat) : State := (init kernelRoot).enterIdle 0

end State

end Kaguya.Scheduler
