import Mathlib.Logic.Function.Basic
import Mathlib.Data.List.Nodup
import Kaguya.Lib.Handles
import Kaguya.Lib.Runs

/-!
# Spinlocks and the interrupt flag

`sync.jh`: a lock is a byte, taken by compare-and-swap. `jihoo_lock_acquire` and `jihoo_lock_try`
save the flags register and disable interrupts first; `jihoo_lock_release` stores zero and enables
interrupts again if the flags it is handed say so. Every access to the flags register or to a lock
is a step, and other CPUs and interrupts come in between. A CPU runs one activation at a time: its
first code, or the handler of an interrupt above it.
-/

namespace Kaguya.Sync

open Function List

private theorem or_and (x y mask : UInt64) :
    (x ||| y) &&& mask = (x &&& mask) ||| (y &&& mask) := by
  apply UInt64.eq_of_toBitVec_eq
  ext i
  simp [Bool.and_or_distrib_right]

private theorem or_and_self (x mask : UInt64) : (x ||| mask) &&& mask = mask := by
  apply UInt64.eq_of_toBitVec_eq
  ext i
  simpa using .inr

structure Rflags where
  word : UInt64
  reserved : word &&& 0x8 = 0
  deriving DecidableEq

namespace Rflags

variable (flags : Rflags)

def enabled : Bool := flags.word &&& 0x200 != 0

def disable : Rflags where
  word := flags.word &&& ~~~0x200
  reserved := by
    rw [UInt64.and_assoc, UInt64.and_comm (~~~0x200), ← UInt64.and_assoc, flags.reserved]
    exact UInt64.zero_and

def enable : Rflags where
  word := flags.word ||| 0x200
  reserved := by
    rw [or_and, flags.reserved]
    rfl

@[simp] theorem enabled_disable (flags : Rflags) : flags.disable.enabled = false := by
  have hclear : (flags.word &&& ~~~0x200) &&& 0x200 = 0 := by
    rw [UInt64.and_assoc]
    exact UInt64.and_zero
  simp [enabled, disable, hclear]

@[simp] theorem enabled_enable (flags : Rflags) : flags.enable.enabled = true := by
  have hset : (flags.word ||| 0x200) &&& 0x200 = 0x200 := or_and_self _ _
  simp [enabled, enable, hset]

end Rflags

/-- What `jihoo_lock_try` returns when the lock is taken. -/
def failed : UInt64 := 0xffffffffffffffff

theorem Rflags.word_ne_failed (flags : Rflags) : flags.word ≠ failed := by
  intro h
  have hreserved := flags.reserved
  rw [h] at hreserved
  exact absurd hreserved (by decide)

universe u v

/-- One use of a lock, from the call of `jihoo_lock_acquire` or `jihoo_lock_try` to the end of its
release: the flags that were saved, and whether interrupts were enabled at the call. No step reads
`entry`. -/
structure Section (Lock : Type v) where
  lock : Lock
  flags : Rflags
  entry : Bool
  deriving DecidableEq

inductive Phase (Lock : Type v)
  | running
  | acquiring (sec : Section Lock)
  | trying (sec : Section Lock)
  | refused (sec : Section Lock)
  | released (sec : Section Lock)
  deriving DecidableEq

structure Activation (Lock : Type v) where
  phase : Phase Lock
  held : List (Section Lock)
  deriving DecidableEq

def Activation.idle {Lock : Type v} : Activation Lock := ⟨.running, []⟩

/-- A CPU with the activations that interrupts have suspended on it, each with the flags that the
return from its interrupt restores. -/
structure Cpu (Lock : Type v) where
  flags : Rflags
  current : Activation Lock
  below : List (Rflags × Activation Lock)

/-- The steps of a CPU. `assign` is what code does to its flags outside the functions of
`sync.jh`. -/
inductive Op (Lock : Type v)
  | acquire (lock : Lock)
  | tryAcquire (lock : Lock)
  | cas
  | release
  | enable
  | interrupt
  | iret
  | assign (flags : Rflags)

variable {Core : Type u} {Lock : Type v}

namespace Cpu

variable (cpu : Cpu Lock)

def goto (phase : Phase Lock) : Cpu Lock :=
  { cpu with current := { cpu.current with phase := phase } }

/-- The call of `jihoo_irq_save` with which both ways of taking a lock begin. -/
def irqSave (next : Section Lock → Phase Lock) (lock : Lock) : Cpu Lock :=
  { cpu.goto (next ⟨lock, cpu.flags, cpu.flags.enabled⟩) with flags := cpu.flags.disable }

def hold (sec : Section Lock) : Cpu Lock :=
  { cpu with current := ⟨.running, sec :: cpu.current.held⟩ }

/-- The last statement of a failed `jihoo_lock_try` and of `jihoo_lock_release`. -/
def irqEnable (sec : Section Lock) : Cpu Lock :=
  { cpu.goto .running with flags := if sec.flags.enabled then cpu.flags.enable else cpu.flags }

def act [DecidableEq Lock] (locks : Lock → Bool) (cpu : Cpu Lock) :
    Op Lock → Cpu Lock × (Lock → Bool)
  | .acquire lock =>
    match cpu.current.phase with
    | .running => (cpu.irqSave .acquiring lock, locks)
    | _ => (cpu, locks)
  | .tryAcquire lock =>
    match cpu.current.phase with
    | .running => (cpu.irqSave .trying lock, locks)
    | _ => (cpu, locks)
  | .cas =>
    match cpu.current.phase with
    | .acquiring sec =>
      if locks sec.lock then (cpu, locks)
      else (cpu.hold sec, update locks sec.lock true)
    | .trying sec =>
      if locks sec.lock then (cpu.goto (.refused sec), locks)
      -- `try_lock` goes by the word that `jihoo_lock_try` returns
      else if sec.flags.word = failed then
        (cpu.goto .running, update locks sec.lock true)
      else (cpu.hold sec, update locks sec.lock true)
    | _ => (cpu, locks)
  | .release =>
    match cpu.current with
    | ⟨.running, sec :: rest⟩ =>
      ({ cpu with current := ⟨.released sec, rest⟩ }, update locks sec.lock false)
    | _ => (cpu, locks)
  | .enable =>
    match cpu.current.phase with
    | .refused sec => (cpu.irqEnable sec, locks)
    | .released sec => (cpu.irqEnable sec, locks)
    | _ => (cpu, locks)
  | .interrupt =>
    -- every gate is an interrupt gate, which clears the flag
    if cpu.flags.enabled then
      (⟨cpu.flags.disable, .idle, (cpu.flags, cpu.current) :: cpu.below⟩, locks)
    else (cpu, locks)
  | .iret =>
    match cpu.below with
    | (flags, activation) :: rest =>
      if cpu.current = .idle then (⟨flags, activation, rest⟩, locks) else (cpu, locks)
    | [] => (cpu, locks)
  | .assign flags =>
    if cpu.current = .idle ∨ flags.enabled = cpu.flags.enabled then
      ({ cpu with flags := flags }, locks)
    else (cpu, locks)

end Cpu

structure State (Core : Type u) (Lock : Type v) where
  cpus : Core → Cpu Lock
  locks : Lock → Bool

namespace State

def step [DecidableEq Core] [DecidableEq Lock] (s : State Core Lock)
    (action : Core × Op Lock) : State Core Lock :=
  let next := (s.cpus action.1).act s.locks action.2
  ⟨update s.cpus action.1 next.1, next.2⟩

def initial (flags : Core → Rflags) : State Core Lock :=
  ⟨fun core => ⟨flags core, .idle, []⟩, fun _ => false⟩

end State

def Nested : List (Section Lock) → Prop
  | [] => True
  | sec :: rest => (rest ≠ [] → sec.entry = false) ∧ Nested rest

def Phase.sections : Phase Lock → List (Section Lock)
  | .running => []
  | .acquiring sec | .trying sec | .refused sec | .released sec => [sec]

/-- The sections an activation is in, the innermost first: the two ways of taking a lock add one at
their first step, and it goes with their last step or that of the release. -/
def Activation.sections (activation : Activation Lock) : List (Section Lock) :=
  activation.phase.sections ++ activation.held

variable {activation : Activation Lock}

theorem Activation.eq_idle (h : activation.sections = []) : activation = .idle := by
  obtain ⟨phase, held⟩ := activation
  cases phase with
  | running => exact congrArg (Activation.mk .running) h
  | acquiring => cases h
  | trying => cases h
  | refused => cases h
  | released => cases h

namespace Cpu

/-- **What the flags say.** A CPU with interrupts enabled is in no section, what an interrupt has
suspended is in none, and what a section saved is the flag it found. -/
structure Ordered (cpu : Cpu Lock) : Prop where
  nested : Nested cpu.current.sections
  saved : ∀ sec ∈ cpu.current.sections, sec.flags.enabled = sec.entry
  masked : cpu.flags.enabled = true → cpu.current.sections = []
  quiet : ∀ frame ∈ cpu.below, frame.2 = .idle

def locked (cpu : Cpu Lock) : List Lock := cpu.current.held.map Section.lock

variable {cpu cpu' : Cpu Lock} {sec : Section Lock} {lock : Lock}

theorem Ordered.idle {flags : Rflags} {below : List (Rflags × Activation Lock)}
    (h : ∀ frame ∈ below, frame.2 = .idle) : (⟨flags, .idle, below⟩ : Cpu Lock).Ordered where
  nested := trivial
  saved _ hmem := nomatch hmem
  masked _ := rfl
  quiet := h

section
variable (h : cpu.Ordered)
include h

theorem Ordered.unmoved (hsections : cpu'.current.sections = cpu.current.sections)
    (hflags : cpu'.flags = cpu.flags) (hbelow : cpu'.below = cpu.below) : cpu'.Ordered where
  nested := hsections ▸ h.nested
  saved := hsections ▸ h.saved
  masked := hsections ▸ hflags ▸ h.masked
  quiet := hbelow ▸ h.quiet

theorem Ordered.irqSave {next : Section Lock → Phase Lock} (hphase : cpu.current.phase = .running)
    (hnext : ∀ sec, (next sec).sections = [sec]) : (cpu.irqSave next lock).Ordered := by
  have hheld : cpu.current.sections = cpu.current.held := by
    rw [Activation.sections, hphase]
    rfl
  have hsections : (cpu.irqSave next lock).current.sections
      = ⟨lock, cpu.flags, cpu.flags.enabled⟩ :: cpu.current.sections := by
    rw [hheld]
    exact congrArg (· ++ cpu.current.held) (hnext _)
  constructor
  case nested =>
    rw [hsections]
    refine ⟨fun hinner => ?_, h.nested⟩
    exact Bool.eq_false_iff.2 (mt h.masked hinner)
  case saved =>
    rw [hsections]
    intro sec hmem
    rcases mem_cons.1 hmem with rfl | hmem
    · rfl
    · exact h.saved sec hmem
  case masked =>
    intro henabled
    rw [show (cpu.irqSave next lock).flags = cpu.flags.disable from rfl,
      Rflags.enabled_disable] at henabled
    cases henabled
  case quiet => exact h.quiet

theorem Ordered.hold (hphase : cpu.current.phase.sections = [sec]) : (cpu.hold sec).Ordered := by
  refine h.unmoved ?_ rfl rfl
  rw [Activation.sections, Activation.sections, hphase]
  rfl

theorem Ordered.disabled (hsec : cpu.current.sections ≠ []) : cpu.flags.enabled = false :=
  Bool.eq_false_iff.2 (mt h.masked hsec)

theorem Ordered.enabled_irqEnable (hphase : cpu.current.phase.sections = [sec]) :
    (cpu.irqEnable sec).flags.enabled = sec.entry := by
  have hmem : sec ∈ cpu.current.sections := by simp [Activation.sections, hphase]
  have hdisabled := h.disabled (ne_nil_of_mem hmem)
  rw [← h.saved sec hmem, irqEnable]
  cases hsaved : sec.flags.enabled with
  | true => exact Rflags.enabled_enable _
  | false => exact hdisabled

theorem Ordered.irqEnable (hphase : cpu.current.phase.sections = [sec]) :
    (cpu.irqEnable sec).Ordered := by
  have hbefore : cpu.current.sections = sec :: cpu.current.held := by
    rw [Activation.sections, hphase]
    rfl
  have hnested := h.nested
  have hsaved := h.saved
  rw [hbefore] at hnested hsaved
  constructor
  case nested => exact hnested.2
  case saved => exact fun sec' hmem => hsaved sec' (mem_cons_of_mem _ hmem)
  case masked =>
    intro henabled
    rw [h.enabled_irqEnable hphase] at henabled
    by_contra hinner
    exact absurd (hnested.1 hinner) (by rw [henabled]; decide)
  case quiet => exact h.quiet

end

variable [DecidableEq Lock]

inductive Change (locks : Lock → Bool) : List Lock → List Lock → (Lock → Bool) → Prop
  | kept {held : List Lock} : Change locks held held locks
  | took {held : List Lock} {lock : Lock} (hfree : locks lock = false) :
      Change locks held (lock :: held) (update locks lock true)
  | gave {held : List Lock} {lock : Lock} :
      Change locks (lock :: held) held (update locks lock false)

theorem act_spec (locks : Lock → Bool) (h : cpu.Ordered) (op : Op Lock) :
    (cpu.act locks op).1.Ordered
    ∧ Change locks cpu.locked (cpu.act locks op).1.locked (cpu.act locks op).2 := by
  cases op with
  | acquire =>
    simp only [act]
    split
    case h_1 hphase => exact ⟨h.irqSave hphase fun _ => rfl, .kept⟩
    case h_2 => exact ⟨h, .kept⟩
  | tryAcquire =>
    simp only [act]
    split
    case h_1 hphase => exact ⟨h.irqSave hphase fun _ => rfl, .kept⟩
    case h_2 => exact ⟨h, .kept⟩
  | cas =>
    simp only [act]
    split
    case h_1 sec hphase =>
      cases hlock : locks sec.lock with
      | true => exact ⟨h, .kept⟩
      | false => exact ⟨h.hold (by rw [hphase]; rfl), .took hlock⟩
    case h_2 sec hphase =>
      cases hlock : locks sec.lock with
      | true =>
        refine ⟨h.unmoved ?_ rfl rfl, .kept⟩
        simp [goto, Activation.sections, hphase, Phase.sections]
      | false =>
        rw [if_neg Bool.false_ne_true, if_neg sec.flags.word_ne_failed]
        exact ⟨h.hold (by rw [hphase]; rfl), .took hlock⟩
    case h_3 => exact ⟨h, .kept⟩
  | release =>
    simp only [act]
    split
    case h_1 sec rest hcurrent =>
      refine ⟨h.unmoved ?_ rfl rfl, ?_⟩
      · rw [hcurrent]
        rfl
      · rw [locked, hcurrent]
        exact .gave
    case h_2 => exact ⟨h, .kept⟩
  | enable =>
    simp only [act]
    split
    case h_1 sec hphase => exact ⟨h.irqEnable (by rw [hphase]; rfl), .kept⟩
    case h_2 sec hphase => exact ⟨h.irqEnable (by rw [hphase]; rfl), .kept⟩
    case h_3 => exact ⟨h, .kept⟩
  | interrupt =>
    simp only [act]
    split
    case isTrue henabled =>
      have hidle := Activation.eq_idle (h.masked henabled)
      constructor
      · refine .idle fun frame hmem => ?_
        rcases mem_cons.1 hmem with rfl | hmem
        · exact hidle
        · exact h.quiet frame hmem
      · rw [locked, hidle]
        exact .kept
    case isFalse => exact ⟨h, .kept⟩
  | iret =>
    simp only [act]
    split
    case h_1 flags activation rest hbelow =>
      have hquiet := h.quiet
      rw [hbelow] at hquiet
      have hactivation : activation = .idle := hquiet _ mem_cons_self
      split
      case isTrue hidle =>
        subst hactivation
        constructor
        · exact .idle fun frame hmem => hquiet frame (mem_cons_of_mem _ hmem)
        · rw [locked, hidle]
          exact .kept
      case isFalse => exact ⟨h, .kept⟩
    case h_2 => exact ⟨h, .kept⟩
  | assign =>
    simp only [act]
    split
    case isTrue hflags =>
      refine ⟨⟨h.nested, h.saved, fun henabled => ?_, h.quiet⟩, .kept⟩
      rcases hflags with hidle | hsame
      · exact congrArg Activation.sections hidle
      · exact h.masked (hsame ▸ henabled)
    case isFalse => exact ⟨h, .kept⟩

end Cpu

namespace State

/-- The locks a CPU holds are marked as taken, no other CPU holds one of them, and none is held
twice. -/
structure Disciplined (s : State Core Lock) : Prop where
  ordered : ∀ core, (s.cpus core).Ordered
  exclusive : Lease.Exclusive (fun lock => s.locks lock = true)
    (fun core lock => lock ∈ (s.cpus core).locked)
  nodup : ∀ core, (s.cpus core).locked.Nodup

theorem disciplined_initial (flags : Core → Rflags) :
    (initial flags : State Core Lock).Disciplined where
  ordered _ := .idle fun _ hmem => nomatch hmem
  exclusive :=
    { taken_of_holds := nofun
      unique := nofun }
  nodup _ := nodup_nil

variable [DecidableEq Core]

variable {cpus : Core → Cpu Lock} {core : Core} {cpu : Cpu Lock}

theorem mem_locked_update {other : Core} {lock : Lock} : lock ∈ (update cpus core cpu other).locked
      ↔ (other = core ∧ lock ∈ cpu.locked) ∨ (other ≠ core ∧ lock ∈ (cpus other).locked) := by
  by_cases hother : other = core
  · subst hother
    simp
  · simp [hother]

variable [DecidableEq Lock]

theorem exclusive_change {locks locks' : Lock → Bool}
    (h : Lease.Exclusive (fun lock => locks lock = true)
      (fun core lock => lock ∈ (cpus core).locked)) (hnodup : (cpus core).locked.Nodup)
    (hchange : Cpu.Change locks (cpus core).locked cpu.locked locks') :
    Lease.Exclusive (fun lock => locks' lock = true)
      (fun other lock => lock ∈ (update cpus core cpu other).locked) ∧ cpu.locked.Nodup := by
  generalize hbefore : (cpus core).locked = before at hnodup hchange
  generalize hafter : cpu.locked = after at hchange
  cases hchange with
  | kept =>
    refine ⟨h.mono (fun _ htaken => htaken) fun other lock hmem => ?_, hnodup⟩
    rcases mem_locked_update.1 hmem with ⟨rfl, hown⟩ | ⟨_, hrest⟩
    · exact hbefore ▸ hafter ▸ hown
    · exact hrest
  | @took _ taken hfree =>
    have hnot : ¬ locks taken = true := by simp [hfree]
    constructor
    · refine h.acquire (a := core) hnot (fun lock htaken => ?_) fun other lock hmem => ?_
      · by_cases hlock : lock = taken
        · simp [hlock]
        · simpa [hlock] using htaken
      rcases mem_locked_update.1 hmem with ⟨rfl, hown⟩ | ⟨_, hrest⟩
      · rw [hafter] at hown
        rcases mem_cons.1 hown with rfl | hown
        · exact .inr ⟨rfl, rfl⟩
        · exact .inl (hbefore ▸ hown)
      · exact .inl hrest
    · exact nodup_cons.2 ⟨hbefore ▸ h.not_holds hnot, hnodup⟩
  | @gave _ given =>
    have hheld : given ∈ (cpus core).locked := hbefore ▸ mem_cons_self
    refine ⟨h.release (a := core) hheld (fun lock htaken hlock => ?_) fun other lock hmem => ?_,
      hnodup.of_cons⟩
    · simpa [hlock] using htaken
    rcases mem_locked_update.1 hmem with ⟨rfl, hown⟩ | ⟨hother, hrest⟩
    · rw [hafter] at hown
      refine ⟨hbefore ▸ mem_cons_of_mem _ hown, ?_⟩
      rintro ⟨-, rfl⟩
      exact (nodup_cons.1 hnodup).1 hown
    · exact ⟨hrest, fun hsame => hother hsame.1⟩

theorem Disciplined.step {s : State Core Lock} (h : s.Disciplined) (action : Core × Op Lock) :
    (s.step action).Disciplined := by
  obtain ⟨core, op⟩ := action
  obtain ⟨hordered, hchange⟩ := Cpu.act_spec s.locks (h.ordered core) op
  obtain ⟨hexclusive, hnodup⟩ := exclusive_change h.exclusive (h.nodup core) hchange
  refine ⟨fun other => ?_, hexclusive, fun other => ?_⟩
  · by_cases hother : other = core
    · subst hother
      simpa [State.step] using hordered
    · simpa [State.step, hother] using h.ordered other
  · by_cases hother : other = core
    · subst hother
      simpa [State.step] using hnodup
    · simpa [State.step, hother] using h.nodup other

theorem Disciplined.run (flags : Core → Rflags) (actions : List (Core × Op Lock)) :
    (runAll State.step (initial flags) actions).Disciplined :=
  runAll_invariant (disciplined_initial flags) fun _ action _ h => h.step action

end State

def Activation.locks (activation : Activation Lock) : List Lock :=
  activation.held.map Section.lock

def Cpu.activations (cpu : Cpu Lock) : List (Activation Lock) :=
  cpu.current :: cpu.below.map Prod.snd

theorem Cpu.Ordered.current_of_lock {cpu : Cpu Lock} (h : cpu.Ordered) {i : Nat} {lock : Lock}
    (hi : cpu.activations[i]? = some activation) (hlock : lock ∈ activation.locks) :
    i = 0 ∧ activation = cpu.current := by
  cases i with
  | zero => exact ⟨rfl, (Option.some.inj hi).symm⟩
  | succ =>
    obtain ⟨frame, hframe, rfl⟩ := mem_map.1 (mem_of_getElem? hi)
    rw [h.quiet frame hframe] at hlock
    cases hlock

namespace State

variable [DecidableEq Core] [DecidableEq Lock]

structure Sound (s : State Core Lock) : Prop where
  /-- Two activations that hold one lock are one activation, which holds it once. -/
  exclusive : ∀ (core core' : Core) (i i' : Nat) (activation activation' : Activation Lock)
      (lock : Lock), (s.cpus core).activations[i]? = some activation →
    (s.cpus core').activations[i']? = some activation' →
    lock ∈ activation.locks → lock ∈ activation'.locks →
    core = core' ∧ i = i' ∧ activation.locks.count lock = 1
  masked : ∀ core, ∀ activation ∈ (s.cpus core).activations, activation.locks ≠ [] →
    (s.cpus core).flags.enabled = false
  /-- What the current activation waits for is not held by one that it interrupted. -/
  unblocked : ∀ core sec, (s.cpus core).current.phase = .acquiring sec →
    ∀ frame ∈ (s.cpus core).below, sec.lock ∉ frame.2.locks
  /-- The last step of a release and of a failed try leaves the interrupt flag as it was at the call
  of the matching `jihoo_lock_acquire` or `jihoo_lock_try`. -/
  restored : ∀ core sec, ((s.cpus core).current.phase = .released sec
      ∨ (s.cpus core).current.phase = .refused sec) →
    ((s.step (core, .enable)).cpus core).current.phase = .running
    ∧ ((s.step (core, .enable)).cpus core).flags.enabled = sec.entry

/-- **Kernel locks exclude and never deadlock against interrupts.** -/
theorem locks_sound (flags : Core → Rflags) (actions : List (Core × Op Lock)) :
    (runAll State.step (initial flags) actions).Sound := by
  have h := Disciplined.run flags actions
  generalize runAll State.step (initial flags) actions = s at h
  constructor
  case exclusive =>
    intro core core' i i' activation activation' lock hi hi' hlock hlock'
    obtain ⟨rfl, rfl⟩ := (h.ordered core).current_of_lock hi hlock
    obtain ⟨rfl, rfl⟩ := (h.ordered core').current_of_lock hi' hlock'
    have hcount := count_eq_one_of_mem (h.nodup core) hlock
    exact ⟨h.exclusive.unique hlock hlock', rfl, hcount⟩
  case masked =>
    intro core activation hmem hlocks
    obtain ⟨i, hi⟩ := mem_iff_getElem?.1 hmem
    obtain ⟨lock, hlock⟩ := exists_mem_of_ne_nil _ hlocks
    obtain ⟨-, rfl⟩ := (h.ordered core).current_of_lock hi hlock
    obtain ⟨sec, hsec, -⟩ := mem_map.1 hlock
    apply (h.ordered core).disabled
    exact ne_nil_of_mem (mem_append_right _ hsec)
  case unblocked =>
    intro core sec _ frame hframe hlock
    rw [(h.ordered core).quiet frame hframe] at hlock
    cases hlock
  case restored =>
    intro core sec hphase
    have hsections : (s.cpus core).current.phase.sections = [sec] := by
      rcases hphase with hphase | hphase <;> rw [hphase] <;> rfl
    have hstep : (s.step (core, .enable)).cpus core = (s.cpus core).irqEnable sec := by
      rcases hphase with hphase | hphase <;> simp [State.step, Cpu.act, hphase]
    rw [hstep]
    exact ⟨rfl, (h.ordered core).enabled_irqEnable hsections⟩

end State

end Kaguya.Sync
