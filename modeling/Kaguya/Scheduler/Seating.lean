import Kaguya.Scheduler.Pinning

/-!
# Processors and their tasks

What a processor is about to do says what its task can be: a task that blocks is still the current
one until `schedule` has left it, and a task that is switched out is named by the pending switch or
by the word of the processor, never by both. Every move keeps processors and tasks in step.
-/

namespace Kaguya.Scheduler

open Function

/-- What the task of a processor can be while the processor is in this mode. -/
def Mode.Fits : Mode → Status → Prop
  | .running, status | .exiting, status | .preparing _, status | .switching _, status =>
    status = .running
  | .blocking false, status => status = .running ∨ status = .waiting ∨ status = .sleeping
  | .blocking true, status => status = .zombie
  | .halted, _ => False

variable {mode : Mode} {c : Cpu} {handoff : Nat → Nat} {cpu : Nat}

theorem Mode.Fits.not_switching {status : Status} (h : mode.Fits status) :
    status ≠ .switchingOut ∧ status ≠ .ready := by
  cases mode with
  | blocking final =>
    cases final with
    | true => simp_all [Mode.Fits]
    | false => rcases h with h | h | h <;> simp [h]
  | halted => exact h.elim
  | running | exiting | preparing | switching => simp_all [Mode.Fits]

theorem Mode.Fits.wake {status : Status} (h : mode.Fits status)
    (hblocked : status = .waiting ∨ status = .sleeping) : mode.Fits .running := by
  cases mode with
  | blocking final =>
    cases final with
    | true => rcases hblocked with hs | hs <;> simp [Mode.Fits, hs] at h
    | false => exact .inl rfl
  | halted => exact h.elim
  | running | exiting | preparing | switching => rfl

def Cpu.Minds (c : Cpu) (index : Nat) : Prop :=
  c.currentTask = some index ∨ c.mode.outgoing = some index

theorem Cpu.Minds.has {index : Nat} (h : c.Minds index) : c.Has index := by
  rcases h with hcurrent | hout
  · exact .inl hcurrent
  · exact .inr (.inl hout)

/-- The switch out of a task: either it could go on and will be handed over, or it could not. -/
def Switch.Leaves (status : Nat → Status) (handoff : Nat → Nat) (pending : Switch) (index : Nat) :
    Prop :=
  (pending.encoded = index + 1 ∧ status index = .switchingOut ∧ ∀ b, handoff b ≠ index + 1)
  ∨ (pending.encoded = 0 ∧ status index ≠ .running ∧ status index ≠ .switchingOut)

structure Cpu.Settled (status : Nat → Status) (handoff : Nat → Nat) (cpu : Nat) (c : Cpu) :
    Prop where
  bounded : c.currentTask ≠ none → cpu < 64
  fits : ∀ {i}, c.currentTask = some i → c.mode.Fits (status i)
  manned : c.mode = .exiting ∨ c.mode = .blocking true → c.currentTask ≠ none
  idle : c.currentTask ≠ none → c.idleStack ≠ 0 ∨ (c.mode.pending ≠ none ∧ c.mode.outgoing = none)
  coming : ∀ {pending}, c.mode.pending = some pending →
    pending.incoming = c.currentTask ∧ handoff cpu = 0
  going : ∀ {pending i}, c.mode.pending = some pending → pending.outgoing = some i →
    pending.Leaves status handoff i
  alone : ∀ {pending}, c.mode.pending = some pending → pending.outgoing = none → pending.encoded = 0

theorem Cpu.Settled.congr {status status' : Nat → Status} {handoff' : Nat → Nat}
    (h : c.Settled status handoff cpu)
    (hfits : ∀ {i}, c.currentTask = some i → c.mode.Fits (status' i))
    (hhandoff : handoff cpu = 0 → handoff' cpu = 0)
    (hgoing : ∀ {pending i}, c.mode.pending = some pending → pending.outgoing = some i →
      pending.Leaves status' handoff' i) : c.Settled status' handoff' cpu where
  bounded := h.bounded
  fits := hfits
  manned := h.manned
  idle := h.idle
  coming hp := (h.coming hp).imp_right hhandoff
  going := hgoing
  alone := h.alone

theorem Cpu.Settled.transfer {status : Nat → Status} {c' : Cpu} (h : c.Settled status handoff cpu)
    (htask : c'.currentTask = c.currentTask) (hstack : c'.idleStack = c.idleStack)
    (hpending : c'.mode.pending = c.mode.pending)
    (hfits : ∀ status, c.mode.Fits status → c'.mode.Fits status)
    (hmanned : c'.mode = .exiting ∨ c'.mode = .blocking true → c.mode = c'.mode) :
    c'.Settled status handoff cpu := by
  refine ⟨?_, fun hi => ?_, fun hm => ?_, ?_, ?_, ?_, ?_⟩
  · rw [htask]
    exact h.bounded
  · rw [htask] at hi
    exact hfits _ (h.fits hi)
  · rw [htask]
    exact h.manned (by rwa [hmanned hm])
  · rw [htask, hstack, Mode.outgoing, hpending]
    exact h.idle
  · rw [htask, hpending]
    exact h.coming
  · rw [hpending]
    exact h.going
  · rw [hpending]
    exact h.alone

theorem Cpu.settled_of_pending {status : Nat → Status} (hpending : c.mode.pending = none)
    (hbounded : c.currentTask ≠ none → cpu < 64)
    (hfits : ∀ {i}, c.currentTask = some i → c.mode.Fits (status i))
    (hmanned : c.mode = .exiting ∨ c.mode = .blocking true → c.currentTask ≠ none)
    (hidle : c.currentTask ≠ none → c.idleStack ≠ 0) : c.Settled status handoff cpu where
  bounded := hbounded
  fits := hfits
  manned := hmanned
  idle hcurrent := .inl (hidle hcurrent)
  coming hp := by simp [hpending] at hp
  going hp := by simp [hpending] at hp
  alone hp := by simp [hpending] at hp

namespace State

variable {s s' : State} {action : Action} {cpu index : Nat} {task : Task} {pending : Switch}

def Leaving (s : State) (cpu index : Nat) : Prop :=
  ∃ pending, (s.cpus cpu).mode.pending = some pending ∧ pending.encoded = index + 1

/-- Every processor agrees with its tasks, and every task that is on a processor or on its way out
of one has its processor. -/
structure Seated (s : State) : Prop where
  settled : ∀ cpu, (s.cpus cpu).Settled (fun i => s.statusOf i) s.handoff cpu
  running : ∀ {i}, s.statusOf i = .running → ∃ cpu, (s.cpus cpu).currentTask = some i
  handed : ∀ {cpu i}, s.handoff cpu = i + 1 → s.statusOf i = .switchingOut
  handedOnce : ∀ {a b i}, s.handoff a = i + 1 → s.handoff b = i + 1 → a = b
  switching : ∀ {i}, s.statusOf i = .switchingOut →
    (∃ cpu, s.Leaving cpu i) ∨ ∃ cpu, s.handoff cpu = i + 1
  unclaimed : ∀ {i}, s.statusOf i ≠ .claimed

theorem Seated.status (h : s.Seated) (index : Nat) (hcpus : s'.cpus = s.cpus)
    (hhandoff : s'.handoff = s.handoff) (hothers : ∀ i, i ≠ index → s'.statusOf i = s.statusOf i)
    (hbefore : s.statusOf index ≠ .switchingOut)
    (hafter : s'.statusOf index ≠ .switchingOut ∧ s'.statusOf index ≠ .claimed)
    (hfits : ∀ cpu, (s.cpus cpu).currentTask = some index →
      (s.cpus cpu).mode.Fits (s'.statusOf index))
    (hrunning : s'.statusOf index = .running → (∃ cpu, (s.cpus cpu).currentTask = some index)
      ∧ ∀ cpu, (s.cpus cpu).mode.outgoing ≠ some index) : s'.Seated := by
  have hswitching : ∀ i, s'.statusOf i = .switchingOut ↔ s.statusOf i = .switchingOut := by
    intro i
    by_cases hi : i = index
    · rw [hi]
      exact ⟨fun hsome => absurd hsome hafter.1, fun hsome => absurd hsome hbefore⟩
    · rw [hothers i hi]
  refine ⟨fun cpu => ?_, fun {i} hi => ?_, fun {cpu i} hi => ?_, ?_, fun {i} hi => ?_,
    fun {i} => ?_⟩
  · rw [hcpus, hhandoff]
    refine (h.settled cpu).congr (fun {i} hi => ?_) id fun {p i} hp hout => ?_
    · by_cases hindex : i = index
      · rw [hindex] at hi ⊢
        exact hfits cpu hi
      · rw [hothers i hindex]
        exact (h.settled cpu).fits hi
    rcases (h.settled cpu).going hp hout with ⟨hencoded, hswitch, hnone⟩ | ⟨hzero, hnot, hswitch⟩
    · exact .inl ⟨hencoded, (hswitching i).mpr hswitch, hnone⟩
    refine .inr ⟨hzero, fun hrun => ?_, fun hsome => hswitch ((hswitching i).mp hsome)⟩
    dsimp only at hrun
    by_cases hindex : i = index
    · rw [hindex] at hrun hout
      apply (hrunning hrun).2 cpu
      simp [Mode.outgoing, hp, hout]
    · rw [hothers i hindex] at hrun
      exact hnot hrun
  · rw [hcpus]
    by_cases hindex : i = index
    · rw [hindex] at hi ⊢
      exact (hrunning hi).1
    · rw [hothers i hindex] at hi
      exact h.running hi
  · rw [hhandoff] at hi
    exact (hswitching i).mpr (h.handed hi)
  · rw [hhandoff]
    exact h.handedOnce
  · unfold Leaving
    rw [hhandoff, hcpus]
    exact h.switching ((hswitching i).mp hi)
  by_cases hindex : i = index
  · rw [hindex]
    exact hafter.2
  · rw [hothers i hindex]
    exact h.unclaimed

variable {c : Cpu} {f : Task → Task} {next : Option Nat} {mode : Mode} {rsp : Nat}

theorem Seated.ofCpu (h : s.Seated) (hstatus : ∀ i, s'.statusOf i = s.statusOf i)
    (hhandoff : s'.handoff = s.handoff) (hcpus : s'.cpus = Function.update s.cpus cpu c)
    (htask : c.currentTask = (s.cpus cpu).currentTask)
    (hpending : c.mode.pending = (s.cpus cpu).mode.pending)
    (hsettled : c.Settled (fun i => s.statusOf i) s.handoff cpu) : s'.Seated := by
  have hsame : ∀ b, (s'.cpus b).currentTask = (s.cpus b).currentTask
      ∧ (s'.cpus b).mode.pending = (s.cpus b).mode.pending := by
    intro b
    rw [hcpus]
    by_cases hb : b = cpu
    · rw [hb, update_self]
      exact ⟨htask, hpending⟩
    · rw [update_of_ne hb]
      exact ⟨rfl, rfl⟩
  have hfun : (fun i => s'.statusOf i) = fun i => s.statusOf i := funext hstatus
  refine ⟨fun b => ?_, fun {i} hi => ?_, fun {b i} hi => ?_, ?_, fun {i} hi => ?_, fun {i} => ?_⟩
  · rw [hfun, hhandoff, hcpus]
    by_cases hb : b = cpu
    · rw [hb, update_self]
      exact hsettled
    · rw [update_of_ne hb]
      exact h.settled b
  · rw [hstatus] at hi
    obtain ⟨b, hb⟩ := h.running hi
    exact ⟨b, (hsame b).1.trans hb⟩
  · rw [hhandoff] at hi
    rw [hstatus]
    exact h.handed hi
  · rw [hhandoff]
    exact h.handedOnce
  · rw [hstatus] at hi
    unfold Leaving
    simp only [hsame, hhandoff]
    exact h.switching hi
  · rw [hstatus]
    exact h.unclaimed

theorem Seated.congr (h : s.Seated) (hstatus : ∀ i, s'.statusOf i = s.statusOf i)
    (hhandoff : s'.handoff = s.handoff) (hcpus : s'.cpus = s.cpus) : s'.Seated := by
  have hupdated : s'.cpus = Function.update s.cpus 0 (s.cpus 0) := by
    rw [update_eq_self, hcpus]
  exact h.ofCpu hstatus hhandoff hupdated rfl rfl (h.settled 0)

theorem Owned.not_has (h : s.Owned) {b : Nat} (hhas : (s.cpus cpu).Has index) (hb : b ≠ cpu) :
    ¬ (s.cpus b).Has index := fun hother => hb (h.exclusive.unique hother hhas)

theorem outgoing_of_pending (hp : c.mode.pending = some pending)
    (hout : pending.outgoing = some index) : c.mode.outgoing = some index := by
  simp [Mode.outgoing, hp, hout]

/-- A processor cares for the status of its task and of the one that it leaves, and for words that
name the latter. -/
theorem Seated.settled_of_others (h : s.Seated)
    (hothers : ∀ i, (s.cpus cpu).Minds i → s'.statusOf i = s.statusOf i)
    (hown : s.handoff cpu = 0 → s'.handoff cpu = 0)
    (hwords : ∀ b i, s'.handoff b = i + 1 → s.handoff b = i + 1 ∨ ¬ (s.cpus cpu).Minds i) :
    (s.cpus cpu).Settled (fun i => s'.statusOf i) s'.handoff cpu := by
  refine (h.settled cpu).congr (fun {i} hi => ?_) hown fun {p i} hp hout => ?_
  · rw [hothers i (.inl hi)]
    exact (h.settled cpu).fits hi
  have hminds : (s.cpus cpu).Minds i := .inr (outgoing_of_pending hp hout)
  unfold Switch.Leaves
  dsimp only
  rw [hothers i hminds]
  refine ((h.settled cpu).going hp hout).imp_left fun ⟨hencoded, hswitch, hnone⟩ =>
    ⟨hencoded, hswitch, fun b hb => ?_⟩
  rcases hwords b i hb with hbefore | hother
  · exact hnone b hbefore
  · exact hother hminds

theorem Seated.own (h : s.Seated) (howned : s.Owned)
    (hcurrent : (s.cpus cpu).currentTask = some index) (hidle : (s.cpus cpu).mode.pending = none)
    (hothers : ∀ i, i ≠ index → s'.statusOf i = s.statusOf i) (hhandoff : s'.handoff = s.handoff)
    (hafter : s'.statusOf index ≠ .switchingOut ∧ s'.statusOf index ≠ .claimed
      ∧ s'.statusOf index ≠ .running) (hcpus : s'.cpus = Function.update s.cpus cpu c)
    (hsettled : c.Settled (fun i => s'.statusOf i) s.handoff cpu) : s'.Seated := by
  have hfits := ((h.settled cpu).fits hcurrent).not_switching
  have hcpusOther : ∀ {b}, b ≠ cpu → s'.cpus b = s.cpus b := by
    intro b hb
    rw [hcpus, update_of_ne hb]
  have hswitching : ∀ i, s'.statusOf i = .switchingOut ↔ s.statusOf i = .switchingOut := by
    intro i
    by_cases hi : i = index
    · rw [hi]
      exact ⟨fun hsome => absurd hsome hafter.1, fun hsome => absurd hsome hfits.1⟩
    · rw [hothers i hi]
  refine ⟨fun b => ?_, fun {i} hi => ?_, fun {b i} hi => ?_, ?_, fun {i} hi => ?_, fun {i} => ?_⟩
  · by_cases hb : b = cpu
    · rw [hb, hcpus, update_self, hhandoff]
      exact hsettled
    rw [hcpusOther hb]
    refine h.settled_of_others (fun i hi => hothers i ?_) (by simp [hhandoff]) fun b i hi =>
      .inl (hhandoff ▸ hi)
    rintro rfl
    exact howned.not_has (.inl hcurrent) hb hi.has
  · have hindex : i ≠ index := by
      rintro rfl
      exact hafter.2.2 hi
    rw [hothers i hindex] at hi
    obtain ⟨b, hb⟩ := h.running hi
    refine ⟨b, ?_⟩
    rw [hcpusOther]
    · exact hb
    rintro rfl
    rw [hcurrent] at hb
    cases hb
    exact hindex rfl
  · rw [hhandoff] at hi
    exact (hswitching i).mpr (h.handed hi)
  · rw [hhandoff]
    exact h.handedOnce
  · rw [hhandoff]
    refine (h.switching ((hswitching i).mp hi)).imp_left fun ⟨b, p, hp, hencoded⟩ =>
      ⟨b, p, ?_, hencoded⟩
    rw [hcpusOther]
    · exact hp
    · rintro rfl
      simp [hidle] at hp
  · by_cases hindex : i = index
    · rw [hindex]
      exact hafter.2.1
    · rw [hothers i hindex]
      exact h.unclaimed

theorem statusOf_map (htask : s'.tasks[index]? = (s.tasks[index]?).map f)
    (hf : ∀ t, (f t).status = t.status) : s'.statusOf index = s.statusOf index := by
  unfold statusOf
  rw [htask]
  cases s.tasks[index]? with
  | none => rfl
  | some task => exact hf task

theorem statusOf_update (index : Nat) (s : State) (hf : ∀ t, (f t).status = t.status) (i : Nat) :
    (s.update index f).statusOf i = s.statusOf i := by
  by_cases hi : i = index
  · rw [hi]
    exact statusOf_map ((getElem?_update index index f s).trans (if_pos rfl)) hf
  · exact statusOf_congr (getElem?_update_of_ne hi)

theorem statusOf_release (index slot : Nat) (task : Task) (s : State) (i : Nat) :
    (s.release index slot task).statusOf i = s.statusOf i := by
  refine (statusOf_update index _ ?_ i).trans rfl
  exact fun _ => rfl

theorem statusOf_dropFiles (index : Nat) (s : State) (i : Nat) :
    (s.update index fun t => { t with files := none }).statusOf i = s.statusOf i := by
  apply statusOf_update
  exact fun _ => rfl

theorem Departed.status (h : Departed cpu next pending s s')
    (hcurrent : (s.cpus cpu).currentTask = some index) :
    (s.statusOf index = .running ∧ s'.statusOf index = .switchingOut ∧ pending.encoded = index + 1)
    ∨ (s.statusOf index ≠ .running ∧ s'.statusOf index = s.statusOf index
      ∧ pending.encoded = 0) := by
  have hencoded := h.encoded
  unfold switchOut at hencoded
  rw [hcurrent] at hencoded
  dsimp only at hencoded
  have htask := h.left index hcurrent
  by_cases hrunning : s.statusOf index = .running
  · rw [if_pos hrunning] at hencoded
    have hzombie : s.statusOf index ≠ .zombie := by simp [hrunning]
    obtain ⟨task, hsome, hstatus⟩ := exists_of_statusOf hzombie
    rw [hsome] at htask
    refine .inl ⟨hrunning, ?_, hencoded⟩
    rw [statusOf_of_getElem? htask]
    simp [State.left, hstatus, hrunning]
  rw [if_neg hrunning] at hencoded
  refine .inr ⟨hrunning, ?_, hencoded⟩
  unfold statusOf at hrunning ⊢
  rw [htask]
  cases hsome : s.tasks[index]? with
  | none => rfl
  | some =>
    rw [hsome] at hrunning
    simp [State.left, hrunning]

theorem pending_of_maySchedule (h : maySchedule mode = true) : mode.pending = none := by
  cases mode with
  | running | blocking => rfl
  | exiting | preparing | switching | halted => cases h

theorem Seated.departed (h : s.Seated) (howned : s.Owned) (hat : s.At cpu maySchedule)
    (hhandoff : s.handoff cpu = 0) (hdeparted : Departed cpu next pending s s')
    (hnext : ∀ i, next = some i → s.statusOf i = .ready ∧ s.onCpu i = false
      ∧ s'.statusOf i = .running) : s'.Seated := by
  obtain ⟨c, hcpus, hcurrent, hidleStack, hmode, _⟩ := hdeparted.cpus
  have hpending := pending_of_maySchedule hat.2
  have hcpusOther : ∀ {b}, b ≠ cpu → s'.cpus b = s.cpus b := by
    intro b hb
    rw [hcpus, update_of_ne hb]
  have hnextFree : ∀ {b i}, next = some i → ¬ (s.cpus b).Has i := by
    intro b i hi
    apply howned.exclusive.not_holds
    simp [(hnext i hi).2.1]
  have hothers : ∀ {i}, next ≠ some i → (s.cpus cpu).currentTask ≠ some i →
      s'.statusOf i = s.statusOf i := fun hi hi' => statusOf_congr (hdeparted.others _ hi hi')
  -- the tasks of the other processors are neither the one that is left nor the one that is taken
  have hforeign : ∀ {b i}, b ≠ cpu → (s.cpus b).Has i → s'.statusOf i = s.statusOf i := by
    intro b i hb hhas
    apply hothers
    · exact fun hi => hnextFree hi hhas
    · exact fun hi => howned.not_has (.inl hi) hb hhas
  have hswitching : ∀ {i}, s.statusOf i = .switchingOut → s'.statusOf i = .switchingOut := by
    intro i hi
    rw [hothers]
    · exact hi
    · intro hi'
      simp [(hnext i hi').1] at hi
    · intro hi'
      exact ((h.settled cpu).fits hi').not_switching.1 hi
  refine ⟨fun b => ?_, fun {i} hi => ?_, fun {b i} hi => ?_, ?_, fun {i} hi => ?_,
    fun {i} hclaimed => ?_⟩
  · by_cases hb : b = cpu
    · rw [hb, hcpus, update_self, hdeparted.handoff]
      refine ⟨fun _ => hat.1, fun {i} hi => ?_, ?_, fun _ => ?_, fun {p} hp => ?_,
        fun {p i} hp hout => ?_, fun {p} hp hout => ?_⟩
      · rw [hmode]
        exact (hnext i (hcurrent ▸ hi)).2.2
      · simp [hmode]
      · rw [hidleStack]
        by_cases hold : (s.cpus cpu).currentTask = none
        · right
          simp [hmode, Mode.pending, Mode.outgoing, hdeparted.outgoing, hold]
        left
        rcases (h.settled cpu).idle hold with hidle | ⟨hsome, _⟩
        · exact hidle
        · exact absurd hpending hsome
      · simp only [hmode, Mode.pending, Option.some.injEq] at hp
        rw [← hp, hdeparted.incoming, hcurrent]
        exact ⟨rfl, hhandoff⟩
      · simp only [hmode, Mode.pending, Option.some.injEq] at hp
        rw [← hp, hdeparted.outgoing] at hout
        rw [← hp]
        have hfits := ((h.settled cpu).fits hout).not_switching
        rcases hdeparted.status hout with ⟨hrunning, hstatus, hencoded⟩ | ⟨hnot, hstatus, hencoded⟩
        · refine .inl ⟨hencoded, hstatus, fun b hb => ?_⟩
          have := h.handed hb
          simp [hrunning] at this
        · exact .inr ⟨hencoded, fun hrun => hnot (hstatus.symm.trans hrun),
            fun hswitch => hfits.1 (hstatus.symm.trans hswitch)⟩
      · simp only [hmode, Mode.pending, Option.some.injEq] at hp
        rw [← hp, hdeparted.outgoing] at hout
        rw [← hp, hdeparted.encoded]
        simp [switchOut, hout]
    · rw [hcpusOther hb]
      exact h.settled_of_others (fun i hi => hforeign hb hi.has) (by simp [hdeparted.handoff])
        fun b i hi => .inl (hdeparted.handoff ▸ hi)
  · by_cases hin : next = some i
    · refine ⟨cpu, ?_⟩
      rw [hcpus, update_self, hcurrent, hin]
    by_cases hold : (s.cpus cpu).currentTask = some i
    · rcases hdeparted.status hold with ⟨_, hstatus, _⟩ | ⟨hnot, hstatus, _⟩
      · simp [hstatus] at hi
      · exact absurd (hstatus ▸ hi) hnot
    rw [hothers hin hold] at hi
    obtain ⟨b, hb⟩ := h.running hi
    refine ⟨b, ?_⟩
    rw [hcpusOther]
    · exact hb
    · rintro rfl
      exact hold hb
  · rw [hdeparted.handoff] at hi
    exact hswitching (h.handed hi)
  · rw [hdeparted.handoff]
    exact h.handedOnce
  · by_cases hold : (s.cpus cpu).currentTask = some i
    · rcases hdeparted.status hold with ⟨_, _, hencoded⟩ | ⟨_, hstatus, _⟩
      · refine .inl ⟨cpu, pending, ?_, hencoded⟩
        rw [hcpus, update_self, hmode]
        rfl
      · rw [hstatus] at hi
        exact absurd hi ((h.settled cpu).fits hold).not_switching.1
    have hin : next ≠ some i := by
      intro hin
      simp [(hnext i hin).2.2] at hi
    rw [hothers hin hold] at hi
    rw [hdeparted.handoff]
    apply (h.switching hi).imp_left
    rintro ⟨b, p, hp, hencoded⟩
    refine ⟨b, p, ?_, hencoded⟩
    rw [hcpusOther]
    · exact hp
    · rintro rfl
      simp [hpending] at hp
  · by_cases hin : next = some i
    · simp [(hnext i hin).2.2] at hclaimed
    by_cases hold : (s.cpus cpu).currentTask = some i
    · rcases hdeparted.status hold with ⟨_, hstatus, _⟩ | ⟨_, hstatus, _⟩
      · simp [hstatus] at hclaimed
      · exact h.unclaimed (hstatus ▸ hclaimed)
    · exact h.unclaimed (hothers hin hold ▸ hclaimed)

theorem Switched.statusOf (h : Switched cpu rsp pending s s') (i : Nat) :
    s'.statusOf i = s.statusOf i := by
  by_cases hi : pending.outgoing = some i
  · exact statusOf_map (h.left i hi) fun _ => rfl
  · exact statusOf_congr (h.others i hi)

theorem Seated.switched (h : s.Seated) (howned : s.Owned)
    (hmode : (s.cpus cpu).mode = .switching pending) (hrsp : rsp ≠ 0)
    (hswitched : Switched cpu rsp pending s s') : s'.Seated := by
  obtain ⟨c, hcpus, hcurrent, hidleStack, hrunning, _⟩ := hswitched.cpus
  have hp : (s.cpus cpu).mode.pending = some pending := by
    rw [hmode]
    rfl
  have hcpusOther : ∀ {b}, b ≠ cpu → s'.cpus b = s.cpus b := by
    intro b hb
    rw [hcpus, update_of_ne hb]
  have hstatus := hswitched.statusOf
  have htask : ∀ b, (s'.cpus b).currentTask = (s.cpus b).currentTask := by
    intro b
    by_cases hb : b = cpu
    · rw [hb, hcpus, update_self, hcurrent]
    · rw [hcpusOther hb]
  -- the word says which task was left
  have hword : ∀ {i}, pending.encoded = i + 1 → pending.outgoing = some i
      ∧ s.statusOf i = .switchingOut ∧ ∀ b, s.handoff b ≠ i + 1 := by
    intro i hi
    cases hout : pending.outgoing with
    | none =>
      have := (h.settled cpu).alone hp hout
      omega
    | some j =>
      rcases (h.settled cpu).going hp hout with ⟨hencoded, hleft⟩ | ⟨hzero, _⟩
      · have hij : j = i := by omega
        rw [hij] at hleft ⊢
        exact ⟨rfl, hleft⟩
      · omega
  have hhandoff : ∀ {b i}, s'.handoff b = i + 1 ↔ s.handoff b = i + 1
      ∨ (b = cpu ∧ pending.encoded = i + 1) := by
    intro b i
    rw [hswitched.handoff]
    have hzero := ((h.settled cpu).coming hp).2
    by_cases hencoded : pending.encoded = 0
    · simp [hencoded]
    · by_cases hb : b = cpu
      · simp [hencoded, hb, hzero]
      · simp [hencoded, hb]
  refine ⟨fun b => ?_, fun {i} hi => ?_, fun {b i} hi => ?_, fun {a b i} ha hb => ?_,
    fun {i} hi => ?_, fun {i} => ?_⟩
  · by_cases hb : b = cpu
    · have hsettled := h.settled cpu
      rw [hb, hcpus, update_self]
      refine Cpu.settled_of_pending ?_ ?_ (fun {i} hi => ?_) ?_ ?_
      · simp [hrunning, Mode.pending]
      · rw [hcurrent]
        exact hsettled.bounded
      · rw [hcurrent] at hi
        have hfits := hsettled.fits hi
        rw [hmode] at hfits
        rw [hrunning]
        exact (hstatus i).trans hfits
      · simp [hrunning]
      rw [hcurrent, hidleStack]
      intro hsome
      split
      · exact hrsp
      rename_i hout
      rcases hsettled.idle hsome with hidle | ⟨_, hnone⟩
      · exact hidle
      · simp [Mode.outgoing, hp, hout] at hnone
    · rw [hcpusOther hb]
      apply h.settled_of_others (fun i _ => hstatus i)
      · rw [hswitched.handoff]
        split
        · exact id
        · rw [update_of_ne hb]
          exact id
      · intro b' i hi
        rcases hhandoff.mp hi with hbefore | ⟨_, hencoded⟩
        · exact .inl hbefore
        · have hout := outgoing_of_pending hp (hword hencoded).1
          exact .inr fun hminds => howned.not_has (.inr (.inl hout)) hb hminds.has
  · rw [hstatus] at hi
    obtain ⟨b, hb⟩ := h.running hi
    exact ⟨b, (htask b).trans hb⟩
  · rw [hstatus]
    rcases hhandoff.mp hi with hbefore | ⟨_, hencoded⟩
    · exact h.handed hbefore
    · exact (hword hencoded).2.1
  · rcases hhandoff.mp ha with ha | ⟨ha, hencoded⟩ <;> rcases hhandoff.mp hb with hb | ⟨hb,
      hencoded'⟩
    · exact h.handedOnce ha hb
    · exact absurd ha ((hword hencoded').2.2 a)
    · exact absurd hb ((hword hencoded).2.2 b)
    · exact ha.trans hb.symm
  · rw [hstatus] at hi
    rcases h.switching hi with ⟨b, p, hpb, hencoded⟩ | ⟨b, hb⟩
    · by_cases hbc : b = cpu
      · rw [hbc, hp] at hpb
        cases hpb
        exact .inr ⟨cpu, hhandoff.mpr (.inr ⟨rfl, hencoded⟩)⟩
      · refine .inl ⟨b, p, ?_, hencoded⟩
        rw [hcpusOther hbc]
        exact hpb
    · exact .inr ⟨b, hhandoff.mpr (.inl hb)⟩
  · rw [hstatus]
    exact h.unclaimed

theorem Seated.current_ne (h : s.Seated) (howned : s.Owned) (hleft : s.published index = false)
    (cpu : Nat) : (s.cpus cpu).currentTask ≠ some index := by
  intro hcurrent
  have hpublished : s.published index = true := by
    apply published_eq_true.mpr
    exact ⟨cpu, (h.settled cpu).bounded (by simp [hcurrent]), (howned.current cpu).trans hcurrent⟩
  rw [hleft] at hpublished
  cases hpublished

theorem blocked_of_due {now : Nat} (hdue : due now task = true) :
    task.status = .waiting ∨ task.status = .sleeping := by
  unfold due at hdue
  simp only [Bool.and_eq_true, Bool.or_eq_true, decide_eq_true_eq] at hdue
  rcases hdue.1 with hsleeping | hwaiting
  · exact .inr hsleeping
  · exact .inl hwaiting.1

theorem Seated.wake {reset : Task → Task} {place : Task → Nat} (h : s.Seated) (howned : s.Owned)
    (htask : s.tasks[index]? = some task)
    (hblocked : task.status = .waiting ∨ task.status = .sleeping) :
    (s.wake reset place index).Seated := by
  have hstatus := statusOf_of_getElem? htask
  have hbefore : s.statusOf index ≠ .switchingOut := by
    rw [hstatus]
    rcases hblocked with hs | hs <;> simp [hs]
  rcases wake_cases reset place htask with ⟨hpublished, hwake⟩ | ⟨hleft, hwake⟩
  · rw [hwake]
    have hafter : (s.update index fun t => { reset t with status := .running }).statusOf index
        = .running := statusOf_of_getElem? (getElem?_update_self htask)
    obtain ⟨b, _, hb⟩ := published_eq_true.mp hpublished
    rw [howned.current b] at hb
    refine h.status index rfl rfl (fun i hi => statusOf_congr (getElem?_update_of_ne hi)) hbefore
      (by simp [hafter]) (fun cpu hcurrent => ?_) fun _ => ⟨⟨b, hb⟩, fun cpu hout => ?_⟩
    · rw [hafter]
      refine ((h.settled cpu).fits hcurrent).wake ?_
      rw [hstatus]
      exact hblocked
    · have hsame : cpu = b := howned.exclusive.unique (.inr (.inl hout)) (.inl hb)
      rw [hsame] at hout
      exact (howned.ordered b).leaving index hout hb
  · rw [hwake]
    have hafter : ((s.update index fun t => { reset t with status := .ready }).enqueue
        (min (place task) 63) index).statusOf index = .ready := statusOf_of_getElem?
        (getElem?_update_self htask)
    refine h.status index rfl rfl (fun i hi => statusOf_congr (getElem?_update_of_ne hi)) hbefore
      (by simp [hafter]) (fun cpu hcurrent => ?_) fun hrun => ?_
    · exact absurd hcurrent (h.current_ne howned hleft cpu)
    · simp [hafter] at hrun

theorem Seated.takeHandoff (h : s.Seated) (cpu : Nat) : (s.takeHandoff cpu).Seated := by
  unfold State.takeHandoff
  by_cases hzero : s.handoff cpu = 0
  · have hsame : Function.update s.handoff cpu 0 = s.handoff := by
      rw [← hzero, update_eq_self]
    simp only [hzero, hsame, ne_eq, not_true_eq_false, false_and, if_false]
    exact h
  obtain ⟨k, hk⟩ : ∃ k, s.handoff cpu = k + 1 := ⟨s.handoff cpu - 1, by omega⟩
  have hswitching := h.handed hk
  have hzombie : s.statusOf k ≠ .zombie := by simp [hswitching]
  obtain ⟨task, htask, _⟩ := exists_of_statusOf hzombie
  have hlt := (List.getElem?_eq_some_iff.mp htask).1
  have hgo : s.handoff cpu ≠ 0 ∧ s.handoff cpu ≤ s.tasks.length
      ∧ ({ s with handoff := Function.update s.handoff cpu 0 } : State).statusOf (s.handoff cpu - 1)
      = .switchingOut := by
    refine ⟨hzero, by omega, ?_⟩
    rw [hk]
    exact hswitching
  rw [if_pos hgo]
  simp only [hk, Nat.add_sub_cancel]
  generalize hs' : ((({ s with handoff := Function.update s.handoff cpu 0 } : State).update k
    fun t => { t with status := .ready, affinity := cpu }).enqueue cpu k) = s'
  have hcpus : s'.cpus = s.cpus := by rw [← hs']; rfl
  have hhandoff : s'.handoff = Function.update s.handoff cpu 0 := by rw [← hs']; rfl
  have hready : s'.statusOf k = .ready := by
    rw [← hs']
    exact statusOf_of_getElem? (getElem?_update_self htask)
  have hothers : ∀ i, i ≠ k → s'.statusOf i = s.statusOf i := by
    intro i hi
    rw [← hs']
    exact statusOf_congr (getElem?_update_of_ne hi)
  have hwords : ∀ {b i}, s'.handoff b = i + 1 → s.handoff b = i + 1 ∧ i ≠ k := by
    intro b i hb
    rw [hhandoff] at hb
    by_cases hbc : b = cpu
    · simp [hbc] at hb
    rw [update_of_ne hbc] at hb
    refine ⟨hb, ?_⟩
    rintro rfl
    exact hbc (h.handedOnce hb hk)
  have hminds : ∀ b, ¬ (s.cpus b).Minds k := by
    intro b hminds
    rcases hminds with hcurrent | hout
    · exact ((h.settled b).fits hcurrent).not_switching.1 hswitching
    obtain ⟨p, hp, hleft⟩ := Option.bind_eq_some_iff.mp hout
    rcases (h.settled b).going hp hleft with ⟨_, _, hnone⟩ | ⟨_, _, hnot⟩
    · exact hnone cpu hk
    · exact hnot hswitching
  refine ⟨fun b => ?_, fun {i} hi => ?_, fun {b i} hi => ?_, fun {a b i} ha hb => ?_,
    fun {i} hi => ?_, fun {i} => ?_⟩
  · rw [hcpus]
    refine h.settled_of_others (fun i hi => hothers i ?_) (fun hb => ?_) fun b i hi =>
      .inl (hwords hi).1
    · rintro rfl
      exact hminds b hi
    rw [hhandoff]
    by_cases hbc : b = cpu
    · rw [hbc, update_self]
    · rw [update_of_ne hbc]
      exact hb
  · rw [hcpus]
    by_cases hik : i = k
    · rw [hik, hready] at hi
      cases hi
    · rw [hothers i hik] at hi
      exact h.running hi
  · obtain ⟨hbefore, hik⟩ := hwords hi
    rw [hothers i hik]
    exact h.handed hbefore
  · exact h.handedOnce (hwords ha).1 (hwords hb).1
  · have hik : i ≠ k := by
      rintro rfl
      simp [hready] at hi
    rw [hothers i hik] at hi
    unfold Leaving
    rw [hcpus]
    refine (h.switching hi).imp_right fun ⟨b, hb⟩ => ⟨b, ?_⟩
    rw [hhandoff, update_of_ne]
    · exact hb
    · rintro rfl
      exact hik (by omega)
  · by_cases hik : i = k
    · rw [hik, hready]
      simp
    · rw [hothers i hik]
      exact h.unclaimed

theorem Seated.addTask (h : s.Seated) (hhomed : s.Homed) (hready : task.status = .ready) :
    (s.addTask cpu task).Seated := by
  have hbefore : s.statusOf s.tasks.length = .zombie := by simp [statusOf]
  have hafter : (s.addTask cpu task).statusOf s.tasks.length = .ready :=
    (statusOf_of_getElem? (getElem?_addTask_self cpu task s)).trans hready
  refine h.status s.tasks.length rfl rfl (fun i hi => statusOf_congr (getElem?_addTask_of_ne hi))
    (by simp [hbefore]) (by simp [hafter]) (fun b hcurrent => ?_) fun hrun => ?_
  · have hlocated : s.Located b s.tasks.length := .inr (.inr (.inl hcurrent))
    have hlt := hhomed.known hlocated
    omega
  · simp [hafter] at hrun

theorem Seated.release {slot : Nat} (h : s.Seated) : (s.release index slot task).Seated :=
  h.congr (statusOf_release index slot task s) rfl rfl

theorem Owned.exists_current (h : s.Owned) (hcurrent : (s.cpus cpu).currentTask = some index) :
    ∃ task, s.tasks[index]? = some task := by
  have hon := h.onCpu_current hcurrent
  unfold onCpu at hon
  cases htask : s.tasks[index]? with
  | none => simp [htask] at hon
  | some task => exact ⟨task, rfl⟩

theorem Seated.block {final : Bool} (h : s.Seated) (howned : s.Owned)
    (hcurrent : (s.cpus cpu).currentTask = some index) (hidle : (s.cpus cpu).mode.pending = none)
    (hfits : ∀ t, (Mode.blocking final).Fits (f t).status ∧ (f t).status ≠ .running) :
    (s.block cpu final f).Seated := by
  have hsettled := h.settled cpu
  have hsome : (s.cpus cpu).currentTask ≠ none := by simp [hcurrent]
  obtain ⟨task, htask⟩ := howned.exists_current hcurrent
  unfold State.block
  rw [hcurrent]
  have hafter : ((s.update index f).updateCpu cpu fun c =>
      { c with mode := .blocking final }).statusOf index = (f task).status :=
    statusOf_of_getElem? (getElem?_update_self htask)
  have hstatus := (hfits task).1.not_switching
  refine h.own howned hcurrent hidle (fun i hi => statusOf_congr (getElem?_update_of_ne hi)) rfl ?_
    rfl (Cpu.settled_of_pending rfl hsettled.bounded (fun {i} hi => ?_) (fun _ => hsome) fun _ =>
      ?_)
  · rw [hafter]
    refine ⟨hstatus.1, ?_, (hfits task).2⟩
    intro hclaimed
    have := (hfits task).1
    cases final <;> simp [hclaimed, Mode.Fits] at this
  · have hi : index = i := by simpa [hcurrent] using hi
    rw [← hi, hafter]
    exact (hfits task).1
  · rcases hsettled.idle hsome with hidle' | ⟨hpending, _⟩
    · exact hidle'
    · exact absurd hidle hpending

theorem mode_of_isRunning (h : isRunning mode = true) : mode = .running := by
  cases mode with
  | running => rfl
  | exiting | blocking | preparing | switching | halted => cases h

theorem mode_of_isExiting (h : isExiting mode = true) : mode = .exiting := by
  cases mode with
  | exiting => rfl
  | running | blocking | preparing | switching | halted => cases h

theorem Seated.setMode (h : s.Seated) (hidle : (s.cpus cpu).mode.pending = none)
    (hstatus : ∀ i, s'.statusOf i = s.statusOf i) (hhandoff : s'.handoff = s.handoff)
    (hcpus : s'.cpus = Function.update s.cpus cpu { s.cpus cpu with mode := mode })
    (hpending : mode.pending = none)
    (hfits : ∀ i, (s.cpus cpu).currentTask = some i → mode.Fits (s.statusOf i))
    (hmanned : mode = .exiting ∨ mode = .blocking true → (s.cpus cpu).currentTask ≠ none) :
    s'.Seated := by
  have hsettled := h.settled cpu
  refine h.ofCpu hstatus hhandoff hcpus rfl (hpending.trans hidle.symm)
    (Cpu.settled_of_pending hpending hsettled.bounded (fun {i} hi => hfits i hi) hmanned
    fun hsome => ?_)
  rcases hsettled.idle hsome with hidle' | ⟨hswitch, _⟩
  · exact hidle'
  · exact absurd hidle hswitch

theorem Seated.stay {queues : Nat → List Nat} (h : s.Seated) (hat : s.At cpu maySchedule)
    (hstay : ∀ current, (s.cpus cpu).currentTask = some current → (s.cpus cpu).idleStack = 0
      ∨ (s.statusOf current ≠ .zombie ∧ s.statusOf current ≠ .sleeping
      ∧ s.statusOf current ≠ .waiting)) :
    (({ s with queues := queues } : State).resume cpu).Seated := by
  have hsettled := h.settled cpu
  have hidle := pending_of_maySchedule hat.2
  have hrunning : ∀ i, (s.cpus cpu).currentTask = some i → s.statusOf i = .running
      ∧ (s.cpus cpu).mode ≠ .blocking true := by
    intro i hi
    have hsome : (s.cpus cpu).currentTask ≠ none := by simp [hi]
    have hstack : (s.cpus cpu).idleStack ≠ 0 := by
      rcases hsettled.idle hsome with hstack | ⟨hswitch, _⟩
      · exact hstack
      · exact absurd hidle hswitch
    obtain ⟨hzombie, hsleeping, hwaiting⟩ := (hstay i hi).resolve_left hstack
    have hfits := hsettled.fits hi
    have hmode := hat.2
    cases hm : (s.cpus cpu).mode with
    | running =>
      rw [hm] at hfits
      exact ⟨hfits, by simp⟩
    | blocking final =>
      rw [hm] at hfits
      cases final with
      | true => exact absurd hfits hzombie
      | false =>
        rcases hfits with hs | hs | hs
        · exact ⟨hs, by simp⟩
        · exact absurd hs hwaiting
        · exact absurd hs hsleeping
    | exiting | preparing | switching | halted => simp [hm, maySchedule] at hmode
  have hreturned : (s.cpus cpu).mode.returned = .running := by
    unfold Mode.returned
    split
    · rename_i hm
      have hsome := hsettled.manned (.inr hm)
      obtain ⟨i, hi⟩ := Option.ne_none_iff_exists'.mp hsome
      exact absurd hm (hrunning i hi).2
    · rfl
  have hcpus : (({ s with queues := queues } : State).resume cpu).cpus
      = Function.update s.cpus cpu { s.cpus cpu with mode := .running } := by
    rw [← hreturned]
    rfl
  exact h.setMode hidle (fun _ => rfl) rfl hcpus rfl (fun i hi => (hrunning i hi).1) (by simp)

theorem Seated.enterIdle (h : s.Seated) (hat : s.At cpu isRunning)
    (hcurrent : (s.cpus cpu).currentTask = none) : (s.enterIdle cpu).Seated := by
  unfold State.enterIdle
  rw [hcurrent]
  refine h.ofCpu (fun _ => rfl) rfl rfl hcurrent.symm rfl ?_
  refine Cpu.settled_of_pending (pending_of_isRunning hat.2) (by simp) (by simp) ?_ (by simp)
  simp [mode_of_isRunning hat.2]

theorem Seated.move (h : s.Seated) (howned : s.Owned) (hhomed : s.Homed)
    (hmove : Move action s s') : s'.Seated := by
  cases hmove with
  | clerical hsame =>
    exact h.congr (fun i => statusOf_congr (by rw [hsame.tasks])) hsame.handoff hsame.cpus
  | record hsame =>
    obtain ⟨htask, hstack, hmode, _⟩ := hsame
    exact h.ofCpu (fun _ => rfl) rfl rfl htask (by rw [hmode])
      ((h.settled _).transfer htask hstack (by rw [hmode]) (by simp [hmode]) (by simp [hmode]))
  | create hnew =>
    have hcounted : ({ s with nextId := (s.nextId + 1) % 2 ^ 64 } : State).Seated :=
      h.congr (fun _ => rfl) rfl rfl
    exact hcounted.addTask (hhomed.sameTasks rfl fun _ _ hi => .inl hi) hnew.status
  | wakeDue now _ htask hdue =>
    exact h.wake howned htask (blocked_of_due hdue)
  | reclaim hmaintains htask hzombie hbottom hleft hslot hretired =>
    rename_i index slot task
    have hreleased : (s.release index slot task).Owned :=
      (kept_release index slot task s).owned howned
    have hwoken : ((s.release index slot task).wakeAll wakeWaiter task.id).Owned
        ∧ ((s.release index slot task).wakeAll wakeWaiter task.id).Seated := by
      refine wakeAll_preserve (I := fun s => s.Owned ∧ s.Seated) (fun s i hwaits ⟨howned, h⟩ => ?_)
        ⟨hreleased, h.release⟩
      obtain ⟨task, htask, hwaiting, _⟩ := waitsFor_iff.mp hwaits
      exact ⟨(kept_wakeWaiter i s).owned howned, h.wake howned htask (.inl hwaiting)⟩
    exact hwoken.2
  | count =>
    rw [countEvent_frame]
    exact h.congr (fun _ => rfl) rfl rfl
  | forget => exact h.congr (fun _ => rfl) rfl rfl
  | wakeBlocked hwaits =>
    obtain ⟨task, htask, hwaiting, _⟩ := waitsFor_iff.mp hwaits
    exact h.wake howned htask (.inl hwaiting)
  | handoff => exact h.takeHandoff _
  | stay hat _ hstay => exact h.stay hat hstay
  | idle hat hhandoff _ _ _ _ hdeparted =>
    exact h.departed howned hat hhandoff hdeparted (by simp)
  | dispatch hat hhandoff hclaimed hdeparted hentered =>
    refine h.departed howned hat hhandoff hdeparted fun i hi => ?_
    cases hi
    exact ⟨(statusOf_of_getElem? hclaimed.found).trans hclaimed.ready,
      (onCpu_of_getElem? hclaimed.found).trans hclaimed.free, statusOf_of_getElem? hentered⟩
  | bounce hfound hqueue hpinned hother =>
    exact absurd (hhomed.own hfound hpinned hqueue) hother
  | prepare hmode =>
    rename_i cpu pending
    have hpending : (Mode.switching pending).pending = (s.cpus cpu).mode.pending := by
      rw [hmode]
      rfl
    unfold State.prepare
    rw [hmode]
    refine h.ofCpu (fun _ => rfl) rfl rfl rfl hpending
      ((h.settled cpu).transfer rfl rfl hpending (fun status hfits => ?_) (by simp))
    rw [hmode] at hfits
    exact hfits
  | switchStack hmode hrsp hswitched => exact h.switched howned hmode hrsp hswitched
  | dropFiles hat hcurrent =>
    rename_i cpu current
    refine h.setMode (pending_of_isRunning hat.2) (fun i => ?_) rfl rfl rfl (fun i hi => ?_)
      fun _ => by simp [hcurrent]
    · exact statusOf_dropFiles current s i
    · have hrunning := (h.settled cpu).fits hi
      rw [mode_of_isRunning hat.2] at hrunning
      exact hrunning
  | halt hat hcurrent =>
    exact h.setMode (pending_of_isRunning hat.2) (fun _ => rfl) rfl rfl rfl (by simp [hcurrent])
      (by simp)
  | exit hat =>
    rename_i cpu code
    have hmode := mode_of_isExiting hat.2
    obtain ⟨i, hi⟩ := Option.ne_none_iff_exists'.mp ((h.settled cpu).manned (.inl hmode))
    exact h.block howned hi (by simp [hmode, Mode.pending]) (by simp [Mode.Fits])
  | waitTask hat hcurrent =>
    exact h.block howned hcurrent (pending_of_isRunning hat.2) (by simp [Mode.Fits])
  | waitEvent hat hcurrent =>
    exact h.block howned hcurrent (pending_of_isRunning hat.2) (by simp [Mode.Fits])
  | sleep hat hcurrent =>
    exact h.block howned hcurrent (pending_of_isRunning hat.2) (by simp [Mode.Fits])
  | yield hat =>
    refine h.setMode (pending_of_isRunning hat.2) (fun _ => rfl) rfl rfl rfl (fun i hi => ?_)
      (by simp)
    have hrunning := (h.settled _).fits hi
    rw [mode_of_isRunning hat.2] at hrunning
    exact .inl hrunning
  | enterIdle hat hcurrent => exact h.enterIdle hat hcurrent

end State

end Kaguya.Scheduler
