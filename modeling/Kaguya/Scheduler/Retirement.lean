import Kaguya.Scheduler.Ledger

/-!
# Retired stacks

A task exits on the stack that is to be freed. The context switch away from it puts the address of
the stack into a slot, and `maintenance` frees a stack when it finds the address of it in a slot.
What is in a slot belongs to a task that has exited and that no processor holds any more.
-/

namespace Kaguya.Scheduler

open Function

namespace State

variable {s s' : State} {action : Action} {cpu index : Nat} {task : Task} {pending : Switch}

theorem retired_release (slot : Nat)
    (hwoken : s' = (s.release index slot task).wakeAll wakeWaiter task.id) :
    s'.retired = Function.update s.retired slot 0 := by
  rw [hwoken]
  exact (sameWords_wakeAll _ _).retired

theorem freed_release (slot : Nat)
    (hwoken : s' = (s.release index slot task).wakeAll wakeWaiter task.id) :
    s'.freed = s.freed ++ [task.kernelBottom] := by
  rw [hwoken]
  exact (sameWords_wakeAll _ _).freed

theorem retire_cases (bottom : Nat) (s : State) :
    (s.retire bottom).retired = s.retired ∧ (bottom = 0 ∨ ∀ slot < 64, s.retired slot ≠ 0)
    ∨ bottom ≠ 0 ∧ ∃ slot < 64, s.retired slot = 0 ∧ (s.retire bottom).retired = Function.update
      s.retired slot bottom := by
  unfold retire
  split
  · rename_i hzero
    exact .inl ⟨rfl, .inl hzero⟩
  rename_i hbottom
  cases hslot : (List.range 64).find? fun slot => s.retired slot == 0 with
  | none =>
    refine .inl ⟨rfl, .inr fun slot hlt => ?_⟩
    simpa using List.find?_eq_none.mp hslot slot (List.mem_range.mpr hlt)
  | some slot =>
    have hlt := List.mem_range.mp (List.mem_of_find?_eq_some hslot)
    exact .inr ⟨hbottom, slot, hlt, by simpa using List.find?_some hslot, rfl⟩

variable {slot : Nat} {actions : List Action}

theorem retired_move (hhomed : s.Homed) (hmove : Move action s s') (hslot : s'.retired slot ≠ 0) :
    s'.retired slot = s.retired slot
    ∨ slot < 64 ∧ ∃ cpu rsp pending, action = .switchStack cpu rsp
      ∧ (s.cpus cpu).mode = .switching pending
      ∧ Switched cpu rsp pending s s' ∧ pending.bottom ≠ 0 ∧ s'.retired slot = pending.bottom
      ∧ s'.retired = Function.update s.retired slot pending.bottom := by
  cases hhomed.words hmove with
  | same hsame => exact .inl (by rw [hsame.retired])
  | given _ _ hretired => exact .inl (by rw [hretired])
  | counted _ hcounted => exact .inl (by rw [hcounted, countEvent_frame])
  | forgotten _ hforgotten => exact .inl (by rw [hforgotten]; rfl)
  | released htask hzombie hbottom hretired hwoken =>
    rename_i index slot0 task
    rw [retired_release slot0 hwoken] at hslot ⊢
    by_cases heq : slot = slot0
    · rw [heq, update_self] at hslot
      exact absurd rfl hslot
    · exact .inl (update_of_ne heq _ _)
  | switched haction hbefore hswitched =>
    rename_i cpu rsp pending
    have hretired := hswitched.retired
    rcases retire_cases pending.bottom s with ⟨hsame, _⟩ | ⟨hbottom, slot0, hlt, _, hfilled⟩
    · exact .inl (by rw [hretired, hsame])
    rw [hfilled] at hretired
    by_cases heq : slot = slot0
    · refine .inr ⟨heq ▸ hlt, cpu, rsp, pending, haction, hbefore, hswitched, hbottom, ?_, ?_⟩
      · rw [hretired, heq, update_self]
      · rw [hretired, heq]
    · exact .inl (by rw [hretired, update_of_ne heq])

def Separate (s : State) : Prop :=
  ∀ (i j : Nat) (t u : Task), s.tasks[i]? = some t → s.tasks[j]? = some u → t.kernelBottom ≠ 0 →
    t.kernelBottom = u.kernelBottom → i = j

def bottomOf (outgoing : Option Nat) (s : State) : Nat :=
  match outgoing.bind fun i => s.tasks[i]? with
  | some task => if task.status = .zombie then task.kernelBottom else 0
  | none => 0

theorem retiring_eq (cpu : Nat) (s : State) :
    s.retiring cpu = s.bottomOf (s.cpus cpu).currentTask := by
  unfold retiring bottomOf
  cases (s.cpus cpu).currentTask with
  | none => rfl
  | some current =>
    cases htask : s.tasks[current]? with
    | none => simp only [Option.bind_some, htask]
    | some => simp only [Option.bind_some, htask]

/-- A slot holds the stack of a task that has exited and that no processor holds, no stack is in two
slots, and the switches that are decided on say which stack can be freed. -/
structure Acknowledged (s : State) : Prop where
  slots : ∀ slot, s.retired slot ≠ 0 → ∃ (i : Nat) (t : Task), s.tasks[i]? = some t
    ∧ t.status = .zombie ∧ t.kernelBottom = s.retired slot ∧ t.onCpu = false
  unique : ∀ a b, s.retired a ≠ 0 → s.retired a = s.retired b → a = b
  pending : ∀ cpu p, (s.cpus cpu).mode.pending = some p → p.bottom = s.bottomOf p.outgoing

theorem Acknowledged.not_held (h : s.Acknowledged) (hsep : s.Separate)
    (htask : s.tasks[index]? = some task) (hbottom : task.kernelBottom ≠ 0)
    (hslot : s.retired slot = task.kernelBottom) : task.onCpu = false := by
  have hfull : s.retired slot ≠ 0 := by
    rw [hslot]
    exact hbottom
  obtain ⟨i, t, ht, _, hsame, hoff⟩ := h.slots slot hfull
  have hi : index = i := hsep index i task t htask ht hbottom (by rw [hsame, hslot])
  rw [← hi, htask] at ht
  cases ht
  exact hoff

variable {p : Switch} {I : State → Prop}

theorem outgoing_has (hpending : (s.cpus cpu).mode.pending = some p)
    (hout : p.outgoing = some index) : (s.cpus cpu).Has index := by
  refine .inr (.inl ?_)
  unfold Mode.outgoing
  rw [hpending]
  exact hout

theorem Acknowledged.bottomOf_move (h : s.Acknowledged) (hs : s.Consistent) (hsep : s.Separate)
    (hmove : Move action s s') (hpending : (s.cpus cpu).mode.pending = some p) :
    s'.bottomOf p.outgoing = s.bottomOf p.outgoing := by
  cases hout : p.outgoing with
  | none => rfl
  | some i =>
    have hhas := outgoing_has hpending hout
    have hon : s.onCpu i = true := hs.owned.exclusive.taken_of_holds (a := cpu) hhas
    cases ht : s.tasks[i]? with
    | none => simp [onCpu, ht] at hon
    | some t =>
      rw [onCpu_of_getElem? ht] at hon
      obtain ⟨t', ht', hchange⟩ := hs.seated.change hs.homed hmove ht
      unfold bottomOf
      simp only [Option.bind_some, ht, ht']
      by_cases hzombie : t.status = .zombie
      · obtain ⟨hzombie', _, _, hbottom'⟩ := hchange.of_zombie hzombie
        rcases hbottom' with hsame | ⟨_, hbottom, slot, hslot, _⟩
        · rw [if_pos hzombie, if_pos hzombie', hsame]
        · rw [h.not_held hsep ht hbottom hslot] at hon
          cases hon
      have halive : t'.status ≠ .zombie := by
        intro hzombie'
        rcases hchange.zombie_of hzombie' with hbefore | ⟨b, code, _, hcurrent⟩
        · exact hzombie hbefore
        have hb : b = cpu := hs.owned.exclusive.unique (.inl hcurrent) hhas
        rw [hb] at hcurrent
        refine (hs.owned.ordered cpu).leaving i ?_ hcurrent
        unfold Mode.outgoing
        rw [hpending]
        exact hout
      rw [if_neg hzombie, if_neg halive]

theorem Departed.bottomOf {next : Option Nat} (hdeparted : Departed cpu next pending s s') :
    s'.bottomOf pending.outgoing = s.bottomOf pending.outgoing := by
  rw [hdeparted.outgoing]
  unfold State.bottomOf
  cases hcurrent : (s.cpus cpu).currentTask with
  | none => rfl
  | some i =>
    simp only [Option.bind_some]
    rw [hdeparted.left i hcurrent]
    cases s.tasks[i]? with
    | none => rfl
    | some t =>
      by_cases hrunning : t.status = .running
      · simp [State.left, hrunning]
      · simp [State.left, hrunning]

theorem Acknowledged.pending_move (h : s.Acknowledged) (hs : s.Consistent) (hsep : s.Separate)
    (hmove : Move action s s') (cpu : Nat) (p : Switch) (hp : (s'.cpus cpu).mode.pending = some p) :
    p.bottom = s'.bottomOf p.outgoing := by
  have hkept : (s.cpus cpu).mode.pending = some p → p.bottom = s'.bottomOf p.outgoing := by
    intro hbefore
    rw [h.bottomOf_move hs hsep hmove hbefore]
    exact h.pending cpu p hbefore
  cases hs.homed.turn hmove cpu with
  | same hsame => exact hkept (by rw [← hsame.mode]; exact hp)
  | called _ hafter =>
    rw [hafter] at hp
    cases hp
  | departed _ hdeparted =>
    obtain ⟨c, hcpus, _, _, hmode, _⟩ := hdeparted.cpus
    rw [hcpus, update_self, hmode] at hp
    cases hp
    rw [hdeparted.bottomOf, hdeparted.bottom, hdeparted.outgoing, retiring_eq]
  | prepared _ hbefore hafter =>
    rw [hafter] at hp
    exact hkept (by rw [hbefore]; exact hp)
  | switched _ _ hswitched =>
    obtain ⟨c, hcpus, _, _, hmode, _⟩ := hswitched.cpus
    rw [hcpus, update_self, hmode] at hp
    cases hp
  | idled _ hbefore _ hmode =>
    rw [hmode, hbefore] at hp
    cases hp

theorem Acknowledged.outgoing (h : s.Acknowledged)
    (hbefore : (s.cpus cpu).mode = .switching pending) (hbottom : pending.bottom ≠ 0) :
    ∃ (i : Nat) (t : Task), pending.outgoing = some i ∧ s.tasks[i]? = some t ∧ t.status = .zombie
      ∧ t.kernelBottom = pending.bottom := by
  have heq := h.pending cpu pending (by rw [hbefore]; rfl)
  unfold bottomOf at heq
  cases hout : pending.outgoing with
  | none =>
    rw [hout] at heq
    exact absurd heq hbottom
  | some i =>
    rw [hout, Option.bind_some] at heq
    cases ht : s.tasks[i]? with
    | none =>
      rw [ht] at heq
      exact absurd heq hbottom
    | some t =>
      rw [ht] at heq
      dsimp only at heq
      by_cases hzombie : t.status = .zombie
      · rw [if_pos hzombie] at heq
        exact ⟨i, t, rfl, ht, hzombie, heq.symm⟩
      · rw [if_neg hzombie] at heq
        exact absurd heq hbottom

theorem Acknowledged.slot_move (h : s.Acknowledged) (hs : s.Consistent) (hmove : Move action s s')
    (hsame : s'.retired slot = s.retired slot) (hslot : s'.retired slot ≠ 0) :
    ∃ (i : Nat) (t : Task), s'.tasks[i]? = some t ∧ t.status = .zombie
      ∧ t.kernelBottom = s'.retired slot ∧ t.onCpu = false := by
  have hfull : s.retired slot ≠ 0 := by
    rw [← hsame]
    exact hslot
  obtain ⟨i, t, ht, hzombie, hbottom, hoff⟩ := h.slots slot hfull
  obtain ⟨t', ht', hchange⟩ := hs.seated.change hs.homed hmove ht
  obtain ⟨hzombie', hoff', _, hstack⟩ := hchange.of_zombie hzombie
  refine ⟨i, t', ht', hzombie', ?_, hoff' hoff⟩
  rcases hstack with hstack | ⟨_, _, slot1, hslot1, hwoken⟩
  · rw [hstack, hbottom, hsame]
  · have heq : slot = slot1 := h.unique slot slot1 hfull (by rw [hslot1, hbottom])
    rw [retired_release slot1 hwoken, heq, update_self] at hslot
    exact absurd rfl hslot

theorem Acknowledged.move (h : s.Acknowledged) (hs : s.Consistent) (hsep : s.Separate)
    (hmove : Move action s s') : s'.Acknowledged := by
  -- a slot that the switch fills has the stack of the task that it leaves
  have hfilled : ∀ {cpu rsp : Nat} {pending : Switch}, (s.cpus cpu).mode = .switching pending →
      Switched cpu rsp pending s s' → pending.bottom ≠ 0 →
      (∃ (i : Nat) (t : Task), s'.tasks[i]? = some t ∧ t.status = .zombie
      ∧ t.kernelBottom = pending.bottom ∧ t.onCpu = false)
      ∧ ∀ slot, s.retired slot ≠ pending.bottom := by
    intro cpu rsp pending hbefore hswitched hbottom
    obtain ⟨i, t, hout, ht, hzombie, hstack⟩ := h.outgoing hbefore hbottom
    constructor
    · refine ⟨i, { t with stack := rsp, onCpu := false }, ?_, hzombie, hstack, rfl⟩
      rw [hswitched.left i hout, ht, Option.map_some]
    intro slot hslot
    have hhas : (s.cpus cpu).Has i := outgoing_has (by rw [hbefore]; rfl) hout
    have hon : s.onCpu i = true := hs.owned.exclusive.taken_of_holds (a := cpu) hhas
    rw [onCpu_of_getElem? ht, h.not_held hsep ht (by rw [hstack]; exact hbottom)
      (by rw [hslot, hstack])] at hon
    cases hon
  constructor
  · intro slot hslot
    rcases retired_move hs.homed hmove hslot with hsame | ⟨_, cpu, rsp, pending, _, hbefore,
      hswitched, hbottom, hnew, _⟩
    · exact h.slot_move hs hmove hsame hslot
    · rw [hnew]
      exact (hfilled hbefore hswitched hbottom).1
  · intro a b ha hab
    have hb : s'.retired b ≠ 0 := by
      rw [← hab]
      exact ha
    rcases retired_move hs.homed hmove ha with hsame | ⟨_, cpu, rsp, pending, _, hbefore, hswitched,
      hbottom, hnew, hall⟩
    · rcases retired_move hs.homed hmove hb with hsame' | ⟨_, cpu, rsp, pending, _, hbefore,
        hswitched, hbottom, hnew', hall⟩
      · rw [hsame, hsame'] at hab
        rw [hsame] at ha
        exact h.unique a b ha hab
      by_contra hne
      have hold := (hfilled hbefore hswitched hbottom).2 a
      rw [← hsame, hab] at hold
      exact hold hnew'
    · by_contra hne
      have hold := (hfilled hbefore hswitched hbottom).2 b
      rw [hall, update_self, update_of_ne (Ne.symm hne)] at hab
      exact hold hab.symm
  · exact h.pending_move hs hsep hmove

theorem Separate.move (h : s.Separate) (hs : s.Consistent) (hmove : Move action s s')
    (hnone : action.bottom = none) : s'.Separate := by
  have hold : ∀ {i : Nat} {t : Task}, s'.tasks[i]? = some t → t.kernelBottom ≠ 0 →
      ∃ t0, s.tasks[i]? = some t0 ∧ t0.kernelBottom = t.kernelBottom := by
    intro i t ht hbottom
    rcases hs.origin hmove ht with ⟨t0, ht0, hchange⟩ | ⟨cpu, hnew⟩
    · rcases hchange.kernelBottom with ⟨hsame, _⟩ | ⟨hzero, _⟩
      · exact ⟨t0, ht0, hsame.symm⟩
      · exact absurd hzero hbottom
    · rw [hnew.bottom] at hnone
      cases hnone
  intro i j t u ht hu hbottom heq
  obtain ⟨t0, ht0, hsame⟩ := hold ht hbottom
  obtain ⟨u0, hu0, hsame'⟩ := hold hu (by rw [← heq]; exact hbottom)
  exact h i j t0 u0 ht0 hu0 (by rw [hsame]; exact hbottom) (by rw [hsame, hsame', heq])

section
variable (h : s.Acknowledged) (hs : s.Consistent) (hsep : s.Separate)
include h hs hsep

theorem Acknowledged.moves (hmoves : Moves action s s') (hnone : action.bottom = none)
    (hmove : ∀ s1 s2, s1.Consistent → s1.Separate → s1.Acknowledged → Move action s1 s2 → I s1 →
      I s2) (hI : I s) : s'.Separate ∧ s'.Acknowledged ∧ I s' := by
  have hmoved := hs.moves (I := fun s1 => s1.Separate ∧ s1.Acknowledged ∧ I s1) hmoves
    (fun s1 s2 hs1 hm ⟨hsep1, h1, hI1⟩ => ⟨hsep1.move hs1 hm hnone, h1.move hs1 hsep1 hm,
      hmove s1 s2 hs1 hsep1 h1 hm hI1⟩) ⟨hsep, h, hI⟩
  exact hmoved.2.2.2

theorem Acknowledged.preserve (action : Action)
    (hmove : ∀ s1 s2, s1.Consistent → s1.Separate → s1.Acknowledged → Move action s1 s2 → I s1 →
      I s2) (hI : I s) : (s.step action).Acknowledged ∧ I (s.step action) := by
  cases hcreate : action.bottom.isSome with
  | true =>
    have hstep := move_create hcreate s
    exact ⟨h.move hs hsep hstep, hmove _ _ hs hsep h hstep hI⟩
  | false =>
    have hnone : action.bottom = none := by simpa using hcreate
    exact (h.moves hs hsep (moves_step hs.owned action) hnone hmove hI).2

theorem Acknowledged.step (action : Action) : (s.step action).Acknowledged :=
  (h.preserve (I := fun _ => True) hs hsep action (fun _ _ _ _ _ _ _ => trivial) trivial).1

end

theorem acknowledged_start (kernelRoot : Nat) : (start kernelRoot).Acknowledged := by
  constructor
  · intro slot hslot
    exact absurd rfl hslot
  · intro a b ha
    exact absurd rfl ha
  · intro cpu p hp
    simp [Mode.pending] at hp

def Separated (s : State) : List Action → Prop
  | [] => s.Separate
  | action :: actions => s.Separate ∧ Separated (s.step action) actions

theorem Separated.head (h : s.Separated actions) : s.Separate := by
  cases actions with
  | nil => exact h
  | cons => exact h.1

theorem Separated.last (h : s.Separated actions) : (s.run actions).Separate := by
  induction actions generalizing s with
  | nil => exact h
  | cons _ _ ih => exact ih h.2

theorem Acknowledged.run (h : s.Acknowledged) (hs : s.Consistent) (hsep : s.Separated actions) :
    (s.run actions).Acknowledged := by
  induction actions generalizing s with
  | nil => exact h
  | cons action _ ih =>
    exact ih (h.step hs hsep.head action) (hs.step action) hsep.2

end State

end Kaguya.Scheduler
