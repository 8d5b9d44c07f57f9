import Kaguya.Scheduler.Joining
import Kaguya.Scheduler.Reclaiming

/-!
# The backlog of retired stacks

There are 64 slots for stacks that wait to be freed. A context switch that finds them all taken
drops the address, and then the stack is never freed and whoever waits for the task waits forever.
As long as every switch finds a slot, the next `maintenance` frees the stack of every task that has
exited and been left.
-/

namespace Kaguya.Scheduler

open Function List

namespace State

variable {s s' : State} {action : Action} {cpu index : Nat} {task task' : Task} {pending : Switch}

def Rides (s : State) : Prop := ∀ cpu, ∃ owner, (s.cpus cpu).Carries owner

theorem Rides.move (h : s.Rides) (hs : s.Consistent) (hmove : Move action s s') : s'.Rides := by
  intro cpu
  obtain ⟨owner, hcarries⟩ := h cpu
  rcases carries_move hs hmove hcarries with hsame | ⟨_, pending, hnew⟩
  · exact ⟨owner, hsame⟩
  · exact ⟨pending.incoming, hnew⟩

theorem Rides.has_move (h : s.Rides) (hs : s.Consistent) (hmove : Move action s s')
    (hhas : (s.cpus cpu).Has index) :
    (s'.cpus cpu).Has index ∨ ∃ rsp pending, action = .switchStack cpu rsp
      ∧ (s.cpus cpu).mode = .switching pending
      ∧ pending.outgoing = some index ∧ Switched cpu rsp pending s s' := by
  obtain ⟨owner, hcarries⟩ := h cpu
  have hnone : (s.cpus cpu).mode.pending = none → (s.cpus cpu).currentTask = some index := by
    intro hpending
    have hstack := ((Cpu.carries_of_pending hpending).mp hcarries).1
    rcases hhas with hcurrent | hout | hon
    · exact hcurrent
    · simp [Mode.outgoing, hpending] at hout
    · rw [← hstack]
      exact hon
  cases hs.homed.turn hmove cpu with
  | same hsame =>
    left
    unfold Cpu.Has
    rw [hsame.mode, hsame.currentTask, hsame.onStack]
    exact hhas
  | called hbefore _ htask => exact .inl (.inl (htask.trans (hnone hbefore)))
  | departed hbefore hdeparted =>
    obtain ⟨c, hcpus, _, _, hmode, _⟩ := hdeparted.cpus
    refine .inl (outgoing_has ?_ (hdeparted.outgoing.trans (hnone hbefore)))
    rw [hcpus, update_self, hmode]
    rfl
  | prepared _ hbefore hafter htask hstack =>
    left
    unfold Cpu.Has at hhas ⊢
    rw [htask, hstack, hafter]
    rw [hbefore] at hhas
    exact hhas
  | switched haction hbefore hswitched =>
    rename_i rsp pending
    obtain ⟨c, hcpus, htask, _⟩ := hswitched.cpus
    unfold Cpu.Carries at hcarries
    rw [hbefore] at hcarries
    rcases hhas with hcurrent | hout | hon
    · left
      left
      rw [hcpus, update_self, htask]
      exact hcurrent
    · rw [hbefore] at hout
      exact .inr ⟨rsp, pending, haction, hbefore, hout, hswitched⟩
    · rw [hcarries.1] at hon
      exact .inr ⟨rsp, pending, haction, hbefore, hon, hswitched⟩
  | idled _ hbefore hcurrent =>
    rw [hnone hbefore] at hcurrent
    cases hcurrent

def Room (s : State) : Action → Prop
  | .switchStack cpu _ => ∀ pending, (s.cpus cpu).mode = .switching pending → pending.bottom ≠ 0 →
      ∃ slot < 64, s.retired slot = 0
  | _ => True

def Noted (s : State) : Prop :=
  ∀ (i : Nat) (t : Task), s.tasks[i]? = some t → t.status = .zombie → t.kernelBottom ≠ 0 →
    (∃ cpu, (s.cpus cpu).Has i) ∨ ∃ slot < 64, s.retired slot = t.kernelBottom

theorem slot_kept {slot : Nat} (hs : s.Consistent) (hsep : s.Separate) (hmove : Move action s s')
    (htask : s.tasks[index]? = some task) (hbottom : task.kernelBottom ≠ 0)
    (hslot : s.retired slot = task.kernelBottom) (htask' : s'.tasks[index]? = some task')
    (hsame : task'.kernelBottom = task.kernelBottom) : s'.retired slot = task'.kernelBottom := by
  rw [hsame, ← hslot]
  cases hs.homed.words hmove with
  | same hwords => rw [hwords.retired]
  | given _ _ hretired => rw [hretired]
  | counted _ hcounted => rw [hcounted, countEvent_frame]
  | forgotten _ hforgotten =>
    rw [hforgotten]
    rfl
  | released hfound hzombie hstack hretired hwoken =>
    rename_i other slot0 freed
    by_cases hne : slot = slot0
    · exfalso
      have hi : index = other := by
        refine hsep index other task freed htask hfound hbottom ?_
        rw [← hslot, hne, hretired]
      have hafter := getElem?_released hfound hzombie hwoken
      rw [← hi, htask'] at hafter
      cases hafter
      exact hbottom hsame.symm
    · rw [retired_release slot0 hwoken, update_of_ne hne]
  | switched haction hbefore hswitched =>
    rename_i cpu rsp pending
    rw [hswitched.retired]
    rcases retire_cases pending.bottom s with ⟨hretired, _⟩ | ⟨_, slot0, _, hempty, hretired⟩
    · rw [hretired]
    have hne : slot ≠ slot0 := by
      rintro rfl
      rw [hempty] at hslot
      exact hbottom hslot.symm
    rw [hretired, update_of_ne hne]

theorem Noted.move (h : s.Noted) (hs : s.Consistent) (hsep : s.Separate) (hack : s.Acknowledged)
    (hrides : s.Rides) (hroom : s.Room action) (hmove : Move action s s') : s'.Noted := by
  intro i t' ht' hzombie' hbottom'
  rcases hs.origin hmove ht' with ⟨t, ht, hchange⟩ | ⟨cpu, hnew⟩
  · rcases hchange.kernelBottom with ⟨hsame, _⟩ | ⟨hzero, _⟩
    · have hbottom : t.kernelBottom ≠ 0 := by
        rw [← hsame]
        exact hbottom'
      -- whoever holds the task still does, or the switch has put its stack into a slot
      have hheld : ∀ cpu, (s.cpus cpu).Has i →
          (∃ cpu, (s'.cpus cpu).Has i) ∨ ∃ slot < 64, s'.retired slot = t'.kernelBottom := by
        intro cpu hhas
        rcases hrides.has_move hs hmove hhas with hstill | ⟨rsp, pending, haction, hbefore, hout,
          hswitched⟩
        · exact .inl ⟨cpu, hstill⟩
        right
        have hzombie : t.status = .zombie := by
          rcases hchange.zombie_of hzombie' with hz | ⟨b, code, hexit, _⟩
          · exact hz
          · rw [haction] at hexit
            cases hexit
        have hpending := hack.pending cpu pending (by rw [hbefore]; rfl)
        unfold bottomOf at hpending
        rw [hout, Option.bind_some, ht] at hpending
        dsimp only at hpending
        rw [if_pos hzombie] at hpending
        rw [haction] at hroom
        rcases retire_cases pending.bottom s with ⟨_, hfull⟩ | ⟨_, slot, hlt, _, hretired⟩
        · obtain ⟨slot, hlt, hempty⟩ := hroom pending hbefore (by rw [hpending]; exact hbottom)
          rcases hfull with hnothing | hfull
          · rw [hpending] at hnothing
            exact absurd hnothing hbottom
          · exact absurd hempty (hfull slot hlt)
        · refine ⟨slot, hlt, ?_⟩
          rw [hswitched.retired, hretired, update_self, hpending, hsame]
      rcases hchange.zombie_of hzombie' with hzombie | ⟨cpu, code, _, hcurrent⟩
      · rcases h i t ht hzombie hbottom with ⟨cpu, hhas⟩ | ⟨slot, hlt, hslot⟩
        · exact hheld cpu hhas
        · exact .inr ⟨slot, hlt, slot_kept hs hsep hmove ht hbottom hslot ht' hsame⟩
      · exact hheld cpu (.inl hcurrent)
    · exact absurd hzero hbottom'
  · rw [hnew.status] at hzombie'
    cases hzombie'

theorem Noted.step (h : s.Noted) (hs : s.Consistent) (hsep : s.Separate) (hack : s.Acknowledged)
    (hrides : s.Rides) (hroom : s.Room action) : (s.step action).Rides ∧ (s.step action).Noted := by
  by_cases hswitch : ∃ cpu rsp, action = .switchStack cpu rsp
  · obtain ⟨cpu, rsp, rfl⟩ := hswitch
    change (if rsp = 0 then s else s.switchStack cpu rsp).Rides
      ∧ (if rsp = 0 then s else s.switchStack cpu rsp).Noted
    split
    · exact ⟨hrides, h⟩
    rename_i hrsp
    cases hmode : (s.cpus cpu).mode with
    | switching =>
      have hmove : Move (.switchStack cpu rsp) s (s.switchStack cpu rsp) :=
        .switchStack hmode hrsp (switched_switchStack hmode)
      exact ⟨hrides.move hs hmove, h.move hs hsep hack hrides hroom hmove⟩
    | running | exiting | blocking | preparing | halted =>
      unfold switchStack
      rw [hmode]
      exact ⟨hrides, h⟩
  · have hroom' : ∀ s1 : State, s1.Room action := by
      intro s1
      cases action with
      | switchStack cpu rsp => exact absurd ⟨cpu, rsp, rfl⟩ hswitch
      | _ => trivial
    have hmoved := hack.preserve (I := fun s1 => s1.Rides ∧ s1.Noted) hs hsep action
      (fun s1 s2 hs1 hsep1 hack1 hmove ⟨hrides1, h1⟩ => ⟨hrides1.move hs1 hmove,
        h1.move hs1 hsep1 hack1 hrides1 (hroom' s1) hmove⟩) ⟨hrides, h⟩
    exact hmoved.2

def Roomy (s : State) : List Action → Prop
  | [] => True
  | action :: actions => s.Room action ∧ Roomy (s.step action) actions

theorem Noted.run {actions : List Action} (h : s.Noted) (hs : s.Consistent) (hack : s.Acknowledged)
    (hrides : s.Rides) (hsep : s.Separated actions) (hroom : s.Roomy actions) :
    (s.run actions).Noted := by
  induction actions generalizing s with
  | nil => exact h
  | cons action _ ih =>
    obtain ⟨hrides', hnoted'⟩ := h.step hs hsep.head hack hrides hroom.1
    exact ih hnoted' (hs.step action) (hack.step hs hsep.head action) hrides' hsep.2 hroom.2

theorem noted_start (kernelRoot : Nat) : (start kernelRoot).Noted := by
  intro i t ht _ hbottom
  cases i with
  | zero =>
    cases ht
    exact absurd rfl hbottom
  | succ => simp [start, init, enterIdle] at ht

theorem rides_start (kernelRoot : Nat) : (start kernelRoot).Rides := fun cpu =>
  ⟨none, (rooted_start kernelRoot cpu).carries⟩

structure Due (id index : Nat) (s : State) : Prop where
  released : s.Released id index
  noted : ∃ t, s.tasks[index]? = some t ∧ (t.kernelBottom ≠ 0 →
    t.status = .zombie ∧ ∃ slot < 64, s.retired slot = t.kernelBottom)

theorem Due.move {id : Nat} (h : s.Due id index) (hs : s.Consistent) (hsep : s.Separate)
    (hmove : Move .collect s s') : s'.Due id index := by
  constructor
  · have hkeys : ∀ key, Action.collect.key = some key → False := by
      intro key hkey
      cases hkey
    refine (h.released.move (K := fun _ => False) hs (fun _ _ hwait => ?_) hmove hkeys).resolve_left
      ?_
    · cases hwait
    · exact fun ⟨_, _, _, hfalse⟩ => hfalse
  obtain ⟨t, ht, hnoted⟩ := h.noted
  obtain ⟨t', ht', hchange⟩ := hs.seated.change hs.homed hmove ht
  refine ⟨t', ht', fun hbottom' => ?_⟩
  rcases hchange.kernelBottom with ⟨hsame, _⟩ | ⟨hzero, _⟩
  · have hbottom : t.kernelBottom ≠ 0 := by
      rw [← hsame]
      exact hbottom'
    obtain ⟨hzombie, slot, hlt, hslot⟩ := hnoted hbottom
    exact ⟨(hchange.of_zombie hzombie).1, slot, hlt, slot_kept hs hsep hmove ht hbottom hslot ht'
      hsame⟩
  · exact absurd hzero hbottom'

theorem Due.round {id : Nat} (h : s.Due id index) (hs : s.Consistent)
    (hleft : s.published index = false) (now : Nat) : (s.maintain now index).Gone id index := by
  obtain ⟨t, ht, hnoted⟩ := h.noted
  rcases h.released with ⟨u, hu, hid, hbottom⟩ | ⟨hgone, _⟩
  · rw [ht] at hu
    cases hu
    obtain ⟨hzombie, slot, hlt, hslot⟩ := hnoted hbottom
    have hround : s.maintain now index = s.reclaim index := by
      unfold maintain
      rw [ht]
      simp [due, hzombie]
    obtain ⟨slot', hslot'⟩ : ∃ slot',
        (range 64).find? (fun slot => s.retired slot == t.kernelBottom) = some slot' := by
      rw [← Option.isSome_iff_exists, List.find?_isSome]
      exact ⟨slot, mem_range.mpr hlt, by simpa using hslot⟩
    have hreclaim : s.reclaim index = (s.release index slot' t).wakeAll wakeWaiter t.id := by
      unfold State.reclaim
      rw [ht]
      dsimp only
      rw [if_pos ⟨hzombie, hbottom, hleft⟩, hslot']
      rfl
    refine ⟨{ t with addressSpace := none, kernelBottom := 0, kernelTop := 0 }, ?_, hid, hzombie,
      rfl⟩
    rw [hround]
    exact getElem?_released ht hzombie hreclaim
  · have hcollect : Action.collect.Maintains := trivial
    have hmoves := moves_maintain hcollect now index hs.owned
    exact (hs.moves (I := fun s1 => s1.Gone id index) hmoves (fun _ _ hs1 hm h1 => h1.move hs1 hm)
      hgone).2.2.2

theorem Consistent.rounds (hs : s.Consistent) (now : Nat) (indices : List Nat) :
    (indices.foldl (fun s1 index => s1.maintain now index) s).Consistent := by
  have hcollect : Action.collect.Maintains := trivial
  have hmoved := hs.moves (I := fun _ => True) (moves_rounds hcollect now indices hs.owned)
    (fun _ _ _ _ _ => trivial) trivial
  refine ⟨?_, hmoved.1, hmoved.2.1, hmoved.2.2.1⟩
  exact (kept_foldl (fun s1 index => kept_maintain now index s1) indices s).owned hs.owned

theorem published_congr (hcurrent : s'.current = s.current) :
    s'.published index = s.published index := by
  unfold published
  rw [hcurrent]

theorem Due.maintenance {id : Nat} (h : s.Due id index) (hs : s.Consistent) (hsep : s.Separate)
    (hack : s.Acknowledged) (hleft : s.published index = false) :
    s.maintenance.Gone id index ∧ ∀ waiter, s.maintenance.waitsFor id waiter = false := by
  have hcollect : Action.collect.Maintains := trivial
  have hmem : index ∈ range s.tasks.length := by
    obtain ⟨t, ht, _⟩ := h.noted
    exact mem_range.mpr (List.getElem?_eq_some_iff.mp ht).1
  obtain ⟨earlier, later, hsplit⟩ := append_of_mem hmem
  -- up to the round of the task its stack stays in its slot
  have hbefore := hack.moves (I := State.Due id index) hs hsep
    (moves_rounds hcollect s.ticks earlier hs.owned) rfl (fun _ _ hs1 hsep1 _ hmove h1 => h1.move
    hs1 hsep1 hmove) h
  have hs1 := hs.rounds s.ticks earlier
  have hkept := kept_foldl (fun s1 i => kept_maintain s.ticks i s1) earlier s
  unfold State.maintenance
  rw [hsplit, foldl_append, foldl_cons]
  generalize earlier.foldl (fun s1 index => s1.maintain s.ticks index) s = s1 at hbefore hs1 hkept ⊢
  obtain ⟨hsep1, hack1, hdue1⟩ := hbefore
  have hround : (s1.maintain s.ticks index).Gone id index := by
    refine hdue1.round hs1 ?_ s.ticks
    rw [published_congr hkept.current]
    exact hleft
  -- that round frees it, and the others keep it so
  have hafter := hack1.moves (I := State.Due id index) hs1 hsep1
    (moves_rounds hcollect s.ticks (index :: later) hs1.owned) rfl
    (fun _ _ hs2 hsep2 _ hmove h2 => h2.move hs2 hsep2 hmove) hdue1
  have hs2 := hs1.rounds s.ticks [index]
  have hgone := hs2.moves (I := fun s2 => s2.Gone id index)
    (moves_rounds hcollect s.ticks later hs2.owned) (fun _ _ hs3 hmove h3 => h3.move hs3 hmove)
    hround
  refine ⟨hgone.2.2.2, ?_⟩
  rcases hafter.2.2.released with ⟨t, ht, _, hbottom⟩ | ⟨_, hnobody⟩
  · obtain ⟨t', ht', _, _, hzero⟩ := hgone.2.2.2
    have heq := ht.symm.trans ht'
    cases heq
    exact absurd hzero hbottom
  · exact hnobody

def Reachable (s : State) (key index : Nat) : Prop :=
  s.waitsFor key index = true ∨ s.statusOf index = .running ∨ s.statusOf index = .ready

theorem Reachable.move {key : Nat} (h : s.Reachable key index) (hs : s.Consistent)
    (hmove : Move .collect s s') : s'.Reachable key index := by
  obtain ⟨t, ht, hbefore⟩ : ∃ t, s.tasks[index]? = some t
      ∧ ((t.status = .waiting ∧ t.waitingFor = key) ∨ t.status = .running ∨ t.status = .ready) := by
    cases ht : s.tasks[index]? with
    | none => simp [Reachable, waitsFor, statusOf, ht] at h
    | some t => exact ⟨t, rfl, by simpa [Reachable, waitsFor, statusOf, ht] using h⟩
  obtain ⟨t', ht', hchange⟩ := hs.seated.change hs.homed hmove ht
  have hafter : (t'.status = .waiting ∧ t'.waitingFor = key) ∨ t'.status = .running
      ∨ t'.status = .ready := by
    cases hchange with
    | same | droppedFiles => exact hbefore
    | timedOut _ _ hawake | joined _ _ _ _ _ _ _ hawake | signalled _ _ _ hawake =>
      exact .inr hawake
    | released _ hzombie => simp [hzombie] at hbefore
    | handedOver _ hschedules | left _ hschedules | entered _ hschedules => exact hschedules.elim
    | saved haction | exited haction | waited haction | waitedEvent haction | slept haction =>
      cases haction
  simpa [Reachable, waitsFor, statusOf, ht'] using hafter

theorem Due.collected (h : s.Due task.id index) (hs : s.Consistent) (hsep : s.Separate)
    (hack : s.Acknowledged) (hleft : s.published index = false)
    (htask : s.tasks[index]? = some task) (hbottom : task.kernelBottom ≠ 0) :
    (s.step .collect).Freed index
    ∧ ∀ waiter, s.waitsFor task.id waiter = true → (s.step .collect).Awake waiter := by
  obtain ⟨⟨task', htask', _, _, hzero⟩, hnobody⟩ := h.maintenance hs hsep hack hleft
  have hcollected : (s.step .collect).tasks[index]? = some task' := htask'
  have hspace := (hs.freed_step htask hbottom hcollected hzero).2
  refine ⟨⟨task', htask', hzero, hspace⟩, fun waiter hwaits => ?_⟩
  have hreach := hs.preserve (I := fun s1 => s1.Reachable task.id waiter) .collect
    (fun _ _ hs1 hmove h1 => h1.move hs1 hmove) (.inl hwaits)
  rcases hreach.2.2.2 with hstill | hawake
  · rw [show s.step .collect = s.maintenance from rfl, hnobody waiter] at hstill
    cases hstill
  · exact (hs.step .collect).awake hawake

/-- **No retirement is lost while there is room.** Stacks that are in use have different addresses,
and every switch finds a slot for the stack that it makes free. -/
theorem no_retirement_lost (kernelRoot : Nat) (actions : List Action)
    (hsep : (start kernelRoot).Separated actions) (hroom : (start kernelRoot).Roomy actions) :
    let s := (start kernelRoot).run actions
    ∀ (index : Nat) (task : Task), s.tasks[index]? = some task → task.status = .zombie →
      task.kernelBottom ≠ 0 → (∀ cpu, ¬ (s.cpus cpu).Has index) →
      (∃! slot, slot < 64 ∧ s.retired slot = task.kernelBottom)
      ∧ (s.step .collect).Freed index
      ∧ ∀ waiter, s.waitsFor task.id waiter = true → (s.step .collect).Awake waiter := by
  intro s index task htask hzombie hbottom hfree
  have hs : s.Consistent := (consistent_start kernelRoot).run actions
  have hack : s.Acknowledged :=
    (acknowledged_start kernelRoot).run (consistent_start kernelRoot) hsep
  have hnoted : s.Noted := (noted_start kernelRoot).run (consistent_start kernelRoot)
    (acknowledged_start kernelRoot) (rides_start kernelRoot) hsep hroom
  rcases hnoted index task htask hzombie hbottom with ⟨cpu, hhas⟩ | ⟨slot, hlt, hslot⟩
  · exact absurd hhas (hfree cpu)
  have hleft : s.published index = false := by
    rw [Bool.eq_false_iff]
    intro hpublished
    obtain ⟨cpu, _, hcurrent⟩ := published_eq_true.mp hpublished
    exact hfree cpu (.inl ((hs.owned.current cpu).symm.trans hcurrent))
  have hdue : s.Due task.id index :=
    ⟨.inl ⟨task, htask, rfl, hbottom⟩, task, htask, fun _ => ⟨hzombie, slot, hlt, hslot⟩⟩
  refine ⟨⟨slot, ⟨hlt, hslot⟩, fun other hother => ?_⟩,
    hdue.collected hs hsep.last hack hleft htask hbottom⟩
  refine hack.unique other slot ?_ (hother.2.trans hslot.symm)
  rw [hother.2]
  exact hbottom

theorem no_retirement_lost_first :
    let actions : List Action :=
      [.addUser 1 4096 0 0 0, .schedule 1 0, .prepare 0, .switchStack 0 8,
      .dropFiles 0, .exit 0 7, .schedule 1 0, .prepare 0, .switchStack 0 16]
    (∃! slot, slot < 64 ∧ ((start 0).run actions).retired slot = 4096)
    ∧ (((start 0).run actions).step .collect).Freed 1 := by
  intro actions
  have hsep : (start 0).Separated actions := by
    refine ⟨?_, ?_, ?_, ?_, ?_, ?_, ?_, ?_, ?_, ?_⟩ <;> exact separate_of_pairwise (by decide)
  have hroom : (start 0).Roomy actions := by
    refine ⟨trivial, trivial, trivial, fun _ _ _ => ⟨0, by decide, by decide⟩, trivial, trivial,
      trivial, trivial, fun _ _ _ => ⟨0, by decide, by decide⟩, trivial⟩
  have hlost := no_retirement_lost 0 actions hsep hroom 1 _ rfl (by decide) (by decide) ?_
  · exact ⟨hlost.1, hlost.2.1⟩
  · intro cpu
    refine ((consistent_start 0).run actions).owned.exclusive.not_holds ?_
    decide

def Bounded (s : State) : Prop := ∀ slot, 64 ≤ slot → s.retired slot = 0

theorem Bounded.step (h : s.Bounded) (hs : s.Consistent) (action : Action) :
    (s.step action).Bounded := by
  refine (hs.preserve (I := Bounded) action ?_ h).2.2.2
  intro s1 s2 hs1 hmove h1 slot hslot
  by_contra hfull
  rcases retired_move hs1.homed hmove hfull with hsame | ⟨hlt, _⟩
  · exact hfull (hsame.trans (h1 slot hslot))
  · omega

theorem Bounded.run (h : s.Bounded) (hs : s.Consistent) (actions : List Action) :
    (s.run actions).Bounded := by
  induction actions generalizing s with
  | nil => exact h
  | cons action _ ih => exact ih (h.step hs action) (hs.step action)

def thread (k : Nat) : List Action :=
  [.addUser 2 (16384 * (k + 2)) 0 0 0, .schedule 2 1, .prepare 1, .switchStack 1 8, .dropFiles 1,
    .exit 1 0, .schedule 2 1, .prepare 1, .switchStack 1 8]

def threads (k : Nat) : List Action := (range k).flatMap thread

/-- **The 65th stack is lost.** The task has exited and processor 1 has left it, but its stack is in
no slot. -/
theorem retirement_lost :
    let s := (start 0).run (.addUser 2 16384 0 0 0 :: threads 65)
    s.Separate ∧ ∃ task, s.tasks[66]? = some task ∧ task.status = .zombie ∧ task.kernelBottom ≠ 0
      ∧ (∀ cpu, ¬ (s.cpus cpu).Has 66) ∧ ∀ slot, s.retired slot ≠ task.kernelBottom := by
  intro s
  have hs : s.Consistent := (consistent_start 0).run _
  have hbounded : s.Bounded :=
    Bounded.run (s := start 0) (fun _ _ => rfl) (consistent_start 0) _
  have hbottoms : s.tasks.map Task.kernelBottom = (range 67).map (16384 * ·) := by decide +kernel
  have hlast : s.tasks[66]?.map (fun task => (task.status, task.onCpu)) = some (.zombie,
      false) := by
    decide +kernel
  have hslots : ∀ slot < 64, s.retired slot ≠ 16384 * 66 := by decide +kernel
  obtain ⟨task, htask, hpair⟩ := Option.map_eq_some_iff.mp hlast
  have hzombie : task.status = .zombie := congrArg Prod.fst hpair
  have hoff : task.onCpu = false := congrArg Prod.snd hpair
  have hbottom : task.kernelBottom = 16384 * 66 := by
    have hstack := congrArg (fun l => l[66]?) hbottoms
    simpa [htask] using hstack
  refine ⟨?_, task, htask, hzombie, by rw [hbottom]; decide, fun cpu => ?_, fun slot => ?_⟩
  · refine separate_of_pairwise ?_
    have hstacks : (s.tasks.map Task.kernelBottom).Pairwise fun a b => a ≠ 0 → a ≠ b := by
      rw [hbottoms, pairwise_map]
      refine pairwise_lt_range.imp ?_
      omega
    exact pairwise_map.mp hstacks
  · apply hs.owned.exclusive.not_holds
    rw [onCpu_of_getElem? htask, hoff]
    exact Bool.false_ne_true
  rw [hbottom]
  by_cases hslot : slot < 64
  · exact hslots slot hslot
  · rw [hbounded slot (Nat.le_of_not_lt hslot)]
    decide

variable {late : Bool} {now : Nat}

/-- The task is awake, or the round of `maintenance` that wakes it is still to come. -/
def Stirs (late : Bool) (now index : Nat) (s : State) : Prop :=
  ∃ task, s.tasks[index]? = some task
    ∧ (late = true ∧ due now task = true ∨ task.status = .running ∨ task.status = .ready)

theorem Stirs.rounds (h : s.Stirs late now index) (hs : s.Consistent) (indices : List Nat) :
    (indices.foldl (fun s1 other => s1.maintain now other) s).Stirs late now index := by
  have hcollect : Action.collect.Maintains := trivial
  refine (hs.moves (I := State.Stirs late now index) (moves_rounds hcollect now indices hs.owned) ?_
    h).2.2.2
  rintro s1 s2 hs1 hmove ⟨task, htask, hstirs⟩
  obtain ⟨task', htask', hchange⟩ := hs1.seated.change hs1.homed hmove htask
  refine ⟨task', htask', ?_⟩
  cases hchange with
  | same | droppedFiles => exact hstirs
  | timedOut _ _ hawake | joined _ _ _ _ _ _ _ hawake => exact .inr hawake
  | released _ hzombie => simp [due, hzombie] at hstirs
  | handedOver _ hschedules | left _ hschedules | entered _ hschedules => cases hschedules
  | signalled haction | saved haction | exited haction | waited haction | waitedEvent haction
  | slept haction => cases haction

theorem Stirs.round (h : s.Stirs true now index) (hs : s.Consistent) :
    (s.maintain now index).Stirs false now index := by
  obtain ⟨task, htask, ⟨-, hdue⟩ | hawake⟩ := h
  · obtain ⟨status, hawake, htasks⟩ :=
      wake_tasks (fun t => { t with waitingFor := NONE, wakeTick := 0 })
      (fun t => t.pinned.getD t.affinity) htask
    have hwoken : (s.wakeDue index).tasks[index]?
        = some { task with waitingFor := NONE, wakeTick := 0, status := status } := by
      rw [wakeDue, htasks]
      exact getElem?_update_self htask
    have hreclaim : (s.wakeDue index).reclaim index = s.wakeDue index := by
      unfold State.reclaim
      rw [hwoken]
      exact if_neg fun hgone => by rcases hawake with rfl | rfl <;> cases hgone.1
    refine ⟨{ task with waitingFor := NONE, wakeTick := 0, status := status }, ?_, .inr hawake⟩
    unfold maintain
    rw [htask]
    dsimp only
    rw [if_pos hdue, hreclaim, ite_self]
    exact hwoken
  · exact Stirs.rounds ⟨task, htask, .inr hawake⟩ hs [index]

/-- **No deadline is overlooked.** A task whose deadline is past when `maintenance` runs is awake
after it, on a processor or in a run queue. -/
theorem due_woken (kernelRoot : Nat) (actions : List Action) (index : Nat) (task : Task)
    (htask : ((start kernelRoot).run actions).tasks[index]? = some task)
    (hdue : due ((start kernelRoot).run actions).ticks task = true) :
    (((start kernelRoot).run actions).step .collect).Awake index := by
  have hs := (consistent_start kernelRoot).run actions
  apply (hs.step .collect).awake
  generalize (start kernelRoot).run actions = s at htask hdue hs ⊢
  obtain ⟨earlier, later, hsplit⟩ :=
    append_of_mem (mem_range.mpr (List.getElem?_eq_some_iff.mp htask).1)
  have hbefore := Stirs.rounds ⟨task, htask, .inl ⟨rfl, hdue⟩⟩ hs earlier
  have hs1 := hs.rounds s.ticks earlier
  have hafter := (hbefore.round hs1).rounds (hs1.rounds s.ticks [index]) later
  change s.maintenance.statusOf index = .running ∨ s.maintenance.statusOf index = .ready
  unfold State.maintenance
  rw [hsplit, foldl_append, foldl_cons]
  obtain ⟨task', htask', ⟨hlate, -⟩ | hawake⟩ := hafter
  · cases hlate
  · rwa [statusOf_of_getElem? htask']

theorem due_woken_first :
    (((start 0).run (firstProgram ++ [.sleep 0 10 0, .clockTick])).step .collect).Awake 1 :=
  due_woken 0 _ 1 _ rfl (by decide)

end State

end Kaguya.Scheduler
