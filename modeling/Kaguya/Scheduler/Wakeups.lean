import Kaguya.Scheduler.Changes

/-!
# No lost wake-up

A task that is going to wait for an event reads how often the event has happened before it looks at
what it waits for. `wait_event` compares that number under the lock, and `wake_event` counts and
wakes under the same lock, so a wake-up after the reading either shows in the number or finds the
task waiting.
-/

namespace Kaguya.Scheduler

open List

namespace State

variable {s s' : State} {action : Action} {cpu index key other : Nat} {task : Task}

def Counted (s : State) : Prop := ∀ event ∈ s.events, event.generation ≤ NONE

theorem generation_congr (hevents : s'.events = s.events) :
    s'.generation key = s.generation key := by
  unfold generation
  rw [hevents]

theorem Counted.generation_le (h : s.Counted) (key : Nat) : s.generation key ≤ NONE := by
  unfold generation
  cases hfound : s.events.find? fun event => event.key == key with
  | none => exact Nat.zero_le _
  | some event => exact h event (mem_of_find?_eq_some hfound)

theorem succ_generation {generation : Nat} (hle : generation ≤ NONE) :
    (if generation = NONE then 0 else generation + 1) = (generation + 1) % 2 ^ 64 := by
  have hnone : NONE = 2 ^ 64 - 1 := rfl
  split <;> omega

section Find
variable {events : List Event} {f : Event → Event}

theorem find?_modify_self (hf : ∀ event, (f event).key = event.key)
    (hindex : events.findIdx? (fun event => event.key == key) = some index) :
    (events.modify index f).find? (fun event => event.key == key)
      = (events.find? fun event => event.key == key).map f := by
  induction events generalizing index with
  | nil => simp at hindex
  | cons event _ ih =>
    by_cases hkey : event.key = key
    · simp [List.findIdx?_cons, hkey] at hindex
      simp [← hindex, hf, hkey]
    · simp [List.findIdx?_cons, hkey] at hindex
      obtain ⟨i, hi, hsucc⟩ := hindex
      simp [← hsucc, hkey, ih hi]

theorem find?_modify_of_ne (hf : ∀ event, (f event).key = event.key) (hne : other ≠ key)
    (hindex : events.findIdx? (fun event => event.key == key) = some index) :
    (events.modify index f).find? (fun event => event.key == other) = events.find? fun event =>
      event.key == other := by
  induction events generalizing index with
  | nil => simp at hindex
  | cons event _ ih =>
    by_cases hkey : event.key = key
    · simp [List.findIdx?_cons, hkey] at hindex
      simp [← hindex, hf, hkey, hne.symm]
    · simp [List.findIdx?_cons, hkey] at hindex
      obtain ⟨i, hi, hsucc⟩ := hindex
      simp [← hsucc, List.find?_cons, ih hi]

end Find

theorem generation_countEvent_self (h : s.Counted) (key : Nat) :
    (s.countEvent key).generation key = (s.generation key + 1) % 2 ^ 64 := by
  have hle := h.generation_le key
  unfold countEvent
  cases hindex : s.events.findIdx? fun event => event.key == key with
  | none =>
    have hfound : s.events.find? (fun event => event.key == key) = none := by
      simpa using hindex
    simp [generation, hfound, List.find?_append]
  | some =>
    have hsome : (s.events.find? fun event => event.key == key).isSome := by
      simpa using congrArg Option.isSome hindex
    obtain ⟨event, hevent⟩ := Option.isSome_iff_exists.mp hsome
    unfold generation at hle ⊢
    rw [find?_modify_self _ hindex, hevent]
    · rw [hevent] at hle
      exact succ_generation hle
    · exact fun _ => rfl

theorem generation_countEvent_of_ne (hne : other ≠ key) :
    (s.countEvent key).generation other = s.generation other := by
  unfold countEvent
  cases hindex : s.events.findIdx? fun event => event.key == key with
  | none => simp [generation, List.find?_append, hne.symm]
  | some =>
    unfold generation
    rw [find?_modify_of_ne _ hne hindex]
    exact fun _ => rfl

theorem generation_forgetEvent_of_ne (hne : other ≠ key) :
    (s.forgetEvent key).generation other = s.generation other := by
  have hfind : (s.events.eraseP fun event => event.key == key).find?
      (fun event => event.key == other) = s.events.find? fun event => event.key == other := by
    induction s.events with
    | nil => rfl
    | cons event _ ih =>
      by_cases hkey : event.key = key
      · simp [hkey, hne.symm]
      · simp [hkey, List.find?_cons, ih]
  unfold generation forgetEvent
  rw [hfind]

theorem Counted.countEvent (h : s.Counted) (key : Nat) : (s.countEvent key).Counted := by
  unfold Counted State.countEvent
  cases hindex : s.events.findIdx? fun event => event.key == key with
  | none =>
    intro event hevent
    rcases mem_append.mp hevent with hold | hnew
    · exact h event hold
    · rw [mem_singleton.mp hnew]
      simp [NONE]
  | some =>
    intro event hevent
    obtain ⟨i, hi⟩ := mem_iff_getElem?.mp hevent
    rw [List.getElem?_modify] at hi
    obtain ⟨old, hold, heq⟩ := Option.map_eq_some_iff.mp hi
    have hle := h old (mem_of_getElem? hold)
    rw [← heq]
    split
    · have hlt : (old.generation + 1) % 2 ^ 64 < 2 ^ 64 := Nat.mod_lt _ (by decide)
      rw [← succ_generation hle] at hlt
      exact Nat.le_of_lt_succ hlt
    · exact hle

theorem events_move (hhomed : s.Homed) (hmove : Move action s s')
    (hwake : ∀ key, action ≠ .wakeEvent key) (hforget : ∀ key, action ≠ .forgetEvent key) :
    s'.events = s.events := by
  cases hhomed.words hmove with
  | same hsame => exact hsame.events
  | given _ hevents => exact hevents
  | counted haction => exact absurd haction (hwake _)
  | forgotten haction => exact absurd haction (hforget _)
  | released _ _ _ _ hwoken =>
    rw [hwoken]
    exact (sameWords_wakeAll _ _).events
  | switched _ _ hswitched => exact hswitched.events

theorem events_step (h : s.Consistent) (hwake : ∀ key, action ≠ .wakeEvent key)
    (hforget : ∀ key, action ≠ .forgetEvent key) : (s.step action).events = s.events := by
  have hmoved := h.preserve (I := fun s1 => s1.events = s.events) action
    (fun s1 s2 h1 hmove hevents => (events_move h1.homed hmove hwake hforget).trans hevents) rfl
  exact hmoved.2.2.2

theorem generation_step (h : s.Consistent) (hcounted : s.Counted)
    (hforget : action ≠ .forgetEvent key) :
    (s.step action).generation key = (s.generation key + if action = .wakeEvent key then 1 else 0) %
      2 ^ 64 := by
  have hsmall : s.generation key % 2 ^ 64 = s.generation key :=
    Nat.mod_eq_of_lt (Nat.lt_succ_of_le (hcounted.generation_le key))
  by_cases hwake : ∃ k, action = .wakeEvent k
  · obtain ⟨k, rfl⟩ := hwake
    have hevents : (s.step (.wakeEvent k)).generation key = (s.countEvent k).generation key :=
      generation_congr (sameWords_wakeAll _ _).events
    rw [hevents]
    by_cases hk : k = key
    · simp [hk, generation_countEvent_self hcounted]
    · have hother : ¬ Action.wakeEvent k = .wakeEvent key := fun heq =>
        hk (Action.wakeEvent.inj heq)
      rw [generation_countEvent_of_ne (Ne.symm hk), if_neg hother, Nat.add_zero, hsmall]
  · by_cases hforgets : ∃ k, action = .forgetEvent k
    · obtain ⟨k, rfl⟩ := hforgets
      have hk : key ≠ k := fun hk => hforget (by rw [hk])
      have hstep : (s.step (.forgetEvent k)).generation key = s.generation key :=
        generation_forgetEvent_of_ne hk
      rw [hstep, if_neg (by simp), Nat.add_zero, hsmall]
    · push Not at hwake hforgets
      rw [generation_congr (events_step h hwake hforgets), if_neg (hwake key), Nat.add_zero, hsmall]

theorem Counted.step (hcounted : s.Counted) (h : s.Consistent) (action : Action) :
    (s.step action).Counted := by
  by_cases hwake : ∃ k, action = .wakeEvent k
  · obtain ⟨k, rfl⟩ := hwake
    have hevents : (s.step (.wakeEvent k)).events = (s.countEvent k).events :=
      (sameWords_wakeAll _ _).events
    unfold Counted
    rw [hevents]
    exact hcounted.countEvent k
  · by_cases hforgets : ∃ k, action = .forgetEvent k
    · obtain ⟨k, rfl⟩ := hforgets
      exact fun event hevent => hcounted event (mem_of_mem_eraseP hevent)
    push Not at hwake hforgets
    unfold Counted
    rw [events_step h hwake hforgets]
    exact hcounted

theorem Counted.run (hcounted : s.Counted) (h : s.Consistent) (actions : List Action) :
    (s.run actions).Counted := by
  induction actions generalizing s with
  | nil => exact hcounted
  | cons action _ ih => exact ih (hcounted.step h action) (h.step action)

variable {actions : List Action}

/-- **The number counts the wake-ups** of a run, modulo 2 ^ 64. -/
theorem generation_run (h : s.Consistent) (hcounted : s.Counted)
    (hforget : .forgetEvent key ∉ actions) :
    (s.run actions).generation key = (s.generation key + actions.count (.wakeEvent key)) % 2 ^
      64 := by
  induction actions generalizing s with
  | nil => exact (Nat.mod_eq_of_lt (Nat.lt_succ_of_le (hcounted.generation_le key))).symm
  | cons action _ ih =>
    rw [mem_cons, not_or] at hforget
    obtain ⟨hfirst, hrest⟩ := hforget
    rw [run_cons, ih (h.step action) (hcounted.step h action) hrest,
      generation_step h hcounted (Ne.symm hfirst), count_cons]
    simp only [beq_iff_eq]
    omega

theorem counted_start (kernelRoot : Nat) :
    (start kernelRoot).Counted := fun _ hevent => nomatch hevent

theorem generation_ne (h : s.Consistent) (hcounted : s.Counted)
    (hforget : .forgetEvent key ∉ actions) (hwake : .wakeEvent key ∈ actions)
    (hfew : actions.count (.wakeEvent key) < 2 ^ 64) :
    (s.run actions).generation key ≠ s.generation key := by
  have hpos : 0 < actions.count (.wakeEvent key) := count_pos_iff.mpr hwake
  rw [generation_run h hcounted hforget]
  omega

def Awake (s : State) (index : Nat) : Prop :=
  (s.statusOf index = .running ∧ ∃ cpu, s.current cpu = some index)
  ∨ (s.statusOf index = .ready ∧ ∃ cpu, index ∈ s.queues cpu)

theorem Consistent.awake (h : s.Consistent)
    (hstatus : s.statusOf index = .running ∨ s.statusOf index = .ready) : s.Awake index := by
  refine hstatus.imp (fun hrunning => ⟨hrunning, ?_⟩) fun hready => ⟨hready, ?_⟩
  · obtain ⟨cpu, hcpu⟩ := h.seated.running hrunning
    exact ⟨cpu, (h.owned.current cpu).trans hcpu⟩
  · exact (SharedOut.waits_iff h.queued index).mp hready

section WakeAll
variable {reset : Task → Task} {place : Task → Nat}

theorem getElem?_wake_of_ne {i : Nat} (hne : i ≠ index) :
    (s.wake reset place index).tasks[i]? = s.tasks[i]? := by
  unfold wake
  split
  · rfl
  · split <;> exact getElem?_update_of_ne hne

theorem statusOf_wake (hwaits : s.waitsFor key index = true) :
    (s.wake reset place index).statusOf index = .running
    ∨ (s.wake reset place index).statusOf index = .ready := by
  obtain ⟨task, htask, _⟩ := waitsFor_iff.mp hwaits
  obtain ⟨status, hawake, htasks⟩ := wake_tasks reset place htask
  have hwoken : (s.wake reset place index).tasks[index]?
      = some { reset task with status := status } := by
    rw [htasks]
    exact getElem?_update_self htask
  rw [statusOf_of_getElem? hwoken]
  exact hawake

theorem statusOf_wakeAll (hwaits : s.waitsFor key index = true) :
    (s.wakeAll (State.wake reset place) key).statusOf index = .running
    ∨ (s.wakeAll (State.wake reset place) key).statusOf index = .ready := by
  have hmem : index ∈ range s.tasks.length := by
    obtain ⟨task, htask, _⟩ := waitsFor_iff.mp hwaits
    exact mem_range.mpr (List.getElem?_eq_some_iff.mp htask).1
  have hstart : (s.waitsFor key index = true ∧ index ∈ range s.tasks.length)
      ∨ s.statusOf index = .running ∨ s.statusOf index = .ready := .inl ⟨hwaits, hmem⟩
  clear hwaits hmem
  unfold wakeAll
  generalize range s.tasks.length = indices at hstart ⊢
  induction indices generalizing s with
  | nil => simpa using hstart
  | cons i indices ih =>
    apply ih
    dsimp only
    by_cases hi : index = i
    · right
      rw [← hi]
      split
      · rename_i hwaits
        exact statusOf_wake hwaits
      · rename_i hnot
        exact hstart.resolve_left fun h => hnot h.1
    have htask : (if s.waitsFor key i = true then s.wake reset place i else s).tasks[index]?
        = s.tasks[index]? := by
      split
      · exact getElem?_wake_of_ne hi
      · rfl
    rw [statusOf_congr htask]
    refine hstart.imp_left fun ⟨hwaits, hmem⟩ => ⟨?_, ?_⟩
    · rw [waitsFor_iff, htask]
      exact waitsFor_iff.mp hwaits
    · exact (mem_cons.mp hmem).resolve_left hi

end WakeAll

theorem Consistent.wakeEvent (h : s.Consistent) (hwaits : s.waitsFor key index = true) :
    (s.step (.wakeEvent key)).Awake index := by
  have hcounted : (s.countEvent key).waitsFor key index = true := by
    rw [countEvent_frame]
    exact hwaits
  exact (h.step (.wakeEvent key)).awake (statusOf_wakeAll hcounted)

def Blocked (s : State) (key index : Nat) : Prop :=
  ∃ task, s.tasks[index]? = some task ∧ task.status = .waiting ∧ task.waitingFor = key
    ∧ task.wakeTick = 0

def Gone (s : State) (id index : Nat) : Prop :=
  ∃ task, s.tasks[index]? = some task ∧ task.id = id ∧ task.status = .zombie ∧ task.kernelBottom = 0

theorem Gone.move {id : Nat} (h : s.Gone id index) (hs : s.Consistent) (hmove : Move action s s') :
    s'.Gone id index := by
  obtain ⟨task, htask, hid, hzombie, hbottom⟩ := h
  obtain ⟨task', htask', hchange⟩ := hs.seated.change hs.homed hmove htask
  obtain ⟨hzombie', _, _, hstack⟩ := hchange.of_zombie hzombie
  refine ⟨task', htask', hchange.id_eq.trans hid, hzombie', ?_⟩
  rcases hstack with hsame | ⟨_, hbottom', _⟩
  · exact hsame.trans hbottom
  · exact absurd hbottom hbottom'

theorem Blocked.move (h : s.Blocked key index) (hs : s.Consistent) (hmove : Move action s s')
    (hwake : action ≠ .wakeEvent key) :
    s'.Blocked key index ∨ ∃ target, ¬ s.Gone key target ∧ s'.Gone key target := by
  obtain ⟨task, htask, hwaiting, hkey, htick⟩ := h
  obtain ⟨task', htask', hchange⟩ := hs.seated.change hs.homed hmove htask
  cases hchange with
  | same | saved | droppedFiles => exact .inl ⟨_, htask', hwaiting, hkey, htick⟩
  | timedOut _ hdue => simp [due, hwaiting, htick] at hdue
  | joined hmaintains hwaiting' hid hbefore hzombie hbottom hafter hawake =>
    rename_i target other status
    refine .inr ⟨target, ?_, _, hafter, hid.symm.trans hkey, hzombie, rfl⟩
    rintro ⟨other', hother', _, _, hbottom'⟩
    rw [hbefore] at hother'
    cases hother'
    exact hbottom hbottom'
  | signalled haction _ hkey' =>
    rw [haction, ← hkey', hkey] at hwake
    exact absurd rfl hwake
  | left =>
    refine .inl ⟨_, htask', ?_, hkey, htick⟩
    simp [State.left, hwaiting]
  | _ => simp_all

theorem Blocked.step (h : s.Blocked key index) (hs : s.Consistent) (action : Action) :
    (s.step action).Blocked key index ∨ action = .wakeEvent key
    ∨ ∃ target, ¬ s.Gone key target ∧ (s.step action).Gone key target := by
  by_cases hwake : action = .wakeEvent key
  · exact .inr (.inl hwake)
  have hmoved := hs.preserve (I := fun s1 => (∀ target, s.Gone key target → s1.Gone key target)
    ∧ (s1.Blocked key index ∨ ∃ target, ¬ s.Gone key target ∧ s1.Gone key target)) action
    (fun s1 s2 hs1 hmove hI => ?_) ⟨fun _ hgone => hgone, .inl h⟩
  · exact hmoved.2.2.2.2.imp_right .inr
  obtain ⟨hgone, hstill⟩ := hI
  refine ⟨fun target htarget => (hgone target htarget).move hs1 hmove, ?_⟩
  rcases hstill with hblocked | ⟨target, hbefore, hafter⟩
  · refine (hblocked.move hs1 hmove hwake).imp_right ?_
    intro ⟨target, hbefore, hafter⟩
    exact ⟨target, fun htarget => hbefore (hgone target htarget), hafter⟩
  · exact .inr ⟨target, hbefore, hafter.move hs1 hmove⟩

theorem step_waitEvent_of_ne {deadline observed : Nat} (hne : s.generation key ≠ observed) :
    s.step (.waitEvent cpu key deadline observed) = s := by
  change s.when cpu isRunning (State.waitEvent cpu key deadline observed) = s
  unfold State.when
  split
  · exact if_pos hne
  · rfl

/-- **No lost wake-up.** A task reads the number of an event after `earlier` and calls `wait_event`
with it after `before`. A wake-up in between makes the call return at once. A wake-up after the call
finds the task waiting and makes it ready or leaves it running, if it is still asleep. A task that
waits without a deadline goes on waiting, except when the event happens or a task with that id is
gone. -/
theorem no_lost_wakeup (kernelRoot cpu key deadline : Nat) (earlier before : List Action)
    (hforget : .forgetEvent key ∉ before) (hfew : before.count (.wakeEvent key) < 2 ^ 64) :
    let read := (start kernelRoot).run earlier
    let called := read.run before
    let returned := called.step (.waitEvent cpu key deadline (read.generation key))
    (.wakeEvent key ∈ before → returned = called)
    ∧ (∀ after index, (returned.run after).waitsFor key index = true →
        ((returned.run after).step (.wakeEvent key)).Awake index)
    ∧ ∀ after index action, (returned.run after).Blocked key index →
        ((returned.run after).step action).Blocked key index ∨ action = .wakeEvent key
        ∨ ∃ target, ¬ (returned.run after).Gone key target
          ∧ ((returned.run after).step action).Gone key target := by
  intro read called returned
  have hread : read.Consistent := (consistent_start kernelRoot).run earlier
  have hcounted : read.Counted :=
    (counted_start kernelRoot).run (consistent_start kernelRoot) earlier
  have hreturned : returned.Consistent := (hread.run before).step _
  refine ⟨fun hwake => ?_, fun after index hwaits => ?_, fun after index action hblocked => ?_⟩
  · exact step_waitEvent_of_ne (generation_ne hread hcounted hforget hwake hfew)
  · exact (hreturned.run after).wakeEvent hwaits
  · exact hblocked.step (hreturned.run after) action

def firstProgram :
    List Action := [.addUser 1 4096 0 0 0, .schedule 1 0, .prepare 0, .switchStack 0 8]

theorem no_lost_wakeup_first : let read := (start 0).run firstProgram
    let waiting := read.step (.waitEvent 0 7 0 (read.generation 7))
    (read.cpus 0).currentTask = some 1 ∧ waiting.waitsFor 7 1 = true
    ∧ (read.run [.wakeEvent 7]).step (.waitEvent 0 7 0 (read.generation 7)) = read.run
      [.wakeEvent 7]
    ∧ (waiting.step (.wakeEvent 7)).Awake 1 := by
  have hearly := no_lost_wakeup 0 0 7 0 firstProgram [.wakeEvent 7] (by decide) (by decide)
  have hlate := no_lost_wakeup 0 0 7 0 firstProgram [] (by decide) (by decide)
  exact ⟨by decide, by decide, hearly.1 (by decide), hlate.2.1 [] 1 (by decide)⟩

end State

end Kaguya.Scheduler
