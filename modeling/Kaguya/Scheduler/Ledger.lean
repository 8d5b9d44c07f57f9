import Kaguya.Scheduler.Wakeups

/-!
# Runs in which nothing is mistaken

Tasks and events are named by 64-bit words, and a task that waits carries the word that it waits
for. As long as no id is given out twice and no event has the id of a task for its key, the word
says what the task waits for, and only tasks that sleep or wait for an event have a deadline.
-/

namespace Kaguya.Scheduler

open List

namespace Action

def key : Action → Option Nat
  | .waitEvent _ key _ _ | .wakeEvent key => some key
  | _ => none

end Action

namespace State

variable {s s' : State} {action : Action} {cpu index n : Nat} {task : Task} {K : Nat → Prop}

def Distinct (s : State) : Prop :=
  ∀ (i j : Nat) (t u : Task), s.tasks[i]? = some t → s.tasks[j]? = some u → t.id = u.id → i = j

structure Numbered (n : Nat) (s : State) : Prop where
  next : s.nextId = (n + 1) % 2 ^ 64
  bounded : ∀ {i : Nat} {t : Task}, s.tasks[i]? = some t → t.id ≤ n
  distinct : s.Distinct

theorem nextId_move (hhomed : s.Homed) (hmove : Move action s s') (hnone : action.bottom = none) :
    s'.nextId = s.nextId := by
  cases hhomed.words hmove with
  | same hsame => exact hsame.nextId
  | given hcreates => exact absurd hnone hcreates
  | counted _ hcounted => rw [hcounted, countEvent_frame]
  | forgotten _ hforgotten =>
    rw [hforgotten]
    rfl
  | released _ _ _ _ hwoken =>
    rw [hwoken]
    exact (sameWords_wakeAll _ _).nextId
  | switched _ _ hswitched => exact hswitched.nextId

section
variable (h : s.Numbered n)
include h

theorem Numbered.move (hs : s.Consistent) (hmove : Move action s s')
    (hnone : action.bottom = none) : s'.Numbered n := by
  have hold : ∀ {i : Nat} {t : Task}, s'.tasks[i]? = some t → ∃ t0, s.tasks[i]? = some t0
      ∧ t.id = t0.id := by
    intro i t ht
    rcases hs.origin hmove ht with ⟨t0, ht0, hchange⟩ | ⟨cpu, hnew⟩
    · exact ⟨t0, ht0, hchange.id_eq⟩
    · rw [hnew.bottom] at hnone
      cases hnone
  constructor
  · rw [nextId_move hs.homed hmove hnone]
    exact h.next
  · intro i t ht
    obtain ⟨t0, ht0, hid⟩ := hold ht
    rw [hid]
    exact h.bounded ht0
  intro i j t u ht hu hid
  obtain ⟨t0, ht0, hid0⟩ := hold ht
  obtain ⟨u0, hu0, hid1⟩ := hold hu
  rw [hid0, hid1] at hid
  exact h.distinct i j _ _ ht0 hu0 hid

theorem Numbered.give (hroom : n + 1 < 2 ^ 64) (hnext : s'.nextId = (s.nextId + 1) % 2 ^ 64)
    (htasks : ∀ {i : Nat} {t : Task}, s'.tasks[i]? = some t → s.tasks[i]? = some t
      ∨ (i = s.tasks.length ∧ t.id = s.nextId)) : s'.Numbered (n + 1) := by
  have hid : s.nextId = n + 1 := h.next.trans (Nat.mod_eq_of_lt hroom)
  constructor
  · rw [hnext, hid]
  · intro i t ht
    rcases htasks ht with hold | ⟨_, hnew⟩
    · exact Nat.le_succ_of_le (h.bounded hold)
    · exact Nat.le_of_eq (hnew.trans hid)
  intro i j t u ht hu heq
  rcases htasks ht with hti | ⟨hi, hnewi⟩
  · rcases htasks hu with huj | ⟨hj, hnewj⟩
    · exact h.distinct i j t u hti huj heq
    · have hle := h.bounded hti
      omega
  · rcases htasks hu with huj | ⟨hj, hnewj⟩
    · have hle := h.bounded huj
      omega
    · rw [hi, hj]

theorem Numbered.addTask (hroom : n + 1 < 2 ^ 64) (hid : task.id = s.nextId) :
    (({ s with nextId := (s.nextId + 1) % 2 ^ 64 }).addTask cpu task).Numbered (n + 1) := by
  refine h.give hroom rfl fun {i t} ht => ?_
  by_cases hi : i = s.tasks.length
  · rw [hi] at ht
    have hlast := (getElem?_addTask_self cpu task
        { s with nextId := (s.nextId + 1) % 2 ^ 64 }).symm.trans ht
    cases hlast
    exact .inr ⟨hi, hid⟩
  · rw [getElem?_addTask_of_ne] at ht
    · exact .inl ht
    · exact hi

theorem Numbered.create (hroom : n + 1 < 2 ^ 64) (hsome : action.bottom ≠ none) :
    (s.step action).Numbered (n + 1) := by
  cases action with
  | addUser online bottom userRsp addressSpace files =>
    change (s.addUser online bottom userRsp addressSpace files).2.Numbered (n + 1)
    unfold addUser
    split
    · exact h.give hroom rfl .inl
    · exact h.addTask hroom rfl
  | addKernel => exact h.addTask hroom rfl
  | _ => exact absurd rfl hsome

end

theorem numbered_start (kernelRoot : Nat) : (start kernelRoot).Numbered 0 := by
  have hfirst : ∀ {i : Nat} {t : Task}, (start kernelRoot).tasks[i]? = some t → i = 0
      ∧ t.id = 0 := by
    intro i t ht
    cases i with
    | zero =>
      cases ht
      exact ⟨rfl, rfl⟩
    | succ => simp [start, init, enterIdle] at ht
  constructor
  · rfl
  · intro i t ht
    exact Nat.le_of_eq (hfirst ht).2
  · intro i j t u ht hu _
    rw [(hfirst ht).1, (hfirst hu).1]

def Clash (K : Nat → Prop) (s : State) : Prop :=
  ∃ (index : Nat) (task : Task), s.tasks[index]? = some task ∧ K task.id

def Unhurried (K : Nat → Prop) (s : State) : Prop :=
  ∀ (i : Nat) (t : Task), s.tasks[i]? = some t → t.wakeTick ≠ 0 →
    t.status = .sleeping ∨ (t.status = .waiting ∧ K t.waitingFor)

theorem Clash.move (h : s.Clash K) (hs : s.Consistent) (hmove : Move action s s') : s'.Clash K := by
  obtain ⟨index, task, htask, hkey⟩ := h
  obtain ⟨task', htask', hchange⟩ := hs.seated.change hs.homed hmove htask
  refine ⟨index, task', htask', ?_⟩
  rw [hchange.id_eq]
  exact hkey

theorem Unhurried.move (h : s.Unhurried K) (hs : s.Consistent) (hmove : Move action s s')
    (hkey : ∀ key, action.key = some key → K key) : s'.Clash K ∨ s'.Unhurried K := by
  by_cases hclash : s'.Clash K
  · exact .inl hclash
  refine .inr fun i t ht htick => ?_
  rcases hs.origin hmove ht with ⟨t0, ht0, hchange⟩ | ⟨cpu, hnew⟩
  · cases hchange with
    | same | saved | droppedFiles =>
      have hbefore := h i _ ht0 htick
      exact hbefore
    | timedOut | signalled | entered => exact absurd rfl htick
    | joined _ hwaiting hid _ _ _ hafter =>
      rcases h i _ ht0 htick with hsleeping | ⟨_, hK⟩
      · rw [hwaiting] at hsleeping
        cases hsleeping
      · rw [hid] at hK
        exact absurd ⟨_, _, hafter, hK⟩ hclash
    | left =>
      refine (h i _ ht0 htick).imp ?_ ?_
      · intro hsleeping
        simp [State.left, hsleeping]
      · rintro ⟨hwaiting, hK⟩
        exact ⟨by simp [State.left, hwaiting], hK⟩
    | waitedEvent haction => exact .inr ⟨rfl, hkey _ (by rw [haction]; rfl)⟩
    | slept => exact .inl rfl
    | handedOver hstatus | exited _ hstatus | waited _ hstatus | released _ hstatus =>
      have hbefore := h i _ ht0 htick
      simp [hstatus] at hbefore
  · exact absurd hnew.wakeTick htick

theorem unhurried_start (kernelRoot : Nat) : (start kernelRoot).Unhurried K := by
  intro i t ht htick
  cases i with
  | zero =>
    cases ht
    exact absurd rfl htick
  | succ => simp [start, init, enterIdle] at ht

def created (actions : List Action) : Nat := actions.countP fun action => action.bottom.isSome

structure Ledger (K : Nat → Prop) (n : Nat) (s : State) : Prop where
  consistent : s.Consistent
  numbered : s.Numbered n
  unhurried : s.Unhurried K

theorem ledger_start (kernelRoot : Nat) : (start kernelRoot).Ledger K 0 :=
  ⟨consistent_start kernelRoot, numbered_start kernelRoot, unhurried_start kernelRoot⟩

theorem move_create (hsome : action.bottom.isSome) (s : State) : Move action s (s.step action) := by
  cases action with
  | addUser online bottom userRsp addressSpace files =>
    exact move_addUser online bottom userRsp addressSpace files s
  | addKernel online bottom bytes => exact move_addKernel online bottom bytes s
  | _ => cases hsome

section Rules
variable {I : State → Prop} {actions : List Action}

theorem Clash.run (h : s.Clash K) (hs : s.Consistent) (actions : List Action) :
    (s.run actions).Clash K := by
  induction actions generalizing s with
  | nil => exact h
  | cons action _ ih =>
    have hstep := hs.preserve (I := State.Clash K) action (fun s1 s2 hs1 hmove hclash => hclash.move
      hs1 hmove) h
    exact ih hstep.2.2.2 (hs.step action)

theorem Ledger.step (h : s.Ledger K n) (hkey : ∀ key, action.key = some key → K key)
    (hroom : n + created [action] < 2 ^ 64)
    (hmove : ∀ s1 s2, s1.Consistent → s1.Distinct → Move action s1 s2 → I s1 → s2.Clash K ∨ I s2)
    (hI : I s) :
    (s.step action).Clash K ∨ ((s.step action).Ledger K (n + created [action])
      ∧ I (s.step action)) := by
  cases hcreate : action.bottom.isSome with
  | true =>
    have hone : created [action] = 1 := by simp [created, hcreate]
    rw [hone] at hroom ⊢
    have hstep := move_create hcreate s
    rcases h.unhurried.move h.consistent hstep hkey with hclash | hunhurried
    · exact .inl hclash
    refine (hmove _ _ h.consistent h.numbered.distinct hstep hI).imp_right fun hI' =>
      ⟨⟨?_, ?_, ?_⟩, hI'⟩
    · exact h.consistent.step action
    · exact h.numbered.create hroom (by simpa using Option.isSome_iff_ne_none.mp hcreate)
    · exact hunhurried
  | false =>
    have hnone : action.bottom = none := by simpa using hcreate
    have hzero : created [action] = 0 := by simp [created, hcreate]
    rw [hzero]
    have hmoved := h.consistent.preserve (I := fun s1 => s1.Clash K
      ∨ (s1.Numbered n ∧ s1.Unhurried K ∧ I s1)) action
      (fun s1 s2 hs1 hm hold => ?_) (.inr ⟨h.numbered, h.unhurried, hI⟩)
    · refine hmoved.2.2.2.imp_right fun ⟨hnumbered, hunhurried, hI'⟩ =>
        ⟨⟨?_, hnumbered, hunhurried⟩, hI'⟩
      exact h.consistent.step action
    rcases hold with hclash | ⟨hnumbered, hunhurried, hI1⟩
    · exact .inl (hclash.move hs1 hm)
    rcases hunhurried.move hs1 hm hkey with hclash | hunhurried'
    · exact .inl hclash
    · exact (hmove s1 s2 hs1 hnumbered.distinct hm hI1).imp_right fun hI2 =>
        ⟨hnumbered.move hs1 hm hnone, hunhurried', hI2⟩

theorem Ledger.run (h : s.Ledger K n)
    (hkey : ∀ action ∈ actions, ∀ key, action.key = some key → K key)
    (hroom : n + created actions < 2 ^ 64)
    (hmove : ∀ action s1 s2, (∀ key, action.key = some key → K key) → s1.Consistent → s1.Distinct →
      Move action s1 s2 → I s1 → s2.Clash K ∨ I s2) (hI : I s) : (s.run actions).Clash K
    ∨ ((s.run actions).Ledger K (n + created actions) ∧ I (s.run actions)) := by
  induction actions generalizing s n with
  | nil => exact .inr ⟨h, hI⟩
  | cons action actions ih =>
    have hsplit : created (action :: actions) = created [action] + created actions := by
      unfold created
      rw [countP_cons, countP_singleton]
      omega
    have hfirst := hkey action mem_cons_self
    rw [hsplit] at hroom ⊢
    rcases h.step hfirst (by omega) (fun s1 s2 hs1 hd hm hI1 => hmove action s1 s2 hfirst hs1 hd hm
      hI1) hI
      with hclash | ⟨hledger, hI'⟩
    · exact .inl (hclash.run (h.consistent.step action) actions)
    · rw [← Nat.add_assoc]
      exact ih hledger (fun a ha => hkey a (mem_cons_of_mem _ ha)) (by omega) hI'

end Rules

/-- No id is the key of an event of the run, and the ids do not start again. -/
structure Unmistakable (kernelRoot : Nat) (actions : List Action) : Prop where
  keys : ∀ action ∈ actions, ∀ key, action.key = some key →
    ∀ task ∈ ((start kernelRoot).run actions).tasks, task.id ≠ key
  ids : created actions < 2 ^ 64

section Unmistakable
variable {kernelRoot : Nat} {first second : List Action}

def Keys (actions : List Action) (key : Nat) : Prop := ∃ action ∈ actions, action.key = some key

theorem created_append (first second : List Action) :
    created (first ++ second) = created first + created second := countP_append

theorem Unmistakable.not_clash {actions : List Action} (h : Unmistakable kernelRoot actions) :
    ¬ ((start kernelRoot).run actions).Clash (Keys actions) := by
  intro ⟨index, task, htask, action, haction, hkey⟩
  exact h.keys action haction _ hkey task (mem_of_getElem? htask) rfl

variable (h : Unmistakable kernelRoot (first ++ second))
include h

theorem Unmistakable.ledger :
    ((start kernelRoot).run first).Ledger (Keys (first ++ second)) (created first) := by
  have hroom := h.ids
  rw [created_append] at hroom
  have hrun := (ledger_start (K := Keys (first ++ second)) kernelRoot).run (I := fun _ => True)
    (fun action haction key hkey => ⟨action, mem_append_left _ haction, hkey⟩) (by omega)
    (fun _ _ _ _ _ _ _ _ => .inr trivial) trivial
  rcases hrun with hclash | ⟨hledger, _⟩
  · refine absurd ?_ h.not_clash
    rw [run_append]
    exact hclash.run ((consistent_start kernelRoot).run first) second
  · rwa [Nat.zero_add] at hledger

theorem Unmistakable.preserve {I : State → Prop}
    (hmove : ∀ action s1 s2, (∀ key, action.key = some key → Keys (first ++ second) key) →
      s1.Consistent → s1.Distinct → Move action s1 s2 → I s1 → s2.Clash (Keys (first ++ second))
      ∨ I s2) (hI : I ((start kernelRoot).run first)) :
    I ((start kernelRoot).run (first ++ second)) := by
  have hroom := h.ids
  rw [created_append] at hroom
  have hrun := h.ledger.run (fun action haction key hkey => ⟨action, mem_append_right _ haction,
    hkey⟩) hroom hmove hI
  rw [← run_append] at hrun
  exact (hrun.resolve_left h.not_clash).2

end Unmistakable

end State

end Kaguya.Scheduler
