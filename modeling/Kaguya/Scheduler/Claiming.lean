import Kaguya.Scheduler.Steps
import Mathlib.Data.List.Perm.Subperm

/-!
# Claiming a task

`claim_local` goes through the processor's own queue, `steal` through the longest of the others.
What they find is ready and on no processor; the queues lose it and nothing else that is ready.
-/

namespace Kaguya.Scheduler

open List

namespace State

variable {s s' : State} {cpu index next : Nat} {task : Task}

theorem getElem?_update (index i : Nat) (f : Task → Task) (s : State) :
    (s.update index f).tasks[i]? = if index = i then (s.tasks[i]?).map f else s.tasks[i]? := by
  rw [update_tasks, List.getElem?_modify]
  by_cases hi : index = i
  · simp [hi]
  · simp [hi]

variable {f : Task → Task} {i position : Nat} {found : Nat × Nat}

theorem getElem?_update_self (htask : s.tasks[index]? = some task) :
    (s.update index f).tasks[index]? = some (f task) := by
  rw [getElem?_update, if_pos rfl, htask, Option.map_some]

theorem getElem?_update_of_ne (hi : i ≠ index) : (s.update index f).tasks[i]? = s.tasks[i]? := by
  rw [getElem?_update, if_neg (Ne.symm hi)]

theorem getElem?_addTask_self (cpu : Nat) (task : Task) (s : State) :
    (s.addTask cpu task).tasks[s.tasks.length]? = some task := by
  simp [addTask, enqueue]

theorem getElem?_addTask_of_ne (hi : i ≠ s.tasks.length) :
    (s.addTask cpu task).tasks[i]? = s.tasks[i]? := by
  simp only [addTask, enqueue, setQueue_tasks]
  rcases Nat.lt_or_gt_of_ne hi with hlt | hgt
  · rw [List.getElem?_append_left hlt]
  · rw [List.getElem?_eq_none (by simp; omega), List.getElem?_eq_none (by omega)]

theorem statusOf_of_getElem? (htask : s.tasks[index]? = some task) :
    s.statusOf index = task.status := by
  simp [statusOf, htask]

theorem statusOf_congr (htasks : s'.tasks[index]? = s.tasks[index]?) :
    s'.statusOf index = s.statusOf index := by
  simp [statusOf, htasks]

theorem exists_of_statusOf (h : s.statusOf index ≠ .zombie) :
    ∃ task, s.tasks[index]? = some task ∧ task.status = s.statusOf index := by
  cases htask : s.tasks[index]? with
  | none => simp [statusOf, htask] at h
  | some task => exact ⟨task, rfl, (statusOf_of_getElem? htask).symm⟩

theorem waitsFor_iff {key : Nat} : s.waitsFor key index = true ↔
    ∃ task, s.tasks[index]? = some task ∧ task.status = .waiting ∧ task.waitingFor = key := by
  unfold waitsFor
  cases s.tasks[index]? with
  | none => simp
  | some => simp

theorem published_eq_true : s.published index = true ↔ ∃ cpu < 64, s.current cpu = some index := by
  simp [published]

theorem claimLoop_queue (tasks : List Task) (remaining : Nat) (queue : List Nat) :
    ((claimLoop tasks remaining queue).1.toList ++ (claimLoop tasks remaining queue).2).Subperm
      queue
    ∧ ∀ index ∈ queue, (∃ task, tasks[index]? = some task ∧ task.status = .ready) →
      index ∈ (claimLoop tasks remaining queue).1.toList
        ++ (claimLoop tasks remaining queue).2 := by
  induction remaining generalizing queue with
  | zero => exact ⟨List.Subperm.refl _, fun _ hindex _ => hindex⟩
  | succ remaining ih =>
    cases queue with
    | nil => exact ⟨List.Subperm.refl _, fun _ hindex _ => hindex⟩
    | cons first queue =>
      have hdrop : (∀ task, tasks[first]? = some task → task.status ≠ .ready) →
            ((claimLoop tasks remaining queue).1.toList
            ++ (claimLoop tasks remaining queue).2).Subperm (first :: queue)
          ∧ ∀ index ∈ first :: queue, (∃ task, tasks[index]? = some task ∧ task.status = .ready) →
            index ∈ (claimLoop tasks remaining queue).1.toList
            ++ (claimLoop tasks remaining queue).2 := by
        intro hfirst
        obtain ⟨hsub, hkept⟩ := ih queue
        refine ⟨hsub.trans (sublist_cons_self first queue).subperm, ?_⟩
        intro index hindex hready
        rcases mem_cons.mp hindex with heq | hmem
        · obtain ⟨task, htask, hstatus⟩ := hready
          exact absurd hstatus (hfirst task (heq ▸ htask))
        · exact hkept index hmem hready
      rw [claimLoop]
      split
      · apply hdrop
        simp_all
      split
      · split
        · -- still on a processor: it goes to the end of the queue
          obtain ⟨hsub, hkept⟩ := ih (queue ++ [first])
          have hperm : (queue ++ [first]).Perm (first :: queue) := perm_append_singleton ..
          exact ⟨hsub.trans hperm.subperm,
            fun index hindex => hkept index (hperm.mem_iff.mpr hindex)⟩
        · exact ⟨List.Subperm.refl _, fun _ hindex _ => hindex⟩
      · apply hdrop
        simp_all

variable {tasks : List Task} {queue : List Nat}

theorem claimLoop_found {remaining : Nat} (h : (claimLoop tasks remaining queue).1 = some index) :
    ∃ task, tasks[index]? = some task ∧ task.status = .ready ∧ task.onCpu = false := by
  induction remaining generalizing queue with
  | zero => cases h
  | succ remaining ih =>
    cases queue with
    | nil => cases h
    | cons first queue =>
      rw [claimLoop] at h
      split at h
      · exact ih h
      rename_i task htask
      split at h
      · rename_i hready
        split at h
        · exact ih h
        · rename_i hfree
          cases h
          exact ⟨task, htask, hready, by simpa using hfree⟩
      · exact ih h

structure Searched (s : State) (queues : Nat → List Nat) : Prop where
  sub : ∀ q, (queues q).Subperm (s.queues q)
  kept : ∀ q i, i ∈ s.queues q → s.statusOf i = .ready → i ∈ queues q

structure Claimed (cpu next : Nat) (task : Task) (s : State) (queues : Nat → List Nat) : Prop where
  found : s.tasks[next]? = some task
  ready : task.status = .ready
  free : task.onCpu = false
  sub : ∀ q, (queues q).Subperm (s.queues q)
  source : ∃ q, (next :: queues q).Subperm (s.queues q) ∧ (q = cpu ∨ task.pinned = none)
  kept : ∀ q i, i ∈ s.queues q → s.statusOf i = .ready → i ≠ next → i ∈ queues q

def Misses (s : State) (claim : Option Nat × State) : Prop :=
  ∃ queues, claim = (none, { s with queues := queues }) ∧ Searched s queues

def Takes (cpu : Nat) (s : State) (claim : Option Nat × State) : Prop :=
  ∃ next task queues, ∃ affinity : Task → Nat, Claimed cpu next task s queues
    ∧ claim = (some next, ({ s with queues := queues }).update next fun t =>
      { t with status := .claimed, affinity := affinity t })

theorem ready_iff :
    s.statusOf index = .ready ↔ ∃ task, s.tasks[index]? = some task ∧ task.status = .ready := by
  unfold statusOf
  cases s.tasks[index]? with
  | none => simp
  | some => simp

theorem claimLocal_cases (cpu : Nat) (s : State) :
    Misses s (s.claimLocal cpu) ∨ Takes cpu s (s.claimLocal cpu) := by
  obtain ⟨hsub, hkept⟩ := claimLoop_queue s.tasks (s.queues cpu).length (s.queues cpu)
  unfold claimLocal
  dsimp only
  cases hclaim : (claimLoop s.tasks (s.queues cpu).length (s.queues cpu)).1 with
  | none =>
    rw [hclaim] at hsub hkept
    refine .inl ⟨_, rfl, fun q => ?_, fun q i hi hready => ?_⟩
    · by_cases hq : q = cpu
      · simpa [hq] using hsub
      · simpa [hq] using List.Subperm.refl (s.queues q)
    by_cases hq : q = cpu
    · rw [hq] at hi
      simpa [hq] using hkept i hi (ready_iff.mp hready)
    · simpa [hq] using hi
  | some next =>
    rw [hclaim] at hsub hkept
    obtain ⟨task, htask, hstatus, hfree⟩ := claimLoop_found hclaim
    refine .inr ⟨next, task, _, Task.affinity, ⟨htask, hstatus, hfree, fun q => ?_, ?_,
      fun q i hi hready hne => ?_⟩, rfl⟩
    · by_cases hq : q = cpu
      · simpa [hq] using (sublist_cons_self ..).subperm.trans hsub
      · simpa [hq] using List.Subperm.refl (s.queues q)
    · exact ⟨cpu, by simpa using hsub, .inl rfl⟩
    by_cases hq : q = cpu
    · rw [hq] at hi
      have hmem := hkept i hi (ready_iff.mp hready)
      simpa [hq, hne] using hmem
    · simpa [hq] using hi

theorem stealScan_stealable (h : stealScan tasks queue position = some found) :
    stealable tasks found.2 = true := by
  induction position with
  | zero => cases h
  | succ _ ih =>
    rw [stealScan] at h
    split at h
    · split at h
      · cases h
        assumption
      · exact ih h
    · exact ih h

theorem stealScan_position (h : stealScan tasks queue position = some found) :
    queue[found.1]? = some found.2 := by
  induction position with
  | zero => cases h
  | succ _ ih =>
    rw [stealScan] at h
    split at h
    · split at h
      · cases h
        assumption
      · exact ih h
    · exact ih h

theorem steal_cases (online cpu : Nat) (s : State) :
    Misses s (s.steal online cpu) ∨ Takes cpu s (s.steal online cpu) := by
  have hnothing : Misses s (none, s) :=
    ⟨s.queues, rfl, fun _ => List.Subperm.refl _, fun _ _ hi _ => hi⟩
  unfold steal
  split
  · exact .inl hnothing
  rename_i other _
  dsimp only
  split
  · split
    · rename_i position next hscan
      have hstealable : stealable s.tasks next = true := stealScan_stealable hscan
      have hfound : (s.queues other)[position]? = some next := stealScan_position hscan
      obtain ⟨hposition, hnext⟩ := List.getElem?_eq_some_iff.mp hfound
      have hperm : (next :: (s.queues other).eraseIdx position).Perm (s.queues other) := by
        rw [← hnext]
        exact getElem_cons_eraseIdx_perm hposition
      unfold stealable at hstealable
      cases htask : s.tasks[next]? with
      | none => simp [htask] at hstealable
      | some task =>
        simp only [htask, Bool.and_eq_true, decide_eq_true_eq, Option.isNone_iff_eq_none,
          Bool.not_eq_true'] at hstealable
        obtain ⟨⟨hstatus, hpinned⟩, hfree⟩ := hstealable
        refine .inr ⟨next, task, _, fun _ => cpu, ⟨htask, hstatus, hfree, fun q => ?_, ?_,
          fun q i hi hready hne => ?_⟩, rfl⟩
        · by_cases hq : q = other
          · simpa [hq] using (sublist_cons_self ..).subperm.trans hperm.subperm
          · simpa [hq] using List.Subperm.refl (s.queues q)
        · exact ⟨other, by simpa using hperm.subperm, .inr hpinned⟩
        by_cases hq : q = other
        · rw [hq] at hi
          have hmem := hperm.mem_iff.mpr hi
          simpa [hq, hne] using hmem
        · simpa [hq] using hi
    · exact .inl hnothing
  · exact .inl hnothing

/-- **Claiming.** Either nothing is found, or a task that is ready and on no processor. -/
theorem claim_cases (online cpu : Nat) (s : State) :
    Misses s (s.claim online cpu) ∨ Takes cpu s (s.claim online cpu) := by
  unfold claim
  rcases claimLocal_cases cpu s with ⟨queues, hclaim, hlocal⟩ | ⟨next, task, queues, affinity,
    hlocal, hclaim⟩
  · rw [hclaim]
    dsimp only
    rcases steal_cases online cpu { s with queues := queues } with
      ⟨queues', hsteal, hother⟩ | ⟨next, task, queues', affinity, hother, hsteal⟩
    · rw [hsteal]
      exact .inl ⟨queues', rfl, fun q => (hother.sub q).trans (hlocal.sub q),
        fun q i hi hready => hother.kept q i (hlocal.kept q i hi hready) hready⟩
    rw [hsteal]
    obtain ⟨q, hsource, hpinned⟩ := hother.source
    exact .inr ⟨next, task, queues', affinity, ⟨hother.found, hother.ready, hother.free,
      fun q => (hother.sub q).trans (hlocal.sub q), ⟨q, hsource.trans (hlocal.sub q), hpinned⟩,
      fun q i hi hready => hother.kept q i (hlocal.kept q i hi hready) hready⟩, rfl⟩
  · rw [hclaim]
    exact .inr ⟨next, task, queues, affinity, hlocal, rfl⟩

end State

end Kaguya.Scheduler
