import Kaguya.Shared.Counting

/-!
# Ownership is exact

The two counts are those of the handles, with one weak count more until the strong handles' own has
been given back; the threads inside `drop` account for the stages of destruction that are not over.
Both follow from the sums over all threads, which one step moves in one thread.
-/

namespace Kaguya.Shared

open Function

namespace Thread

variable (thread : Thread)

def destroying : Nat := if thread.point = .destroying then 1 else 0

def releasing : Nat := if thread.point = .releasing then 1 else 0

def freeing : Nat := if thread.point = .freeing then 1 else 0

/-- A thread inside `upgrade` owns the handle it upgrades, and never swaps a count of 0. -/
def Borrows : Prop :=
  match thread.point with
  | .loading => 0 < thread.weak
  | .swapping count => 0 < thread.weak ∧ 0 < count ∧ count < LIMIT
  | _ => True

theorem borrows_of_idle {thread : Thread} (hidle : thread.point = .idle) : thread.Borrows := by
  simp [Borrows, hidle]

theorem Borrows.more {thread thread' : Thread} (h : thread.Borrows)
    (hpoint : thread'.point = thread.point) (hweak : thread.weak ≤ thread'.weak) :
    thread'.Borrows := by
  unfold Borrows at *
  rw [hpoint]
  cases hcase : thread.point with
  | loading =>
    rw [hcase] at h
    exact Nat.lt_of_lt_of_le h hweak
  | swapping =>
    rw [hcase] at h
    exact ⟨Nat.lt_of_lt_of_le h.1 hweak, h.2⟩
  | _ => trivial

end Thread

namespace World

variable {n : Nat} {world : World n} {t : Fin n}

/-- How the counts and the record of the destruction follow from the numbers of handles and of
threads at each stage of `drop`. -/
structure Balances (world : World n) (strong weak destroying releasing freeing : Nat) : Prop where
  references : world.references = strong
  weak : world.weak + world.released = weak + 1
  destroyed : world.destroyed = 1 - strong
  destroying : world.destroyed = destroying + world.finished
  releasing : world.finished = releasing + world.released
  freed : world.freed + freeing = 1 - world.weak

structure Exact (world : World n) : Prop where
  running : world.panicked = false
  balances : world.Balances world.strongHandles world.weakHandles
    (tally Thread.destroying world.threads) (tally Thread.releasing world.threads)
    (tally Thread.freeing world.threads)
  borrows : ∀ t, (world.threads t).Borrows

theorem Exact.move {world' : World n} (h : world.Exact) (t : Fin n) (thread : Thread)
    (hthreads : world'.threads = update world.threads t thread) (hrunning : world'.panicked = false)
    (hborrows : thread.Borrows)
    (hbalances : ∀ strong weak destroying releasing freeing, strong + (world.threads t).strong
      = world.strongHandles + thread.strong → weak + (world.threads t).weak = world.weakHandles
      + thread.weak → destroying + (world.threads t).destroying = tally Thread.destroying
      world.threads + thread.destroying → releasing + (world.threads t).releasing
      = tally Thread.releasing world.threads + thread.releasing →
      freeing + (world.threads t).freeing = tally Thread.freeing world.threads + thread.freeing →
      world'.Balances strong weak destroying releasing freeing) : world'.Exact := by
  constructor
  case running => exact hrunning
  case balances =>
    rw [strongHandles, weakHandles, hthreads]
    apply hbalances <;> exact tally_update ..
  case borrows =>
    intro u
    rw [hthreads]
    by_cases hu : u = t
    · rw [hu, update_self]
      exact hborrows
    · rw [update_of_ne hu]
      exact h.borrows u

variable {point : Point} {giver : Fin n} {before after : Thread}

/-- A step that moves handles only: no thread enters or leaves a stage of the destruction. -/
theorem Exact.exchange {references weak strong borrowed : Nat} (h : world.Exact)
    (hborrows : Thread.Borrows ⟨strong, borrowed, point⟩)
    (hstages : Thread.destroying ⟨strong, borrowed, point⟩ = (world.threads t).destroying
      ∧ Thread.releasing ⟨strong, borrowed, point⟩ = (world.threads t).releasing
      ∧ Thread.freeing ⟨strong, borrowed, point⟩ = (world.threads t).freeing)
    (hstrong : references + (world.threads t).strong = world.references + strong)
    (hnone : 1 - references = 1 - world.references)
    (hweak : weak + (world.threads t).weak = world.weak + borrowed)
    (hlast : 1 - weak = 1 - world.weak) :
    ({ world with references, weak }.setThread t ⟨strong, borrowed, point⟩).Exact := by
  have hbalances := h.balances
  apply h.move t
  case hthreads => rfl
  case hrunning => exact h.running
  case hborrows => exact hborrows
  case hbalances =>
    intro strongHandles weakHandles destroying releasing freeing hs hw hd hr hf
    rw [hstages.1] at hd
    rw [hstages.2.1] at hr
    rw [hstages.2.2] at hf
    obtain rfl := Nat.add_right_cancel hd
    obtain rfl := Nat.add_right_cancel hr
    obtain rfl := Nat.add_right_cancel hf
    have hcounted : references = strongHandles := by
      have hreferences := hbalances.references
      dsimp only at hs
      omega
    constructor
    case references => exact hcounted
    case weak =>
      change weak + world.released = weakHandles + 1
      have hold := hbalances.weak
      dsimp only at hw
      omega
    case destroyed => rw [← hcounted, hnone, hbalances.references]; exact hbalances.destroyed
    case destroying => exact hbalances.destroying
    case releasing => exact hbalances.releasing
    case freed => exact hbalances.freed.trans hlast.symm

variable (h : world.Exact)

section

include h

theorem Exact.references_lt (hfew : world.Few) : world.references < 2 ^ 62 := by
  have hreferences := h.balances.references
  unfold Few at hfew
  omega

theorem Exact.weak_le (hfew : world.Few) : world.weak ≤ 2 ^ 62 := by
  have hweak := h.balances.weak
  unfold Few at hfew
  omega

end

theorem strong_le (world : World n) (t : Fin n) : (world.threads t).strong ≤ world.strongHandles :=
  le_tally Thread.strong world.threads t

theorem weak_le (world : World n) (t : Fin n) : (world.threads t).weak ≤ world.weakHandles :=
  le_tally Thread.weak world.threads t

section

include h

theorem Exact.clone (hfew : world.Few) (howns : 0 < (world.threads t).strong) :
    (world.clone t).Exact := by
  obtain ⟨hreferences, hweak, hdestroyed, hdestroying, hreleasing, hfreed⟩ := h.balances
  have hlt := h.references_lt hfew
  have hle := world.strong_le t
  have hroom : ¬ world.references ≥ LIMIT := by
    unfold LIMIT
    omega
  have hnext : addOne world.references = world.references + 1 := addOne_of_lt (by omega)
  simp only [World.clone, if_neg hroom, hnext]
  apply h.exchange
  · exact h.borrows t
  · exact ⟨rfl, rfl, rfl⟩
  all_goals omega

theorem Exact.addWeak (hfew : world.Few) (hcounted : 0 < world.weak)
    (hidle : (world.threads t).point = .idle) : (world.addWeak t).Exact := by
  have hle := h.weak_le hfew
  have hroom : ¬ world.weak ≥ LIMIT := by
    unfold LIMIT
    omega
  have hnext : addOne world.weak = world.weak + 1 := addOne_of_lt (by omega)
  simp only [World.addWeak, if_neg hroom, hnext]
  apply h.exchange
  · exact Thread.borrows_of_idle hidle
  · exact ⟨rfl, rfl, rfl⟩
  all_goals omega

theorem Exact.dropLast (hidle : (world.threads t).point = .idle)
    (howns : 0 < (world.threads t).strong) (hlast : world.references = 1) :
    (world.drop t).Exact := by
  obtain ⟨hreferences, hweak, hdestroyed, hdestroying, hreleasing, hfreed⟩ := h.balances
  simp only [World.drop, if_pos hlast]
  apply h.move t ⟨(world.threads t).strong - 1, (world.threads t).weak, .destroying⟩
  case hthreads => simp [World.goTo, setThread]
  case hrunning => exact h.running
  case hborrows => trivial
  case hbalances =>
    intro strong weak destroying releasing freeing hs hw hd hr hf
    simp only [Thread.destroying, Thread.releasing, Thread.freeing, hidle, reduceCtorEq,
      if_true, if_false, Nat.add_zero] at hs hd hr hf
    obtain rfl := Nat.add_right_cancel hw
    subst hd hr hf
    obtain rfl : strong = 0 := by omega
    constructor
    case references =>
      rw [hlast]
      rfl
    case weak => exact hweak
    case destroyed =>
      change world.destroyed + 1 = 1
      omega
    case destroying =>
      change world.destroyed + 1 = tally Thread.destroying world.threads + 1 + world.finished
      omega
    case releasing => exact hreleasing
    case freed => exact hfreed

theorem Exact.drop (hidle : (world.threads t).point = .idle)
    (howns : 0 < (world.threads t).strong) : (world.drop t).Exact := by
  by_cases hlast : world.references = 1
  · exact h.dropLast hidle howns hlast
  obtain ⟨hreferences, hweak, hdestroyed, hdestroying, hreleasing, hfreed⟩ := h.balances
  have hle := world.strong_le t
  have hprevious : subOne world.references = world.references - 1 := subOne_of_pos (by omega)
  simp only [World.drop, if_neg hlast, hprevious]
  apply h.exchange
  · exact Thread.borrows_of_idle hidle
  · exact ⟨rfl, rfl, rfl⟩
  all_goals omega

end

theorem subWeak_eq (world : World n) (t : Fin n) (thread : Thread) :
    (world.setThread t thread).subWeak t = { world.setThread t
      { thread with point := if world.weak = 1 then .freeing else .idle } with
      weak := subOne world.weak } := by
  by_cases hlast : world.weak = 1 <;> simp [subWeak, World.goTo, setThread, hlast]

variable {strong weak : Nat} {receiver : Fin n} {action : Action n}

theorem freeing_subWeak (hcounted : 0 < world.weak)
    (hfreed : world.freed + tally Thread.freeing world.threads = 1 - world.weak) :
    world.freed + (tally Thread.freeing world.threads
        + Thread.freeing ⟨strong, weak, if world.weak = 1 then .freeing else .idle⟩)
      = 1 - (world.weak - 1) := by
  by_cases hlast : world.weak = 1
  · simp only [Thread.freeing, hlast, if_true]
    omega
  · simp only [Thread.freeing, hlast, if_false, reduceCtorEq]
    omega

theorem borrows_subWeak :
    Thread.Borrows ⟨strong, weak, if world.weak = 1 then .freeing else .idle⟩ := by
  by_cases hlast : world.weak = 1 <;> simp [Thread.Borrows, hlast]

theorem destroying_subWeak :
    Thread.destroying ⟨strong, weak, if world.weak = 1 then .freeing else .idle⟩ = 0
      ∧ Thread.releasing ⟨strong, weak, if world.weak = 1 then .freeing else .idle⟩ = 0 := by
  by_cases hlast : world.weak = 1 <;> simp [Thread.destroying, Thread.releasing, hlast]

theorem Exact.dropWeak (h : world.Exact) (hidle : (world.threads t).point = .idle)
    (howns : 0 < (world.threads t).weak) : (world.dropWeak t).Exact := by
  obtain ⟨hreferences, hweak, hdestroyed, hdestroying, hreleasing, hfreed⟩ := h.balances
  have hle := world.weak_le t
  have hcounted : 0 < world.weak := by omega
  rw [World.dropWeak, subWeak_eq, subOne_of_pos hcounted]
  apply h.move t
  case hthreads => rfl
  case hrunning => exact h.running
  case hborrows => exact borrows_subWeak
  case hbalances =>
    intro strong weak destroying releasing freeing hs hw hd hr hf
    have hthread : (world.threads t).destroying = 0 ∧ (world.threads t).releasing = 0
        ∧ (world.threads t).freeing = 0 := by
      simp [Thread.destroying, Thread.releasing, Thread.freeing, hidle]
    obtain rfl := Nat.add_right_cancel hs
    rw [hthread.1, destroying_subWeak.1] at hd
    rw [hthread.2.1, destroying_subWeak.2] at hr
    rw [hthread.2.2] at hf
    subst hd hr hf
    constructor
    case references => exact hreferences
    case weak =>
      change world.weak - 1 + world.released = weak + 1
      dsimp only at hw
      omega
    case destroyed => exact hdestroyed
    case destroying => exact hdestroying
    case releasing => exact hreleasing
    case freed => exact freeing_subWeak hcounted hfreed

section

include h

theorem Exact.destroyed (hpoint : (world.threads t).point = .destroying) :
    { world.goTo t .releasing with finished := world.finished + 1 }.Exact := by
  obtain ⟨hreferences, hweak, hdestroyed, hdestroying, hreleasing, hfreed⟩ := h.balances
  apply h.move t
  case hthreads => rfl
  case hrunning => exact h.running
  case hborrows => trivial
  case hbalances =>
    intro strong weak destroying releasing freeing hs hw hd hr hf
    simp only [Thread.destroying, Thread.releasing, Thread.freeing, hpoint, reduceCtorEq,
      if_true, if_false, Nat.add_zero] at hd hr hf
    obtain rfl := Nat.add_right_cancel hs
    obtain rfl := Nat.add_right_cancel hw
    subst hr hf
    constructor
    case references => exact hreferences
    case weak => exact hweak
    case destroyed => exact hdestroyed
    case destroying =>
      change world.destroyed = destroying + (world.finished + 1)
      omega
    case releasing =>
      change world.finished + 1 = tally Thread.releasing world.threads + 1 + world.released
      omega
    case freed => exact hfreed

theorem Exact.released (hpoint : (world.threads t).point = .releasing) :
    { world.subWeak t with released := world.released + 1 }.Exact := by
  obtain ⟨hreferences, hweak, hdestroyed, hdestroying, hreleasing, hfreed⟩ := h.balances
  have hstage : (world.threads t).releasing ≤ tally Thread.releasing world.threads :=
    le_tally Thread.releasing world.threads t
  have hthread : (world.threads t).destroying = 0 ∧ (world.threads t).releasing = 1
      ∧ (world.threads t).freeing = 0 := by
    simp [Thread.destroying, Thread.releasing, Thread.freeing, hpoint]
  -- at most one destructor ever ran, so the count is still there to be given back
  have hcounted : 0 < world.weak := by omega
  have hself : world.setThread t (world.threads t) = world := by simp [setThread]
  have hstep := world.subWeak_eq t (world.threads t)
  rw [hself] at hstep
  rw [hstep, subOne_of_pos hcounted]
  apply h.move t
  case hthreads => rfl
  case hrunning => exact h.running
  case hborrows => exact borrows_subWeak
  case hbalances =>
    intro strong weak destroying releasing freeing hs hw hd hr hf
    obtain rfl := Nat.add_right_cancel hs
    obtain rfl := Nat.add_right_cancel hw
    rw [hthread.1, destroying_subWeak.1] at hd
    rw [hthread.2.1, destroying_subWeak.2] at hr
    rw [hthread.2.2] at hf
    subst hd hf
    constructor
    case references => exact hreferences
    case weak =>
      change world.weak - 1 + (world.released + 1) = world.weakHandles + 1
      omega
    case destroyed => exact hdestroyed
    case destroying => exact hdestroying
    case releasing =>
      change world.finished = releasing + (world.released + 1)
      omega
    case freed => exact freeing_subWeak hcounted hfreed

theorem Exact.freed (hpoint : (world.threads t).point = .freeing) :
    { world.goTo t .idle with freed := world.freed + 1 }.Exact := by
  obtain ⟨hreferences, hweak, hdestroyed, hdestroying, hreleasing, hfreed⟩ := h.balances
  apply h.move t
  case hthreads => rfl
  case hrunning => exact h.running
  case hborrows => trivial
  case hbalances =>
    intro strong weak destroying releasing freeing hs hw hd hr hf
    simp only [Thread.destroying, Thread.releasing, Thread.freeing, hpoint, reduceCtorEq,
      if_true, if_false, Nat.add_zero] at hd hr hf
    obtain rfl := Nat.add_right_cancel hs
    obtain rfl := Nat.add_right_cancel hw
    subst hd hr
    constructor
    case references => exact hreferences
    case weak => exact hweak
    case destroyed => exact hdestroyed
    case destroying => exact hdestroying
    case releasing => exact hreleasing
    case freed =>
      change world.freed + 1 + freeing = 1 - world.weak
      omega

theorem Exact.goTo
    (hbefore : (world.threads t).point ≠ .destroying ∧ (world.threads t).point ≠ .releasing
      ∧ (world.threads t).point ≠ .freeing)
    (hpoint : point ≠ .destroying ∧ point ≠ .releasing ∧ point ≠ .freeing)
    (hborrows : Thread.Borrows { world.threads t with point }) : (world.goTo t point).Exact := by
  apply h.exchange hborrows
  · simp [Thread.destroying, Thread.releasing, Thread.freeing, hbefore, hpoint]
  all_goals rfl

theorem Exact.swap {count : Nat} (hpoint : (world.threads t).point = .swapping count)
    (hsame : world.references = count) : ({ world with references := addOne count }.setThread t
      ⟨(world.threads t).strong + 1, (world.threads t).weak, .idle⟩).Exact := by
  have hborrows := h.borrows t
  simp only [Thread.Borrows, hpoint, LIMIT] at hborrows
  have hnext : addOne count = count + 1 := addOne_of_lt (by omega)
  rw [hnext]
  apply h.exchange
  · trivial
  · simp [Thread.destroying, Thread.releasing, Thread.freeing, hpoint]
  all_goals omega

theorem Exact.advance (hfew : world.Few) : (world.advance t).Exact := by
  have hborrows := h.borrows t
  cases hpoint : (world.threads t).point with
  | idle =>
    simp only [World.advance, hpoint]
    exact h
  | destroying =>
    simp only [World.advance, hpoint]
    exact h.destroyed hpoint
  | releasing =>
    simp only [World.advance, hpoint]
    exact h.released hpoint
  | freeing =>
    simp only [World.advance, hpoint]
    exact h.freed hpoint
  | loading =>
    have hlt := h.references_lt hfew
    simp only [Thread.Borrows, hpoint] at hborrows
    simp only [World.advance, hpoint]
    by_cases hnone : world.references = 0
    · rw [if_pos hnone]
      exact h.goTo (by simp [hpoint]) (by simp) trivial
    have hroom : ¬ world.references ≥ LIMIT := by
      unfold LIMIT
      omega
    rw [if_neg hnone, if_neg hroom]
    apply h.goTo (by simp [hpoint]) (by simp)
    exact ⟨hborrows, Nat.pos_of_ne_zero hnone, Nat.lt_of_not_le hroom⟩
  | swapping count =>
    simp only [Thread.Borrows, hpoint] at hborrows
    simp only [World.advance, hpoint]
    by_cases hsame : world.references = count
    · rw [if_pos hsame]
      exact h.swap hpoint hsame
    · rw [if_neg hsame]
      exact h.goTo (by simp [hpoint]) (by simp) hborrows.1

end

theorem tally_give {f : Thread → Nat} (given : Nat)
    (hgiven : f before + given = f (world.threads giver))
    (hreceived : f after = f (update world.threads giver before receiver) + given) :
    tally f (update (update world.threads giver before) receiver after)
      = tally f world.threads := by
  have hfirst := tally_update f world.threads giver before
  have hsecond := tally_update f (update world.threads giver before) receiver after
  omega

theorem Exact.regroup {threads : Fin n → Thread} (h : world.Exact)
    (hstrong : tally Thread.strong threads = world.strongHandles)
    (hweak : tally Thread.weak threads = world.weakHandles)
    (hdestroying : tally Thread.destroying threads = tally Thread.destroying world.threads)
    (hreleasing : tally Thread.releasing threads = tally Thread.releasing world.threads)
    (hfreeing : tally Thread.freeing threads = tally Thread.freeing world.threads)
    (hborrows : ∀ t, (threads t).Borrows) : { world with threads }.Exact := by
  obtain ⟨hreferences, hcounted, hdestroyed, hstarted, hfinished, hfreed⟩ := h.balances
  constructor
  case running => exact h.running
  case balances =>
    simp only [strongHandles, weakHandles] at *
    rw [hstrong, hweak, hdestroying, hreleasing, hfreeing]
    constructor <;> assumption
  case borrows => exact hborrows

section

include h

theorem Exact.borrows_give (hidle : before.point = .idle)
    (hpoint : after.point = (update world.threads giver before receiver).point)
    (hweak : (update world.threads giver before receiver).weak ≤ after.weak) (u : Fin n) :
    (update (update world.threads giver before) receiver after u).Borrows := by
  have hfirst : ∀ u, (update world.threads giver before u).Borrows := by
    intro u
    by_cases hu : u = giver
    · rw [hu, update_self]
      exact Thread.borrows_of_idle hidle
    · rw [update_of_ne hu]
      exact h.borrows u
  by_cases hu : u = receiver
  · rw [hu, update_self]
    exact (hfirst receiver).more hpoint hweak
  · rw [update_of_ne hu]
    exact hfirst u

theorem Exact.give (hidle : (world.threads t).point = .idle)
    (howns : 0 < (world.threads t).strong) : (world.give t receiver).Exact := by
  apply h.regroup
  case hstrong => exact tally_give 1 (Nat.sub_add_cancel howns) rfl
  case hweak => exact tally_give 0 rfl rfl
  case hdestroying => exact tally_give 0 rfl rfl
  case hreleasing => exact tally_give 0 rfl rfl
  case hfreeing => exact tally_give 0 rfl rfl
  case hborrows => exact h.borrows_give hidle rfl (Nat.le_refl _)

theorem Exact.giveWeak (hidle : (world.threads t).point = .idle)
    (howns : 0 < (world.threads t).weak) : (world.giveWeak t receiver).Exact := by
  apply h.regroup
  case hstrong => exact tally_give 0 rfl rfl
  case hweak => exact tally_give 1 (Nat.sub_add_cancel howns) rfl
  case hdestroying => exact tally_give 0 rfl rfl
  case hreleasing => exact tally_give 0 rfl rfl
  case hfreeing => exact tally_give 0 rfl rfl
  case hborrows => exact h.borrows_give hidle rfl (Nat.le_succ _)

theorem Exact.counted (howns : 0 < (world.threads t).strong ∨ 0 < (world.threads t).weak) :
    0 < world.weak := by
  obtain ⟨hreferences, hweak, hdestroyed, hdestroying, hreleasing, hfreed⟩ := h.balances
  have hstrong := world.strong_le t
  have hle := world.weak_le t
  omega

theorem Exact.step (hfew : world.Few) (action : Action n) : (world.step action).Exact := by
  by_cases hallows : world.Allows action
  · rw [World.step, if_pos hallows]
    cases action with
    | clone => exact h.clone hfew hallows.2.2
    | downgrade => exact h.addWeak hfew (h.counted (.inl hallows.2.2)) hallows.2.1
    | drop => exact h.drop hallows.2.1 hallows.2.2
    | deref => exact h
    | upgrade t =>
      have hidle : (world.threads t).point = .idle := hallows.2.1
      apply h.goTo
      · simp [hidle]
      · simp
      · exact hallows.2.2
    | strongCount => exact h
    | cloneWeak => exact h.addWeak hfew (h.counted (.inr hallows.2.2)) hallows.2.1
    | dropWeak => exact h.dropWeak hallows.2.1 hallows.2.2
    | give => exact h.give hallows.2.1 hallows.2.2
    | giveWeak => exact h.giveWeak hallows.2.1 hallows.2.2
    | advance => exact h.advance hfew
  · rwa [World.step, if_neg hallows]

theorem Exact.run (actions : List (Action n)) (hfew : world.FewRun actions) :
    (world.run actions).Exact := by
  induction actions generalizing world with
  | nil => exact h
  | cons action _ ih => exact ih (h.step hfew.1 action) hfew.2

end

theorem Exact.initial (owner : Fin n) : (new owner).Exact := by
  have hsum : ∀ f : Thread → Nat, f ⟨0, 0, .idle⟩ = 0 → tally f (new owner).threads = f ⟨1, 0,
      .idle⟩ := by
    intro f hzero
    have hupdate := tally_update f (fun _ : Fin n => ⟨0, 0, .idle⟩) owner ⟨1, 0, .idle⟩
    have hnone : tally f (fun _ : Fin n => ⟨0, 0, .idle⟩) = 0 := tally_eq_zero.mpr fun _ => hzero
    rw [hzero, hnone, Nat.zero_add] at hupdate
    exact hupdate
  constructor
  case running => rfl
  case balances =>
    rw [strongHandles, weakHandles, hsum _ rfl, hsum _ rfl, hsum _ rfl, hsum _ rfl, hsum _ rfl]
    constructor <;> simp [new, Thread.destroying, Thread.releasing, Thread.freeing]
  case borrows =>
    intro t
    apply Thread.borrows_of_idle
    by_cases ht : t = owner <;> simp [new, ht]

theorem destroyed_subWeak : (world.subWeak t).destroyed = world.destroyed := by
  unfold subWeak
  dsimp only
  split <;> rfl

theorem destroyed_advance : (world.advance t).destroyed = world.destroyed := by
  unfold advance
  split
  · rfl
  · rfl
  · exact destroyed_subWeak
  · rfl
  · dsimp only
    split
    · rfl
    · split <;> rfl
  · split <;> rfl

theorem destroyed_perform (hdrop : ∀ t, action ≠ .drop t) :
    (world.perform action).destroyed = world.destroyed := by
  cases action with
  | drop t => exact absurd rfl (hdrop t)
  | clone =>
    simp only [perform, clone]
    split <;> rfl
  | downgrade =>
    simp only [perform, addWeak]
    split <;> rfl
  | cloneWeak =>
    simp only [perform, addWeak]
    split <;> rfl
  | dropWeak => exact destroyed_subWeak
  | advance => exact destroyed_advance
  | _ => rfl

section

include h

theorem Exact.destroyed_step (hchanged : (world.step action).destroyed ≠ world.destroyed) :
    ∃ t, action = .drop t ∧ world.strongHandles = 1 := by
  by_cases hallows : world.Allows action
  · rw [World.step, if_pos hallows] at hchanged
    by_contra hnone
    have hdrop : ∃ t, action = .drop t := by
      by_contra hother
      exact hchanged (destroyed_perform fun t ht => hother ⟨t, ht⟩)
    obtain ⟨t, rfl⟩ := hdrop
    have hmany : world.references ≠ 1 := by
      intro hlast
      exact hnone ⟨t, rfl, h.balances.references ▸ hlast⟩
    simp [perform, World.drop, if_neg hmany, setThread] at hchanged
  · rw [World.step, if_neg hallows] at hchanged
    exact absurd rfl hchanged

theorem Exact.upgraded
    (hgained : (world.threads t).strong < ((world.step (.advance t)).threads t).strong) :
    world.destroyed = 0 := by
  have hdestroyed := h.balances.destroyed
  have hreferences := h.balances.references
  have hborrows := h.borrows t
  by_cases hallows : world.Allows (.advance t)
  · rw [World.step, if_pos hallows, perform] at hgained
    cases hpoint : (world.threads t).point with
    | swapping count =>
      simp only [Thread.Borrows, hpoint] at hborrows
      simp only [World.advance, hpoint] at hgained
      by_cases hsame : world.references = count
      · omega
      · simp [hsame, World.goTo, setThread] at hgained
    | loading =>
      simp only [World.advance, hpoint] at hgained
      split at hgained
      · simp [World.goTo, setThread] at hgained
      · split at hgained <;> simp [World.goTo, setThread] at hgained
    | releasing =>
      simp only [World.advance, hpoint, subWeak] at hgained
      split at hgained <;> simp [World.goTo, setThread] at hgained
    | _ => simp [World.advance, hpoint, World.goTo, setThread] at hgained
  · rw [World.step, if_neg hallows] at hgained
    exact absurd hgained (Nat.lt_irrefl _)

theorem Exact.kept (htouches : world.Touches action) : world.freed = 0 := by
  obtain ⟨hreferences, hweak, hdestroyed, hdestroying, hreleasing, hfreed⟩ := h.balances
  obtain ⟨hallows, htouched⟩ := htouches
  have howner : ∀ t, 0 < (world.threads t).strong ∨ 0 < (world.threads t).weak →
      world.freed = 0 := by
    intro t howns
    have hcounted := h.counted howns
    omega
  cases action with
  | clone t => exact howner t (.inl hallows.2.2)
  | downgrade t => exact howner t (.inl hallows.2.2)
  | drop t => exact howner t (.inl hallows.2.2)
  | deref t => exact howner t (.inl hallows.2.2)
  | upgrade => exact htouched.elim
  | strongCount t => exact howner t (.inr hallows.2.2)
  | cloneWeak t => exact howner t (.inr hallows.2.2)
  | dropWeak t => exact howner t (.inr hallows.2.2)
  | give => exact htouched.elim
  | giveWeak => exact htouched.elim
  | advance t =>
    have hborrows := h.borrows t
    have hd := le_tally Thread.destroying world.threads t
    have hr := le_tally Thread.releasing world.threads t
    have hf := le_tally Thread.freeing world.threads t
    cases hpoint : (world.threads t).point with
    | idle => exact absurd hpoint hallows.2
    | loading =>
      simp only [Thread.Borrows, hpoint] at hborrows
      exact howner t (.inr hborrows)
    | swapping =>
      simp only [Thread.Borrows, hpoint] at hborrows
      exact howner t (.inr hborrows.1)
    | destroying =>
      simp only [Thread.destroying, hpoint, if_true] at hd
      omega
    | releasing =>
      simp only [Thread.releasing, hpoint, if_true] at hr
      omega
    | freeing =>
      simp only [Thread.freeing, hpoint, if_true] at hf
      omega

theorem Exact.freed_le : world.freed ≤ 1 := by
  have hfreed := h.balances.freed
  omega

theorem Exact.finished_of_freed (hfree : world.freed = 1) :
    world.finished = 1 ∧ world.strongHandles = 0 ∧ world.weakHandles = 0 := by
  obtain ⟨hreferences, hweak, hdestroyed, hdestroying, hreleasing, hfreed⟩ := h.balances
  omega

theorem Exact.freed_of_idle (hidle : ∀ t, (world.threads t).point = .idle)
    (hstrong : world.strongHandles = 0) (hnone : world.weakHandles = 0) : world.freed = 1 := by
  obtain ⟨hreferences, hweak, hdestroyed, hdestroying, hreleasing, hfreed⟩ := h.balances
  have hd : tally Thread.destroying world.threads = 0 := tally_eq_zero.mpr fun t => by
    simp [Thread.destroying, hidle t]
  have hr : tally Thread.releasing world.threads = 0 := tally_eq_zero.mpr fun t => by
    simp [Thread.releasing, hidle t]
  have hf : tally Thread.freeing world.threads = 0 := tally_eq_zero.mpr fun t => by
    simp [Thread.freeing, hidle t]
  omega

end

/-- **Shared ownership is exact.** In every run with fewer than 2⁶² handles the value's destructor
has been started once if no strong handle is left and not at all otherwise, by the drop of the last
strong handle; the storage is freed at most once, with the destructor finished and no handle left,
and has been freed once all handles are gone and all operations over; no step touches freed storage;
and `upgrade` gives a strong handle only before the destructor. -/
theorem ownership_exact {owner : Fin n} (hreached : Reached owner world) :
    world.destroyed = (if world.strongHandles = 0 then 1 else 0)
      ∧ (∀ action, (world.step action).destroyed ≠ world.destroyed →
          ∃ t, action = .drop t ∧ world.strongHandles = 1)
      ∧ world.freed ≤ 1
      ∧ (world.freed = 1 → world.finished = 1 ∧ world.strongHandles = 0 ∧ world.weakHandles = 0)
      ∧ ((∀ t, (world.threads t).point = .idle) → world.strongHandles = 0 →
          world.weakHandles = 0 → world.freed = 1)
      ∧ (∀ action, world.Touches action → world.freed = 0)
      ∧ (∀ t, (world.threads t).strong < ((world.step (.advance t)).threads t).strong →
          world.destroyed = 0)
      ∧ world.panicked = false := by
  obtain ⟨actions, hfew, rfl⟩ := hreached
  have h : ((new owner).run actions).Exact := (Exact.initial owner).run actions hfew
  refine ⟨?_, ?_, h.freed_le, h.finished_of_freed, h.freed_of_idle, ?_, ?_, h.running⟩
  · by_cases hnone : ((new owner).run actions).strongHandles = 0
    · rw [if_pos hnone]
      rw [h.balances.destroyed, hnone]
    · rw [if_neg hnone, h.balances.destroyed]
      omega
  · intro action hchanged
    exact h.destroyed_step hchanged
  · intro action htouches
    exact h.kept htouches
  · intro t hgained
    exact h.upgraded hgained

def first : Fin 2 := ⟨0, Nat.two_pos⟩

def second : Fin 2 := .last 1

/-- The second thread makes a strong handle of a weak one, and the first lets go of its own. -/
def handover : List (Action 2) :=
  [.downgrade first, .giveWeak first second, .upgrade second, .advance second, .advance second,
  .drop first]

def farewell : List (Action 2) :=
  [.drop second, .advance second, .advance second, .dropWeak second, .advance second]

theorem ownership_exact_farewell :
    let world := (new first).run handover
    let last := world.run farewell
    (world.strongHandles = 1 ∧ world.weakHandles = 1 ∧ world.destroyed = 0)
      ∧ last.freed = 1 ∧ last.destroyed = 1 ∧ last.finished = 1 ∧ last.weakHandles = 0 := by
  intro world last
  have hfew : (new first).FewRun (handover ++ farewell) := by
    refine ⟨?_, ?_, ?_, ?_, ?_, ?_, ?_, ?_, ?_, ?_, ?_, ?_⟩
    all_goals
      change World.Few _
      decide
  have hfreed : last.freed = 1 := rfl
  have hreached : Reached first last := ⟨handover ++ farewell, hfew, rfl⟩
  obtain ⟨hdestroyed, -, -, hfinished, -⟩ := ownership_exact hreached
  obtain ⟨hfinished, hstrong, hweak⟩ := hfinished hfreed
  exact ⟨by decide, hfreed, hdestroyed, hfinished, hweak⟩

end World

end Kaguya.Shared
