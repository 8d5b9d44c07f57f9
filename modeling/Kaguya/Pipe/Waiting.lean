import Mathlib.Data.Fintype.Basic
import Kaguya.Pipe.Channel

/-!
# Waiting for a pipe

`Pipe.read` and `Pipe.write` look at the generation of the pipe's event, try the ring under the lock
and, if nothing can be done, wait for the event unless its generation has moved on; whoever changed
the ring or closed the last end of a kind wakes the event afterwards. A `World` is a pipe with any
number of threads, each somewhere between two such steps.
-/

namespace Kaguya.Pipe

open Function

inductive Request
  | read (output : Buffer) (length : Nat)
  | write (input : Buffer) (length written : Nat)

/-- Where a thread stands: outside the pipe, at the head of the loop, before the locked step, before
and inside `kaguya_wait_event`, and before `kaguya_wake_event`, after which it goes on at `next`. -/
inductive Point
  | done (result : Int)
  | start (request : Request)
  | ring (request : Request) (generation : Nat)
  | wait (request : Request) (generation : Nat)
  | parked (request : Request)
  | waking (next : Point)

structure Thread where
  handle : Handle
  point : Point

/-- `event` is the scheduler's record for the pipe's key. The number of wake-ups so far and, for
each thread, that number when it last looked at the generation are not part of the kernel's state.
-/
structure World (n : Nat) where
  channel : Channel
  event : Option Nat
  threads : Fin n → Thread
  wakes : Nat
  seen : Fin n → Nat

namespace Request

def writer : Request → Bool
  | .read .. => false
  | .write .. => true

def result : Request → Option Int
  | .read .. => none
  | .write _ length written => if written < length then none else some written

def Due : Request → Prop
  | .read _ length => length ≠ 0
  | .write _ length written => written < length

def Asks : Request → Prop
  | .read _ length => length ≠ 0
  | .write .. => True

theorem Due.asks {request : Request} (h : request.Due) : request.Asks := by
  cases request with
  | read => exact h
  | write => trivial

theorem due_of_result {request : Request} (h : request.Asks) (hresult : request.result = none) :
    request.Due := by
  cases request with
  | read => exact h
  | write input length written =>
    by_contra hover
    have hdone : Request.result (.write input length written) = some (written : Int) := if_neg hover
    rw [hdone] at hresult
    cases hresult

end Request

namespace Point

def isDone : Point → Bool
  | .done _ => true
  | _ => false

theorem eq_done {point : Point} (h : point.isDone = true) : ∃ result, point = .done result := by
  cases point with
  | done result => exact ⟨result, rfl⟩
  | _ => cases h

def rouse : Point → Point
  | .parked request => .start request
  | point => point

def Resumes : Point → Prop
  | .done _ => True
  | .start request => request.Asks
  | _ => False

end Point

namespace World

variable {n : Nat}

def new (n : Nat) : World n where
  channel := .new
  event := none
  threads _ := ⟨⟨false, 0⟩, .done 0⟩
  wakes := 0
  seen _ := 0

variable (world : World n) (t : Fin n)

def generation : Nat := world.event.getD 0

def goTo (point : Point) : World n :=
  { world with threads := update world.threads t { world.threads t with point } }

def wake : World n :=
  { world with
    event := match world.event with
      | some old => some (if old = 2 ^ 64 - 1 then 0 else old + 1)
      | none => some 1
    threads := fun t => { world.threads t with point := (world.threads t).point.rouse }
    wakes := world.wakes + 1 }

def attempt (request : Request) (generation : Nat) : World n :=
  match request with
  | .read output length =>
    let call := world.channel.read output length
    let world := { world with channel := call.2.2 }
    if call.1 ≥ 0 then
      if call.1 > 0 then world.goTo t (.waking (.done call.1)) else world.goTo t (.done call.1)
    else world.goTo t (.wait request generation)
  | .write input length written =>
    let call := world.channel.write (fun i => input (written + i)) (length - written)
    let world := { world with channel := call.2 }
    if call.1 = -2 then world.goTo t (.done (if written > 0 then written else -9))
    else if call.1 > 0 then
      world.goTo t (.waking (.start (.write input length (written + call.1.toNat))))
    else world.goTo t (.wait request generation)

/-- The next step of a thread. `current` says whether the thread's cpu has a task to put to sleep.
-/
def advance (current : Bool) : World n :=
  match (world.threads t).point with
  | .done _ => world
  | .start request =>
    match request.result with
    | some result => world.goTo t (.done result)
    | none =>
      { world.goTo t (.ring request world.generation) with
        seen := update world.seen t world.wakes }
  | .ring request generation => world.attempt t request generation
  | .wait request generation =>
    if world.generation ≠ generation ∨ current = false then world.goTo t (.start request)
    else world.goTo t (.parked request)
  | .parked _ => world
  | .waking next => world.wake.goTo t next

inductive Action (n : Nat)
  | read (t : Fin n) (handle : Handle) (output : Buffer) (length : Nat)
  | write (t : Fin n) (handle : Handle) (input : Buffer) (length : Nat)
  | clone (t : Fin n) (handle : Handle)
  | close (t : Fin n) (handle : Handle)
  | advance (t : Fin n) (current : Bool)

def Unused (handle : Handle) : Prop :=
  ∀ t, (world.threads t).point.isDone = true ∨ (world.threads t).handle ≠ handle

instance (handle : Handle) : Decidable (world.Unused handle) :=
  inferInstanceAs (Decidable (∀ _, _))

def Allows : Action n → Prop
  | .read t handle output length =>
    world.channel.Allows (.read handle output length) ∧ (world.threads t).point.isDone = true
  | .write t handle input length =>
    world.channel.Allows (.write handle input length) ∧ (world.threads t).point.isDone = true
  | .clone t handle =>
    world.channel.Allows (.clone handle) ∧ (world.threads t).point.isDone = true
  | .close t handle =>
    world.channel.Allows (.close handle) ∧ (world.threads t).point.isDone = true
      ∧ world.Unused handle
  | .advance _ _ => world.channel.panicked = false

instance : DecidablePred world.Allows
  | .read .. => inferInstanceAs (Decidable (_ ∧ _))
  | .write .. => inferInstanceAs (Decidable (_ ∧ _))
  | .clone .. => inferInstanceAs (Decidable (_ ∧ _))
  | .close .. => inferInstanceAs (Decidable (_ ∧ _))
  | .advance .. => inferInstanceAs (Decidable (_ = _))

def enter (handle : Handle) (point : Point) : World n :=
  { world with threads := update world.threads t ⟨handle, point⟩ }

def perform : Action n → World n
  | .read t handle output length =>
    world.enter t handle (if length = 0 then .done 0 else .start (.read output length))
  | .write t handle input length => world.enter t handle (.start (.write input length 0))
  | .clone _ handle => { world with channel := world.channel.clone handle }
  | .close t handle =>
    let call := world.channel.close handle
    { world with channel := call.2 }.enter t handle
      (if call.1 then .waking (.done 0) else .done 0)
  | .advance t current => world.advance t current

def step (action : Action n) : World n :=
  if world.Allows action then world.perform action else world

def run (actions : List (Action n)) : World n := actions.foldl step world

/-- A thread that calls `kaguya_wait_event` looked at the generation fewer than 2⁶⁴ wake-ups ago. -/
def Timely : Action n → Prop
  | .advance t _ => ∀ request generation,
      (world.threads t).point = .wait request generation → world.wakes < world.seen t + 2 ^ 64
  | _ => True

def TimelyRun (world : World n) : List (Action n) → Prop
  | [] => True
  | action :: actions => world.Timely action ∧ (world.step action).TimelyRun actions

def Pending : Prop := ∃ t next, (world.threads t).point = .waking next

def Blocked (writer : Bool) : Prop :=
  world.channel.state.length = (if writer then CAPACITY else 0)
  ∧ 0 < world.channel.state.ends (!writer)

/-- One side of the pipe has nothing to do, or is about to be woken. -/
def Calm (writer : Bool) : Prop := world.Blocked writer ∨ world.Pending

def Minds : Point → Prop
  | .done _ => True
  | .start request => request.Asks
  | .ring request generation => request.Due ∧ generation = world.seen t % 2 ^ 64
  | .wait request generation => request.Due ∧ generation = world.seen t % 2 ^ 64
      ∧ (world.seen t = world.wakes → world.Calm request.writer)
  | .parked request => request.Due ∧ world.Calm request.writer
  | .waking next => next.Resumes

structure Watchful (world : World n) : Prop where
  sound : world.channel.Sound
  generation : world.generation = world.wakes % 2 ^ 64
  seen_le : ∀ t, world.seen t ≤ world.wakes
  minds : ∀ t, world.Minds t (world.threads t).point

variable {world t}

theorem Watchful.initial : (new n).Watchful where
  sound := Channel.Sound.initial
  generation := rfl
  seen_le _ := Nat.le_refl _
  minds _ := trivial

variable {next point : Point} {channel : Channel} {generation : Nat} {handle : Handle}

theorem minds_of_resumes (h : next.Resumes) : world.Minds t next := by
  cases next with
  | done => trivial
  | start => exact h
  | _ => exact h.elim

variable {world' : World n} {length : Nat} {request : Request} {current : Bool}

theorem Minds.mono (h : world.Minds t point) (hseen : world'.seen t = world.seen t)
    (hwakes : world'.wakes = world.wakes)
    (hcalm : ∀ writer, world.Calm writer → world'.Calm writer) : world'.Minds t point := by
  cases point with
  | done => trivial
  | start => exact h
  | ring => exact ⟨h.1, by rw [hseen, h.2]⟩
  | wait =>
    refine ⟨h.1, by rw [hseen, h.2.1], ?_⟩
    rw [hseen, hwakes]
    intro hcurrent
    exact hcalm _ (h.2.2 hcurrent)
  | parked => exact ⟨h.1, hcalm _ h.2⟩
  | waking => exact h

/-- A step of one thread that wakes nobody. It may unblock a side of the pipe only if the thread is
to wake the event next. -/
theorem Watchful.move (h : world.Watchful) (t : Fin n) (hsound : world'.channel.Sound)
    (hevent : world'.event = world.event) (hwakes : world'.wakes = world.wakes)
    (hseen : world'.seen t ≤ world.wakes)
    (hothers : ∀ u, u ≠ t → world'.threads u = world.threads u ∧ world'.seen u = world.seen u)
    (hidle : ∀ next, (world.threads t).point ≠ .waking next)
    (hblocked : ∀ writer, world.Blocked writer → world'.Calm writer)
    (hself : world'.Minds t (world'.threads t).point) : world'.Watchful := by
  have hpending : world.Pending → world'.Pending := by
    rintro ⟨u, next, hwaking⟩
    have hne : u ≠ t := by
      rintro rfl
      exact hidle next hwaking
    exact ⟨u, next, by rw [(hothers u hne).1, hwaking]⟩
  have hcalm : ∀ writer, world.Calm writer → world'.Calm writer := by
    intro writer hcase
    cases hcase with
    | inl hblock => exact hblocked writer hblock
    | inr hwaking => exact .inr (hpending hwaking)
  constructor
  case sound => exact hsound
  case generation =>
    rw [hwakes, ← h.generation, World.generation, hevent]
    rfl
  case seen_le =>
    intro u
    by_cases hu : u = t
    · rw [hu, hwakes]
      exact hseen
    · rw [(hothers u hu).2, hwakes]
      exact h.seen_le u
  case minds =>
    intro u
    by_cases hu : u = t
    · rw [hu]
      exact hself
    · rw [(hothers u hu).1]
      exact (h.minds u).mono (hothers u hu).2 hwakes hcalm

theorem threads_goTo_self (point : Point) : ((world.goTo t point).threads t).point = point := by
  simp [goTo]

theorem threads_goTo_other (point : Point) {u : Fin n} (hu : u ≠ t) :
    (world.goTo t point).threads u = world.threads u := update_of_ne hu ..

theorem Watchful.goTo (h : world.Watchful) (hsound : channel.Sound)
    (hidle : ∀ next, (world.threads t).point ≠ .waking next)
    (hblocked : ∀ writer, world.Blocked writer → ({ world with channel }.goTo t point).Calm writer)
    (hself : ({ world with channel }.goTo t point).Minds t point) :
    ({ world with channel }.goTo t point).Watchful := by
  apply Watchful.move h t
  case hsound => exact hsound
  case hevent => rfl
  case hwakes => rfl
  case hseen => exact h.seen_le t
  case hothers =>
    intro u hu
    exact ⟨threads_goTo_other point hu, rfl⟩
  case hidle => exact hidle
  case hblocked => exact hblocked
  case hself =>
    rw [threads_goTo_self]
    exact hself

theorem Watchful.goTo_waking (h : world.Watchful) (hsound : channel.Sound)
    (hidle : ∀ next, (world.threads t).point ≠ .waking next) (hnext : next.Resumes) :
    ({ world with channel }.goTo t (.waking next)).Watchful := by
  apply h.goTo hsound hidle
  · intro writer _
    exact .inr ⟨t, next, threads_goTo_self _⟩
  · exact hnext

theorem blocked_goTo {writer : Bool} (hstate : channel.state = world.channel.state) :
    ({ world with channel }.goTo t point).Blocked writer ↔ world.Blocked writer := by
  simp [Blocked, World.goTo, hstate]

theorem Watchful.goTo_same (h : world.Watchful) (hsound : channel.Sound)
    (hidle : ∀ next, (world.threads t).point ≠ .waking next)
    (hstate : channel.state = world.channel.state)
    (hself : ({ world with channel }.goTo t point).Minds t point) :
    ({ world with channel }.goTo t point).Watchful := by
  apply h.goTo hsound hidle
  · intro writer hblock
    exact .inl ((blocked_goTo hstate).mpr hblock)
  · exact hself

theorem Watchful.attempt_read {output : Buffer} (h : world.Watchful)
    (hidle : ∀ next, (world.threads t).point ≠ .waking next) (hlength : length ≠ 0)
    (hgeneration : generation = world.seen t % 2 ^ 64) :
    (world.attempt t (.read output length) generation).Watchful := by
  have hsound : (world.channel.read output length).2.2.Sound := h.sound.read
  by_cases hempty : world.channel.state.length = 0
  · have hcall : world.channel.state.read output length
        = (if world.channel.state.writers = 0 then 0 else -1, output, world.channel.state) :=
      State.read_of_empty hlength hempty
    have hstate : (world.channel.read output length).2.2.state = world.channel.state :=
      congrArg (·.2.2) hcall
    by_cases hwriters : world.channel.state.writers = 0
    · have hresult : (world.channel.read output length).1 = 0 := by
        change (world.channel.state.read output length).1 = 0
        rw [hcall, if_pos hwriters]
      simp only [World.attempt, hresult]
      exact h.goTo_same hsound hidle hstate trivial
    have hresult : (world.channel.read output length).1 = -1 := by
      change (world.channel.state.read output length).1 = -1
      rw [hcall, if_neg hwriters]
    simp only [World.attempt, hresult]
    apply h.goTo_same hsound hidle hstate
    refine ⟨hlength, hgeneration, fun _ => .inl ?_⟩
    exact (blocked_goTo hstate).mpr ⟨hempty, Nat.pos_of_ne_zero hwriters⟩
  · have hresult : (world.channel.read output length).1
        = (min length world.channel.state.length : Nat) :=
      State.read_fst_of_held hlength hempty
    have hpos : (world.channel.read output length).1 > 0 := by omega
    simp only [World.attempt, if_pos (Int.le_of_lt hpos), if_pos hpos]
    exact h.goTo_waking hsound hidle trivial

theorem Watchful.attempt_write {input : Buffer} {written : Nat} (h : world.Watchful)
    (hidle : ∀ next, (world.threads t).point ≠ .waking next) (hdue : written < length)
    (hgeneration : generation = world.seen t % 2 ^ 64) :
    (world.attempt t (.write input length written) generation).Watchful := by
  obtain ⟨call, hcall⟩ : ∃ call, call = world.channel.write (fun i => input (written + i))
    (length - written) := ⟨_, rfl⟩
  have hlength : length - written ≠ 0 := Nat.sub_ne_zero_of_lt hdue
  have hsound : call.2.Sound := by
    rw [hcall]
    exact h.sound.write
  simp only [World.attempt, ← hcall]
  by_cases hbroken : world.channel.state.readers = 0
  · have hwrite : world.channel.state.write (fun i => input (written + i)) (length - written)
        = (-2, world.channel.state) := State.write_of_broken hlength hbroken
    have hresult : call.1 = -2 := by
      rw [hcall]
      exact congrArg (·.1) hwrite
    have hstate : call.2.state = world.channel.state := by
      rw [hcall]
      exact congrArg (·.2) hwrite
    rw [if_pos hresult]
    exact h.goTo_same hsound hidle hstate trivial
  by_cases hfull : world.channel.state.length = CAPACITY
  · have hwrite : world.channel.state.write (fun i => input (written + i)) (length - written)
        = (-1, world.channel.state) := State.write_of_full hlength hbroken hfull
    have hresult : call.1 = -1 := by
      rw [hcall]
      exact congrArg (·.1) hwrite
    have hstate : call.2.state = world.channel.state := by
      rw [hcall]
      exact congrArg (·.2) hwrite
    rw [if_neg (by omega), if_neg (by omega)]
    apply h.goTo_same hsound hidle hstate
    refine ⟨hdue, hgeneration, fun _ => .inl ?_⟩
    exact (blocked_goTo hstate).mpr ⟨hfull, Nat.pos_of_ne_zero hbroken⟩
  · have hle := world.channel.state.length_le
    have hresult : call.1
        = (min (length - written) (CAPACITY - world.channel.state.length) : Nat) := by
      rw [hcall]
      exact State.write_fst_of_room hlength hbroken hfull
    rw [if_neg (by omega), if_pos (by omega)]
    exact h.goTo_waking hsound hidle trivial

variable (h : world.Watchful)

section

include h

theorem Watchful.wake (hnext : next.Resumes) : (world.wake.goTo t next).Watchful := by
  constructor
  case sound => exact h.sound
  case generation =>
    have hgeneration := h.generation
    change (world.wake.event.getD 0) = (world.wakes + 1) % 2 ^ 64
    simp only [World.generation] at hgeneration
    cases hevent : world.event with
    | none =>
      rw [hevent, Option.getD_none] at hgeneration
      simp only [World.wake, hevent, Option.getD_some]
      omega
    | some =>
      rw [hevent, Option.getD_some] at hgeneration
      simp only [World.wake, hevent, Option.getD_some]
      split <;> omega
  case seen_le =>
    intro u
    exact Nat.le_succ_of_le (h.seen_le u)
  case minds =>
    intro u
    by_cases hu : u = t
    · rw [hu, threads_goTo_self]
      exact minds_of_resumes hnext
    rw [threads_goTo_other next hu]
    have hseen := h.seen_le u
    have hminds := h.minds u
    change (world.wake.goTo t next).Minds u (world.threads u).point.rouse
    cases hpoint : (world.threads u).point with
    | wait _ generation =>
      rw [hpoint] at hminds
      refine ⟨hminds.1, hminds.2.1, fun hcurrent => ?_⟩
      -- nobody has seen the new generation yet
      change world.seen u = world.wakes + 1 at hcurrent
      omega
    | parked =>
      rw [hpoint] at hminds
      exact hminds.1.asks
    | _ =>
      rw [hpoint] at hminds
      exact hminds

/-- A thread is put to sleep only if the generation is the one it saw, which in time means that
nothing has been woken since. -/
theorem Watchful.wait (hwait : (world.threads t).point = .wait request generation)
    (htimely : world.wakes < world.seen t + 2 ^ 64)
    (hidle : ∀ next, (world.threads t).point ≠ .waking next) :
    (if world.generation ≠ generation ∨ current = false then world.goTo t (.start request)
      else world.goTo t (.parked request)).Watchful := by
  have hminds := h.minds t
  rw [hwait] at hminds
  obtain ⟨hdue, hgeneration, hcalm⟩ := hminds
  have hseen := h.seen_le t
  by_cases hback : world.generation ≠ generation ∨ current = false
  · rw [if_pos hback]
    exact h.goTo_same h.sound hidle rfl hdue.asks
  rw [if_neg hback]
  have hsame : world.wakes % 2 ^ 64 = world.seen t % 2 ^ 64 := by
    rw [← h.generation, ← hgeneration]
    by_contra hne
    exact hback (.inl hne)
  have hcurrent : world.seen t = world.wakes := by omega
  apply h.goTo_same h.sound hidle rfl
  refine ⟨hdue, ?_⟩
  cases hcalm hcurrent with
  | inl hblock => exact .inl hblock
  | inr hpending =>
    obtain ⟨u, next, hwaking⟩ := hpending
    have hne : u ≠ t := by
      rintro rfl
      exact hidle next hwaking
    exact .inr ⟨u, next, by rw [threads_goTo_other _ hne, hwaking]⟩

theorem Watchful.start (hstart : (world.threads t).point = .start request)
    (hresult : request.result = none) (hidle : ∀ next, (world.threads t).point ≠ .waking next) :
    { world.goTo t (.ring request world.generation) with
      seen := update world.seen t world.wakes }.Watchful := by
  have hasks := h.minds t
  rw [hstart] at hasks
  apply Watchful.move h t
  case hsound => exact h.sound
  case hevent => rfl
  case hwakes => rfl
  case hseen => simp
  case hothers =>
    intro u hu
    exact ⟨threads_goTo_other _ hu, update_of_ne hu ..⟩
  case hidle => exact hidle
  case hblocked =>
    intro writer hblock
    exact .inl hblock
  case hself =>
    rw [threads_goTo_self]
    refine ⟨Request.due_of_result hasks hresult, ?_⟩
    change world.generation = update world.seen t world.wakes t % 2 ^ 64
    rw [update_self, h.generation]

theorem Watchful.advance (htimely : world.Timely (.advance t current)) :
    (world.advance t current).Watchful := by
  have hminds := h.minds t
  cases hpoint : (world.threads t).point with
  | done =>
    simp only [World.advance, hpoint]
    exact h
  | start request =>
    have hidle : ∀ next, (world.threads t).point ≠ .waking next := by simp [hpoint]
    simp only [World.advance, hpoint]
    cases hresult : request.result with
    | none => exact h.start hpoint hresult hidle
    | some => exact h.goTo_same h.sound hidle rfl trivial
  | ring request generation =>
    have hidle : ∀ next, (world.threads t).point ≠ .waking next := by simp [hpoint]
    rw [hpoint] at hminds
    simp only [World.advance, hpoint]
    cases request with
    | read => exact h.attempt_read hidle hminds.1 hminds.2
    | write => exact h.attempt_write hidle hminds.1 hminds.2
  | wait request generation =>
    have hidle : ∀ next, (world.threads t).point ≠ .waking next := by simp [hpoint]
    simp only [World.advance, hpoint]
    exact h.wait hpoint (htimely request generation hpoint) hidle
  | parked =>
    simp only [World.advance, hpoint]
    exact h
  | waking =>
    rw [hpoint] at hminds
    simp only [World.advance, hpoint]
    exact h.wake hminds

theorem Watchful.enter (hsound : channel.Sound) (hdone : (world.threads t).point.isDone = true)
    (hblocked : ∀ writer, world.Blocked writer → ({ world with channel }.enter t handle point).Calm
      writer) (hpoint : ({ world with channel }.enter t handle point).Minds t point) :
    ({ world with channel }.enter t handle point).Watchful := by
  obtain ⟨result, hresult⟩ := Point.eq_done hdone
  apply Watchful.move h t
  case hsound => exact hsound
  case hevent => rfl
  case hwakes => rfl
  case hseen => exact h.seen_le t
  case hothers =>
    intro u hu
    exact ⟨update_of_ne hu .., rfl⟩
  case hidle => simp [hresult]
  case hblocked => exact hblocked
  case hself =>
    have hself : ({ world with channel }.enter t handle point).threads t = ⟨handle, point⟩ :=
      update_self ..
    rw [hself]
    exact hpoint

theorem Watchful.clone (hallows : world.channel.Allows (.clone handle)) :
    { world with channel := world.channel.clone handle }.Watchful := by
  have hsound : (world.channel.clone handle).Sound := h.sound.clone hallows.1
  have hcalm : ∀ writer, world.Calm writer →
      { world with channel := world.channel.clone handle }.Calm writer := by
    intro writer hcase
    cases hcase with
    | inl hblock =>
      have hmore : world.channel.live (!writer) ≤ (world.channel.clone handle).live (!writer) :=
        Channel.live_le_clone _
      refine .inl ⟨State.length_clone.trans hblock.1, ?_⟩
      have hpos := hblock.2
      rw [h.sound.ends] at hpos
      rw [hsound.ends]
      exact Nat.lt_of_lt_of_le hpos hmore
    | inr hpending => exact .inr hpending
  constructor
  case sound => exact hsound
  case generation => exact h.generation
  case seen_le => exact h.seen_le
  case minds =>
    intro u
    exact (h.minds u).mono rfl rfl hcalm

theorem Watchful.close (hallows : world.channel.Allows (.close handle))
    (hdone : (world.threads t).point.isDone = true) :
    ({ world with channel := (world.channel.close handle).2 }.enter t handle
      (if (world.channel.close handle).1 then .waking (.done 0) else .done 0)).Watchful := by
  have hsound : (world.channel.close handle).2.Sound := h.sound.close hallows.2
  cases hlast : (world.channel.close handle).1 with
  | true =>
    rw [if_pos rfl]
    apply h.enter hsound hdone
    · intro writer _
      refine .inr ⟨t, .done 0, ?_⟩
      simp [World.enter]
    · trivial
  | false =>
    rw [if_neg Bool.false_ne_true]
    apply h.enter hsound hdone
    · intro writer hblock
      refine .inl ⟨State.length_close.trans hblock.1, ?_⟩
      change 0 < (world.channel.state.close handle.writer).2.ends (!writer)
      by_cases hself : (!writer) = handle.writer
      · have hfst : (world.channel.state.close handle.writer).1 = false := hlast
        rw [State.close_fst] at hfst
        rw [hself]
        exact Nat.pos_of_ne_zero (by simpa using hfst)
      · have hother : (!writer) = !handle.writer := by
          cases writer <;> cases hwriter : handle.writer <;> simp_all
        rw [hother, State.ends_close_other, ← hother]
        exact hblock.2
    · trivial

theorem Watchful.step (action : Action n) (htimely : world.Timely action) :
    (world.step action).Watchful := by
  by_cases hallows : world.Allows action
  · rw [World.step, if_pos hallows]
    cases action with
    | read =>
      apply h.enter h.sound hallows.2
      · intro writer hblock
        exact .inl hblock
      · split
        · trivial
        · assumption
    | write =>
      apply h.enter h.sound hallows.2
      · intro writer hblock
        exact .inl hblock
      · trivial
    | clone => exact h.clone hallows.1
    | close => exact h.close hallows.1 hallows.2.1
    | advance => exact h.advance htimely
  · rwa [World.step, if_neg hallows]

theorem Watchful.run (actions : List (Action n)) (htimely : world.TimelyRun actions) :
    (world.run actions).Watchful := by
  induction actions generalizing world with
  | nil => exact h
  | cons action _ ih => exact ih (h.step action htimely.1) htimely.2

end

/-- **Nobody sleeps on a pipe that could be used.** Whenever no wake-up is outstanding, a sleeping
reader faces an empty ring and a live writer, and a sleeping writer a full ring and a live reader,
in every run in which no thread falls asleep 2⁶⁴ wake-ups after it looked at the generation. -/
theorem sleepers_blocked (actions : List (Action n)) (htimely : (new n).TimelyRun actions)
    (hwoken : ¬ ((new n).run actions).Pending) (t : Fin n) :
    (∀ output length, (((new n).run actions).threads t).point = .parked (.read output length) →
        ((new n).run actions).channel.state.contents = []
          ∧ ∃ handle ∈ ((new n).run actions).channel.handles, handle.writer = true)
      ∧ ∀ input length written,
          (((new n).run actions).threads t).point = .parked (.write input length written) →
            ((new n).run actions).channel.state.contents.length = 4096
              ∧ ∃ handle ∈ ((new n).run actions).channel.handles, handle.writer = false := by
  have h : ((new n).run actions).Watchful := Watchful.initial.run actions htimely
  have hblocked : ∀ request, (((new n).run actions).threads t).point = .parked request →
      ((new n).run actions).Blocked request.writer := by
    intro request hparked
    have hminds := h.minds t
    rw [hparked] at hminds
    exact hminds.2.resolve_right hwoken
  constructor
  · intro output length hparked
    obtain ⟨hempty, hwriters⟩ := hblocked _ hparked
    rw [h.sound.ends] at hwriters
    exact ⟨State.contents_eq_nil.mpr hempty, Channel.exists_of_live_pos hwriters⟩
  · intro input length written hparked
    obtain ⟨hfull, hreaders⟩ := hblocked _ hparked
    rw [h.sound.ends] at hreaders
    exact ⟨State.length_contents.trans hfull, Channel.exists_of_live_pos hreaders⟩

theorem wakes_advance_le (current : Bool) : (world.advance t current).wakes ≤ world.wakes + 1 := by
  unfold World.advance
  split
  · exact Nat.le_succ _
  · split <;> exact Nat.le_succ _
  · unfold attempt
    split
    · dsimp only
      split
      · split <;> exact Nat.le_succ _
      · exact Nat.le_succ _
    · dsimp only
      split
      · exact Nat.le_succ _
      · split <;> exact Nat.le_succ _
  · split <;> exact Nat.le_succ _
  · exact Nat.le_succ _
  · exact Nat.le_refl _

theorem wakes_step_le (action : Action n) : (world.step action).wakes ≤ world.wakes + 1 := by
  by_cases hallows : world.Allows action
  · rw [World.step, if_pos hallows]
    cases action with
    | advance t current => exact wakes_advance_le current
    | _ => exact Nat.le_succ _
  · rw [World.step, if_neg hallows]
    exact Nat.le_succ _

theorem timelyRun_of_length {actions : List (Action n)}
    (hshort : world.wakes + actions.length < 2 ^ 64) : world.TimelyRun actions := by
  induction actions generalizing world with
  | nil => trivial
  | cons action _ ih =>
    rw [List.length_cons] at hshort
    have hle := world.wakes_step_le action
    refine ⟨?_, ih (by omega)⟩
    cases action with
    | advance =>
      intro request generation _
      omega
    | _ => trivial

def lullaby : List (Action 1) :=
  [.read 0 ⟨false, 0⟩ Buffer.zeroed 1, .advance 0 true, .advance 0 true, .advance 0 true]

theorem sleepers_blocked_reader :
    (((new 1).run lullaby).threads 0).point = .parked (.read Buffer.zeroed 1)
      ∧ ((new 1).run lullaby).channel.state.contents = []
      ∧ ∃ handle ∈ ((new 1).run lullaby).channel.handles, handle.writer = true := by
  have hparked : (((new 1).run lullaby).threads 0).point = .parked (.read Buffer.zeroed 1) := rfl
  have hwoken : ¬ ((new 1).run lullaby).Pending := by
    rintro ⟨t, next, hwaking⟩
    rw [Fin.fin_one_eq_zero t, hparked] at hwaking
    cases hwaking
  have hblocked := sleepers_blocked lullaby (timelyRun_of_length (by decide)) hwoken 0
  exact ⟨hparked, hblocked.1 _ _ hparked⟩

end World

end Kaguya.Pipe
