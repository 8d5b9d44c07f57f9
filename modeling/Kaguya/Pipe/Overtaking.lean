import Kaguya.Pipe.Waiting

/-!
# A generation that comes round

The generation of an event is a 64-bit word. A reader that has found the ring empty and is held up
before `kaguya_wait_event` while another thread wakes the event 2⁶⁴ times finds the generation it
saw, and goes to sleep before a ring that holds bytes.
-/

namespace Kaguya.Pipe.World

/-- Thread 0 is held up before its wait, and thread 1 is at `point`; the ring holds `held` bytes,
and the event has generation `generation`. -/
structure HeldUp (world : World 2) (point : Point) (held generation : Nat) : Prop where
  running : world.channel.panicked = false
  handles : world.channel.handles = [⟨false, 0⟩, ⟨true, 1⟩]
  readers : world.channel.state.readers = 1
  writers : world.channel.state.writers = 1
  length : world.channel.state.length = held
  generation : world.generation = generation
  sleeper : (world.threads 0).point = .wait (.read Buffer.zeroed 1) 0
  point : (world.threads 1).point = point

variable {world : World 2} {point next : Point} {request : Request} {held generation observed : Nat}

variable {n : Nat} {result : Int}

theorem step_advance {world : World n} {t : Fin n} (h : world.channel.panicked = false) :
    world.step (.advance t true) = world.advance t true := if_pos h

theorem HeldUp.goTo (h : world.HeldUp point held generation) (next : Point) :
    (world.goTo 1 next).HeldUp next held generation where
  __ := h
  sleeper := by
    rw [threads_goTo_other next (by decide)]
    exact h.sleeper
  point := threads_goTo_self next

theorem HeldUp.enter (h : world.HeldUp point held generation) (handle : Handle) (next : Point) :
    (world.enter 1 handle next).HeldUp next held generation where
  __ := h
  point := rfl

theorem HeldUp.write (h : world.HeldUp (.done result) held generation) :
    (world.step (.write 1 ⟨true, 1⟩ Buffer.zeroed 1)).HeldUp (.start (.write Buffer.zeroed 1 0))
      held generation := by
  have hallows : world.Allows (.write 1 ⟨true, 1⟩ Buffer.zeroed 1) := by
    refine ⟨⟨h.running, ?_, rfl⟩, ?_⟩
    · simp [h.handles]
    · rw [h.point]
      rfl
  rw [step, if_pos hallows]
  exact h.enter ⟨true, 1⟩ _

theorem HeldUp.read (h : world.HeldUp (.done result) held generation) :
    (world.step (.read 1 ⟨false, 0⟩ Buffer.zeroed 1)).HeldUp (.start (.read Buffer.zeroed 1)) held
      generation := by
  have hallows : world.Allows (.read 1 ⟨false, 0⟩ Buffer.zeroed 1) := by
    refine ⟨⟨h.running, ?_, rfl⟩, ?_⟩
    · simp [h.handles]
    · rw [h.point]
      rfl
  rw [step, if_pos hallows]
  exact h.enter ⟨false, 0⟩ _

theorem HeldUp.look (h : world.HeldUp (.start request) held generation)
    (hresult : request.result = none) :
    (world.step (.advance 1 true)).HeldUp (.ring request generation) held generation := by
  have hmoved := h.goTo (.ring request generation)
  rw [step_advance h.running, advance, h.point]
  dsimp only
  rw [hresult, h.generation]
  exact { hmoved with }

theorem HeldUp.finish (h : world.HeldUp (.start request) held generation)
    (hresult : request.result = some result) :
    (world.step (.advance 1 true)).HeldUp (.done result) held generation := by
  rw [step_advance h.running, advance, h.point]
  dsimp only
  rw [hresult]
  exact h.goTo (.done result)

theorem HeldUp.attempt {channel : Channel} {held' : Nat} (h : world.HeldUp point held generation)
    (hlength : channel.state.length = held') (hrunning : channel.panicked = world.channel.panicked)
    (hhandles : channel.handles = world.channel.handles)
    (hends : ∀ writer, channel.state.ends writer = world.channel.state.ends writer) :
    { world with channel }.HeldUp point held' generation where
  __ := h
  running := hrunning.trans h.running
  handles := hhandles.trans h.handles
  readers := (hends false).trans h.readers
  writers := (hends true).trans h.writers
  length := hlength

theorem HeldUp.put (h : world.HeldUp (.ring (.write Buffer.zeroed 1 0) observed) held generation)
    (hroom : held < CAPACITY) :
    (world.step (.advance 1 true)).HeldUp (.waking (.start (.write Buffer.zeroed 1 1))) (held + 1)
      generation := by
  obtain ⟨input, hinput⟩ : ∃ input : Buffer, input = fun i => Buffer.zeroed (0 + i) := ⟨_, rfl⟩
  have hheld := h.length
  have hreaders := h.readers
  have hresult : (world.channel.write input 1).1 = 1 := by
    have hwrite : (world.channel.state.write input 1).1 = _ :=
      State.write_fst_of_room (by decide) (by omega) (by omega)
    refine hwrite.trans ?_
    omega
  have hlength : (world.channel.write input 1).2.state.length = held + 1 := by
    have hwrite : (world.channel.write input 1).2.state.length
        = world.channel.state.length + (world.channel.write input 1).1.toNat := State.length_write
    rw [hwrite, hresult, hheld]
    rfl
  have hmoved := (h.attempt hlength rfl rfl fun _ => State.ends_write).goTo
    (.waking (.start (.write Buffer.zeroed 1 1)))
  rw [step_advance h.running, advance, h.point]
  dsimp only [World.attempt]
  rw [← hinput, Nat.sub_zero, hresult]
  exact hmoved

theorem HeldUp.get
    (h : world.HeldUp (.ring (.read Buffer.zeroed 1) observed) (held + 1) generation) :
    (world.step (.advance 1 true)).HeldUp (.waking (.done 1)) held generation := by
  have hheld := h.length
  have hresult : (world.channel.read Buffer.zeroed 1).1 = 1 := by
    have hread : (world.channel.state.read Buffer.zeroed 1).1 = _ :=
      State.read_fst_of_held (by decide) (by omega)
    refine hread.trans ?_
    omega
  have hlength : (world.channel.read Buffer.zeroed 1).2.2.state.length = held := by
    have hread : (world.channel.read Buffer.zeroed 1).2.2.state.length
        = world.channel.state.length - (world.channel.read Buffer.zeroed 1).1.toNat :=
        State.length_read
    rw [hread, hresult, hheld]
    rfl
  have hmoved := (h.attempt hlength rfl rfl fun _ => State.ends_read).goTo (.waking (.done 1))
  rw [step_advance h.running, advance, h.point]
  dsimp only [World.attempt]
  rw [hresult]
  exact hmoved

def following (generation : Nat) : Nat := if generation = 2 ^ 64 - 1 then 0 else generation + 1

theorem generation_wake {world : World n} : world.wake.generation = following world.generation := by
  cases hevent : world.event with
  | none => simp [World.wake, World.generation, hevent, following]
  | some => simp [World.wake, World.generation, hevent, following]

theorem HeldUp.woken (h : world.HeldUp (.waking next) held generation) :
    world.wake.HeldUp (.waking next) held (following generation) where
  __ := h
  generation := by rw [generation_wake, h.generation]
  sleeper := by
    change (world.threads 0).point.rouse = _
    rw [h.sleeper]
    rfl
  point := by
    change (world.threads 1).point.rouse = _
    rw [h.point]
    rfl

theorem HeldUp.wake (h : world.HeldUp (.waking next) held generation) :
    (world.step (.advance 1 true)).HeldUp next held (following generation) := by
  rw [step_advance h.running, advance, h.point]
  exact h.woken.goTo next

def Reaches (held generation : Nat) : Prop :=
  ∃ (actions : List (Action 2)) (result : Int),
    ((new 2).run actions).HeldUp (.done result) held generation

theorem run_append (world : World n) (actions more : List (Action n)) :
    world.run (actions ++ more) = (world.run actions).run more := List.foldl_append

theorem reaches_start : Reaches 0 0 := by
  refine ⟨[.read 0 ⟨false, 0⟩ Buffer.zeroed 1, .advance 0 true, .advance 0 true], 0, ?_⟩
  constructor <;> rfl

theorem Reaches.put (h : Reaches held generation) (hroom : held < CAPACITY) :
    Reaches (held + 1) (following generation) := by
  obtain ⟨actions, result, hheld⟩ := h
  refine ⟨actions ++ [.write 1 ⟨true, 1⟩ Buffer.zeroed 1, .advance 1 true, .advance 1 true,
    .advance 1 true, .advance 1 true], 1, ?_⟩
  rw [run_append]
  exact (((hheld.write.look rfl).put hroom).wake).finish rfl

theorem Reaches.get (h : Reaches (held + 1) generation) : Reaches held (following generation) := by
  obtain ⟨actions, result, hheld⟩ := h
  refine ⟨actions ++ [.read 1 ⟨false, 0⟩ Buffer.zeroed 1, .advance 1 true, .advance 1 true,
    .advance 1 true], 1, ?_⟩
  rw [run_append]
  exact ((hheld.read.look rfl).get).wake

theorem reaches_round (rounds : Nat) (hrounds : 2 * rounds < 2 ^ 64) : Reaches 0 (2 * rounds) := by
  induction rounds with
  | zero => exact reaches_start
  | succ rounds ih =>
    have hround := ((ih (by omega)).put (by decide)).get
    have hfirst : following (2 * rounds) = 2 * rounds + 1 := if_neg (by omega)
    have hsecond : following (2 * rounds + 1) = 2 * rounds + 2 := if_neg (by omega)
    rw [hfirst, hsecond] at hround
    exact hround

/-- A reader asleep before a ring that holds bytes, with no wake-up outstanding. -/
theorem reader_overtaken :
    ∃ actions : List (Action 2), ¬ ((new 2).run actions).Pending
      ∧ (((new 2).run actions).threads 0).point = .parked (.read Buffer.zeroed 1)
      ∧ ((new 2).run actions).channel.state.contents ≠ [] := by
  have hrounds : Reaches 0 (2 ^ 64 - 2) := reaches_round (2 ^ 63 - 1) (by decide)
  have hlast : Reaches 1 (2 ^ 64 - 1) := hrounds.put (by decide)
  obtain ⟨actions, result, h⟩ : Reaches 2 0 := hlast.put (by decide)
  refine ⟨actions ++ [.advance 0 true], ?_⟩
  have hparked : (new 2).run (actions ++ [.advance 0 true])
      = ((new 2).run actions).goTo 0 (.parked (.read Buffer.zeroed 1)) := by
    rw [run_append]
    change ((new 2).run actions).step (.advance 0 true) = _
    rw [step_advance h.running, advance, h.sleeper]
    dsimp only
    rw [if_neg]
    simp [h.generation]
  rw [hparked]
  refine ⟨?_, threads_goTo_self _, ?_⟩
  · rintro ⟨t, after, hwaking⟩
    by_cases ht : t = 0
    · rw [ht, threads_goTo_self] at hwaking
      cases hwaking
    · obtain rfl : t = 1 := by omega
      rw [threads_goTo_other _ ht, h.point] at hwaking
      cases hwaking
  · rw [ne_eq, State.contents_eq_nil]
    change ¬ ((new 2).run actions).channel.state.length = 0
    rw [h.length]
    decide

end Kaguya.Pipe.World
