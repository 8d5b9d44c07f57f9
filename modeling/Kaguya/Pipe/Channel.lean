import Mathlib.Data.List.Count
import Kaguya.Pipe.State

/-!
# Runs of a pipe

`pipe_owner.jh` keeps the ring behind a lock and hands out `Reader` and `Writer` handles, so that a
pipe is used in locked steps: a read, a write, the opening of one more end and the closing of one. A
`Channel` is the ring with its live handles, the bytes its writes accepted and those its reads
returned.
-/

namespace Kaguya.Pipe

open List

structure Handle where
  writer : Bool
  id : Nat
deriving DecidableEq, Repr

/-- `references` is the count of `Shared(Pipe)`, of which every handle holds one. -/
structure Channel where
  state : State
  references : Nat
  handles : List Handle
  next : Nat
  accepted : List UInt8
  returned : List UInt8
  panicked : Bool

namespace Channel

def new : Channel where
  state := .init Buffer.zeroed
  references := 2
  handles := [⟨false, 0⟩, ⟨true, 1⟩]
  next := 2
  accepted := []
  returned := []
  panicked := false

variable (channel : Channel)

def read (output : Buffer) (length : Nat) : Int × Buffer × Channel :=
  let call := channel.state.read output length
  (call.1, call.2.1, { channel with
    state := call.2.2
    returned := channel.returned ++ call.2.1.slice 0 call.1.toNat })

def write (input : Buffer) (length : Nat) : Int × Channel :=
  let call := channel.state.write input length
  (call.1, { channel with
    state := call.2
    accepted := channel.accepted ++ input.slice 0 call.1.toNat })

/-- `clone` of a handle: `clone_end`, then `clone` of the shared pipe, which panics at 2⁶³ - 1
references. -/
def clone (handle : Handle) : Channel :=
  { channel with
    state := channel.state.clone handle.writer
    references := addOne channel.references
    handles := ⟨handle.writer, channel.next⟩ :: channel.handles
    next := channel.next + 1
    panicked := 0x7fffffffffffffff ≤ channel.references }

/-- `drop` of a handle: `close_end`, then the reference to the shared pipe. -/
def close (handle : Handle) : Bool × Channel :=
  let call := channel.state.close handle.writer
  (call.1, { channel with
    state := call.2
    references := subOne channel.references
    handles := channel.handles.erase handle })

inductive Action
  | read (handle : Handle) (output : Buffer) (length : Nat)
  | write (handle : Handle) (input : Buffer) (length : Nat)
  | clone (handle : Handle)
  | close (handle : Handle)

def Allows : Action → Prop
  | .read handle _ _ => channel.panicked = false ∧ handle ∈ channel.handles ∧ handle.writer = false
  | .write handle _ _ => channel.panicked = false ∧ handle ∈ channel.handles ∧ handle.writer = true
  | .clone handle => channel.panicked = false ∧ handle ∈ channel.handles
  | .close handle => channel.panicked = false ∧ handle ∈ channel.handles

instance : DecidablePred channel.Allows
  | .read .. => inferInstanceAs (Decidable (_ ∧ _))
  | .write .. => inferInstanceAs (Decidable (_ ∧ _))
  | .clone _ => inferInstanceAs (Decidable (_ ∧ _))
  | .close _ => inferInstanceAs (Decidable (_ ∧ _))

def perform : Action → Channel
  | .read _ output length => (channel.read output length).2.2
  | .write _ input length => (channel.write input length).2
  | .clone handle => channel.clone handle
  | .close handle => (channel.close handle).2

def step (action : Action) : Channel :=
  if channel.Allows action then channel.perform action else channel

def run (actions : List Action) : Channel := actions.foldl step channel

def live (writer : Bool) : Nat :=
  channel.handles.countP (·.writer == writer)

structure Sound (channel : Channel) : Prop where
  stream : channel.returned ++ channel.state.contents = channel.accepted
  ends : ∀ writer, channel.state.ends writer = channel.live writer
  references : channel.references = channel.handles.length
  few : channel.handles.length ≤ 2 ^ 63
  room : channel.panicked = false → channel.handles.length < 2 ^ 63

variable {channel} {handle : Handle} {output input : Buffer} {length : Nat}

theorem Sound.initial : new.Sound where
  stream := rfl
  ends := by decide
  references := rfl
  few := by decide
  room _ := by decide

theorem Sound.read (h : channel.Sound) : (channel.read output length).2.2.Sound where
  stream := by
    change (channel.returned ++ (channel.state.read output length).2.1.slice 0
      (channel.state.read output length).1.toNat)
        ++ (channel.state.read output length).2.2.contents = channel.accepted
    rw [append_assoc, State.read_stream, h.stream]
  ends writer := State.ends_read.trans (h.ends writer)
  references := h.references
  few := h.few
  room := h.room

theorem Sound.write (h : channel.Sound) : (channel.write input length).2.Sound where
  stream := by
    change channel.returned ++ (channel.state.write input length).2.contents
      = channel.accepted ++ input.slice 0 (channel.state.write input length).1.toNat
    rw [State.write_stream, ← append_assoc, h.stream]
  ends writer := State.ends_write.trans (h.ends writer)
  references := h.references
  few := h.few
  room := h.room

theorem live_le (writer : Bool) : channel.live writer ≤ channel.handles.length := countP_le_length

theorem live_clone_self :
    (channel.clone handle).live handle.writer = channel.live handle.writer + 1 := by
  simp [clone, live]

theorem live_clone_other :
    (channel.clone handle).live (!handle.writer) = channel.live (!handle.writer) := by
  cases hwriter : handle.writer <;> simp [clone, live, hwriter]

theorem live_le_clone (writer : Bool) : channel.live writer ≤ (channel.clone handle).live writer :=
  (sublist_cons_self ..).countP_le

theorem live_close_self (hlive : handle ∈ channel.handles) :
    (channel.close handle).2.live handle.writer = channel.live handle.writer - 1 := by
  change (channel.handles.erase handle).countP _ = _
  rw [countP_erase]
  simp [live, hlive]

theorem live_close_other :
    (channel.close handle).2.live (!handle.writer) = channel.live (!handle.writer) := by
  change (channel.handles.erase handle).countP _ = _
  rw [countP_erase]
  cases hwriter : handle.writer <;> simp [live]

theorem live_pos (hlive : handle ∈ channel.handles) : 0 < channel.live handle.writer :=
  countP_pos_iff.mpr ⟨handle, hlive, beq_self_eq_true _⟩

theorem exists_of_live_pos {writer : Bool} (hpos : 0 < channel.live writer) :
    ∃ handle ∈ channel.handles, handle.writer = writer := by
  obtain ⟨handle, hlive, hwriter⟩ := countP_pos_iff.mp hpos
  exact ⟨handle, hlive, eq_of_beq hwriter⟩

theorem live_eq_zero {writer : Bool} :
    channel.live writer = 0 ↔ ∀ handle ∈ channel.handles, handle.writer = !writer := by
  rw [live, countP_eq_zero]
  apply forall₂_congr
  intro handle _
  cases handle.writer <;> cases writer <;> simp

section
variable (h : channel.Sound)
include h

theorem Sound.clone (hrunning : channel.panicked = false) :
    (channel.clone handle).Sound where
  stream := by
    change channel.returned ++ (channel.state.clone handle.writer).contents = channel.accepted
    rw [State.contents_clone, h.stream]
  ends writer := by
    have hroom := h.room hrunning
    change (channel.state.clone handle.writer).ends writer = _
    by_cases hself : writer = handle.writer
    · have hle := channel.live_le handle.writer
      rw [hself, State.ends_clone_self, live_clone_self, h.ends, addOne_of_lt (by omega)]
    · obtain rfl : writer = !handle.writer := by
        cases writer <;> cases hwriter : handle.writer <;> simp_all
      rw [State.ends_clone_other, live_clone_other, h.ends]
  references := by
    have hroom := h.room hrunning
    change addOne channel.references = channel.handles.length + 1
    rw [h.references, addOne_of_lt (by omega)]
  few := h.room hrunning
  room hpanicked := by
    have hfew : ¬ 0x7fffffffffffffff ≤ channel.references := of_decide_eq_false hpanicked
    rw [h.references] at hfew
    change channel.handles.length + 1 < 2 ^ 63
    omega

theorem Sound.close (hlive : handle ∈ channel.handles) : (channel.close handle).2.Sound := by
  have hpos : 0 < channel.handles.length := length_pos_of_mem hlive
  have hlength : (channel.handles.erase handle).length = channel.handles.length - 1 :=
    length_erase_of_mem hlive
  have hfew := h.few
  constructor
  case stream =>
    change channel.returned ++ (channel.state.close handle.writer).2.contents = channel.accepted
    rw [State.contents_close, h.stream]
  case ends =>
    intro writer
    change (channel.state.close handle.writer).2.ends writer = _
    by_cases hself : writer = handle.writer
    · rw [hself, State.ends_close_self, live_close_self hlive, h.ends,
        subOne_of_pos (live_pos hlive)]
    · obtain rfl : writer = !handle.writer := by
        cases writer <;> cases hwriter : handle.writer <;> simp_all
      rw [State.ends_close_other, live_close_other, h.ends]
  case references =>
    change subOne channel.references = (channel.handles.erase handle).length
    rw [h.references, subOne_of_pos hpos, hlength]
  case few =>
    change (channel.handles.erase handle).length ≤ 2 ^ 63
    omega
  case room =>
    intro _
    change (channel.handles.erase handle).length < 2 ^ 63
    omega

theorem Sound.step (action : Action) : (channel.step action).Sound := by
  by_cases hallows : channel.Allows action
  · rw [Channel.step, if_pos hallows]
    cases action with
    | read => exact h.read
    | write => exact h.write
    | clone => exact h.clone hallows.1
    | close => exact h.close hallows.2
  · rwa [Channel.step, if_neg hallows]

theorem Sound.run (actions : List Action) : (channel.run actions).Sound := by
  induction actions generalizing channel with
  | nil => exact h
  | cons action _ ih => exact ih (h.step action)

theorem Sound.read_eq_zero (hlength : length ≠ 0) : (channel.state.read output length).1 = 0
      ↔ channel.state.contents = [] ∧ ∀ handle ∈ channel.handles, handle.writer = false := by
  have hnone : channel.state.writers = 0 ↔ ∀ handle ∈ channel.handles, handle.writer = false := by
    rw [← Bool.not_true, ← live_eq_zero, ← h.ends]
    rfl
  rw [State.contents_eq_nil, ← hnone]
  by_cases hempty : channel.state.length = 0
  · rw [State.read_of_empty hlength hempty]
    by_cases hwriters : channel.state.writers = 0 <;> simp [hwriters, hempty]
  · rw [State.read_fst_of_held hlength hempty]
    omega

theorem Sound.write_eq_broken (hlength : length ≠ 0) :
    (channel.state.write input length).1 = -2 ↔ ∀ handle ∈ channel.handles,
      handle.writer = true := by
  have hnone : channel.state.readers = 0 ↔ ∀ handle ∈ channel.handles, handle.writer = true := by
    rw [← Bool.not_false, ← live_eq_zero, ← h.ends]
    rfl
  rw [← hnone]
  by_cases hbroken : channel.state.readers = 0
  · simp [State.write_of_broken hlength hbroken, hbroken]
  by_cases hfull : channel.state.length = CAPACITY
  · simp [State.write_of_full hlength hbroken hfull, hbroken]
  · rw [State.write_fst_of_room hlength hbroken hfull]
    omega

end

/-- **A pipe is an exact stream.** After any locked steps of any handles, what reads returned
followed by what the ring holds is what writes accepted; the ring holds at most 4096 bytes; the
counts of ends are those of the live handles, and so positive whenever a handle is closed; a read
meets the end of the stream exactly when the ring is empty and no writer is left, and a write meets
a broken pipe exactly when no reader is left. -/
theorem stream_exact (actions : List Action) :
    (new.run actions).returned ++ (new.run actions).state.contents = (new.run actions).accepted
      ∧ (new.run actions).state.contents.length ≤ 4096
      ∧ (new.run actions).state.readers = (new.run actions).live false
      ∧ (new.run actions).state.writers = (new.run actions).live true
      ∧ (∀ handle ∈ (new.run actions).handles, 0 < (new.run actions).state.ends handle.writer)
      ∧ (∀ output length, length ≠ 0 → (((new.run actions).state.read output length).1 = 0
            ↔ (new.run actions).state.contents = []
              ∧ ∀ handle ∈ (new.run actions).handles, handle.writer = false))
      ∧ ∀ input length, length ≠ 0 → (((new.run actions).state.write input length).1 = -2
            ↔ ∀ handle ∈ (new.run actions).handles, handle.writer = true) := by
  have h : (new.run actions).Sound := Sound.initial.run actions
  refine ⟨h.stream, ?_, h.ends false, h.ends true, ?_, ?_, ?_⟩
  · rw [State.length_contents]
    exact (new.run actions).state.length_le
  · intro handle hlive
    rw [h.ends]
    exact live_pos hlive
  · intro output length hlength
    exact h.read_eq_zero hlength
  · intro input length hlength
    exact h.write_eq_broken hlength

end Channel

end Kaguya.Pipe
