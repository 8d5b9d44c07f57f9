import Kaguya.Tcp.Runs

/-!
# The control block between events

`Invariant` collects what the phases say about the positions of the stream, the FINs and the timer
of a connection that has not been closed. A firing of the timer closes the connection or leaves the
timer running with between one and six retries counted, so nothing outstanding is ever without one.
-/

namespace Kaguya.Tcp

open Serial

namespace Control

def Outstanding (c : Control) : Prop :=
  c.status = .synSent ∨ c.status = .finWait2
  ∨ ((c.Flows ∨ c.Finishes) ∧ (0 < c.sendQueue.length ∨ (c.finQueued = true ∧ c.finAcked = false)))

/-- What holds of the control block of a connection that has not been closed. -/
structure Invariant (c : Control) : Prop where
  una_le : BeforeEqual c.una c.next
  next_le : BeforeEqual c.next c.maximum
  cursor_le : c.cursor ≤ c.reach
  reach_le : c.reach ≤ c.sendQueue.length + 1
  fin : ∀ f, c.finSequence = some f → c.finAcked = false →
    f = c.una + BitVec.ofNat 32 c.sendQueue.length ∧ c.maximum = f + 1
  finishes : c.Finishes → c.finSequence.isSome ∧ c.finAcked = false
  finWait2 : c.status = .finWait2 → c.finAcked = true
  peerFin : c.peerFin = true → c.status = .closeWait ∨ c.status = .closing ∨ c.status = .lastAck
  armed : c.Outstanding → c.deadline.isSome

variable {c : Control} {stream : List UInt8}

theorem ordered_of_cursor_le (hcursor : c.cursor ≤ c.reach) (hnear : c.reach ≤ 8193) :
    BeforeEqual c.una c.next ∧ BeforeEqual c.next c.maximum := by
  unfold cursor reach at *
  constructor
  · apply (beforeEqual_iff_dist (a := c.una) (by simp) (by omega)).mpr
    exact .inl (by rw [dist_self]; exact Nat.zero_le _)
  · exact (beforeEqual_iff_dist (a := c.una) (by omega) (by omega)).mpr (.inl hcursor)

theorem Active.invariant (h : c.Active stream) (harmed : c.Armed) : c.Invariant := by
  have hordered := ordered_of_cursor_le h.cursor_le h.near
  refine ⟨hordered.1, hordered.2, h.cursor_le, h.reach_le, ?_, ?_, ?_, h.peer, ?_⟩
  · intro f hf _
    rcases h.fin with ⟨_, hnone, _⟩ | ⟨_, _, hsome, hreach⟩
    · rw [hnone] at hf
      cases hf
    have hat : c.una + BitVec.ofNat 32 c.sendQueue.length = f := by
      rw [hsome] at hf
      exact Option.some.inj hf
    refine ⟨hat.symm, ?_⟩
    calc
      c.maximum = c.una + BitVec.ofNat 32 c.reach := (add_dist c.una c.maximum).symm
      _ = c.una + BitVec.ofNat 32 c.sendQueue.length + 1 := by
        rw [hreach, BitVec.ofNat_add, ← add_assoc]
        rfl
      _ = f + 1 := by rw [hat]
  · intro hfinishes
    rcases h.fin with ⟨hflows, _⟩ | ⟨_, _, hsome, _⟩
    · rcases hflows with hs | hs <;> rcases hfinishes with hs' | hs' | hs' <;> rw [hs] at hs' <;>
        cases hs'
    · rw [hsome]
      exact ⟨rfl, h.unacked⟩
  · intro hfinWait2
    rcases h.status with (hs | hs) | (hs | hs | hs) <;> rw [hfinWait2] at hs <;> cases hs
  intro houtstanding
  rcases houtstanding with hstatus | hstatus | ⟨_, hwaiting⟩
  · rcases h.status with (hs | hs) | (hs | hs | hs) <;> rw [hstatus] at hs <;> cases hs
  · rcases h.status with (hs | hs) | (hs | hs | hs) <;> rw [hstatus] at hs <;> cases hs
  · exact harmed (hwaiting.imp_right And.left)

theorem Fresh.invariant (h : c.Fresh) : c.Invariant := by
  have hcursor : c.cursor = 0 := by rw [cursor, h.next, dist_self]
  have hreach : c.reach = 0 := by rw [reach, h.maximum, dist_self]
  have hordered := ordered_of_cursor_le (c := c) (by omega) (by omega)
  refine ⟨hordered.1, hordered.2, by omega, by omega, ?_, ?_, ?_, ?_, ?_⟩
  · intro f hf
    rw [h.finSequence] at hf
    cases hf
  · simp [Finishes, h.status]
  · simp [h.status]
  · simp [h.peerFin]
  · simp [Outstanding, Flows, Finishes, h.status]

theorem Opening.invariant (h : c.Opening) : c.Invariant := by
  have hone : dist c.iss (c.iss + 1) = 1 := dist_add_ofNat (n := 1) (by decide)
  have hcursor : c.cursor = 1 := by rw [cursor, h.next, h.una, hone]
  have hreach : c.reach = 1 := by rw [reach, h.maximum, h.una, hone]
  have hordered := ordered_of_cursor_le (c := c) (by omega) (by omega)
  refine ⟨hordered.1, hordered.2, by omega, by omega, ?_, ?_, ?_, ?_, fun _ => h.armed⟩
  · intro f hf
    rw [h.finSequence] at hf
    cases hf
  · simp [Finishes, h.status]
  · simp [h.status]
  · simp [h.peerFin]

theorem Finished.invariant (h : c.Finished) : c.Invariant := by
  have hcursor : c.cursor = 0 := by rw [cursor, h.next, dist_self]
  have hreach : c.reach = 0 := by rw [reach, h.maximum, dist_self]
  have hordered := ordered_of_cursor_le (c := c) (by omega) (by omega)
  refine ⟨hordered.1,
    hordered.2, by omega, by omega, ?_, ?_, fun _ => h.finAcked, ?_, fun _ => h.armed⟩
  · intro f _ hunacked
    rw [h.finAcked] at hunacked
    cases hunacked
  · simp [Finishes, h.status]
  · simp [h.peerFin]

theorem Phase.invariant (h : c.Phase stream) (hopen : c.status ≠ .closed) : c.Invariant := by
  cases h with
  | fresh h => exact h.invariant
  | opening h => exact h.invariant
  | active h harmed => exact h.invariant harmed
  | finished h => exact h.invariant
  | closed h => exact absurd h hopen

end Control

namespace Link

theorem outputLoop_retries (now : Nat) (probe : Bool) (n : Nat) (l : Link) :
    (l.outputLoop now probe n).control.retries = l.control.retries := by
  induction n generalizing l with
  | zero => rfl
  | succ n ih =>
    rw [outputLoop]
    split
    · rfl
    · rw [ih]
      rfl

theorem output_retries (now : Nat) (probe : Bool) (l : Link) :
    (l.output now probe).control.retries = l.control.retries := by
  have hrest : ∀ l1 : Link, ((l1.outputFin now).outputArm now).control.retries
      = l1.control.retries := by
    intro l1
    unfold outputArm outputFin
    split <;> split <;> rfl
  rcases output_cases now probe l with hsame | ⟨hsyn, _⟩ | ⟨hloop, _⟩
  · rw [hsame]
  · rw [hsyn]
    rfl
  · rw [hloop, hrest, outputLoop_retries]

/-- **A firing of the timer.** It gives the connection up, or it counts a retry and runs again. -/
theorem timer_fires {now deadline : Nat} {l : Link} (hdeadline : l.control.deadline = some deadline)
    (hdue : deadline ≤ now) : (l.timer now).control.status = .closed
    ∨ (1 ≤ (l.timer now).control.retries ∧ (l.timer now).control.retries ≤ 6
      ∧ (l.timer now).control.deadline.isSome) := by
  have htimer : l.timer now = l.expire now := by
    unfold timer
    rw [hdeadline]
    exact if_neg (Nat.not_lt.mpr hdue)
  rw [htimer, expire_eq]
  split
  · exact .inl rfl
  split
  · exact .inl rfl
  right
  have hretries : (((l.modify expired).output now true).modify (Control.arm now)).control.retries
      = l.control.retries + 1 := output_retries now true (l.modify expired)
  rw [hretries]
  exact ⟨by omega, by omega, Control.arm_isSome now _⟩

end Link

namespace Session

/-- **The control block between events.** In a run without ambiguous acknowledgements the invariant
holds of every state that is not closed, and so does what it says about the next firing. -/
theorem control_invariant (events : List Event) (hfair : new.FairRun events)
    (hopen : (new.run events).control.status ≠ .closed) :
    (new.run events).control.Invariant
    ∧ ∀ now deadline, (new.run events).control.deadline = some deadline → deadline ≤ now →
      ((new.run events).step (.timer now)).control.status = .closed
      ∨ (1 ≤ ((new.run events).step (.timer now)).control.retries
        ∧ ((new.run events).step (.timer now)).control.retries ≤ 6
        ∧ ((new.run events).step (.timer now)).control.deadline.isSome) := by
  have hsound := sound_new.run hfair
  exact ⟨hsound.phase.invariant hopen,
    fun now deadline hdeadline hdue => Link.timer_fires hdeadline hdue⟩

def oneByte : List Event := handshaken 1000 ++ [.send [7] 2]

theorem control_invariant_oneByte :
    (new.run oneByte).control.deadline = some 102 ∧ (new.run oneByte).control.Invariant
    ∧ (((new.run oneByte).step (.timer 102)).control.status = .closed
      ∨ (1 ≤ ((new.run oneByte).step (.timer 102)).control.retries
        ∧ ((new.run oneByte).step (.timer 102)).control.retries ≤ 6
        ∧ ((new.run oneByte).step (.timer 102)).control.deadline.isSome)) := by
  have hinvariant := control_invariant oneByte (by decide) (by decide)
  exact ⟨by decide, hinvariant.1, hinvariant.2 102 102 (by decide) le_rfl⟩

def halfRange : List Event := handshaken 1000 ++
  [.segment ⟨80, 50000, 101, 1 + BitVec.ofNat 32 (2 ^ 31), ACK, 1000, none, []⟩ 2]

/-- The acknowledgement is accepted and `una` leaves `maximum` half a range behind. -/
theorem halfRange_breaks_invariant :
    (new.run halfRange).control.status = .established
    ∧ (new.run halfRange).control.reach = 2 ^ 31
    ∧ (new.run halfRange).control.sendQueue.length = 0
    ∧ ¬ (new.run halfRange).control.Invariant := by
  refine ⟨by decide, by decide, by decide, fun hinvariant => ?_⟩
  exact absurd hinvariant.reach_le (by decide)

end Session

end Kaguya.Tcp
