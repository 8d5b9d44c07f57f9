import Kaguya.Tcp.Runs

/-!
# The stream that is sent

What `Sound` says about the wire, read as a statement about the stream: a data segment carries the
slice of the stream that its sequence number names and stays inside the peer's window, apart from
one probe an event. A FIN stands at the end of the stream, and after it nothing is taken any more.
-/

namespace Kaguya.Tcp

open Serial

namespace Session

open Link

variable {s : Session}

variable {event : Event} {f : Seq}

theorem Sound.probes_step (h : s.Sound) (hfair : Fair s.control event) :
    (s.step event).link.probes ≤ s.link.probes + 1 := by
  cases event with
  | connect port remote iss now =>
    change (s.link.connect port remote iss now).probes ≤ _
    by_cases hidle : s.control.status = .idle
    · obtain ⟨hfresh, _⟩ := h.phase.fresh_of_idle hidle
      rw [(connect_of_fresh hfresh).2.probes fun e he => he.1]
      exact Nat.le_succ _
    · rw [connect_of_busy hidle]
      exact Nat.le_succ _
  | send input now =>
    change (s.link.sendRound input now).2.probes ≤ _
    rcases sendRound_cases now input h.phase with ⟨_, hsame⟩ | ⟨_, hproceeds⟩
    · rw [hsame]
      exact Nat.le_succ _
    · exact hproceeds.probes
  | read capacity => exact (readRound_proceeds capacity h.phase).probes
  | segment => exact (incoming_proceeds h.phase hfair).probes
  | timer => exact (timer_proceeds h.phase).probes
  | close => exact (close_proceeds h.phase).probes

theorem Sound.step_of_fin (h : s.Sound) (hfair : Fair s.control event)
    (hfin : s.control.finSequence = some f) :
    (s.step event).control.finSequence = some f ∧ (s.step event).accepted = s.accepted := by
  cases event with
  | connect port remote iss now =>
    have hidle : s.control.status ≠ .idle := by
      intro hidle
      obtain ⟨hfresh, _⟩ := h.phase.fresh_of_idle hidle
      rw [hfresh.finSequence] at hfin
      cases hfin
    change (s.link.connect port remote iss now).control.finSequence = some f ∧ _
    rw [connect_of_busy hidle]
    exact ⟨hfin, rfl⟩
  | send input now =>
    change (s.link.sendRound input now).2.control.finSequence = some f
      ∧ s.accepted ++ input.take (s.link.sendRound input now).1 = s.accepted
    rcases sendRound_cases now input h.phase with ⟨hzero, hsame⟩ | ⟨hflows, _⟩
    · rw [hzero, hsame, List.take_zero, List.append_nil]
      exact ⟨hfin, rfl⟩
    -- bytes are taken only while no FIN has been sent
    have hnone := (h.phase.active_of_flows hflows).2.2.1
    rw [hnone] at hfin
    cases hfin
  | read capacity => exact ⟨(readRound_proceeds capacity h.phase).fin.1 f hfin, rfl⟩
  | segment => exact ⟨(incoming_proceeds h.phase hfair).fin.1 f hfin, rfl⟩
  | timer => exact ⟨(timer_proceeds h.phase).fin.1 f hfin, rfl⟩
  | close => exact ⟨(close_proceeds h.phase).fin.1 f hfin, rfl⟩

theorem Sound.run_of_fin {events : List Event} (h : s.Sound) (hfair : s.FairRun events)
    (hfin : s.control.finSequence = some f) :
    (s.run events).control.finSequence = some f ∧ (s.run events).accepted = s.accepted := by
  induction events generalizing s with
  | nil => exact ⟨hfin, rfl⟩
  | cons _ _ ih =>
    obtain ⟨hfin', haccepted⟩ := h.step_of_fin hfair.1 hfin
    obtain ⟨hfinal, hkept⟩ := ih (h.step hfair.1) hfair.2 hfin'
    exact ⟨hfinal, hkept.trans haccepted⟩

/-- The segment carries the bytes of the stream from `sequence - (iss + 1)` on, and they fit into
the window of the moment or are a single byte sent into a closed window with nothing before the
cursor. -/
structure Carries (iss : Seq) (stream : List UInt8) (e : Emission) : Prop where
  bound : dist (iss + 1) e.sequence + e.payload.length ≤ stream.length
  payload : e.payload = (stream.drop (dist (iss + 1) e.sequence)).take e.payload.length
  window : dist e.control.una e.sequence + e.payload.length ≤ e.control.window
    ∨ (e.control.window = 0 ∧ e.sequence = e.control.una ∧ e.payload.length = 1)

theorem carries_of_inStream {iss : Seq} {stream : List UInt8} {e : Emission}
    (h : e.InStream iss stream) (hdata : e.payload ≠ []) (hshort : stream.length < 2 ^ 31) :
    Carries iss stream e := by
  obtain ⟨k, hsequence, hle, hpayload⟩ := h.data hdata
  have hk : dist (iss + 1) e.sequence = k := by
    rw [hsequence]
    exact dist_add_ofNat (by omega)
  refine ⟨?_, ?_, h.window hdata⟩
  · rw [hk]
    exact hle
  · rw [hk]
    exact hpayload

/-- **Integrity of the stream that is sent.** -/
theorem send_stream_integrity (events : List Event) (hfair : new.FairRun events)
    (hshort : (new.run events).accepted.length < 2 ^ 31) :
    (∀ e ∈ (new.run events).link.wire, e.payload ≠ [] →
      Carries (new.run events).control.iss (new.run events).accepted e)
    ∧ (∀ event, Fair (new.run events).control event →
      ((new.run events).step event).link.probes ≤ (new.run events).link.probes + 1)
    ∧ (∀ e ∈ (new.run events).link.wire, e.flags &&& FIN ≠ 0 →
      e.sequence = (new.run events).control.iss + 1 + BitVec.ofNat 32
        (new.run events).accepted.length
      ∧ ∀ more, (new.run events).FairRun more →
        ((new.run events).run more).control.finSequence = some e.sequence
        ∧ ((new.run events).run more).accepted = (new.run events).accepted) := by
  have hsound := sound_new.run hfair
  refine ⟨fun e he hdata => carries_of_inStream (hsound.wire e he) hdata hshort,
    fun event hevent => hsound.probes_step hevent, fun e he hfin =>
    ⟨(hsound.wire e he).fin hfin, ?_⟩⟩
  intro more hmore
  exact hsound.run_of_fin hmore (hsound.fin e he hfin)

def threeBytes : List Event :=
  handshaken 1000 ++ [.send [1, 2, 3] 2, .timer 200, .close 201]

theorem send_stream_integrity_threeBytes :
    (new.run threeBytes).accepted = [1, 2, 3] ∧ (new.run threeBytes).link.wire.length = 5
    ∧ (∀ e ∈ (new.run threeBytes).link.wire, e.payload ≠ [] →
      Carries (new.run threeBytes).control.iss (new.run threeBytes).accepted e) :=
  ⟨by decide, by decide, (send_stream_integrity threeBytes (by decide) (by decide)).1⟩

/-- A run in which two bytes wait for the window to open, an acknowledgement from half a range away
comes in, and a third byte follows. -/
def dropped : List Event := handshaken 0 ++ [.send [1, 2] 2,
    .segment ⟨80, 50000, 101, 1 + BitVec.ofNat 32 (2 ^ 31), ACK, 10, none, []⟩ 3,
    .send [3] 4]

/-- The two bytes that were waiting are gone, and the third goes out at a number where the stream
has no byte. -/
theorem dropped_is_not_a_slice :
    (new.run dropped).accepted = [1, 2, 3]
    ∧ ∃ e ∈ (new.run dropped).link.wire, e.payload = [3]
      ∧ e.sequence = (new.run dropped).control.iss + 1 + BitVec.ofNat 32 (2 ^ 31)
      ∧ ¬ Carries (new.run dropped).control.iss (new.run dropped).accepted e := by
  refine ⟨by decide, ?_⟩
  have hsent : ∃ e ∈ (new.run dropped).link.wire, e.payload = [3]
      ∧ e.sequence = (new.run dropped).control.iss + 1 + BitVec.ofNat 32 (2 ^ 31) := by decide
  obtain ⟨e, he, hpayload, hsequence⟩ := hsent
  refine ⟨e, he, hpayload, hsequence, fun hcarries => ?_⟩
  have hbound := hcarries.bound
  rw [hsequence, dist_add_ofNat (by decide)] at hbound
  have hlength : (new.run dropped).accepted.length = 3 := by decide
  omega

end Session

end Kaguya.Tcp
