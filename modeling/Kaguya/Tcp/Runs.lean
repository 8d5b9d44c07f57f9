import Kaguya.Tcp.Phases

/-!
# Whole runs of a connection

`Sound` is the invariant of a session: the connection is in one of its phases and everything that
was sent belongs to the stream that the user gave. Every fair event keeps it.
-/

namespace Kaguya.Tcp

open Serial Control List

namespace Link

variable {l l' : Link} {stream : List UInt8} {now : Nat} {segment : Segment}

theorem incoming_proceeds (h : l.control.Phase stream) (hfair : ¬ l.control.Ambiguous segment) :
    Proceeds stream l (l.incoming segment now) := by
  -- in the phases that `synchronized` is for, an ambiguous segment is one with such a number
  have hsynchronized : l.control.Synchronized stream → l.control.status ≠ .idle →
      l.control.status ≠ .synSent → l.control.status ≠ .closed →
      Proceeds stream l (l.synchronized segment now) := fun hsync hidle hsyn hclosed =>
    synchronized_proceeds hsync fun hrst hsynFlag hack hnumber =>
      hfair ⟨⟨hidle, hsyn, hclosed⟩, ⟨hrst, hsynFlag, hack⟩, hnumber⟩
  unfold incoming
  cases h with
  | fresh h hstream =>
    rw [h.status]
    exact (Prepares.refl l).proceeds (.fresh h hstream)
  | opening h hstream =>
    rw [h.status, hstream]
    exact handshake_proceeds h
  | active h harmed =>
    have hgo := hsynchronized (.active h harmed)
    rcases h.status with (hs | hs) | (hs | hs | hs) <;> rw [hs] at hgo ⊢ <;>
      exact hgo (by decide) (by decide) (by decide)
  | finished h =>
    have hgo := hsynchronized (.finished h)
    rw [h.status] at hgo ⊢
    exact hgo (by decide) (by decide) (by decide)
  | closed h =>
    rw [h]
    exact (Prepares.refl l).proceeds (.closed h)

variable {port : UInt16} {remote : Endpoint} {iss : Seq} {c : Control}

theorem connect_of_busy (h : l.control.status ≠ .idle) :
    l.connect port remote iss now = l := if_pos h

theorem connect_of_fresh (h : l.control.Fresh) :
    (l.connect port remote iss now).control.Opening
        ∧ Emits (fun e => e.payload = [] ∧ e.flags &&& FIN = 0) l
        (l.connect port remote iss now) := by
  obtain ⟨l1, hl1⟩ : ∃ l1, l1 = l.modify fun c => { c with
      port := port
      remote := remote
      iss := iss
      una := iss
      next := iss
      maximum := iss
      status := .synSent } := ⟨_, rfl⟩
  have hconnect : l.connect port remote iss now = l1.sendSyn now := by
    unfold connect output
    rw [if_neg (not_not.mpr h.status), ← hl1]
    rw [hl1]
    exact if_pos rfl
  rw [hconnect]
  constructor
  · rw [hl1]
    exact sendSyn_opening rfl rfl rfl (.inl rfl) h.empty h.limit h.finQueued h.finSequence
      h.finAcked h.peerFin
  · have hwire : l1.wire = l.wire := by rw [hl1]; rfl
    obtain ⟨sent, hsent, hbare⟩ := (sendSyn_prepares now l1).bare
    exact ⟨sent, by rw [hsent, hwire], hbare⟩

theorem readRound_proceeds (capacity : Nat) (h : l.control.Phase stream) :
    Proceeds stream l (l.readRound capacity).2 := by
  have hstay : Proceeds stream l l := (Prepares.refl l).proceeds h
  unfold readRound
  dsimp only
  split
  · exact hstay
  split
  · -- some bytes leave the queue, and the peer may be told
    obtain ⟨l1, hl1⟩ : ∃ l1, l1 = l.modify fun c => { c with
        receiveQueue := c.receiveQueue.consume (l.control.receiveQueue.copy 0 capacity).length } :=
          ⟨_, rfl⟩
    have hprepares : Prepares l l1 := by
      rw [hl1]
      exact prepares_modify rfl rfl
    have hphase : l1.control.Phase stream := by
      rw [hl1]
      exact h.congr ⟨rfl, rfl, rfl, rfl, rfl, rfl, rfl, rfl, rfl, rfl⟩ rfl
    rw [← hl1]
    split
    · exact hprepares.then (acknowledge_proceeds hphase)
    · exact hprepares.proceeds hphase
  · split
    · exact hstay
    split
    · exact hstay
    · split
      · exact hstay
      · split <;> exact hstay

theorem close_proceeds (h : l.control.Phase stream) : Proceeds stream l (l.close now) := by
  obtain ⟨l1, hl1⟩ : ∃ l1, l1 = l.modify fun c => { c with
      userClosed := true, receiveQueue := c.receiveQueue.clear } := ⟨_, rfl⟩
  have hprepares : Prepares l l1 := by
    rw [hl1]
    exact prepares_modify rfl rfl
  have hphase : l1.control.Phase stream := by
    rw [hl1]
    exact h.congr ⟨rfl, rfl, rfl, rfl, rfl, rfl, rfl, rfl, rfl, rfl⟩ rfl
  -- a FIN is queued only while none has been sent
  have hqueue : l1.control.Flows →
      Proceeds stream l ((l1.modify fun c => { c with finQueued := true }).output now false) := by
    intro hflows
    have hqueued : Prepares l1 (l1.modify fun c => { c with finQueued := true }) :=
      prepares_modify rfl rfl
    obtain ⟨hactive, harmed, hnone, hreach⟩ := hphase.active_of_flows hflows
    refine hprepares.then (hqueued.then (output_proceeds (.active ?_ (hactive.timed harmed))))
    exact ⟨hactive.streams, hactive.limit, hactive.unacked, hactive.cursor_le,
      .inl ⟨hflows, hnone, hreach⟩, hactive.peer⟩
  unfold close
  rw [← hl1]
  dsimp only
  split
  · exact hprepares.then (Prepares.proceeds (prepares_modify rfl rfl) (.closed rfl))
  · exact hqueue (.inl ‹_›)
  · exact hqueue (.inr ‹_›)
  · exact hprepares.proceeds hphase

theorem flows_of_sendError (h : (sendError c).isSome = false) : c.Flows := by
  unfold sendError at h
  unfold Flows
  cases herror : c.error with
  | some =>
    rw [herror] at h
    cases h
  | none =>
    cases hstatus : c.status <;> rw [hstatus] at h <;> simp_all

/-- The control block after a round of `send` has put its bytes into the queue. -/
def pushed (input : List UInt8) (count : Nat) (c : Control) : Control :=
  { c with sendQueue := (c.sendQueue.push (input.take count)).2 }

theorem pushed_active {input : List UInt8} {count : Nat} (h : c.Active stream) (hflows : c.Flows)
    (hnone : c.finSequence = none) (hreach : c.reach ≤ c.sendQueue.length)
    (hcount : count ≤ sendCap - c.sendQueue.length) :
    (pushed input count c).Active (stream ++ input.take count) := by
  obtain ⟨a, ha, huna, hqueue⟩ := h.streams
  have hfits : (input.take count).take (c.sendQueue.limit - c.sendQueue.length) = input.take
      count := by
    rw [h.limit, take_take, Nat.min_eq_right hcount]
  have hlength : c.sendQueue.length ≤ (pushed input count c).sendQueue.length := by
    change c.sendQueue.length ≤ (c.sendQueue.push (input.take count)).2.length
    rw [Bytes.length_push]
    omega
  refine ⟨⟨a, ?_, huna, ?_⟩, h.limit, h.unacked, h.cursor_le,
    .inl ⟨hflows, hnone, hreach.trans hlength⟩, h.peer⟩
  · rw [length_append]
    omega
  · change (c.sendQueue.push (input.take count)).2.toList = _
    rw [Bytes.toList_push, hfits, hqueue, drop_append_of_le_length ha]

/-- **A round of `send`.** It is refused, or it takes bytes on a connection without a FIN. -/
theorem sendRound_cases (now : Nat) (input : List UInt8) (h : l.control.Phase stream) :
    ((l.sendRound input now).1 = 0 ∧ (l.sendRound input now).2 = l)
    ∨ (l.control.Flows ∧ Proceeds (stream ++ input.take (l.sendRound input now).1) l
      (l.sendRound input now).2) := by
  unfold sendRound
  by_cases herror : (sendError l.control).isSome = true
  · rw [if_pos herror]
    exact .inl ⟨rfl, rfl⟩
  rw [if_neg herror]
  dsimp only
  split
  · right
    have hflows := flows_of_sendError (by simpa using herror)
    obtain ⟨hactive, harmed, hnone, hreach⟩ := h.active_of_flows hflows
    refine ⟨hflows, ?_⟩
    have hprepares : ∀ count, Prepares l (l.modify (pushed input count)) := fun count =>
      prepares_modify rfl rfl
    refine (hprepares _).then (output_proceeds (.active (pushed_active hactive hflows hnone hreach
      (Nat.min_le_left ..)) (hactive.timed harmed)))
  · exact .inl ⟨rfl, rfl⟩

end Link

namespace Session

open Link

variable {s : Session}

/-- The connection is in order, everything that was sent belongs to the stream, and every FIN has
the sequence number that the control block remembers. -/
structure Sound (s : Session) : Prop where
  phase : s.control.Phase s.accepted
  wire : ∀ e ∈ s.link.wire, e.InStream s.control.iss s.accepted
  fin : ∀ e ∈ s.link.wire, e.flags &&& FIN ≠ 0 → s.control.finSequence = some e.sequence

def Fair (c : Control) : Event → Prop
  | .segment segment _ => ¬ c.Ambiguous segment
  | _ => True

instance (c : Control) : DecidablePred (Fair c)
  | .segment segment _ => inferInstanceAs (Decidable (¬ c.Ambiguous segment))
  | .connect _ _ _ _ | .send _ _ | .read _ | .timer _ | .close _ => inferInstanceAs (Decidable True)

def FairRun : Session → List Event → Prop
  | _, [] => True
  | s, event :: events => Fair s.control event ∧ FairRun (s.step event) events

instance decidableFairRun : (s : Session) → (events : List Event) → Decidable (s.FairRun events)
  | _, [] => inferInstanceAs (Decidable True)
  | s, event :: events =>
    have : Decidable ((s.step event).FairRun events) := decidableFairRun (s.step event) events
    inferInstanceAs (Decidable (Fair s.control event ∧ (s.step event).FairRun events))

def handshaken (window : Nat) : List Event :=
  [.connect 50000 ⟨167772674, 80⟩ 0 0, .segment ⟨80, 50000, 100, 1, SYN ||| ACK, window, none, []⟩
  1]

theorem sound_new : new.Sound where
  phase := .fresh ⟨rfl, rfl, rfl, rfl, rfl, rfl, rfl, rfl, rfl, rfl⟩ rfl
  wire e he := by cases he
  fin e he := by cases he

variable {l : Link} {stream returned : List UInt8} {iss : Seq} {now : Nat}

theorem Sound.of_proceeds (h : s.Sound) (hwire : ∀ e ∈ s.link.wire, e.InStream s.control.iss stream)
    (hproceeds : Proceeds stream s.link l) : (⟨l, stream, returned⟩ : Session).Sound := by
  obtain ⟨sent, hsentWire, hsent⟩ := hproceeds.emits
  obtain ⟨hkept, sent', hsentWire', hsent'⟩ := hproceeds.fin
  refine ⟨hproceeds.phase, fun e he => ?_, fun e he hfin => ?_⟩
  · change e.InStream l.control.iss stream
    rw [hproceeds.iss]
    rw [hsentWire] at he
    rcases mem_append.mp he with he | he
    · exact hwire e he
    · exact hsent e he
  · rw [hsentWire'] at he
    rcases mem_append.mp he with he | he
    · exact hkept _ (h.fin e he hfin)
    · exact hsent' e he hfin

theorem Sound.proceeds (h : s.Sound) (hproceeds : Proceeds s.accepted s.link l) :
    (⟨l, s.accepted, returned⟩ : Session).Sound := h.of_proceeds h.wire hproceeds

theorem inStream_append {e : Emission} {more : List UInt8} (h : e.InStream iss stream)
    (hfin : e.flags &&& FIN = 0) : e.InStream iss (stream ++ more) := by
  refine ⟨fun hdata => ?_, h.window, fun hne => absurd hfin hne⟩
  obtain ⟨k, hsequence, hle, hpayload⟩ := h.data hdata
  refine ⟨k, hsequence, ?_, ?_⟩
  · rw [length_append]
    omega
  · rw [drop_append_of_le_length (by omega), take_append_of_le_length (by rw [length_drop]; omega)]
    exact hpayload

theorem Sound.bare_of_fresh (h : s.Sound) (hfresh : s.control.Fresh) (haccepted : s.accepted = []) :
    ∀ e ∈ s.link.wire, e.payload = [] ∧ e.flags &&& FIN = 0 := by
  intro e he
  constructor
  · by_contra hdata
    obtain ⟨k, _, hle, _⟩ := (h.wire e he).data hdata
    have hpositive := length_pos_iff.mpr hdata
    rw [haccepted, length_nil] at hle
    omega
  · by_contra hfin
    have hsome := h.fin e he hfin
    rw [hfresh.finSequence] at hsome
    cases hsome

theorem Sound.connect {port : UInt16} {remote : Endpoint} (h : s.Sound) :
    (s.step (.connect port remote iss now)).Sound := by
  change (⟨s.link.connect port remote iss now, s.accepted, s.returned⟩ : Session).Sound
  by_cases hidle : s.control.status = .idle
  · obtain ⟨hfresh, haccepted⟩ := h.phase.fresh_of_idle hidle
    obtain ⟨hopening, sent, hwire, hsent⟩ := connect_of_fresh (l := s.link) hfresh
    have hbare : ∀ e ∈ (s.link.connect port remote iss now).wire, e.payload = []
        ∧ e.flags &&& FIN = 0 := by
      intro e he
      rw [hwire] at he
      rcases mem_append.mp he with he | he
      · exact h.bare_of_fresh hfresh haccepted e he
      · exact hsent e he
    exact ⟨.opening hopening haccepted, fun e he => inStream_of_bare (hbare e he).1 (hbare e he).2,
      fun e he hfin => absurd (hbare e he).2 hfin⟩
  · rw [connect_of_busy hidle]
    exact h

theorem Sound.send {input : List UInt8} (h : s.Sound) : (s.step (.send input now)).Sound := by
  change (⟨(s.link.sendRound input now).2,
    s.accepted ++ input.take (s.link.sendRound input now).1, s.returned⟩ : Session).Sound
  rcases sendRound_cases now input h.phase with ⟨hzero, hsame⟩ | ⟨hflows, hproceeds⟩
  · rw [hzero, hsame, take_zero, append_nil]
    exact h
  -- no FIN has been sent, so the stream may grow under what was sent
  have hnone := (h.phase.active_of_flows hflows).2.2.1
  have hnoFin : ∀ e ∈ s.link.wire, e.flags &&& FIN = 0 := by
    intro e he
    by_contra hfin
    have hsome := h.fin e he hfin
    rw [hnone] at hsome
    cases hsome
  exact h.of_proceeds (fun e he => inStream_append (h.wire e he) (hnoFin e he)) hproceeds

theorem Sound.step {event : Event} (h : s.Sound) (hfair : Fair s.control event) :
    (s.step event).Sound := by
  cases event with
  | connect => exact h.connect
  | send => exact h.send
  | read capacity => exact h.proceeds (readRound_proceeds capacity h.phase)
  | segment => exact h.proceeds (incoming_proceeds h.phase hfair)
  | timer => exact h.proceeds (timer_proceeds h.phase)
  | close => exact h.proceeds (close_proceeds h.phase)

theorem Sound.run {events : List Event} (h : s.Sound) (hfair : s.FairRun events) :
    (s.run events).Sound := by
  induction events generalizing s with
  | nil => exact h
  | cons _ _ ih => exact ih (h.step hfair.1) hfair.2

end Session

end Kaguya.Tcp
