import Kaguya.Tcp.Receiver

/-!
# The stream that is received

In every run in which the segments that come in are those of one peer, `read` returns that peer's
stream in order, everything that is acknowledged has been received by then, and the end of the
stream is reported only behind its last byte.
-/

namespace Kaguya.Tcp

open Serial List

def Event.FromPeer (irs : Seq) (peer : List UInt8) : Event → Prop
  | .segment arriving _ => Tcp.FromPeer irs peer arriving
  | _ => True

instance (irs : Seq) (peer : List UInt8) : DecidablePred (Event.FromPeer irs peer)
  | .segment segment _ => inferInstanceAs (Decidable (FromPeer irs peer segment))
  | .connect _ _ _ _ | .send _ _ | .read _ | .timer _ | .close _ => inferInstanceAs (Decidable True)

namespace Session

open Link

variable {s : Session} {irs : Seq} {peer : List UInt8}

/-- The receiving side of a session: the connection has not been set up and nothing was
acknowledged, or it has been. -/
inductive Receiving (irs : Seq) (peer : List UInt8) (s : Session) : Prop where
  | waiting (h : s.control.Waits) (hreturned : s.returned = [])
      (hsilent : ∀ e ∈ s.link.wire, e.flags &&& ACK = 0)
  | opened (h : s.control.Receives irs peer s.returned)
      (hacked : ∃ e ∈ s.link.wire, e.flags &&& ACK ≠ 0)

/-- What an event leaves behind: the receiving side is in order, and what was acknowledged is the
position that it has reached. -/
def Continues (irs : Seq) (peer : List UInt8) (s s' : Session) : Prop :=
  s'.Receiving irs peer ∧ Emits (Answers s'.control.receiveNext) s.link s'.link

variable {l : Link} {accepted returned : List UInt8} {event : Event}

theorem continues_of_silent (hsilent : ∀ e ∈ s.link.wire, e.flags &&& ACK = 0)
    (hreturned : returned = []) (h : Silent s.link l) :
    s.Continues irs peer ⟨l, accepted, returned⟩ := by
  obtain ⟨hwaits, sent, hwire, hsent⟩ := h
  refine ⟨.waiting hwaits hreturned fun e he => ?_, sent, hwire,
    fun e he hack => absurd (hsent e he) hack⟩
  rw [hwire] at he
  rcases mem_append.mp he with he | he
  · exact hsilent e he
  · exact hsent e he

theorem continues_of_turn (hacked : ∃ e ∈ s.link.wire, e.flags &&& ACK ≠ 0)
    (h : Turn irs peer returned s.link l) : s.Continues irs peer ⟨l, accepted, returned⟩ := by
  obtain ⟨hreceives, sent, hwire, hsent⟩ := h
  obtain ⟨e, he, hack⟩ := hacked
  refine ⟨.opened hreceives ⟨e, ?_, hack⟩, sent, hwire, hsent⟩
  rw [hwire]
  exact mem_append_left sent he

theorem waiting_step (h : s.control.Waits) (hreturned : s.returned = [])
    (hsilent : ∀ e ∈ s.link.wire, e.flags &&& ACK = 0) (hevent : event.FromPeer irs peer) :
    s.Continues irs peer (s.step event) := by
  cases event with
  | connect => exact continues_of_silent hsilent hreturned (silent_connect h)
  | send input now =>
    have hstep : s.step (.send input now) = ⟨s.link, s.accepted ++ [], s.returned⟩ := by
      change (⟨(s.link.sendRound input now).2,
        s.accepted ++ input.take (s.link.sendRound input now).1, s.returned⟩ : Session) = _
      rw [sendRound_of_waits input h, take_zero]
    rw [hstep]
    exact continues_of_silent hsilent hreturned (silent_refl h)
  | read capacity =>
    obtain ⟨hdata, hlink⟩ := readRound_of_empty capacity h.empty
    have hstep : s.step (.read capacity) = ⟨s.link, s.accepted, s.returned ++ []⟩ := by
      change (⟨(s.link.readRound capacity).2, s.accepted,
        s.returned ++ (s.link.readRound capacity).1.data⟩ : Session) = _
      rw [hdata, hlink]
    rw [hstep]
    exact continues_of_silent hsilent (by rw [hreturned, append_nil]) (silent_refl h)
  | segment =>
    rcases incoming_of_waits h hevent with hstill | ⟨hturn, hacked⟩
    · exact continues_of_silent hsilent hreturned hstill
    · rw [← hreturned] at hturn
      exact ⟨.opened hturn.receives hacked, hturn.answers⟩
  | timer => exact continues_of_silent hsilent hreturned (silent_timer h)
  | close => exact continues_of_silent hsilent hreturned (silent_close h)

theorem opened_step (h : s.control.Receives irs peer s.returned)
    (hacked : ∃ e ∈ s.link.wire, e.flags &&& ACK ≠ 0) (hlength : peer.length < 2 ^ 32)
    (hevent : event.FromPeer irs peer) : s.Continues irs peer (s.step event) := by
  cases event with
  | connect port remote iss now =>
    have hbusy : s.control.status ≠ .idle := by
      intro hidle
      have hbegun := h.begun
      rw [hidle] at hbegun
      cases hbegun
    change s.Continues irs peer ⟨s.link.connect port remote iss now, s.accepted, s.returned⟩
    rw [connect_of_busy hbusy]
    exact continues_of_turn hacked ((Quiet.refl s.link).turn h)
  | send input now => exact continues_of_turn hacked ((quiet_sendRound input now s.link).turn h)
  | read capacity => exact continues_of_turn hacked (readRound_turn capacity h)
  | segment => exact continues_of_turn hacked (incoming_turn h hlength hevent)
  | timer now => exact continues_of_turn hacked ((quiet_timer now s.link).turn h)
  | close => exact continues_of_turn hacked (close_turn h)

theorem Receiving.step (h : s.Receiving irs peer) (hlength : peer.length < 2 ^ 32)
    (hevent : event.FromPeer irs peer) : s.Continues irs peer (s.step event) := by
  cases h with
  | waiting h hreturned hsilent => exact waiting_step h hreturned hsilent hevent
  | opened h hacked => exact opened_step h hacked hlength hevent

theorem Receiving.run {events : List Event} (h : s.Receiving irs peer)
    (hlength : peer.length < 2 ^ 32) (hevents : ∀ event ∈ events, event.FromPeer irs peer) :
    (s.run events).Receiving irs peer := by
  induction events generalizing s with
  | nil => exact h
  | cons _ _ ih =>
    obtain ⟨hevent, hrest⟩ := forall_mem_cons.mp hevents
    exact ih (h.step hlength hevent).1 hrest

theorem receiving_new :
    new.Receiving irs peer := .waiting ⟨.inl rfl, rfl, rfl, rfl⟩ rfl fun e he => by cases he

theorem Receiving.received_isPrefix (h : s.Receiving irs peer) :
    s.returned ++ s.control.receiveQueue.toList <+: peer := by
  cases h with
  | waiting h hreturned =>
    have hempty : s.control.receiveQueue.toList = [] := by
      rw [← length_eq_zero_iff, Bytes.length_toList, h.empty]
    rw [hreturned, hempty]
    exact nil_prefix
  | opened h => exact h.stream

theorem Receiving.length_le (h : s.Receiving irs peer) :
    s.control.receiveQueue.length ≤ recvCap := by
  have hle := s.control.receiveQueue.length_le
  have hlimit : s.control.receiveQueue.limit = recvCap := by
    cases h with
    | waiting h => exact h.limit
    | opened h => exact h.limit
  rw [hlimit] at hle
  exact hle

def Opened (s : Session) : Prop :=
  (∃ e ∈ s.link.wire, e.flags &&& ACK ≠ 0)
  ∨ (s.control.status ≠ .idle ∧ s.control.status ≠ .synSent ∧ s.control.status ≠ .closed)

theorem Receiving.receives (h : s.Receiving irs peer) (hopened : s.Opened) :
    s.control.Receives irs peer s.returned := by
  cases h with
  | opened h => exact h
  | waiting h _ hsilent =>
    exfalso
    rcases hopened with ⟨e, he, hack⟩ | ⟨hidle, hsyn, hclosed⟩
    · exact hack (hsilent e he)
    rcases h.status with hs | hs | hs
    · exact hidle hs
    · exact hsyn hs
    · exact hclosed hs

theorem Receiving.acknowledges (h : s.Receiving irs peer) (hlength : peer.length < 2 ^ 32)
    (hevent : event.FromPeer irs peer) :
    Emits (fun e => e.flags &&& ACK ≠ 0 → (s.step event).control.userClosed = false →
      e.acknowledgement = (s.step event).control.expected irs (s.step event).returned) s.link
        (s.step event).link := by
  obtain ⟨hreceiving, sent, hwire, hsent⟩ := h.step hlength hevent
  refine ⟨sent, hwire, fun e he hack hopen => ?_⟩
  have hmem : e ∈ (s.step event).link.wire := by
    rw [hwire]
    exact mem_append_right _ he
  rw [hsent e he hack]
  exact (hreceiving.receives (.inl ⟨e, hmem, hack⟩)).position hopen

theorem Receiving.endOfStream {capacity : Nat} (h : s.Receiving irs peer)
    (hopen : s.control.userClosed = false) (hend : (s.link.readRound capacity).1 = .endOfStream) :
    s.returned = peer := by
  obtain ⟨hlength, hfin⟩ := readRound_endOfStream hend
  cases h with
  | waiting h =>
    have hmissing := h.peerFin
    rw [show s.control.peerFin = true from hfin] at hmissing
    cases hmissing
  | opened h =>
    have hempty : s.control.receiveQueue.toList = [] := by
      rw [← length_eq_zero_iff, Bytes.length_toList]
      exact hlength
    have hall := h.fin hfin hopen
    rw [hempty, append_nil] at hall
    exact hall

/-- **Integrity of the stream that is received.** -/
theorem receive_stream_integrity (irs : Seq) (peer : List UInt8) (hlength : peer.length < 2 ^ 32)
    (events : List Event) (hevents : ∀ event ∈ events, event.FromPeer irs peer) :
    (new.run events).returned ++ (new.run events).control.receiveQueue.toList <+: peer
    ∧ (new.run events).control.receiveQueue.length ≤ recvCap
    ∧ ((new.run events).Opened → (new.run events).control.userClosed = false →
      (new.run events).control.receiveNext
        = (new.run events).control.expected irs (new.run events).returned)
    ∧ (∀ event : Event, event.FromPeer irs peer → Emits (fun e => e.flags &&& ACK ≠ 0 →
          ((new.run events).step event).control.userClosed = false →
          e.acknowledgement = ((new.run events).step event).control.expected irs
            ((new.run events).step event).returned)
        (new.run events).link ((new.run events).step event).link)
    ∧ (∀ capacity, (new.run events).control.userClosed = false →
      ((new.run events).link.readRound capacity).1 = .endOfStream →
      (new.run events).returned = peer) := by
  have hreceiving := receiving_new.run hlength hevents
  exact ⟨hreceiving.received_isPrefix, hreceiving.length_le,
    fun hopened hopen => (hreceiving.receives hopened).position hopen,
    fun event hevent => hreceiving.acknowledges hlength hevent,
    fun capacity hopen hend => hreceiving.endOfStream hopen hend⟩

def outOfOrder : List Event := handshaken 1000 ++
  [.segment ⟨80, 50000, 103, 1, ACK ||| FIN, 1000, none, [30]⟩ 2,
    .segment ⟨80, 50000, 101, 1, ACK, 1000, none, [10, 20]⟩ 3,
    .read 1,
    .segment ⟨80, 50000, 101, 1, ACK, 1000, none, [10, 20]⟩ 4,
    .segment ⟨80, 50000, 103, 1, ACK ||| FIN, 1000, none, [30]⟩ 5,
    .read 10]

theorem receive_stream_integrity_outOfOrder :
    (new.run outOfOrder).returned = [10, 20, 30] ∧ (new.run outOfOrder).Opened
    ∧ (new.run outOfOrder).control.receiveNext
      = (new.run outOfOrder).control.expected 100 (new.run outOfOrder).returned := by
  have hopened : (new.run outOfOrder).Opened := .inr (by decide)
  have hintegrity := receive_stream_integrity 100 [10, 20, 30] (by decide) outOfOrder (by decide)
  exact ⟨by decide, hopened, hintegrity.2.2.1 hopened (by decide)⟩

end Session

end Kaguya.Tcp
