import Kaguya.Tcp.Sender

/-!
# The life of a connection, seen from its sending side

A connection is fresh, opening, active, finished or closed. `Phase` says what holds in each of these
and every event keeps it, with one exception. When everything sent has been acknowledged, an
acknowledgement half a range away passes both comparisons of `incoming`, which look at the signs of
differences. `Ambiguous` names that case, and `Fair` runs are those without it.
-/

namespace Kaguya.Tcp

open Serial

namespace Control

structure Fresh (c : Control) : Prop where
  status : c.status = .idle
  next : c.next = c.una
  maximum : c.maximum = c.una
  empty : c.sendQueue.length = 0
  limit : c.sendQueue.limit = sendCap
  finQueued : c.finQueued = false
  finSequence : c.finSequence = none
  finAcked : c.finAcked = false
  peerFin : c.peerFin = false
  deadline : c.deadline = none

structure Opening (c : Control) : Prop where
  status : c.status = .synSent
  una : c.una = c.iss
  next : c.next = c.iss + 1
  maximum : c.maximum = c.iss + 1
  empty : c.sendQueue.length = 0
  limit : c.sendQueue.limit = sendCap
  finQueued : c.finQueued = false
  finSequence : c.finSequence = none
  finAcked : c.finAcked = false
  peerFin : c.peerFin = false
  armed : c.deadline.isSome

structure Finished (c : Control) : Prop where
  status : c.status = .finWait2
  next : c.next = c.una
  maximum : c.maximum = c.una
  empty : c.sendQueue.length = 0
  finAcked : c.finAcked = true
  peerFin : c.peerFin = false
  armed : c.deadline.isSome

inductive Phase (c : Control) (stream : List UInt8) : Prop where
  | fresh (h : c.Fresh) (hstream : stream = [])
  | opening (h : c.Opening) (hstream : stream = [])
  | active (h : c.Active stream) (harmed : c.Armed)
  | finished (h : c.Finished)
  | closed (h : c.status = .closed)

inductive Settled (c : Control) (stream : List UInt8) : Prop where
  | active (h : c.Active stream) (htimed : c.Timed)
  | finished (h : c.Finished)
  | closed (h : c.status = .closed)

inductive Synchronized (c : Control) (stream : List UInt8) : Prop where
  | active (h : c.Active stream) (harmed : c.Armed)
  | finished (h : c.Finished)

/-- The acknowledgement that the comparisons of `incoming` cannot tell from a good one. -/
def Ambiguous (c : Control) (segment : Segment) : Prop :=
  (c.status ≠ .idle ∧ c.status ≠ .synSent ∧ c.status ≠ .closed)
  ∧ (segment.flags &&& RST = 0 ∧ segment.flags &&& SYN = 0 ∧ segment.flags &&& ACK ≠ 0)
  ∧ c.maximum = c.una ∧ segment.ack = c.una + BitVec.ofNat 32 (2 ^ 31)

instance (c : Control) (segment : Segment) : Decidable (c.Ambiguous segment) :=
  inferInstanceAs (Decidable (_ ∧ _))

variable {c c' : Control} {stream : List UInt8} {now : Nat} {segment : Segment}

theorem Active.timed (h : c.Active stream) (harmed : c.Armed) : c.Timed := by
  intro hreach
  rcases h.fin with ⟨_, _, hle⟩ | ⟨_, hqueued, _, _⟩
  · exact harmed (.inl (by omega))
  · exact harmed (.inr hqueued)

theorem Synchronized.phase (h : c.Synchronized stream) : c.Phase stream := by
  cases h with
  | active h harmed => exact .active h harmed
  | finished h => exact .finished h

theorem Synchronized.settled (h : c.Synchronized stream) : c.Settled stream := by
  cases h with
  | active h harmed => exact .active h (h.timed harmed)
  | finished h => exact .finished h

theorem Synchronized.near (h : c.Synchronized stream) : c.reach ≤ 8193 := by
  cases h with
  | active h => exact h.near
  | finished h =>
    unfold reach
    rw [h.maximum, dist_self]
    omega

theorem Finished.congr (h : c.Finished) (hsame : c.SameSender c')
    (hdeadline : c'.deadline = c.deadline) : c'.Finished where
  status := hsame.status.trans h.status
  next := by rw [hsame.next, hsame.una, h.next]
  maximum := by rw [hsame.maximum, hsame.una, h.maximum]
  empty := by rw [hsame.sendQueue, h.empty]
  finAcked := hsame.finAcked.trans h.finAcked
  peerFin := hsame.peerFin.trans h.peerFin
  armed := by
    rw [hdeadline]
    exact h.armed

theorem Settled.congr (h : c.Settled stream) (hsame : c.SameSender c')
    (hdeadline : c'.deadline = c.deadline) : c'.Settled stream := by
  cases h with
  | active h htimed =>
    refine .active (h.congr hsame) fun hreach => ?_
    rw [hdeadline]
    apply htimed
    unfold reach at hreach ⊢
    rw [← hsame.una, ← hsame.maximum]
    exact hreach
  | finished h => exact .finished (h.congr hsame hdeadline)
  | closed h => exact .closed (hsame.status.trans h)

theorem Phase.congr (h : c.Phase stream) (hsame : c.SameSender c')
    (hdeadline : c'.deadline = c.deadline) : c'.Phase stream := by
  cases h with
  | fresh h hstream =>
    refine .fresh ⟨hsame.status.trans h.status, ?_, ?_, ?_, ?_, hsame.finQueued.trans h.finQueued,
      hsame.finSequence.trans h.finSequence, hsame.finAcked.trans h.finAcked,
      hsame.peerFin.trans h.peerFin, hdeadline.trans h.deadline⟩ hstream
    · rw [hsame.next, hsame.una, h.next]
    · rw [hsame.maximum, hsame.una, h.maximum]
    · rw [hsame.sendQueue, h.empty]
    · rw [hsame.sendQueue, h.limit]
  | opening h hstream =>
    refine .opening ⟨hsame.status.trans h.status, ?_, ?_, ?_, ?_, ?_,
      hsame.finQueued.trans h.finQueued, hsame.finSequence.trans h.finSequence,
      hsame.finAcked.trans h.finAcked, hsame.peerFin.trans h.peerFin, ?_⟩ hstream
    · rw [hsame.una, hsame.iss, h.una]
    · rw [hsame.next, hsame.iss, h.next]
    · rw [hsame.maximum, hsame.iss, h.maximum]
    · rw [hsame.sendQueue, h.empty]
    · rw [hsame.sendQueue, h.limit]
    · rw [hdeadline]
      exact h.armed
  | active h harmed =>
    refine .active (h.congr hsame) fun hwaiting => ?_
    rw [hdeadline]
    apply harmed
    rw [← hsame.sendQueue, ← hsame.finQueued]
    exact hwaiting
  | finished h => exact .finished (h.congr hsame hdeadline)
  | closed h => exact .closed (hsame.status.trans h)

theorem Phase.active_of_flows (h : c.Phase stream) (hflows : c.Flows) :
    c.Active stream ∧ c.Armed ∧ c.finSequence = none ∧ c.reach ≤ c.sendQueue.length := by
  cases h with
  | active h harmed =>
    rcases h.fin with ⟨_, hnone, hreach⟩ | ⟨hfinishes, _⟩
    · exact ⟨h, harmed, hnone, hreach⟩
    · rcases hflows with hs | hs <;> rcases hfinishes with hs' | hs' | hs' <;> rw [hs] at hs' <;>
        cases hs'
  | fresh h => rcases hflows with hs | hs <;> rw [h.status] at hs <;> cases hs
  | opening h => rcases hflows with hs | hs <;> rw [h.status] at hs <;> cases hs
  | finished h => rcases hflows with hs | hs <;> rw [h.status] at hs <;> cases hs
  | closed h => rcases hflows with hs | hs <;> rw [h] at hs <;> cases hs

theorem Phase.fresh_of_idle (h : c.Phase stream) (hidle : c.status = .idle) :
    c.Fresh ∧ stream = [] := by
  cases h with
  | fresh hfresh hstream => exact ⟨hfresh, hstream⟩
  | opening h =>
    rw [h.status] at hidle
    cases hidle
  | active h =>
    rcases h.status with (hs | hs) | (hs | hs | hs) <;> rw [hidle] at hs <;> cases hs
  | finished h =>
    rw [h.status] at hidle
    cases hidle
  | closed h =>
    rw [h] at hidle
    cases hidle

theorem dist_ack_le {ack : Seq} (hnear : c.reach ≤ 8193) (hnew : Before c.una ack)
    (hold : BeforeEqual ack c.maximum)
    (hfair : ¬ (c.maximum = c.una ∧ ack = c.una + BitVec.ofNat 32 (2 ^ 31))) :
    0 < dist c.una ack ∧ dist c.una ack ≤ c.reach := by
  obtain ⟨hpositive, hhalf⟩ := base_before_iff.mp hnew
  refine ⟨hpositive, ?_⟩
  unfold reach at hnear ⊢
  rcases (beforeEqual_iff_dist hhalf (by omega)).mp hold with hle | ⟨hbase, hexact⟩
  · exact hle
  · refine absurd ⟨hbase, ?_⟩ hfair
    rw [← add_dist c.una ack, show dist c.una ack = 2 ^ 31 by omega]

end Control

namespace Link

open Control

variable {c : Control} {stream : List UInt8} {now : Nat} {ack : Seq}

theorem reach_acknowledged (hle : dist c.una ack ≤ c.reach) :
    (acknowledged ack now c).reach = c.reach - dist c.una ack := dist_of_le hle

theorem timed_acknowledged : (acknowledged ack now c).Timed := by
  intro hreach
  have hne : ack ≠ c.maximum := by
    intro heq
    change 0 < dist ack c.maximum at hreach
    rw [heq, dist_self] at hreach
    omega
  change (if ack ≠ c.maximum then some (deadlineAt now 100) else none).isSome = true
  rw [if_pos hne]
  rfl

section Acknowledged
variable (h : c.Active stream) (hle : dist c.una ack ≤ c.reach)
include h hle

theorem cursor_acknowledged : (acknowledged ack now c).cursor = c.cursor - dist c.una ack := by
  have hnear := h.near
  have hcursorLe := h.cursor_le
  have hbefore : Before c.next ack ↔ c.cursor < dist c.una ack :=
    before_iff_dist (by change 2 * c.cursor < _; omega) (by omega)
  change dist ack (if Before c.next ack then ack else c.next) = _
  by_cases hlt : c.cursor < dist c.una ack
  · rw [if_pos (hbefore.mpr hlt), dist_self]
    omega
  · rw [if_neg (mt hbefore.mp hlt)]
    exact dist_of_le (Nat.le_of_not_lt hlt)

theorem finAcked_acknowledged :
    (acknowledged ack now c).finAcked = decide (c.sendQueue.length < dist c.una ack) := by
  have hlength := h.length_le
  unfold acknowledged
  rcases h.fin with ⟨_, hnone, hreach⟩ | ⟨_, _, hsome, hreach⟩
  · rw [hnone, h.unacked, decide_eq_false (by omega)]
  have hfin : dist c.una (c.una + BitVec.ofNat 32 c.sendQueue.length) = c.sendQueue.length :=
    dist_add_ofNat (by omega)
  have hbefore : Before (c.una + BitVec.ofNat 32 c.sendQueue.length) ack
      ↔ c.sendQueue.length < dist c.una ack := by
    rw [before_iff_dist (a := c.una), hfin]
    · rw [hfin]
      omega
    · omega
  rw [hsome, h.unacked]
  simp only [hbefore]
  split
  · rw [decide_eq_true ‹_›]
  · rw [decide_eq_false ‹_›]

omit hle in
theorem streams_acknowledged (hdata : dist c.una ack ≤ c.sendQueue.length) :
    (acknowledged ack now c).Streams stream := by
  obtain ⟨a, ha, huna, hqueue⟩ := h.streams
  have hlength : c.sendQueue.length = stream.length - a := by
    rw [← Bytes.length_toList, hqueue, List.length_drop]
  refine ⟨a + dist c.una ack, by omega, ?_, ?_⟩
  · change ack = c.iss + 1 + BitVec.ofNat 32 (a + dist c.una ack)
    rw [BitVec.ofNat_add, ← add_assoc, ← huna]
    exact (add_dist c.una ack).symm
  · change (c.sendQueue.consume (dist c.una ack)).toList = _
    rw [Bytes.toList_consume, hqueue, List.drop_drop]

theorem active_acknowledged (hdata : dist c.una ack ≤ c.sendQueue.length) :
    (acknowledged ack now c).Active stream := by
  have hcursorLe := h.cursor_le
  have hreach : (acknowledged ack now c).reach = c.reach - dist c.una ack := reach_acknowledged hle
  have hcursor : (acknowledged ack now c).cursor = c.cursor - dist c.una ack :=
    cursor_acknowledged h hle
  have hqueue : (acknowledged ack now c).sendQueue.length = c.sendQueue.length - dist c.una ack :=
    Bytes.length_consume
  refine ⟨streams_acknowledged h hdata, h.limit, ?_, by omega, ?_, h.peer⟩
  · rw [finAcked_acknowledged h hle, decide_eq_false (by omega)]
  rw [hreach, hqueue]
  rcases h.fin with ⟨hflows, hnone, hle'⟩ | ⟨hfinishes, hqueued, hsome, heq⟩
  · exact .inl ⟨hflows, hnone, by omega⟩
  refine .inr ⟨hfinishes, hqueued, ?_, by omega⟩
  change c.finSequence = some (ack + BitVec.ofNat 32 (c.sendQueue.length - dist c.una ack))
  rw [hsome]
  congr 1
  calc
    c.una + BitVec.ofNat 32 c.sendQueue.length
        = c.una + BitVec.ofNat 32 (dist c.una ack + (c.sendQueue.length - dist c.una ack)) := by
      rw [Nat.add_sub_cancel' hdata]
    _ = c.una + BitVec.ofNat 32 (dist c.una ack)
          + BitVec.ofNat 32 (c.sendQueue.length - dist c.una ack) := by
      rw [BitVec.ofNat_add, add_assoc]
    _ = ack + BitVec.ofNat 32 (c.sendQueue.length - dist c.una ack) := by
      rw [add_dist]

end Acknowledged

theorem acceptAck_settled (h : c.Active stream) (hle : dist c.una ack ≤ c.reach) :
    (acceptAck ack now c).Settled stream := by
  have hfinAcked : (acknowledged ack now c).finAcked
      = decide (c.sendQueue.length < dist c.una ack) := finAcked_acknowledged h hle
  rw [acceptAck, closeAcked]
  by_cases hdata : dist c.una ack ≤ c.sendQueue.length
  · rw [hfinAcked, decide_eq_false (by omega), if_neg (by decide)]
    exact .active (active_acknowledged h hle hdata) timed_acknowledged
  -- the FIN is acknowledged, so it had been sent and the queue is empty now
  rcases h.fin with ⟨_, _, hreach⟩ | ⟨hfinishes, _, _, hreach⟩
  · omega
  rw [hfinAcked, decide_eq_true (by omega), if_pos rfl]
  have hstatus : (acknowledged ack now c).status = c.status := rfl
  rw [hstatus]
  rcases hfinishes with hfinWait1 | hclosing | hlastAck
  · rw [hfinWait1]
    have hcursorLe := h.cursor_le
    refine .finished ⟨rfl, ?_, ?_, ?_, rfl, ?_, rfl⟩
    · apply dist_eq_zero_iff.mp
      change (acknowledged ack now c).cursor = 0
      rw [cursor_acknowledged h hle]
      omega
    · apply dist_eq_zero_iff.mp
      change (acknowledged ack now c).reach = 0
      rw [reach_acknowledged hle]
      omega
    · change (c.sendQueue.consume (dist c.una ack)).length = 0
      rw [Bytes.length_consume]
      omega
    change c.peerFin = false
    by_contra hpeer
    rcases h.peer (by simpa using hpeer) with hstatus | hstatus | hstatus <;>
      rw [hfinWait1] at hstatus <;> cases hstatus
  · rw [hclosing]
    exact .closed rfl
  · rw [hlastAck]
    exact .closed rfl

variable {l l' l'' : Link} {segment : Segment}

theorem acknowledge_sameSender (l : Link) :
    l.control.SameSender l.acknowledge.control := send_sameSender ..

/-- An event that takes no bytes from the user: the connection stays in order, and so is what was
sent. -/
structure Proceeds (stream : List UInt8) (l l' : Link) : Prop where
  phase : l'.control.Phase stream
  iss : l'.control.iss = l.control.iss
  emits : Emits (Emission.InStream l.control.iss stream) l l'
  fin : FinKept l l'
  probes : l'.probes ≤ l.probes + 1

structure Prepares (l l' : Link) : Prop where
  iss : l'.control.iss = l.control.iss
  finSequence : l'.control.finSequence = l.control.finSequence
  bare : Emits (fun e => e.payload = [] ∧ e.flags &&& FIN = 0) l l'

theorem Prepares.refl (l : Link) : Prepares l l := ⟨rfl, rfl, Emits.refl l⟩

theorem Prepares.trans (h : Prepares l l') (h' : Prepares l' l'') : Prepares l l'' :=
  ⟨h'.iss.trans h.iss, h'.finSequence.trans h.finSequence, h.bare.trans h'.bare⟩

theorem prepares_acknowledge (l : Link) : Prepares l l.acknowledge :=
  ⟨rfl, rfl, emits_send ⟨rfl, show ACK &&& FIN = 0 by decide⟩⟩

theorem prepares_modify {f : Control → Control} (hiss : (f l.control).iss = l.control.iss)
    (hfin : (f l.control).finSequence = l.control.finSequence) :
    Prepares l (l.modify f) := ⟨hiss, hfin, emits_modify f l⟩

section
variable (h : Prepares l l')
include h

theorem Prepares.finKept : FinKept l l' := by
  obtain ⟨sent, hwire, hsent⟩ := h.bare
  exact finKept_of_bare h.finSequence ⟨sent, hwire, fun e he => (hsent e he).2⟩

theorem Prepares.emits {iss : Seq} : Emits (Emission.InStream iss stream) l l' := by
  obtain ⟨sent, hwire, hsent⟩ := h.bare
  exact ⟨sent, hwire, fun e he => inStream_of_bare (hsent e he).1 (hsent e he).2⟩

theorem Prepares.probes : l'.probes = l.probes := h.bare.probes fun _ he => he.1

theorem Prepares.proceeds (hphase : l'.control.Phase stream) : Proceeds stream l l' :=
  ⟨hphase, h.iss, h.emits, h.finKept, h.probes.le.trans (Nat.le_succ _)⟩

theorem Prepares.then (h' : Proceeds stream l' l'') : Proceeds stream l l'' := by
  refine ⟨h'.phase, h'.iss.trans h.iss, h.emits.trans ?_, h.finKept.trans h'.fin, ?_⟩
  · rw [← h.iss]
    exact h'.emits
  · rw [← h.probes]
    exact h'.probes

end

theorem output_proceeds {probe : Bool} (h : l.control.Settled stream) :
    Proceeds stream l (l.output now probe) := by
  cases h with
  | active h htimed =>
    exact ⟨.active (output_active h) (output_armed h htimed), output_iss .., output_emits h,
      output_finKept .., probes_output_le now probe h⟩
  | finished h =>
    have hsame : l.output now probe = l := by
      unfold output
      rw [h.status]
    rw [hsame]
    exact (Prepares.refl l).proceeds (.finished h)
  | closed h =>
    have hsame : l.output now probe = l := by
      unfold output
      rw [h]
    rw [hsame]
    exact (Prepares.refl l).proceeds (.closed h)

theorem acceptFin_active (h : c.Active stream)
    (hstatus : c.status = .established ∨ c.status = .finWait1) :
    (acceptFin c).Active stream ∧ (acceptFin c).deadline = c.deadline := by
  -- the peer's FIN moves on neither to nor from the statuses in which our own has been sent
  have hmoved : (finReceived c.status = .closeWait ∧ c.Flows)
      ∨ (finReceived c.status = .closing ∧ c.Finishes) := by
    rcases hstatus with hstatus | hstatus <;> rw [hstatus]
    · exact .inl ⟨rfl, .inl hstatus⟩
    · exact .inr ⟨rfl, .inl hstatus⟩
  have hdeadline : (acceptFin c).deadline = c.deadline := by
    change (if finReceived c.status = .closed then none else c.deadline) = _
    rcases hmoved with ⟨hmoved, _⟩ | ⟨hmoved, _⟩ <;> rw [hmoved, if_neg (by decide)]
  refine ⟨⟨h.streams, h.limit, h.unacked, h.cursor_le, ?_, fun _ => ?_⟩, hdeadline⟩
  · rcases h.fin with ⟨hflows, hnone, hreach⟩ | ⟨hfinishes, hqueued, hsome, hreach⟩
    · rcases hmoved with ⟨hmoved, _⟩ | ⟨_, hfinishes⟩
      · exact .inl ⟨.inr hmoved, hnone, hreach⟩
      · rcases hflows with hs | hs <;> rcases hfinishes with hs' | hs' | hs' <;> rw [hs] at hs' <;>
          cases hs'
    · rcases hmoved with ⟨_, hflows⟩ | ⟨hmoved, _⟩
      · rcases hflows with hs | hs <;> rcases hfinishes with hs' | hs' | hs' <;> rw [hs] at hs' <;>
          cases hs'
      · exact .inr ⟨.inr (.inl hmoved), hqueued, hsome, hreach⟩
  · rcases hmoved with ⟨hmoved, _⟩ | ⟨hmoved, _⟩
    · exact .inl hmoved
    · exact .inr (.inl hmoved)

theorem accepts_iff {status : Status} : accepts status = true
    ↔ status = .established ∨ status = .finWait1 ∨ status = .finWait2 := by
  cases status <;> simp [accepts]

theorem acceptFin_settled (h : c.Settled stream) (haccepts : accepts c.status = true) :
    (acceptFin c).Settled stream := by
  rw [accepts_iff] at haccepts
  cases h with
  | active h htimed =>
    have hstatus : c.status = .established ∨ c.status = .finWait1 := by
      rcases haccepts with hs | hs | hs
      · exact .inl hs
      · exact .inr hs
      · rcases h.status with (hs' | hs') | (hs' | hs' | hs') <;> rw [hs] at hs' <;> cases hs'
    obtain ⟨hactive, hdeadline⟩ := acceptFin_active h hstatus
    refine .active hactive fun hreach => ?_
    rw [hdeadline]
    exact htimed hreach
  | finished h =>
    refine .closed ?_
    change finReceived c.status = .closed
    rw [h.status]
    rfl
  | closed h =>
    rw [h] at haccepts
    simp at haccepts

theorem accept_settled (h : c.Settled stream) : (accept segment c).Settled stream := by
  unfold accept
  split
  · rename_i htaken
    have hreceived : (acceptPayload segment c).Settled stream :=
      h.congr ⟨rfl, rfl, rfl, rfl, rfl, rfl, rfl, rfl, rfl, rfl⟩ rfl
    split
    · exact acceptFin_settled hreceived htaken.2
    · exact hreceived
  · exact h

theorem accept_sender (segment : Segment) (c : Control) :
    (accept segment c).iss = c.iss ∧ (accept segment c).finSequence = c.finSequence := by
  unfold accept
  split
  · split <;> exact ⟨rfl, rfl⟩
  · exact ⟨rfl, rfl⟩

theorem deliver_proceeds (h : l.control.Settled stream) :
    Proceeds stream l (l.deliver segment now) := by
  have hwindow : (l.modify fun c => { c with window := segment.window }).control.Settled stream :=
    h.congr ⟨rfl, rfl, rfl, rfl, rfl, rfl, rfl, rfl, rfl, rfl⟩ rfl
  have hprepares : Prepares l (l.modify fun c => { c with window := segment.window }) :=
    prepares_modify rfl rfl
  unfold deliver
  generalize l.modify (fun c => { c with window := segment.window }) = l1 at hwindow hprepares
  split
  · obtain ⟨hiss, hfin⟩ := accept_sender segment l1.control
    have haccept : (l1.modify (accept segment)).control.Settled stream := accept_settled hwindow
    have hready := haccept.congr (acknowledge_sameSender _) rfl
    refine hprepares.then (Prepares.then (prepares_modify hiss hfin) ?_)
    exact (prepares_acknowledge _).then (output_proceeds hready)
  · exact hprepares.then (output_proceeds hwindow)

theorem closeAcked_sender (now : Nat) (c : Control) :
    (closeAcked now c).iss = c.iss ∧ (closeAcked now c).finSequence = c.finSequence := by
  unfold closeAcked
  split
  · split <;> exact ⟨rfl, rfl⟩
  · exact ⟨rfl, rfl⟩

theorem reset_proceeds (h : l.control.Synchronized stream) :
    Proceeds stream l (l.reset segment) := by
  unfold reset
  dsimp only
  split
  · exact Prepares.proceeds (prepares_modify rfl rfl) (.closed rfl)
  · exact (Prepares.refl l).proceeds h.phase

theorem acknowledge_proceeds (h : l.control.Phase stream) : Proceeds stream l l.acknowledge :=
  (prepares_acknowledge l).proceeds (h.congr (acknowledge_sameSender l) rfl)

theorem synchronized_proceeds (h : l.control.Synchronized stream)
    (hfair : segment.flags &&& RST = 0 → segment.flags &&& SYN = 0 → segment.flags &&& ACK ≠ 0 →
      ¬ (l.control.maximum = l.control.una ∧ segment.ack = l.control.una + BitVec.ofNat 32
      (2 ^ 31))) : Proceeds stream l (l.synchronized segment now) := by
  unfold synchronized
  dsimp only
  split
  · exact reset_proceeds h
  rename_i hrst
  split
  · exact acknowledge_proceeds h.phase
  rename_i hsyn
  split
  · exact (Prepares.refl l).proceeds h.phase
  rename_i hack
  have hunambiguous := hfair (not_not.mp hrst) (not_not.mp hsyn) hack
  split
  · rename_i hnew
    obtain ⟨hpositive, hle⟩ := dist_ack_le h.near hnew.1 hnew.2 hunambiguous
    cases h with
    | active h =>
      obtain ⟨hiss, hfin⟩ := closeAcked_sender now (acknowledged segment.ack now l.control)
      exact Prepares.then (prepares_modify hiss hfin) (deliver_proceeds (acceptAck_settled h hle))
    | finished h =>
      -- everything has been acknowledged, so nothing is left to acknowledge
      unfold reach at hle
      rw [h.maximum, dist_self] at hle
      omega
  · split
    · exact acknowledge_proceeds h.phase
    split
    · have hretries : (l.modify fun c => { c with retries := 0 }).control.Settled stream :=
        h.settled.congr ⟨rfl, rfl, rfl, rfl, rfl, rfl, rfl, rfl, rfl, rfl⟩ rfl
      exact Prepares.then (prepares_modify rfl rfl) (deliver_proceeds hretries)
    · exact deliver_proceeds h.settled

theorem and_ne_zero_of_both {flags mask bit : UInt8} (h : flags &&& mask = mask)
    (hbit : mask &&& bit ≠ 0) (habsorb : mask &&& bit = bit) : flags &&& bit ≠ 0 := by
  have hmask : flags &&& bit = (flags &&& mask) &&& bit := by
    rw [UInt8.and_assoc, habsorb]
  rw [hmask, h]
  exact hbit

theorem ack_of_both {flags : UInt8} (h : flags &&& (SYN ||| ACK) = SYN ||| ACK) :
    flags &&& ACK ≠ 0 :=
  and_ne_zero_of_both h (by decide) (by decide)

theorem syn_of_both {flags : UInt8} (h : flags &&& (SYN ||| ACK) = SYN ||| ACK) :
    flags &&& SYN ≠ 0 :=
  and_ne_zero_of_both h (by decide) (by decide)

theorem active_of_opening {c' : Control} (h : c.Opening) (hstatus : c'.status = .established)
    (hiss : c'.iss = c.iss) (huna : c'.una = c.iss + 1) (hnext : c'.next = c.next)
    (hmaximum : c'.maximum = c.maximum) (hqueue : c'.sendQueue = c.sendQueue)
    (hfinSequence : c'.finSequence = c.finSequence) (hfinAcked : c'.finAcked = c.finAcked)
    (hpeerFin : c'.peerFin = c.peerFin) : c'.Active [] ∧ c'.Timed := by
  have hreach : c'.reach = 0 := by
    unfold reach
    rw [hmaximum, h.maximum, huna, dist_self]
  have hcursor : c'.cursor = 0 := by
    unfold cursor
    rw [hnext, h.next, huna, dist_self]
  refine ⟨⟨⟨0, le_rfl, ?_, ?_⟩, ?_, ?_, ?_, .inl ⟨.inl hstatus, ?_, ?_⟩, ?_⟩, ?_⟩
  · rw [huna, hiss]
    simp
  · rw [hqueue, List.drop_nil, ← List.length_eq_zero_iff, Bytes.length_toList, h.empty]
  · rw [hqueue, h.limit]
  · rw [hfinAcked, h.finAcked]
  · rw [hcursor, hreach]
  · rw [hfinSequence, h.finSequence]
  · rw [hreach]
    exact Nat.zero_le _
  · intro hpeer
    rw [hpeerFin, h.peerFin] at hpeer
    cases hpeer
  · intro hpositive
    rw [hreach] at hpositive
    omega

theorem handshake_proceeds (h : l.control.Opening) : Proceeds [] l (l.handshake segment now) := by
  unfold handshake
  dsimp only
  split
  · split
    · have hbare : Prepares l (l.transmit segment.ack 0 RST 0 []) :=
        ⟨rfl, rfl, [_], rfl, by simpa using (show RST &&& FIN = 0 by decide)⟩
      exact hbare.proceeds (.opening h rfl)
    · exact (Prepares.refl l).proceeds (.opening h rfl)
  rename_i hack
  split
  · split
    · exact Prepares.proceeds (prepares_modify rfl rfl) (.closed rfl)
    · exact (Prepares.refl l).proceeds (.opening h rfl)
  split
  · rename_i hsynAck
    have hexpected : segment.ack = l.control.iss + 1 := by
      by_contra hne
      exact hack ⟨ack_of_both hsynAck, hne⟩
    obtain ⟨hactive, htimed⟩ : (establish segment l.control).Active []
        ∧ (establish segment l.control).Timed :=
      active_of_opening h rfl rfl hexpected rfl rfl rfl rfl rfl rfl
    have hestablished : (l.modify (establish segment)).control.Settled [] := .active hactive htimed
    have hready := hestablished.congr (acknowledge_sameSender _) rfl
    have hprepares : Prepares l (l.modify (establish segment)) := prepares_modify rfl rfl
    exact hprepares.then ((prepares_acknowledge _).then (output_proceeds hready))
  · exact (Prepares.refl l).proceeds (.opening h rfl)

theorem sendSyn_opening (hstatus : l.control.status = .synSent)
    (huna : l.control.una = l.control.iss) (hnext : l.control.next = l.control.iss)
    (hmaximum : l.control.maximum = l.control.iss ∨ l.control.maximum = l.control.iss + 1)
    (hempty : l.control.sendQueue.length = 0) (hlimit : l.control.sendQueue.limit = sendCap)
    (hfinQueued : l.control.finQueued = false) (hfinSequence : l.control.finSequence = none)
    (hfinAcked : l.control.finAcked = false) (hpeerFin : l.control.peerFin = false) :
    (l.sendSyn now).control.Opening := by
  refine ⟨hstatus, huna, ?_, ?_, hempty, hlimit, hfinQueued, hfinSequence, hfinAcked, hpeerFin,
    Control.arm_isSome now _⟩
  · change l.control.next + BitVec.ofNat 32 1 = l.control.iss + 1
    rw [hnext]
    rfl
  change (if Before l.control.maximum (l.control.next + BitVec.ofNat 32 1)
    then l.control.next + BitVec.ofNat 32 1 else l.control.maximum) = l.control.iss + 1
  have hone : BitVec.ofNat 32 1 = 1 := rfl
  rw [hnext, hone]
  rcases hmaximum with hmaximum | hmaximum <;> rw [hmaximum]
  · rw [if_pos]
    rw [base_before_iff, ← hone, dist_add_ofNat (by decide)]
    decide
  · rw [ite_self]

theorem sendSyn_prepares (now : Nat) (l : Link) : Prepares l (l.sendSyn now) :=
  ⟨rfl, rfl, emits_send ⟨rfl, show SYN &&& FIN = 0 by decide⟩⟩

def expired (c : Control) : Control :=
  rewind { c with deadline := none, retries := c.retries + 1 }

theorem expire_eq : l.expire now = if l.control.status = .finWait2 then
        l.modify fun c => { c with deadline := none, status := .closed }
      else if l.control.retries + 1 > 6 then
        l.modify fun c => Control.fail (-11) { c with deadline := none, retries := c.retries + 1 }
      else ((l.modify expired).output now true).modify (Control.arm now) := rfl

theorem active_expired (h : c.Active stream) : (expired c).Active stream := by
  have hstatus : c.status ≠ .synSent := by
    intro hsyn
    rcases h.status with (hs | hs) | (hs | hs | hs) <;> rw [hsyn] at hs <;> cases hs
  refine ⟨h.streams, h.limit, h.unacked, ?_, h.fin, h.peer⟩
  change dist c.una (if c.status = .synSent then c.iss else c.una) ≤ _
  rw [if_neg hstatus, dist_self]
  exact Nat.zero_le _

theorem output_expired_opening (now : Nat) (h : l.control.Opening) :
    (l.modify expired).output now true = (l.modify expired).sendSyn now
      ∧ ((l.modify expired).sendSyn now).control.Opening := by
  have hnext : (l.modify expired).control.next = l.control.iss := by
    change (if l.control.status = .synSent then l.control.iss else l.control.una) = _
    rw [if_pos h.status]
  have hstatus : (l.modify expired).control.status = .synSent := h.status
  constructor
  · unfold output
    rw [hstatus]
    exact if_pos hnext
  · exact sendSyn_opening h.status h.una hnext (.inr h.maximum) h.empty h.limit h.finQueued
      h.finSequence h.finAcked h.peerFin

theorem expire_proceeds (h : l.control.Phase stream) (hidle : l.control.status ≠ .idle) :
    Proceeds stream l (l.expire now) := by
  have hprepares : Prepares l (l.modify expired) := prepares_modify rfl rfl
  have harm : ∀ l1 : Link, Prepares l1 (l1.modify (Control.arm now)) := fun _ =>
    prepares_modify rfl rfl
  rw [expire_eq]
  split
  · exact Prepares.proceeds (prepares_modify rfl rfl) (.closed rfl)
  rename_i hfinWait2
  split
  · exact Prepares.proceeds (prepares_modify rfl rfl) (.closed rfl)
  cases h with
  | fresh h => exact absurd h.status hidle
  | opening h hstream =>
    obtain ⟨hsyn, hopening⟩ := output_expired_opening now h
    rw [hsyn]
    have hsent := (hprepares.trans (sendSyn_prepares now _)).trans (harm _)
    exact hsent.proceeds (.opening ⟨hopening.status, hopening.una, hopening.next,
      hopening.maximum, hopening.empty, hopening.limit, hopening.finQueued,
      hopening.finSequence, hopening.finAcked, hopening.peerFin, Control.arm_isSome now _⟩
      hstream)
  | active h =>
    have hactive : (l.modify expired).control.Active stream := active_expired h
    refine ⟨.active ((output_active hactive).congr (Control.sameSender_arm now _))
      fun _ => Control.arm_isSome now _, ?_, ?_, ?_, ?_⟩
    · exact output_iss ..
    · exact hprepares.emits.trans ((output_emits hactive).trans (harm _).emits)
    · exact (hprepares.finKept.trans (output_finKept ..)).trans (harm _).finKept
    · rw [(harm _).probes, ← hprepares.probes]
      exact probes_output_le now true hactive
  | finished h => exact absurd h.status hfinWait2
  | closed h =>
    have hstatus : (l.modify expired).control.status = .closed := h
    have hsame : (l.modify expired).output now true = l.modify expired := by
      unfold output
      rw [hstatus]
    rw [hsame]
    exact (hprepares.trans (harm _)).proceeds (.closed hstatus)

theorem timer_proceeds (h : l.control.Phase stream) : Proceeds stream l (l.timer now) := by
  unfold timer
  split
  · rename_i deadline hdeadline
    split
    · exact (Prepares.refl l).proceeds h
    · refine expire_proceeds h fun hidle => ?_
      rw [(h.fresh_of_idle hidle).1.deadline] at hdeadline
      cases hdeadline
  · exact (Prepares.refl l).proceeds h

end Link

end Kaguya.Tcp
