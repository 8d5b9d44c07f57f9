import Kaguya.Tcp.Runs

/-!
# The receiving side

The peer has a stream of bytes and sends slices of it, which may be lost, duplicated or arrive in
any order. `Receives` is the invariant of the receiving side of a connection that has been set up:
what has been returned and what waits in the queue are a prefix of the stream, and `receiveNext` is
the position behind it.
-/

namespace Kaguya.Tcp

open Serial List

/-- A segment of a peer with this initial sequence number and this stream: it carries the slice of
the stream that its sequence number names, and a FIN only at the end. Segments that carry nothing
are arbitrary. -/
def FromPeer (irs : Seq) (peer : List UInt8) (segment : Segment) : Prop :=
  (segment.flags &&& SYN ≠ 0 → segment.sequence = irs)
  ∧ (segment.flags &&& SYN = 0 → segment.payload.length ≠ 0 ∨ segment.flags &&& FIN ≠ 0 →
    dist (irs + 1) segment.sequence + segment.payload.length ≤ peer.length
    ∧ segment.payload = (peer.drop (dist (irs + 1) segment.sequence)).take segment.payload.length
    ∧ (segment.flags &&& FIN ≠ 0 →
      dist (irs + 1) segment.sequence + segment.payload.length = peer.length))

instance (irs : Seq) (peer : List UInt8) (segment : Segment) :
    Decidable (FromPeer irs peer segment) :=
  inferInstanceAs (Decidable (_ ∧ _))

namespace Control

def begun : Status → Bool
  | .idle | .synSent => false
  | _ => true

def peerDone : Status → Bool
  | .closeWait | .closing | .lastAck | .closed => true
  | _ => false

def expected (irs : Seq) (returned : List UInt8) (c : Control) : Seq :=
  irs + 1 + BitVec.ofNat 32 (returned ++ c.receiveQueue.toList).length + if c.peerFin then 1 else 0

/-- The receiving side of a connection that has been set up, after `returned` has been read. -/
structure Receives (irs : Seq) (peer returned : List UInt8) (c : Control) : Prop where
  begun : begun c.status = true
  limit : c.receiveQueue.limit = recvCap
  done : c.peerFin = true → peerDone c.status = true
  stream : returned ++ c.receiveQueue.toList <+: peer
  position : c.userClosed = false → c.receiveNext = c.expected irs returned
  fin : c.peerFin = true → c.userClosed = false → returned ++ c.receiveQueue.toList = peer

structure SameReceiver (c c' : Control) : Prop where
  begun : begun c.status = true → Control.begun c'.status = true
  done : peerDone c.status = true → peerDone c'.status = true
  receiveNext : c'.receiveNext = c.receiveNext
  receiveQueue : c'.receiveQueue = c.receiveQueue
  peerFin : c'.peerFin = c.peerFin
  userClosed : c'.userClosed = c.userClosed

variable {c c' c'' : Control} {irs : Seq} {peer returned : List UInt8} {segment : Segment}

theorem SameReceiver.trans (h : c.SameReceiver c') (h' : c'.SameReceiver c'') :
    c.SameReceiver c'' where
  begun hbegun := h'.begun (h.begun hbegun)
  done hdone := h'.done (h.done hdone)
  receiveNext := h'.receiveNext.trans h.receiveNext
  receiveQueue := h'.receiveQueue.trans h.receiveQueue
  peerFin := h'.peerFin.trans h.peerFin
  userClosed := h'.userClosed.trans h.userClosed

theorem sameReceiver_of_eq (hstatus : c'.status = c.status)
    (hnext : c'.receiveNext = c.receiveNext) (hqueue : c'.receiveQueue = c.receiveQueue)
    (hfin : c'.peerFin = c.peerFin) (hclosed : c'.userClosed = c.userClosed) : c.SameReceiver c' :=
  ⟨fun hbegun => by rw [hstatus]; exact hbegun, fun hdone => by rw [hstatus]; exact hdone,
    hnext, hqueue, hfin, hclosed⟩

theorem Receives.congr (h : c.Receives irs peer returned) (hsame : c.SameReceiver c') :
    c'.Receives irs peer returned := by
  obtain ⟨hbegun, hdone, hnext, hqueue, hfin, hclosed⟩ := hsame
  refine ⟨hbegun h.begun, ?_, ?_, ?_, ?_, ?_⟩
  · rw [hqueue]
    exact h.limit
  · rw [hfin]
    exact fun hpeer => hdone (h.done hpeer)
  · rw [hqueue]
    exact h.stream
  · unfold expected
    rw [hnext, hqueue, hfin, hclosed]
    exact h.position
  · rw [hqueue, hfin, hclosed]
    exact h.fin

end Control

namespace Link

open Control

variable {l l' l'' : Link} {c : Control} {irs : Seq} {peer returned : List UInt8} {now : Nat}
  {segment : Segment}

theorem append_slice_isPrefix {received payload : List UInt8} {n : Nat} (h : received <+: peer)
    (hpayload : payload = (peer.drop received.length).take n) (t : Nat) :
    received ++ payload.take t <+: peer := by
  obtain ⟨rest, hrest⟩ := h
  rw [hpayload, ← hrest, drop_left, take_take]
  exact (prefix_append_right_inj received).mpr (List.take_prefix _ rest)

variable {k : Nat} {f : Control → Control}

theorem position_of_expected (h : c.Receives irs peer returned) (hlength : peer.length < 2 ^ 32)
    (hopen : c.userClosed = false) (hpeerFin : c.peerFin = false) (hk : k ≤ peer.length)
    (hsequence : irs + 1 + BitVec.ofNat 32 k = c.receiveNext) :
    k = (returned ++ c.receiveQueue.toList).length := by
  have hle := h.stream.length_le
  have hnext : c.receiveNext = irs + 1 + BitVec.ofNat 32
      (returned ++ c.receiveQueue.toList).length := by
    rw [h.position hopen, expected, hpeerFin]
    simp
  rw [hnext] at hsequence
  have hdist := congrArg (dist (irs + 1)) hsequence
  rw [dist_add_ofNat (by omega), dist_add_ofNat (by omega)] at hdist
  exact hdist

theorem taken_le (segment : Segment) (c : Control) : taken segment c ≤ segment.payload.length := by
  unfold taken
  split
  · exact le_rfl
  · exact Nat.min_le_left ..

theorem toList_acceptPayload (hlimit : c.receiveQueue.limit = recvCap)
    (hopen : c.userClosed = false) : (acceptPayload segment c).receiveQueue.toList
      = c.receiveQueue.toList ++ segment.payload.take (taken segment c) := by
  have htaken : taken segment c ≤ recvCap - c.receiveQueue.length := by
    unfold taken
    rw [hopen]
    exact Nat.min_le_right ..
  have hqueue : (acceptPayload segment c).receiveQueue
      = (c.receiveQueue.push (segment.payload.take (taken segment c))).2 := by
    unfold acceptPayload
    rw [hopen]
    rfl
  rw [hqueue, Bytes.toList_push, take_take, hlimit, Nat.min_eq_right htaken]

section
variable (h : c.Receives irs peer returned)
include h

theorem acceptPayload_receives (hlength : peer.length < 2 ^ 32) (hpeerFin : c.peerFin = false)
    (hnext : segment.sequence = c.receiveNext)
    (hsequence : segment.sequence = irs + 1 + BitVec.ofNat 32 k)
    (hk : k + segment.payload.length ≤ peer.length)
    (hpayload : segment.payload = (peer.drop k).take segment.payload.length) :
    (acceptPayload segment c).Receives irs peer returned
    ∧ (c.userClosed = false → (returned ++ (acceptPayload segment c).receiveQueue.toList).length
      = k + taken segment c) := by
  cases hopen : c.userClosed with
  | true =>
    have hqueue : (acceptPayload segment c).receiveQueue = c.receiveQueue := by
      unfold acceptPayload
      rw [hopen]
      rfl
    have hclosed : (acceptPayload segment c).userClosed = true := hopen
    refine ⟨⟨h.begun, ?_, h.done, ?_, ?_, ?_⟩, fun hfalse => by cases hfalse⟩
    · rw [hqueue]
      exact h.limit
    · rw [hqueue]
      exact h.stream
    · rw [hclosed]
      exact fun hfalse => by cases hfalse
    · rw [hclosed]
      exact fun _ hfalse => by cases hfalse
  | false =>
    have hat : k = (returned ++ c.receiveQueue.toList).length :=
      position_of_expected h hlength hopen hpeerFin (by omega) (hsequence.symm.trans hnext)
    have hqueue : returned ++ (acceptPayload segment c).receiveQueue.toList
        = returned ++ c.receiveQueue.toList ++ segment.payload.take (taken segment c) := by
      rw [toList_acceptPayload h.limit hopen, append_assoc]
    have hsize : (returned ++ (acceptPayload segment c).receiveQueue.toList).length = k + taken
        segment c := by
      rw [hqueue, length_append, length_take, ← hat, Nat.min_eq_left (taken_le segment c)]
    refine ⟨⟨h.begun, ?_, h.done, ?_, fun _ => ?_, ?_⟩, fun _ => hsize⟩
    · unfold acceptPayload
      rw [hopen]
      exact h.limit
    · rw [hqueue]
      exact append_slice_isPrefix h.stream (by rw [← hat]; exact hpayload) _
    · have hmissing : (acceptPayload segment c).peerFin = false := hpeerFin
      rw [expected, hsize, hmissing]
      change c.receiveNext + BitVec.ofNat 32 (taken segment c) = _
      rw [← hnext, hsequence, BitVec.ofNat_add, add_assoc]
      simp [add_assoc]
    · intro hfin
      have hmissing : c.peerFin = true := hfin
      rw [hpeerFin] at hmissing
      cases hmissing

theorem acceptFin_receives (hpeerFin : c.peerFin = false) (haccepts : accepts c.status = true)
    (hall : c.userClosed = false → returned ++ c.receiveQueue.toList = peer) :
    (acceptFin c).Receives irs peer returned := by
  have hstatus : begun (finReceived c.status) = true ∧ peerDone (finReceived c.status) = true := by
    rcases accepts_iff.mp haccepts with hs | hs | hs <;> rw [hs] <;> decide
  refine ⟨hstatus.1, h.limit, fun _ => hstatus.2, h.stream, fun hopen => ?_, fun _ hopen => ?_⟩
  · change c.receiveNext + 1 = _
    rw [h.position hopen, expected, hpeerFin]
    simp [expected, acceptFin]
  · exact hall hopen

theorem accept_receives (hlength : peer.length < 2 ^ 32) (hpeer : FromPeer irs peer segment)
    (hsyn : segment.flags &&& SYN = 0)
    (hcarries : segment.payload.length ≠ 0 ∨ segment.flags &&& FIN ≠ 0) :
    (accept segment c).Receives irs peer returned := by
  unfold accept
  split
  · rename_i haccepted
    obtain ⟨hnext, haccepts⟩ := haccepted
    obtain ⟨hk, hpayload, hend⟩ := hpeer.2 hsyn hcarries
    -- no FIN is in while payload is accepted
    have hpeerFin : c.peerFin = false := by
      by_contra hfin
      have hdone := h.done (by simpa using hfin)
      rcases accepts_iff.mp haccepts with hs | hs | hs <;> rw [hs] at hdone <;> cases hdone
    obtain ⟨hreceives, hsize⟩ :=
      acceptPayload_receives h hlength hpeerFin hnext (add_dist _ _).symm hk hpayload
    split
    · rename_i hfin
      refine acceptFin_receives hreceives hpeerFin haccepts fun hopen => ?_
      apply hreceives.stream.eq_of_length
      rw [hsize hopen, hfin.2, hend hfin.1]
    · exact hreceives
  · exact h

end

def Answers (position : Seq) (e : Emission) : Prop :=
  e.flags &&& ACK ≠ 0 → e.acknowledgement = position

structure Quiet (l l' : Link) : Prop where
  same : l.control.SameReceiver l'.control
  answers : Emits (Answers l.control.receiveNext) l l'

theorem Quiet.refl (l : Link) : Quiet l l := ⟨sameReceiver_of_eq rfl rfl rfl rfl rfl, Emits.refl l⟩

theorem Quiet.trans (h : Quiet l l') (h' : Quiet l' l'') : Quiet l l'' := by
  refine ⟨h.same.trans h'.same, h.answers.trans ?_⟩
  rw [← h.same.receiveNext]
  exact h'.answers

theorem quiet_modify (h : l.control.SameReceiver (f l.control)) :
    Quiet l (l.modify f) := ⟨h, emits_modify f l⟩

theorem quiet_send (flags : UInt8) (sequence : Seq) (payload : List UInt8) (l : Link) :
    Quiet l (l.send flags sequence payload) :=
  ⟨sameReceiver_of_eq rfl rfl rfl rfl rfl, emits_send fun hack => if_pos hack⟩

theorem quiet_acknowledge (l : Link) : Quiet l l.acknowledge := quiet_send ..

theorem quiet_sendChunk (count now : Nat) (l : Link) : Quiet l (l.sendChunk count now) := by
  unfold sendChunk
  exact (quiet_send ..).trans (quiet_modify (sameReceiver_of_eq rfl rfl rfl rfl rfl))

theorem quiet_outputLoop (now : Nat) (probe : Bool) (n : Nat) (l : Link) :
    Quiet l (l.outputLoop now probe n) := by
  induction n generalizing l with
  | zero => exact Quiet.refl l
  | succ n ih =>
    rw [outputLoop]
    split
    · exact Quiet.refl l
    · exact (quiet_sendChunk ..).trans (ih _)

theorem finSent_begun (status : Status) : (begun status = true → begun (finSent status) = true)
    ∧ (peerDone status = true → peerDone (finSent status) = true) := by
  cases status <;> decide

theorem quiet_outputFin (now : Nat) (l : Link) : Quiet l (l.outputFin now) := by
  obtain ⟨hbegun, hdone⟩ := finSent_begun l.control.status
  unfold outputFin
  split
  · exact ⟨⟨hbegun, hdone, rfl, rfl, rfl, rfl⟩, (emits_sendFin now l).mono fun e he _ => he.2.2⟩
  · exact Quiet.refl l

theorem quiet_outputArm (now : Nat) (l : Link) : Quiet l (l.outputArm now) := by
  unfold outputArm
  split
  · exact quiet_modify (sameReceiver_of_eq rfl rfl rfl rfl rfl)
  · exact Quiet.refl l

theorem quiet_output (now : Nat) (probe : Bool) (l : Link) : Quiet l (l.output now probe) := by
  rcases output_cases now probe l with hsame | ⟨hsyn, _⟩ | ⟨hloop, _⟩
  · rw [hsame]
    exact Quiet.refl l
  · rw [hsyn]
    exact (quiet_send ..).trans (quiet_modify (sameReceiver_of_eq rfl rfl rfl rfl rfl))
  · rw [hloop]
    exact (quiet_outputLoop ..).trans ((quiet_outputFin ..).trans (quiet_outputArm ..))

theorem sameReceiver_fail (error : Int) (c : Control) : c.SameReceiver (c.fail error) :=
  ⟨fun _ => rfl, fun _ => rfl, rfl, rfl, rfl, rfl⟩

theorem sameReceiver_acceptAck (ack : Seq) (now : Nat) (c : Control) :
    c.SameReceiver (acceptAck ack now c) := by
  have hacked : c.SameReceiver (acknowledged ack now c) := sameReceiver_of_eq rfl rfl rfl rfl rfl
  refine hacked.trans ?_
  unfold acceptAck closeAcked
  split
  · cases hstatus : (acknowledged ack now c).status with
    | finWait1 =>
      refine ⟨fun _ => rfl, fun hdone => ?_, rfl, rfl, rfl, rfl⟩
      rw [hstatus] at hdone
      cases hdone
    | closing | lastAck => exact ⟨fun _ => rfl, fun _ => rfl, rfl, rfl, rfl, rfl⟩
    | idle | synSent | established | finWait2 | closeWait | closed =>
      exact sameReceiver_of_eq rfl rfl rfl rfl rfl
  · exact sameReceiver_of_eq rfl rfl rfl rfl rfl

theorem quiet_expire (now : Nat) (l : Link) : Quiet l (l.expire now) := by
  rw [expire_eq]
  split
  · exact quiet_modify ⟨fun _ => rfl, fun _ => rfl, rfl, rfl, rfl, rfl⟩
  split
  · exact quiet_modify ⟨fun _ => rfl, fun _ => rfl, rfl, rfl, rfl, rfl⟩
  · have hexpired : Quiet l (l.modify expired) :=
      quiet_modify (sameReceiver_of_eq rfl rfl rfl rfl rfl)
    exact hexpired.trans
      ((quiet_output ..).trans (quiet_modify (sameReceiver_of_eq rfl rfl rfl rfl rfl)))

theorem quiet_timer (now : Nat) (l : Link) : Quiet l (l.timer now) := by
  unfold timer
  split
  · split
    · exact Quiet.refl l
    · exact quiet_expire now l
  · exact Quiet.refl l

theorem quiet_sendRound (input : List UInt8) (now : Nat) (l : Link) :
    Quiet l (l.sendRound input now).2 := by
  have hpushed : ∀ count, Quiet l (l.modify (pushed input count)) := fun _ =>
    quiet_modify (sameReceiver_of_eq rfl rfl rfl rfl rfl)
  unfold sendRound
  split
  · exact Quiet.refl l
  dsimp only
  split
  · exact (hpushed _).trans (quiet_output ..)
  · exact Quiet.refl l

/-- The outcome of an event on a connection that has been set up: the receiving side is in order,
and what was acknowledged is the position that it has reached. -/
structure Turn (irs : Seq) (peer returned : List UInt8) (l l' : Link) : Prop where
  receives : l'.control.Receives irs peer returned
  answers : Emits (Answers l'.control.receiveNext) l l'

theorem Quiet.turn (hquiet : Quiet l l') (h : l.control.Receives irs peer returned) :
    Turn irs peer returned l l' := by
  refine ⟨h.congr hquiet.same, ?_⟩
  rw [hquiet.same.receiveNext]
  exact hquiet.answers

theorem Turn.of_modify (h : Turn irs peer returned (l.modify f) l') :
    Turn irs peer returned l l' := ⟨h.receives, h.answers⟩

section
variable (h : l.control.Receives irs peer returned)
include h

variable (hlength : peer.length < 2 ^ 32)
include hlength

theorem deliver_turn (hpeer : FromPeer irs peer segment) (hsyn : segment.flags &&& SYN = 0) :
    Turn irs peer returned l (l.deliver segment now) := by
  have hwindow : (l.modify fun c => { c with window := segment.window }).control.Receives irs peer
      returned := h.congr (sameReceiver_of_eq rfl rfl rfl rfl rfl)
  unfold deliver
  apply Turn.of_modify (f := fun c => { c with window := segment.window })
  generalize l.modify (fun c => { c with window := segment.window }) = l1 at hwindow
  split
  · rename_i hcarries
    have haccept : (l1.modify (accept segment)).control.Receives irs peer returned :=
      accept_receives hwindow hlength hpeer hsyn hcarries
    apply Turn.of_modify (f := accept segment)
    exact ((quiet_acknowledge _).trans (quiet_output ..)).turn haccept
  · exact (quiet_output ..).turn hwindow

theorem synchronized_turn (hpeer : FromPeer irs peer segment) :
    Turn irs peer returned l (l.synchronized segment now) := by
  unfold synchronized
  dsimp only
  split
  · unfold reset
    dsimp only
    split
    · exact (quiet_modify (sameReceiver_fail _ _)).turn h
    · exact (Quiet.refl l).turn h
  split
  · exact (quiet_acknowledge l).turn h
  rename_i hsyn
  have hsynFlag := not_not.mp hsyn
  split
  · exact (Quiet.refl l).turn h
  split
  · have hacked : (l.modify (acceptAck segment.ack now)).control.Receives irs peer returned :=
      h.congr (sameReceiver_acceptAck ..)
    exact (deliver_turn hacked hlength hpeer hsynFlag).of_modify
  split
  · exact (quiet_acknowledge l).turn h
  split
  · have hretries : (l.modify fun c => { c with retries := 0 }).control.Receives irs peer
        returned := h.congr (sameReceiver_of_eq rfl rfl rfl rfl rfl)
    exact (deliver_turn hretries hlength hpeer hsynFlag).of_modify
  · exact deliver_turn h hlength hpeer hsynFlag

theorem incoming_turn (hpeer : FromPeer irs peer segment) :
    Turn irs peer returned l (l.incoming segment now) := by
  have hbegun := h.begun
  unfold incoming
  cases hstatus : l.control.status with
  | idle | synSent =>
    rw [hstatus] at hbegun
    cases hbegun
  | closed => exact (Quiet.refl l).turn h
  | established | finWait1 | finWait2 | closeWait | closing | lastAck =>
    exact synchronized_turn h hlength hpeer

end

theorem readRound_turn (capacity : Nat) (h : l.control.Receives irs peer returned) :
    Turn irs peer (returned ++ (l.readRound capacity).1.data) l (l.readRound capacity).2 := by
  have hstay : ∀ outcome : ReadOutcome, outcome.data = [] → Turn irs peer (returned ++ outcome.data)
      l l := by
    intro outcome hnone
    rw [hnone, append_nil]
    exact (Quiet.refl l).turn h
  unfold readRound
  dsimp only
  split
  · exact hstay (.bytes []) rfl
  split
  · obtain ⟨data, hdata⟩ : ∃ data, data = l.control.receiveQueue.copy 0 capacity := ⟨_, rfl⟩
    rw [← hdata]
    -- the bytes that are returned and those that stay are the queue
    have hsplit : returned ++ data ++ (l.control.receiveQueue.consume data.length).toList
        = returned ++ l.control.receiveQueue.toList := by
      have htake : data = l.control.receiveQueue.toList.take capacity := by
        rw [hdata, Bytes.copy_eq, drop_zero]
      rw [Bytes.toList_consume, append_assoc, htake, length_take]
      conv_lhs => rw [take_eq_take_min]
      rw [take_append_drop]
    have hread : (l.modify fun c => { c with
        receiveQueue := c.receiveQueue.consume data.length }).control.Receives irs peer
        (returned ++ data) := by
      refine ⟨h.begun, h.limit, h.done, ?_, fun hopen => ?_, fun hfin hopen => ?_⟩
      · exact hsplit ▸ h.stream
      · change l.control.receiveNext = irs + 1 + BitVec.ofNat 32 (returned ++ data
          ++ (l.control.receiveQueue.consume data.length).toList).length
          + if l.control.peerFin then 1 else 0
        rw [hsplit]
        exact h.position hopen
      · exact hsplit.trans (h.fin hfin hopen)
    apply Turn.of_modify (f := fun c => { c with
      receiveQueue := c.receiveQueue.consume data.length })
    split
    · exact (quiet_acknowledge _).turn hread
    · exact (Quiet.refl _).turn hread
  · split
    · exact hstay .endOfStream rfl
    split
    · exact hstay (.failed _) rfl
    split
    · exact hstay (.failed _) rfl
    · split
      · exact hstay .closed rfl
      · exact hstay .wait rfl

theorem close_turn (h : l.control.Receives irs peer returned) :
    Turn irs peer returned l (l.close now) := by
  obtain ⟨l1, hl1⟩ : ∃ l1, l1 = l.modify fun c => { c with
      userClosed := true, receiveQueue := c.receiveQueue.clear } := ⟨_, rfl⟩
  have hcleared : l1.control.Receives irs peer returned := by
    rw [hl1]
    refine ⟨h.begun, h.limit, h.done, ?_, fun hfalse => Bool.noConfusion hfalse,
      fun _ hfalse => Bool.noConfusion hfalse⟩
    change returned ++ [] <+: peer
    rw [append_nil]
    exact (prefix_append returned _).trans h.stream
  have hqueue : Quiet l1 ((l1.modify fun c => { c with finQueued := true }).output now false) :=
    (quiet_modify (sameReceiver_of_eq rfl rfl rfl rfl rfl)).trans (quiet_output ..)
  have hstart : ∀ l', Turn irs peer returned l1 l' → Turn irs peer returned l l' := by
    rw [hl1]
    exact fun _ hturn => hturn.of_modify
  unfold close
  rw [← hl1]
  dsimp only
  apply hstart
  split
  · exact (quiet_modify ⟨fun _ => rfl, fun _ => rfl, rfl, rfl, rfl, rfl⟩).turn hcleared
  · exact hqueue.turn hcleared
  · exact hqueue.turn hcleared
  · exact (Quiet.refl l1).turn hcleared

end Link

/-- The receiving side of a connection that has not been set up, or was closed before it was. -/
structure Control.Waits (c : Control) : Prop where
  status : c.status = .idle ∨ c.status = .synSent ∨ c.status = .closed
  limit : c.receiveQueue.limit = recvCap
  empty : c.receiveQueue.length = 0
  peerFin : c.peerFin = false

namespace Link

open Control

variable {l l' l'' : Link} {irs : Seq} {peer : List UInt8} {now : Nat} {segment : Segment}

structure Silent (l l' : Link) : Prop where
  waits : l'.control.Waits
  silent : Emits (fun e => e.flags &&& ACK = 0) l l'

theorem Silent.trans (h : Silent l l') (h' : Silent l' l'') :
    Silent l l'' := ⟨h'.waits, h.silent.trans h'.silent⟩

theorem silent_refl (h : l.control.Waits) : Silent l l := ⟨h, Emits.refl l⟩

theorem silent_modify {f : Control → Control} (h : l.control.Waits)
    (hstatus : (f l.control).status = .idle ∨ (f l.control).status = .synSent
      ∨ (f l.control).status = .closed)
    (hqueue : (f l.control).receiveQueue = l.control.receiveQueue)
    (hpeerFin : (f l.control).peerFin = l.control.peerFin) : Silent l (l.modify f) := by
  refine ⟨⟨hstatus, ?_, ?_, hpeerFin.trans h.peerFin⟩, emits_modify f l⟩
  · exact (congrArg Bytes.limit hqueue).trans h.limit
  · exact (congrArg Bytes.length hqueue).trans h.empty

theorem not_sending (h : l.control.Waits) : ¬ (l.control.Flows ∨ l.control.Finishes) := by
  intro hsending
  rcases h.status with hs | hs | hs <;> simp [Flows, Finishes, hs] at hsending

theorem silent_output (now : Nat) (probe : Bool) (h : l.control.Waits) :
    Silent l (l.output now probe) := by
  rcases output_cases now probe l with hsame | ⟨hsyn, _⟩ | ⟨_, hsending⟩
  · rw [hsame]
    exact silent_refl h
  · rw [hsyn]
    exact ⟨⟨h.status, h.limit, h.empty, h.peerFin⟩, emits_send (show SYN &&& ACK = 0 by decide)⟩
  · exact absurd hsending (not_sending h)

theorem silent_connect {port : UInt16} {remote : Endpoint} {iss : Seq} (h : l.control.Waits) :
    Silent l (l.connect port remote iss now) := by
  unfold connect
  split
  · exact silent_refl h
  have hcalled : Silent l (l.modify fun c => { c with
      port := port
      remote := remote
      iss := iss
      una := iss
      next := iss
      maximum := iss
      status := .synSent }) := silent_modify h (.inr (.inl rfl)) rfl rfl
  exact hcalled.trans (silent_output now false hcalled.waits)

theorem silent_timer (h : l.control.Waits) : Silent l (l.timer now) := by
  unfold timer
  split
  · split
    · exact silent_refl h
    rw [expire_eq]
    split
    · exact silent_modify h (.inr (.inr rfl)) rfl rfl
    split
    · exact silent_modify h (.inr (.inr rfl)) rfl rfl
    · have hexpired : Silent l (l.modify expired) := silent_modify h h.status rfl rfl
      have houtput := hexpired.trans (silent_output now true hexpired.waits)
      exact houtput.trans (silent_modify houtput.waits houtput.waits.status rfl rfl)
  · exact silent_refl h

theorem silent_close (h : l.control.Waits) : Silent l (l.close now) := by
  obtain ⟨l1, hl1⟩ : ∃ l1, l1 = l.modify fun c => { c with
      userClosed := true, receiveQueue := c.receiveQueue.clear } := ⟨_, rfl⟩
  have hcleared : Silent l l1 := by
    rw [hl1]
    exact ⟨⟨h.status, h.limit, rfl, h.peerFin⟩, emits_modify _ l⟩
  unfold close
  rw [← hl1]
  dsimp only
  split
  · exact hcleared.trans (silent_modify hcleared.waits (.inr (.inr rfl)) rfl rfl)
  · exact absurd (.inl (.inl ‹_›)) (not_sending hcleared.waits)
  · exact absurd (.inl (.inr ‹_›)) (not_sending hcleared.waits)
  · exact hcleared

theorem sendRound_of_waits (input : List UInt8) (h : l.control.Waits) :
    l.sendRound input now = (0, l) := by
  have herror : (sendError l.control).isSome = true := by
    by_contra hnone
    exact not_sending h (.inl (flows_of_sendError (by simpa using hnone)))
  exact if_pos herror

theorem readRound_of_empty (capacity : Nat) (h : l.control.receiveQueue.length = 0) :
    (l.readRound capacity).1.data = [] ∧ (l.readRound capacity).2 = l := by
  unfold readRound
  split
  · exact ⟨rfl, rfl⟩
  rw [if_neg (not_not.mpr h)]
  split
  · exact ⟨rfl, rfl⟩
  split
  · exact ⟨rfl, rfl⟩
  · split
    · exact ⟨rfl, rfl⟩
    · split <;> exact ⟨rfl, rfl⟩

theorem readRound_endOfStream {capacity : Nat} (h : (l.readRound capacity).1 = .endOfStream) :
    l.control.receiveQueue.length = 0 ∧ l.control.peerFin = true := by
  unfold readRound at h
  dsimp only at h
  split at h
  · cases h
  split at h
  · cases h
  rename_i hempty
  split at h
  · exact ⟨not_not.mp hempty, ‹_›⟩
  split at h
  · cases h
  · split at h
    · cases h
    · split at h <;> cases h

theorem establish_receives (h : l.control.Waits) (hirs : segment.sequence = irs) :
    (l.modify (establish segment)).control.Receives irs peer [] := by
  have hqueue : (l.modify (establish segment)).control.receiveQueue.toList = [] := by
    rw [← length_eq_zero_iff, Bytes.length_toList]
    exact h.empty
  have hmissing : (l.modify (establish segment)).control.peerFin = false := h.peerFin
  have hnext : (l.modify (establish segment)).control.receiveNext = segment.sequence + 1 := rfl
  refine ⟨rfl, h.limit, fun hfin => ?_, ?_, fun _ => ?_, fun hfin => ?_⟩
  · rw [hmissing] at hfin
    cases hfin
  · rw [hqueue]
    exact nil_prefix
  · rw [expected, hqueue, hmissing, hnext, hirs]
    simp
  · rw [hmissing] at hfin
    cases hfin

theorem mem_wire_acknowledge (l : Link) : ∃ e ∈ l.acknowledge.wire, e.flags &&& ACK ≠ 0 :=
  ⟨emission ACK l.control.maximum [] l.control, mem_append_right _ (mem_singleton.mpr rfl),
  show ACK &&& ACK ≠ 0 by decide⟩

theorem establish_turn (h : l.control.Waits) (hirs : segment.sequence = irs) :
    Turn irs peer [] l ((l.modify (establish segment)).acknowledge.output now false)
    ∧ ∃ e ∈ ((l.modify (establish segment)).acknowledge.output now false).wire,
      e.flags &&& ACK ≠ 0 := by
  have hreceives : (l.modify (establish segment)).control.Receives irs peer [] :=
    establish_receives h hirs
  apply And.intro
  · apply Turn.of_modify (f := establish segment)
    exact ((quiet_acknowledge _).trans (quiet_output ..)).turn hreceives
  generalize l.modify (establish segment) = l1
  obtain ⟨e, he, hack⟩ := mem_wire_acknowledge l1
  obtain ⟨sent, hwire, _⟩ := (quiet_output now false l1.acknowledge).answers
  refine ⟨e, ?_, hack⟩
  rw [hwire]
  exact mem_append_left sent he

theorem incoming_of_waits (h : l.control.Waits) (hpeer : FromPeer irs peer segment) :
    Silent l (l.incoming segment now)
    ∨ (Turn irs peer [] l (l.incoming segment now) ∧ ∃ e ∈ (l.incoming segment now).wire,
      e.flags &&& ACK ≠ 0) := by
  unfold incoming
  rcases h.status with hstatus | hstatus | hstatus <;> rw [hstatus]
  · exact .inl (silent_refl h)
  · unfold handshake
    dsimp only
    split
    · left
      split
      · exact ⟨h, [_], rfl, by simpa using (show RST &&& ACK = 0 by decide)⟩
      · exact silent_refl h
    split
    · left
      split
      · exact silent_modify h (.inr (.inr rfl)) rfl rfl
      · exact silent_refl h
    · split
      · rename_i hsynAck
        exact .inr (establish_turn h (hpeer.1 (syn_of_both hsynAck)))
      · exact .inl (silent_refl h)
  · exact .inl (silent_refl h)

end Link

end Kaguya.Tcp
