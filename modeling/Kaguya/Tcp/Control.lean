import Kaguya.Lib.Serial
import Kaguya.Tcp.Bytes

/-!
# The control block of a connection

`Control` of `net_tcp.jh` with the operations that change it. Sequence numbers are 32-bit words;
windows, timers and lengths are natural numbers, since nothing about them wraps.

A `Link` is a control block together with everything that has been passed to `transmit`. With each
segment goes a copy of the control block as it was at that moment, which no function reads.

A user call that has to wait takes the lock again for every round. The user operations below are
single rounds, and other calls may come in between.
-/

namespace Kaguya.Tcp

open Serial

abbrev Seq := BitVec 32

def FIN : UInt8 := 1
def SYN : UInt8 := 2
def RST : UInt8 := 4
def PSH : UInt8 := 8
def ACK : UInt8 := 16
def MSS : Nat := 1460
def recvCap : Nat := 16384
def sendCap : Nat := 8192

inductive Status where
  | idle | synSent | established | finWait1 | finWait2 | closeWait | closing | lastAck | closed
  deriving DecidableEq, Repr

structure Endpoint where
  ip : UInt32
  port : UInt16
  deriving DecidableEq, Repr

structure Segment where
  source : UInt16
  destination : UInt16
  sequence : Seq
  ack : Seq
  flags : UInt8
  window : Nat
  mss : Option Nat
  payload : List UInt8
  deriving DecidableEq, Repr

structure Control where
  status : Status
  port : UInt16
  remote : Endpoint
  iss : Seq
  una : Seq
  next : Seq
  maximum : Seq
  window : Nat
  mss : Nat
  sendQueue : Bytes
  finQueued : Bool
  finSequence : Option Seq
  finAcked : Bool
  receiveNext : Seq
  receiveQueue : Bytes
  peerFin : Bool
  userClosed : Bool
  advertised : Nat
  error : Option Int
  rto : Nat
  retries : Nat
  deadline : Option Nat

/-- The tick `ticks` after `now`; the clock has 64 bits and the sum stops at its end. -/
def deadlineAt (now ticks : Nat) : Nat :=
  if ticks > 0xffffffffffffffff - now then 0xffffffffffffffff else now + ticks

namespace Control

def new : Control where
  status := .idle
  port := 0
  remote := ⟨0, 0⟩
  iss := 0
  una := 0
  next := 0
  maximum := 0
  window := 0
  mss := 536
  sendQueue := Bytes.new sendCap
  finQueued := false
  finSequence := none
  finAcked := false
  receiveNext := 0
  receiveQueue := Bytes.new recvCap
  peerFin := false
  userClosed := false
  advertised := 0
  error := none
  rto := 100
  retries := 0
  deadline := none

def advance (bytes : Nat) (c : Control) : Control :=
  let next := c.next + BitVec.ofNat 32 bytes
  { c with
    next := next
    maximum := if Before c.maximum next then next else c.maximum }

def arm (now : Nat) (c : Control) : Control :=
  { c with deadline := if c.deadline.isNone then some (deadlineAt now c.rto) else c.deadline }

def fail (error : Int) (c : Control) : Control :=
  { c with
    error := some error, status := .closed, deadline := none, sendQueue := c.sendQueue.clear }

def beforeCursor (c : Control) : Nat := min (c.next - c.una).toNat c.sendQueue.length

def chunk (probe : Bool) (c : Control) : Nat :=
  let flying := c.beforeCursor
  let unsent := c.sendQueue.length - flying
  let window := if probe ∧ c.window = 0 ∧ flying = 0 then 1 else c.window
  let available := if window > flying then window - flying else 0
  min (min unsent available) c.mss

end Control

structure Emission where
  control : Control
  port : UInt16
  remote : Endpoint
  sequence : Seq
  acknowledgement : Seq
  flags : UInt8
  window : Nat
  payload : List UInt8

structure Link where
  control : Control
  wire : List Emission

namespace Link

def modify (f : Control → Control) (l : Link) : Link := { l with control := f l.control }

def transmit (sequence acknowledgement : Seq) (flags : UInt8) (window : Nat) (payload : List UInt8)
    (l : Link) : Link :=
  { l with wire := l.wire ++ [⟨l.control, l.control.port, l.control.remote, sequence,
      acknowledgement, flags, window, payload⟩] }

def send (flags : UInt8) (sequence : Seq) (payload : List UInt8) (l : Link) : Link :=
  let window := recvCap - l.control.receiveQueue.length
  let acknowledgement := if flags &&& ACK ≠ 0 then l.control.receiveNext else 0
  (l.modify fun c => { c with advertised := window }).transmit sequence acknowledgement flags window
    payload

def acknowledge (l : Link) : Link := l.send ACK l.control.maximum []

/-! ### Output -/

variable (segment : Segment) (now : Nat)

def sendSyn (l : Link) : Link :=
  (l.send SYN l.control.iss []).modify fun c => (c.advance 1).arm now

def sendChunk (count now : Nat) (l : Link) : Link :=
  let payload := l.control.sendQueue.copy l.control.beforeCursor count
  (l.send (ACK ||| PSH) l.control.next payload).modify fun c => (c.advance count).arm now

/-- The loop of `output`. Every round sends at least one byte that lies behind the cursor, so one
round more than the queue has bytes is enough. -/
def outputLoop (now : Nat) (probe : Bool) : Nat → Link → Link
  | 0, l => l
  | n + 1, l =>
    let count := l.control.chunk probe
    if count = 0 then l else outputLoop now probe n (l.sendChunk count now)

/-- Whether `output` sends a FIN: it is the next thing to send, for the first time or again. -/
def finDue (c : Control) : Bool :=
  let cursor := (c.next - c.una).toNat == c.sendQueue.length
  let atFin := match c.finSequence with
    | some sequence => sequence == c.next
    | none => true
  c.finQueued && !c.finAcked && cursor && atFin

def finSent : Status → Status
  | .established => .finWait1
  | .closeWait => .lastAck
  | status => status

def sendFin (l : Link) : Link :=
  let l := l.modify fun c => { c with finSequence := some c.next }
  (l.send (FIN ||| ACK) l.control.next []).modify fun c =>
    ({ c.advance 1 with status := finSent c.status }).arm now

def outputFin (l : Link) : Link := if finDue l.control then l.sendFin now else l

/-- The end of `output`: bytes behind the cursor keep the timer running. -/
def outputArm (l : Link) : Link :=
  if l.control.sendQueue.length > l.control.beforeCursor then l.modify (Control.arm now) else l

def output (probe : Bool) (l : Link) : Link :=
  match l.control.status with
  | .synSent => if l.control.next = l.control.iss then l.sendSyn now else l
  | .established | .closeWait | .finWait1 | .closing | .lastAck =>
    ((l.outputLoop now probe (l.control.sendQueue.length + 1)).outputFin now).outputArm now
  | .idle | .finWait2 | .closed => l

/-! ### Segments from the peer -/

def establish (c : Control) : Control :=
  { c with
    receiveNext := segment.sequence + 1
    una := segment.ack
    window := segment.window
    mss := match segment.mss with
      | some value => max (min value MSS) 1
      | none => 536
    status := .established
    retries := 0
    rto := 100
    deadline := none }

def handshake (l : Link) : Link :=
  let c := l.control
  if segment.flags &&& ACK ≠ 0 ∧ segment.ack ≠ c.iss + 1 then
    if segment.flags &&& RST = 0 then l.transmit segment.ack 0 RST 0 [] else l
  else if segment.flags &&& RST ≠ 0 then
    if segment.flags &&& ACK ≠ 0 then l.modify (Control.fail (-14)) else l
  else if segment.flags &&& (SYN ||| ACK) = SYN ||| ACK then
    (l.modify (establish segment)).acknowledge.output now false
  else l

def reset (l : Link) : Link :=
  let c := l.control
  let window := max (recvCap - c.receiveQueue.length) 1
  if BeforeEqual c.receiveNext segment.sequence
      ∧ Before segment.sequence (c.receiveNext + BitVec.ofNat 32 window) then
    l.modify (Control.fail (-15))
  else l

def closeAcked (c : Control) : Control :=
  if c.finAcked then
    match c.status with
    | .finWait1 => { c with status := .finWait2, deadline := some (deadlineAt now 3000) }
    | .closing | .lastAck => { c with status := .closed }
    | _ => c
  else c

def acknowledged (ack : Seq) (now : Nat) (c : Control) : Control :=
  { c with
    sendQueue := c.sendQueue.consume (ack - c.una).toNat
    finAcked := match c.finSequence with
      | some sequence => if Before sequence ack then true else c.finAcked
      | none => c.finAcked
    una := ack
    next := if Before c.next ack then ack else c.next
    retries := 0
    rto := 100
    deadline := if ack ≠ c.maximum then some (deadlineAt now 100) else none }

def acceptAck (ack : Seq) (now : Nat) (c : Control) : Control :=
  closeAcked now (acknowledged ack now c)

def accepts (status : Status) : Bool :=
  match status with
  | .established | .finWait1 | .finWait2 => true
  | _ => false

def taken (c : Control) : Nat :=
  if c.userClosed then segment.payload.length
  else min segment.payload.length (recvCap - c.receiveQueue.length)

def acceptPayload (c : Control) : Control :=
  let taken := taken segment c
  { c with
    receiveQueue := if c.userClosed then c.receiveQueue
      else (c.receiveQueue.push (segment.payload.take taken)).2
    receiveNext := c.receiveNext + BitVec.ofNat 32 taken }

def finReceived : Status → Status
  | .established => .closeWait
  | .finWait1 => .closing
  | .finWait2 => .closed
  | status => status

def acceptFin (c : Control) : Control :=
  { c with
    receiveNext := c.receiveNext + 1
    peerFin := true
    status := finReceived c.status
    deadline := if finReceived c.status = .closed then none else c.deadline }

def accept (c : Control) : Control :=
  if segment.sequence = c.receiveNext ∧ accepts c.status then
    let received := acceptPayload segment c
    if segment.flags &&& FIN ≠ 0 ∧ taken segment c = segment.payload.length then acceptFin received
    else received
  else c

/-- The end of `incoming`, for a segment whose acknowledgement has been dealt with. -/
def deliver (l : Link) : Link :=
  let l := l.modify fun c => { c with window := segment.window }
  let l := if segment.payload.length ≠ 0 ∨ segment.flags &&& FIN ≠ 0 then
      (l.modify (accept segment)).acknowledge
    else l
  l.output now false

def synchronized (l : Link) : Link :=
  let c := l.control
  if segment.flags &&& RST ≠ 0 then l.reset segment
  else if segment.flags &&& SYN ≠ 0 then l.acknowledge
  else if segment.flags &&& ACK = 0 then l
  else if Before c.una segment.ack ∧ BeforeEqual segment.ack c.maximum then
    (l.modify (acceptAck segment.ack now)).deliver segment now
  else if Before c.maximum segment.ack then l.acknowledge
  else if segment.ack = c.una ∧ segment.window = 0 then
    (l.modify fun c => { c with retries := 0 }).deliver segment now
  else l.deliver segment now

def incoming (l : Link) : Link :=
  match l.control.status with
  | .idle | .closed => l
  | .synSent => l.handshake segment now
  | _ => l.synchronized segment now

/-! ### The timer -/

def rewind (c : Control) : Control :=
  { c with
    rto := min (c.rto * 2) 1600
    next := if c.status = .synSent then c.iss else c.una }

def expire (l : Link) : Link :=
  let l := l.modify fun c => { c with deadline := none }
  if l.control.status = .finWait2 then l.modify fun c => { c with status := .closed }
  else
    let l := l.modify fun c => { c with retries := c.retries + 1 }
    if l.control.retries > 6 then l.modify (Control.fail (-11))
    else ((l.modify rewind).output now true).modify (Control.arm now)

def timer (l : Link) : Link :=
  match l.control.deadline with
  | some deadline => if now < deadline then l else l.expire now
  | none => l

/-! ### User calls -/

/-- The part of `connect` that sets up the control block, with the port and the initial sequence
number that it has chosen. -/
def connect (port : UInt16) (remote : Endpoint) (iss : Seq) (now : Nat) (l : Link) : Link :=
  if l.control.status ≠ .idle then l
  else
    (l.modify fun c => { c with
      port := port
      remote := remote
      iss := iss
      una := iss
      next := iss
      maximum := iss
      status := .synSent }).output now false

def sendError (c : Control) : Option Int :=
  match c.error with
  | some error => some error
  | none =>
    match c.status with
    | .idle | .synSent => some (-13)
    | .established | .closeWait => if c.finQueued then some (-9) else none
    | _ => some (-9)

/-- A round of `send`: it takes what fits into the queue and says how much that was. -/
def sendRound (input : List UInt8) (now : Nat) (l : Link) : Nat × Link :=
  if (sendError l.control).isSome then (0, l)
  else
    let count := min (sendCap - l.control.sendQueue.length) input.length
    if count ≠ 0 then
      (count, (l.modify fun c => { c with
        sendQueue := (c.sendQueue.push (input.take count)).2 }).output now false)
    else (0, l)

inductive ReadOutcome where
  | bytes (data : List UInt8)
  | endOfStream
  | failed (error : Int)
  | closed
  | wait
  deriving DecidableEq, Repr

def ReadOutcome.data : ReadOutcome → List UInt8
  | .bytes data => data
  | _ => []

def windowOpened (c : Control) : Bool :=
  decide (c.advertised < recvCap / 2) && decide (recvCap - c.receiveQueue.length ≥ recvCap / 2)
    && decide (c.status ≠ .idle) && decide (c.status ≠ .synSent) && decide (c.status ≠ .closed)

def readRound (capacity : Nat) (l : Link) : ReadOutcome × Link :=
  let c := l.control
  if capacity = 0 then (.bytes [], l)
  else if c.receiveQueue.length ≠ 0 then
    let data := c.receiveQueue.copy 0 capacity
    let l := l.modify fun c => { c with receiveQueue := c.receiveQueue.consume data.length }
    (.bytes data, if windowOpened l.control then l.acknowledge else l)
  else if c.peerFin then (.endOfStream, l)
  else
    match c.error with
    | some error => (.failed error, l)
    | none =>
      if c.status = .idle then (.failed (-13), l)
      else if c.status = .closed then (.closed, l)
      else (.wait, l)

def close (l : Link) : Link :=
  let l := l.modify fun c => { c with userClosed := true, receiveQueue := c.receiveQueue.clear }
  match l.control.status with
  | .synSent => l.modify fun c => { c with status := .closed }
  | .established | .closeWait => (l.modify fun c => { c with finQueued := true }).output now false
  | _ => l

end Link

/-! ### Runs -/

inductive Event where
  | connect (port : UInt16) (remote : Endpoint) (iss : Seq) (now : Nat)
  | send (input : List UInt8) (now : Nat)
  | read (capacity : Nat)
  | segment (segment : Segment) (now : Nat)
  | timer (now : Nat)
  | close (now : Nat)
  deriving DecidableEq, Repr

/-- A link with the bytes that `send` has taken and those that `read` has returned so far. -/
structure Session where
  link : Link
  accepted : List UInt8
  returned : List UInt8

namespace Session

def new : Session := ⟨⟨Control.new, []⟩, [], []⟩

def control (s : Session) : Control := s.link.control

def step (s : Session) : Event → Session
  | .connect port remote iss now => { s with link := s.link.connect port remote iss now }
  | .send input now =>
    let round := s.link.sendRound input now
    { s with link := round.2, accepted := s.accepted ++ input.take round.1 }
  | .read capacity =>
    let round := s.link.readRound capacity
    { s with link := round.2, returned := s.returned ++ round.1.data }
  | .segment segment now => { s with link := s.link.incoming segment now }
  | .timer now => { s with link := s.link.timer now }
  | .close now => { s with link := s.link.close now }

def run (s : Session) (events : List Event) : Session := events.foldl step s

end Session

end Kaguya.Tcp
