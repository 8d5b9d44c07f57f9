import Mathlib.Logic.Function.Basic
import Kaguya.Lib.Runs
import Kaguya.Net.Ports
import Kaguya.Udp.Datagrams

/-!
# UDP sockets

`net_udp.jh` with the handles of `shared.jh`: any number of threads work on sockets and on the table
of ports, and every section that holds a lock is one step. A socket is registered for its port
through a weak handle; the last strong handle that goes runs `Socket.drop`, which takes the entry
out of the table. What was put into queues and taken out of them is recorded beside the state, and a
datagram in a queue carries its place there. No step reads either.
-/

namespace Kaguya.Udp

open Function Trapping Net
open Tcp (Endpoint)

def LIMIT : Nat := 0x7fffffffffffffff

/-- A segment that `incoming` was called with and takes for a datagram. -/
structure Packet where
  src : UInt32
  dst : UInt32
  segment : List UInt8
  port : UInt16
  message : Datagram
  accepted : accept src dst segment = .ok (.datagram port message)

structure Socket where
  port : UInt16
  peer : Option Endpoint
  queue : List (Nat × Datagram)

def Socket.new : Socket := ⟨0, none, []⟩

structure Port where
  port : UInt16
  owner : Nat
  deriving DecidableEq

/-- Where a thread stands between two sections: in `connect` and `send` before the second section;
in `incoming` with the socket it has found, before the lock of the socket or before its handle goes;
in the `drop` of the last handle, before the lock of the table or before the weak count is given
back. -/
inductive Job
  | idle
  | connecting (owner : Nat) (peer : Endpoint)
  | sending (owner : Nat) (peer : Endpoint) (data : List UInt8)
  | delivering (owner : Nat) (packet : Packet)
  | finishing (owner : Nat)
  | destroying (owner : Nat)
  | releasing (owner : Nat)

def Job.isIdle : Job → Bool
  | .idle => true
  | _ => false

structure Arrival where
  owner : Nat
  packet : Packet

/-- A datagram that `receive` has returned: which one, and the bytes and the endpoint that the
caller was given. -/
structure Returned where
  owner : Nat
  serial : Nat
  capacity : Nat
  output : List UInt8
  source : Endpoint

structure World (Thread : Type) where
  references : Nat → Nat
  weak : Nat → Nat
  value : Nat → Socket
  ports : List Port
  next : UInt16
  jobs : Thread → Job
  handles : List (Thread × Nat)
  arrivals : List Arrival
  returned : List Returned
  sent : List (UInt32 × List UInt8)
  panicked : Bool

inductive Call (Thread : Type)
  | clone
  | give (receiver : Thread)
  | bind (port : UInt16)
  | connect (peer : Endpoint)
  | send (destination : Option Endpoint) (data : List UInt8)
  | receive (capacity : Nat)
  | drop

inductive Op (Thread : Type)
  | new (address : Nat)
  | call (owner : Nat) (call : Call Thread)
  | incoming (src dst : UInt32) (segment : List UInt8)
  | advance

def used (ports : List Port) (port : UInt16) : Bool :=
  port == Dns.PORT || ports.any (·.port == port)

namespace World

variable {Thread : Type} [DecidableEq Thread]

def initial : World Thread where
  references _ := 0
  weak _ := 0
  value _ := .new
  ports := []
  next := 50000
  jobs _ := .idle
  handles := []
  arrivals := []
  returned := []
  sent := []
  panicked := false

variable (w : World Thread) (t : Thread) (owner : Nat)

def goTo (job : Job) : World Thread :=
  { w with jobs := update w.jobs t job }

def setValue (socket : Socket) : World Thread :=
  { w with value := update w.value owner socket }

/-- `drop` of a weak handle; storage without weak count is free. -/
def dropWeak (weak : Nat → Nat) (owner : Nat) : Nat → Nat :=
  update weak owner (weak owner - 1)

def new (address : Nat) : World Thread :=
  { w with
    references := update w.references address 1
    weak := update w.weak address 1
    value := update w.value address .new
    handles := (t, address) :: w.handles }

/-- `clone` of a handle, and `upgrade` of a weak one whose socket is alive. -/
def addHandle : World Thread :=
  { w with
    references := update w.references owner (w.references owner + 1)
    handles := (t, owner) :: w.handles }

/-- `drop` of a handle, up to the destructor of the socket if it was the last one. -/
def dropHandle : World Thread :=
  let last := w.references owner = 1
  { w with
    references := update w.references owner (w.references owner - 1)
    handles := w.handles.erase (t, owner) }.goTo t (if last then .destroying owner else .idle)

/-- The loop of `bind_port` that takes out the entries of sockets without handles. -/
def prune : World Thread :=
  let dead := w.ports.filter (w.references ·.owner = 0)
  { w with
    ports := w.ports.filter (w.references ·.owner ≠ 0)
    weak := (dead.map Port.owner).foldl dropWeak w.weak }

def selectPort (requested : UInt16) : UInt16 × UInt16 :=
  if requested ≠ 0 then (if used w.ports requested then 0 else requested, w.next)
  else Ports.select (used w.ports) Ports.COUNT w.next

def register (port : UInt16) : World Thread :=
  if w.weak owner ≥ LIMIT then { w with panicked := true }
  else { w.setValue owner { w.value owner with port := port } with
    weak := update w.weak owner (w.weak owner + 1)
    ports := w.ports ++ [⟨port, owner⟩] }

/-- `bind_port`: its result and the state after it. -/
def bindPort (requested : UInt16) (implicit : Bool) :
    Except Int UInt16 × World Thread :=
  let w := w.prune
  if (w.value owner).port ≠ 0 then
    (if implicit then .ok (w.value owner).port else .error (-2), w)
  else
    let (selected, next) := w.selectPort requested
    let w := { w with next := next }
    if selected = 0 then (.error (-10), w) else (.ok selected, w.register owner selected)

def setPeer (peer : Endpoint) : World Thread :=
  w.setValue owner { w.value owner with
    peer := some peer
    queue := (w.value owner).queue.filter (·.2.source = peer) }

def peerOf (destination : Option Endpoint) : Option Endpoint :=
  match destination with
  | some peer => some peer
  | none => (w.value owner).peer

/-- `send` from `bind_port` on. -/
def transmit (peer : Endpoint) (data : List UInt8) :
    World Thread :=
  match w.bindPort owner 0 true with
  | (.error _, w) => w
  | (.ok port, w) =>
    match encode port peer data with
    | .ok segment => { w with sent := w.sent ++ [(peer.ip, segment)] }
    | .error _ => { w with panicked := true }

/-- The section of `receive`; without a datagram the caller waits and comes again. -/
def receive (owner capacity : Nat) : World Thread :=
  if (w.value owner).port = 0 then w
  else
    match (w.value owner).queue with
    | [] => w
    | (serial, packet) :: rest =>
      let count := min capacity packet.data.length
      { w.setValue owner { w.value owner with queue := rest } with
        returned := w.returned ++ [⟨owner, serial, capacity, packet.data.take count,
          packet.source⟩] }

/-- The first section of `incoming`: the first entry for the port, if its socket is alive. -/
def find (packet : Packet) : World Thread :=
  match w.ports.find? (·.port == packet.port) with
  | none => w
  | some entry =>
    if w.references entry.owner = 0 then w
    else if w.references entry.owner ≥ LIMIT then { w with panicked := true }
    else (w.addHandle t entry.owner).goTo t (.delivering entry.owner packet)

def refuses (socket : Socket) (source : Endpoint) : Bool :=
  match socket.peer with
  | some wanted => wanted != source
  | none => false

def deliver (packet : Packet) : World Thread :=
  let socket := w.value owner
  if refuses socket packet.message.source || socket.queue.length ≥ 16 then w
  else
    let queue := socket.queue ++ [(w.arrivals.length, packet.message)]
    { w.setValue owner { socket with queue := queue } with
      arrivals := w.arrivals ++ [⟨owner, packet⟩] }

def unregister : World Thread :=
  match w.ports.find? (·.owner == owner) with
  | none => w
  | some entry => { w with
      ports := w.ports.eraseP (·.owner == owner)
      weak := dropWeak w.weak entry.owner }

def advance : World Thread :=
  match w.jobs t with
  | .idle => w
  | .connecting owner peer => (w.setPeer owner peer).goTo t .idle
  | .sending owner peer data => (w.transmit owner peer data).goTo t .idle
  | .delivering owner packet => (w.deliver owner packet).goTo t (.finishing owner)
  | .finishing owner => w.dropHandle t owner
  | .destroying owner => (w.unregister owner).goTo t (.releasing owner)
  | .releasing owner => { w with weak := dropWeak w.weak owner }.goTo t .idle

def Ready : Prop :=
  (w.jobs t).isIdle = true ∧ (t, owner) ∈ w.handles

instance : Decidable (w.Ready t owner) :=
  inferInstanceAs (Decidable (_ ∧ _))

def call : Call Thread → World Thread
  | .clone =>
    if w.references owner ≥ LIMIT then { w with panicked := true } else w.addHandle t owner
  | .give receiver => { w with handles := (receiver, owner) :: w.handles.erase (t, owner) }
  | .bind port => (w.bindPort owner port false).2
  | .connect peer =>
    if peer.port = 0 then w
    else
      match w.bindPort owner 0 true with
      | (.ok _, w) => w.goTo t (.connecting owner peer)
      | (.error _, w) => w
  | .send destination data =>
    if data.length > 1472 then w
    else
      match w.peerOf owner destination with
      | none => w
      | some peer => if peer.port = 0 then w else w.goTo t (.sending owner peer data)
  | .receive capacity => w.receive owner capacity
  | .drop => w.dropHandle t owner

/-- `incoming` with a segment for a socket or for the resolver. -/
def incoming (src dst : UInt32) (segment : List UInt8) :
    World Thread :=
  match haccept : accept src dst segment with
  | .ok (.datagram port message) => w.find t ⟨src, dst, segment, port, message, haccept⟩
  | .ok _ => w
  | .error _ => { w with panicked := true }

/-- One step of a thread. A thread works on the sockets it has handles of, one operation at a time,
until somebody panics. -/
def step (action : Thread × Op Thread) : World Thread :=
  if w.panicked then w
  else
    match action.2 with
    | .new address =>
      if (w.jobs action.1).isIdle ∧ w.weak address = 0 then w.new action.1 address else w
    | .call owner call => if w.Ready action.1 owner then w.call action.1 owner call else w
    | .incoming src dst segment =>
      if (w.jobs action.1).isIdle then w.incoming action.1 src dst segment else w
    | .advance => w.advance action.1

end World

end Kaguya.Udp
