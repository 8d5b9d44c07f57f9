import Kaguya.Tcp.RoundTrip
import Kaguya.Udp.Delivery

/-!
# Transport encoders and decoders

What `net_tcp.jh` and `net_udp.jh` send is what their receiving halves make of it, on the machine
that the packet is for.
-/

namespace Kaguya.Net

open Tcp (Endpoint Seq)
open Udp (Datagram)

variable {Thread : Type} [DecidableEq Thread]

theorem incoming_queue {w : Udp.World Thread} (h : w.Consistent) {t : Thread} {a : Nat}
    {src dst : UInt32} {segment : List UInt8} {port : UInt16} {message : Datagram}
    (haccept : Udp.accept src dst segment = .ok (.datagram port message))
    (hrunning : w.panicked = false) (hidle : (w.jobs t).isIdle = true)
    (hentry : ⟨port, a⟩ ∈ w.ports) (hlive : w.references a ≠ 0)
    (hcount : w.references a < Udp.LIMIT) (hpeer : (w.value a).peer = none)
    (hroom : (w.value a).queue.length < 16) :
    (((w.step (t, .incoming src dst segment)).step (t, .advance)).value a).queue
      = (w.value a).queue ++ [(w.arrivals.length, message)] := by
  have hfind : w.ports.find? (·.port == port) = some ⟨port, a⟩ := by
    have hsome : (w.ports.find? (·.port == port)).isSome = true :=
      List.find?_isSome.2 ⟨_, hentry, by simp⟩
    obtain ⟨e, he⟩ := Option.isSome_iff_exists.1 hsome
    have hport : e.port = port := by simpa using List.find?_some he
    rw [he, List.inj_on_of_nodup_map h.registered.names (List.mem_of_find?_eq_some he) hentry hport]
  have hstep : w.step (t, .incoming src dst segment) = (w.addHandle t a).goTo t
      (.delivering a ⟨src, dst, segment, port, message, haccept⟩) := by
    simp only [Udp.World.step, hrunning, hidle, if_true, Bool.false_eq_true, if_false]
    unfold Udp.World.incoming
    split
    case h_1 port' message' haccept' =>
      obtain ⟨rfl, rfl⟩ : port = port' ∧ message = message' := by
        have heq := Except.ok.inj (haccept.symm.trans haccept')
        exact ⟨(Udp.Accepted.datagram.inj heq).1, (Udp.Accepted.datagram.inj heq).2⟩
      simp [Udp.World.find, hfind, hlive, Nat.not_le.2 hcount]
    case h_2 hother haccept' =>
      exact absurd (haccept'.symm.trans haccept) (by simpa using hother port message)
    case h_3 haccept' => rw [haccept] at haccept'; cases haccept'
  rw [hstep]
  simp [Udp.World.step, Udp.World.advance, Udp.World.goTo, Udp.World.deliver, Udp.World.refuses,
    Udp.World.setValue, Udp.World.addHandle, hrunning, hpeer, Nat.not_le.2 hroom]

theorem transport_agrees :
    (∀ (port : UInt16) (remote : Endpoint) (sequence acknowledgement : Seq) (flags : UInt8)
        (window : Nat) (payload : List UInt8), payload.length ≤ 1460 →
      ∃ bytes, Tcp.encode port remote sequence acknowledgement flags window payload
        = .ok (some bytes)
        ∧ transport HOST remote.ip 6 bytes = .ok 0
        ∧ Tcp.parse bytes = .ok (some
          (Tcp.transmitted port remote sequence acknowledgement flags window payload)))
    ∧ ∀ (port : UInt16) (peer : Endpoint) (data : List UInt8), data.length ≤ 1472 →
      ∃ bytes, Udp.encode port peer data = .ok bytes
        ∧ Udp.accept HOST peer.ip bytes = .ok (if peer.port = Dns.PORT then .answer bytes
          else .datagram peer.port ⟨⟨HOST, port⟩, data⟩)
        ∧ ∀ (actions : List (Thread × Udp.Op Thread)) (w : Udp.World Thread) (t : Thread) (a : Nat),
          w = runAll Udp.World.step Udp.World.initial actions → w.panicked = false →
          (w.jobs t).isIdle = true → ⟨peer.port, a⟩ ∈ w.ports →
          w.references a ≠ 0 → w.references a < Udp.LIMIT →
          (w.value a).peer = none → (w.value a).queue.length < 16 →
          ((runAll Udp.World.step w [(t, .incoming HOST peer.ip bytes), (t, .advance)]).value
            a).queue
            = (w.value a).queue ++ [(w.arrivals.length, ⟨⟨HOST, port⟩, data⟩)] := by
  constructor
  · intro port remote sequence acknowledgement flags window payload hpayload
    exact Tcp.encode_parse port remote sequence acknowledgement flags window hpayload
  intro port peer data hdata
  obtain ⟨bytes, hencode, haccept⟩ := Udp.encode_accept port peer hdata
  refine ⟨bytes, hencode, haccept, ?_⟩
  rintro actions w t a rfl hrunning hidle hentry hlive hcount hpeer hroom
  have h := Udp.World.Consistent.run actions
  rw [if_neg (h.registered.sound _ hentry).2.1] at haccept
  exact incoming_queue h haccept hrunning hidle hentry hlive hcount hpeer hroom

theorem transport_agrees_oneSocket :
    (∃ bytes, Tcp.encode 50000 ⟨GATEWAY, 80⟩ 1 2 Tcp.SYN 70000 [7] = .ok (some bytes)
      ∧ Tcp.parse bytes = .ok (some (Tcp.transmitted 50000 ⟨GATEWAY, 80⟩ 1 2 Tcp.SYN 70000 [7])))
    ∧ ∃ bytes, Udp.encode 50001 ⟨GATEWAY, 9⟩ [1, 2, 3] = .ok bytes
      ∧ ((runAll Udp.World.step (Udp.World.initial : Udp.World Nat) [(0, .new 5),
        (0, .call 5 (.bind 9)),
          (1, .incoming HOST GATEWAY bytes), (1, .advance)]).value 5).queue
        = [(0, ⟨⟨HOST, 50001⟩, [1, 2, 3]⟩)] := by
  obtain ⟨htcp, hudp⟩ := @transport_agrees Nat _
  obtain ⟨bytes, hencode, -, hparse⟩ := htcp 50000 ⟨GATEWAY, 80⟩ 1 2 Tcp.SYN 70000 [7] (by decide)
  obtain ⟨datagram, hencode', -, hqueue⟩ := hudp 50001 ⟨GATEWAY, 9⟩ [1, 2, 3] (by decide)
  refine ⟨⟨bytes, hencode, hparse⟩, datagram, hencode', ?_⟩
  exact hqueue [(0, .new 5), (0, .call 5 (.bind 9))] _ 1 5 rfl rfl rfl (by decide) (by decide)
    (by decide) rfl (by decide)

end Kaguya.Net
