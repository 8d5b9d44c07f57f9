import Kaguya.Lib.Runs
import Kaguya.Net.Dns
import Kaguya.Scheduler.Deadlines
import Kaguya.Scheduler.Ledger

/-!
# Waiting for the network and for the keyboard

Three calls wait for events with reserved keys: `resolve` of `net_base.jh` for an address, with a
key for each address, `resolve` of `net_dns.jh` and `read` of `usb.jh`. The key of the last address
is that of the name server, and the one before it that of the keyboard. A frame is a step up to the
wake-up in `insert`. What it hands on to `incoming` of `net_dns.jh` is a step of its own.
-/

namespace Kaguya.Net

open Scheduler (State)

def WAIT_KEY : Nat := 0xfffffffffffffffd

inductive Call where
  | resolve (ip : UInt32)
  | lookup
  | read
  deriving DecidableEq

def Call.key : Call → Nat
  | .resolve ip => 0xfffffffeffffffff + ip.toNat
  | .lookup => Dns.KEY
  | .read => WAIT_KEY

def reserved : Nat := 0xfffffffeffffffff

theorem reserved_le (call : Call) : reserved ≤ call.key := by
  cases call with
  | resolve => exact Nat.le_add_right _ _
  | lookup | read => decide

structure World where
  scheduler : State
  call : Nat → Option Call

inductive Input where
  | wait (cpu : Nat) (call : Call) (deadline observed : Nat)
  | frame (data : List UInt8)
  | datagram (src : UInt32) (segment : List UInt8)
  | keyPress
  | other (action : Scheduler.Action)

def AcceptsArp (data : List UInt8) (sender : UInt32) : Prop :=
  ∃ mac, receive data = .ok (.arpReply sender mac) ∨ receive data = .ok (.arpRequest sender mac)

def Input.action : Input → Option Scheduler.Action
  | .wait cpu call deadline observed => some (.waitEvent cpu call.key deadline observed)
  | .frame data =>
    match receive data with
    | .ok (.arpReply sender _) | .ok (.arpRequest sender _) =>
      some (.wakeEvent (Call.resolve sender).key)
    | _ => none
  | .datagram src segment =>
    match Dns.answer src segment with
    | .ok (some _) => some (.wakeEvent Dns.KEY)
    | _ => none
  | .keyPress => some (.wakeEvent WAIT_KEY)
  | .other action => some action

namespace World

variable {w : World} {input : Input} {inputs : List Input} {index deadline : Nat} {call : Call}

def start (kernelRoot : Nat) : World := ⟨State.start kernelRoot, fun _ => none⟩

def calls (w : World) (input : Input) (index : Nat) : Option Call :=
  match input with
  | .wait cpu call _ _ =>
    if (w.scheduler.cpus cpu).currentTask = some index
      ∧ State.isRunning (w.scheduler.cpus cpu).mode = true then some call
    else w.call index
  | _ => w.call index

def step (w : World) (input : Input) : World where
  scheduler := match input.action with
    | some action => w.scheduler.step action
    | none => w.scheduler
  call := w.calls input

abbrev run (w : World) (inputs : List Input) : World := runAll step w inputs

def Blocked (w : World) (index : Nat) (call : Call) (deadline : Nat) : Prop :=
  w.call index = some call ∧ w.scheduler.Waits call.key deadline index

def apart (w : World) (input : Input) : Bool :=
  w.scheduler.ids.all (· < reserved) && match input with
    | .other action => action.key.all (· < reserved)
    | _ => true

def Separate (_ : World) : Input → Prop
  | .wait _ (.resolve ip) _ _ => ip ≠ 0xffffffff ∧ ip ≠ 0xfffffffe
  | .frame data => ¬ AcceptsArp data 0xffffffff
  | _ => True

def Caused (w : World) (input : Input) (deadline : Nat) : Call → Prop
  | .lookup => (∃ src segment address, input = .datagram src segment
      ∧ Dns.answer src segment = .ok (some address)) ∨ w.scheduler.Passed deadline
  | .resolve ip => (∃ data, input = .frame data ∧ AcceptsArp data ip) ∨ w.scheduler.Passed deadline
  | .read => True

structure Orderly (w : World) : Prop where
  consistent : w.scheduler.Consistent
  calls : ∀ index ip, w.call index = some (.resolve ip) → ip ≠ 0xffffffff ∧ ip ≠ 0xfffffffe

theorem Orderly.start (kernelRoot : Nat) : (start kernelRoot).Orderly where
  consistent := State.consistent_start kernelRoot
  calls := fun _ _ h => nomatch h

theorem Orderly.step (h : w.Orderly) (hseparate : w.Separate input) : (w.step input).Orderly where
  consistent := by
    unfold World.step
    split
    · exact h.consistent.step _
    · exact h.consistent
  calls := by
    intro index ip hcall
    cases input with
    | wait cpu call =>
      change (if _ then some call else w.call index) = _ at hcall
      split at hcall
      · rw [Option.some.inj hcall] at hseparate
        exact hseparate
      · exact h.calls index ip hcall
    | frame | datagram | keyPress | other => exact h.calls index ip hcall

theorem eq_of_key {ip : UInt32} (call : Call) (h : (Call.resolve ip).key = call.key) :
    call = .resolve ip ∨ (call = .lookup ∧ ip = 0xffffffff) ∨ (call = .read ∧ ip = 0xfffffffe) := by
  cases call with
  | resolve ip' =>
    left
    have heq : ip.toNat = ip'.toNat := Nat.add_left_cancel h
    rw [UInt32.toNat_inj.mp heq]
  | lookup =>
    refine .inr (.inl ⟨rfl, UInt32.toNat_inj.mp ?_⟩)
    change 0xfffffffeffffffff + ip.toNat = 0xfffffffffffffffe at h
    change ip.toNat = 0xffffffff
    omega
  | read =>
    refine .inr (.inr ⟨rfl, UInt32.toNat_inj.mp ?_⟩)
    change 0xfffffffeffffffff + ip.toNat = 0xfffffffffffffffd at h
    change ip.toNat = 0xfffffffe
    omega

theorem caused_of_wake (h : w.Orderly) (hcall : w.call index = some call)
    (hapart : w.apart input = true) (hseparate : w.Separate input)
    (hwake : input.action = some (.wakeEvent call.key)) : w.Caused input deadline call := by
  cases input with
  | wait => cases hwake
  | frame data =>
    have hsender : ∃ sender, AcceptsArp data sender ∧ (Call.resolve sender).key = call.key := by
      unfold Input.action at hwake
      dsimp only at hwake
      split at hwake
      · rename_i sender mac hreceive
        exact ⟨sender, ⟨mac, .inl hreceive⟩, by simpa using hwake⟩
      · rename_i sender mac hreceive
        exact ⟨sender, ⟨mac, .inr hreceive⟩, by simpa using hwake⟩
      · cases hwake
    obtain ⟨sender, haccepts, hkey⟩ := hsender
    rcases eq_of_key call hkey with rfl | ⟨rfl, rfl⟩ | ⟨rfl, _⟩
    · exact .inl ⟨data, rfl, haccepts⟩
    · exact absurd haccepts hseparate
    · trivial
  | datagram src segment =>
    unfold Input.action at hwake
    dsimp only at hwake
    split at hwake
    · rename_i address hanswer
      cases call with
      | resolve ip =>
        have hkey : Dns.KEY = (Call.resolve ip).key :=
          Scheduler.Action.wakeEvent.inj (Option.some.inj hwake)
        rcases eq_of_key .lookup hkey.symm with hcontra | ⟨_, hlast⟩ | ⟨hcontra, _⟩
        · cases hcontra
        · exact absurd hlast (h.calls index ip hcall).1
        · cases hcontra
      | lookup => exact .inl ⟨src, segment, address, rfl, hanswer⟩
      | read => trivial
    · cases hwake
  | keyPress =>
    cases call with
    | resolve ip =>
      have hkey : WAIT_KEY = (Call.resolve ip).key :=
        Scheduler.Action.wakeEvent.inj (Option.some.inj hwake)
      rcases eq_of_key .read hkey.symm with hcontra | ⟨hcontra, _⟩ | ⟨_, hlast⟩
      · cases hcontra
      · cases hcontra
      · exact absurd hlast (h.calls index ip hcall).2
    | lookup =>
      have hkey : WAIT_KEY = Dns.KEY := Scheduler.Action.wakeEvent.inj (Option.some.inj hwake)
      exact absurd hkey (by decide)
    | read => trivial
  | other action =>
    obtain rfl : action = .wakeEvent call.key := Option.some.inj hwake
    unfold apart at hapart
    simp only [Scheduler.Action.key, Option.all_some, Bool.and_eq_true, decide_eq_true_eq] at hapart
    have := reserved_le call
    omega

theorem statusOf_of_waits {s : State} {key : Nat} (h : s.Waits key deadline index) :
    s.statusOf index = .waiting := by
  obtain ⟨task, htask, hwaiting, _⟩ := h
  rw [State.statusOf_of_getElem? htask, hwaiting]

theorem Orderly.caused (h : w.Orderly) (hapart : w.apart input = true)
    (hseparate : w.Separate input) (hblocked : w.Blocked index call deadline)
    (hawake : (w.step input).scheduler.statusOf index ≠ .waiting) :
    w.Caused input deadline call := by
  obtain ⟨hcall, hwaits⟩ := hblocked
  have hid : call.key ∉ w.scheduler.ids := by
    intro hmem
    have hlt := List.all_eq_true.mp (Bool.and_eq_true_iff.mp hapart).1 _ hmem
    have hge := reserved_le call
    rw [decide_eq_true_eq] at hlt
    omega
  unfold World.step at hawake
  cases haction : input.action with
  | none =>
    rw [haction] at hawake
    exact absurd (statusOf_of_waits hwaits) hawake
  | some action =>
    rw [haction] at hawake
    rcases hwaits.step h.consistent hid action with hwaits' | rfl | ⟨_, hpassed⟩
    · exact absurd (statusOf_of_waits hwaits') hawake
    · exact caused_of_wake h hcall hapart hseparate haction
    cases call with
    | lookup => exact .inr hpassed
    | resolve => exact .inr hpassed
    | read => trivial

/-- **Every waiter is woken by its own event** or by its deadline, if the last two addresses are not
used. -/
theorem woken_by_own_event (kernelRoot : Nat)
    (hapart : Along step (fun w input => w.apart input = true) (start kernelRoot)
      (inputs ++ [input])) (hseparate : Along step Separate (start kernelRoot) (inputs ++ [input]))
    (hblocked : ((start kernelRoot).run inputs).Blocked index call deadline)
    (hawake : (((start kernelRoot).run inputs).step input).scheduler.statusOf index ≠ .waiting) :
    ((start kernelRoot).run inputs).Caused input deadline call := by
  obtain ⟨_, hapart, _⟩ := along_append.mp hapart
  obtain ⟨hseparated, hseparate, _⟩ := along_append.mp hseparate
  have horderly : ((start kernelRoot).run inputs).Orderly :=
    hseparated.invariant (Orderly.start kernelRoot) fun _ _ _ h hsep => h.step hsep
  exact horderly.caused hapart hseparate hblocked hawake

def arpFrom (a b c d : UInt8) : List UInt8 :=
  List.replicate 12 0 ++ [8, 6, 0, 1, 8, 0, 6, 4, 0, 2] ++ List.replicate 6 0 ++ [a, b, c, d]
    ++ List.replicate 10 0

theorem receive_arpFrom :
    receive (arpFrom 10 0 2 2) = .ok (.arpReply GATEWAY ⟨List.replicate 6 0, rfl⟩) := by
  decide +kernel

def blockedIn (call : Call) : List Input :=
  State.firstProgram.map .other ++ [.wait 0 call 100 0]

theorem woken_by_own_event_gateway :
    ((start 0).run (blockedIn (.resolve GATEWAY))).Caused (.frame (arpFrom 10 0 2 2)) 100
      (.resolve GATEWAY) := by
  have hother : ¬ AcceptsArp (arpFrom 10 0 2 2) 0xffffffff := by
    rintro ⟨mac, hreply | hrequest⟩
    · rw [receive_arpFrom] at hreply
      cases hreply
    · rw [receive_arpFrom] at hrequest
      cases hrequest
  have hblocked : ((start 0).run (blockedIn (.resolve GATEWAY))).Blocked 1 (.resolve GATEWAY) 100 :=
    ⟨by decide +kernel, _, rfl, by decide +kernel, by decide +kernel, by decide +kernel⟩
  exact woken_by_own_event 0 (by decide +kernel)
    ⟨trivial, trivial, trivial, trivial, ⟨by decide, by decide⟩, hother, trivial⟩ hblocked
    (by decide +kernel)

/-- A task that waits for an answer of the name server goes on when an ARP reply comes from the
address 255.255.255.255. -/
theorem woken_by_other_event :
    Along step (fun w input => w.apart input = true) (start 0)
        (blockedIn .lookup ++ [.frame (arpFrom 255 255 255 255)])
      ∧ ((start 0).run (blockedIn .lookup)).Blocked 1 .lookup 100
      ∧ (((start 0).run (blockedIn .lookup)).step
          (.frame (arpFrom 255 255 255 255))).scheduler.statusOf 1 ≠ .waiting
      ∧ ¬ ((start 0).run (blockedIn .lookup)).Caused (.frame (arpFrom 255 255 255 255)) 100
          .lookup := by
  refine ⟨by decide +kernel, ⟨by decide +kernel, _, rfl, by decide +kernel, by decide +kernel,
    by decide +kernel⟩, by decide +kernel, ?_⟩
  rintro (⟨_, _, _, hdatagram, _⟩ | hpassed)
  · cases hdatagram
  · have hticks : ((start 0).run (blockedIn .lookup)).scheduler.ticks = 0 := by decide +kernel
    have hlate := hpassed.2
    omega

end World

end Kaguya.Net
