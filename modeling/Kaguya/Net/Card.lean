import Mathlib.Logic.Function.Basic
import Kaguya.Lib.Buffer

/-!
# Polling the network card

The receive ring of `e1000.jh` and `poll` of `net_base.jh`. No descriptor completes and no interrupt
arrives during a call. `receive` returns 0 for an empty ring and for a frame that it discards, and
`poll` takes both for the end of the ring.
-/

namespace Kaguya.Net

open Function

structure RxDescriptor where
  length : UInt16
  status : UInt8
  errors : UInt8

/-- `BASE` and `IRQ` only say whether the card is ready. A position in the rings has 4 bits. -/
structure Card where
  ready : Bool
  rx : BitVec 4 → RxDescriptor
  buffers : BitVec 4 → Buffer
  rxNext : BitVec 4
  pending : Bool
  polling : Bool

namespace RxDescriptor

variable (d : RxDescriptor)

def Done : Prop := d.status &&& 1 ≠ 0

def Accepted : Prop := d.status &&& 3 = 3 ∧ d.errors = 0 ∧ d.length.toNat ≤ 2048

def Kept : Prop := d.Accepted ∧ d.length ≠ 0

instance : Decidable d.Done := inferInstanceAs (Decidable (_ ≠ _))

instance : Decidable d.Accepted := inferInstanceAs (Decidable (_ ∧ _))

instance : Decidable d.Kept := inferInstanceAs (Decidable (_ ∧ _))

end RxDescriptor

namespace Card

variable (card : Card)

def takePending : Bool × Card := (card.pending, { card with pending := false })

def rearm : Card := { card with pending := true }

def receive (capacity : Nat) : List UInt8 × Card :=
  let d := card.rx card.rxNext
  if ¬ card.ready ∨ ¬ d.Done then ([], card)
  else
    let copied := if d.Accepted then min d.length.toNat capacity else 0
    (Buffer.slice (card.buffers card.rxNext) 0 copied, { card with
        rx := update card.rx card.rxNext { d with status := 0 }
        rxNext := card.rxNext + 1 })

/-- The loop of `poll` with `rounds` rounds left: the frames for `incoming`. -/
def drain : Nat → Card → List (List UInt8) × Card
  | 0, card => ([], card.rearm)
  | rounds + 1, card =>
    match card.receive 1514 with
    | ([], card) => ([], card)
    | (frame, card) => (frame :: (drain rounds card).1, (drain rounds card).2)

def poll : List (List UInt8) × Card :=
  if ¬ card.ready ∨ card.polling then ([], card)
  else
    let (pending, card) := { card with polling := true }.takePending
    let (frames, card) := if pending then drain 8 card else ([], card)
    (frames, { card with polling := false })

/-- The descriptor that is looked at next is empty, or `poll` will look again. -/
def Drained : Prop := ¬ (card.rx card.rxNext).Done ∨ card.pending = true

def ahead (k : Nat) : RxDescriptor := card.rx (card.rxNext + BitVec.ofNat 4 k)

/-- A frame that is discarded in one of the next `rounds`, after frames that were not, has no
completed descriptor behind it. -/
def Filled (rounds : Nat) : Prop :=
  ∀ k < rounds, (∀ j < k, (card.ahead j).Done ∧ (card.ahead j).Kept) → (card.ahead k).Done →
    ¬ (card.ahead k).Kept → ¬ (card.ahead (k + 1)).Done

variable {card} {rounds : Nat}

def recycled (card : Card) : Card := { card with
  rx := update card.rx card.rxNext { card.rx card.rxNext with status := 0 }
  rxNext := card.rxNext + 1 }

theorem ahead_zero : card.ahead 0 = card.rx card.rxNext :=
  congrArg card.rx (BitVec.add_zero card.rxNext)

theorem ahead_recycled {k : Nat} (hk : k < 15) : card.recycled.ahead k = card.ahead (k + 1) := by
  have hindex : card.rxNext + 1 + BitVec.ofNat 4 k = card.rxNext + BitVec.ofNat 4 (k + 1) := by
    bv_omega
  have hother : card.rxNext + BitVec.ofNat 4 (k + 1) ≠ card.rxNext := by
    bv_omega
  change update card.rx card.rxNext _ (card.rxNext + 1 + BitVec.ofNat 4 k) = _
  rw [hindex, update_of_ne hother]
  rfl

/-- A frame is handed on if it is kept, and its descriptor is recycled in any case. -/
theorem receive_done (hready : card.ready = true) (hdone : (card.ahead 0).Done) :
    ∃ frame, card.receive 1514 = (frame, card.recycled) ∧ (frame = [] ↔ ¬ (card.ahead 0).Kept) := by
  rw [ahead_zero] at hdone ⊢
  refine ⟨_, if_neg (by simp [hready, hdone]), ?_⟩
  rw [← List.length_eq_zero_iff, Buffer.slice, List.length_map, List.length_range,
    RxDescriptor.Kept, Ne, ← UInt16.toNat_inj]
  split_ifs with haccepted
  · simp [haccepted]
  · simp [haccepted]

theorem Filled.of_not_done (hdone : ¬ (card.ahead 0).Done) : card.Filled rounds := by
  intro k _ hbefore hk
  cases k with
  | zero => exact absurd hk hdone
  | succ k => exact absurd (hbefore 0 (Nat.zero_lt_succ k)).1 hdone

theorem filled_of_discarded (hdone : (card.ahead 0).Done) (hdiscarded : ¬ (card.ahead 0).Kept) :
    card.Filled (rounds + 1) ↔ ¬ (card.ahead 1).Done := by
  constructor
  · exact fun h =>
      h 0 (Nat.zero_lt_succ _) (fun _ hj => absurd hj (Nat.not_lt_zero _)) hdone hdiscarded
  · intro hnext k _ hbefore _ _
    cases k with
    | zero => exact hnext
    | succ k => exact absurd (hbefore 0 (Nat.zero_lt_succ k)).2 hdiscarded

theorem filled_of_kept (hdone : (card.ahead 0).Done) (hkept : (card.ahead 0).Kept)
    (hrounds : rounds < 14) : card.Filled (rounds + 1) ↔ card.recycled.Filled rounds := by
  constructor
  · intro h k hk hbefore hdone' hdiscarded
    rw [ahead_recycled (by omega)] at hdone' hdiscarded ⊢
    refine h (k + 1) (by omega) (fun j hj => ?_) hdone' hdiscarded
    cases j with
    | zero => exact ⟨hdone, hkept⟩
    | succ j =>
      have hshifted := hbefore j (by omega)
      rwa [ahead_recycled (by omega)] at hshifted
  · intro h k hk hbefore hdone' hdiscarded
    cases k with
    | zero => exact absurd hkept hdiscarded
    | succ k =>
      rw [← ahead_recycled (by omega)] at hdone' hdiscarded ⊢
      refine h k (by omega) (fun j hj => ?_) hdone' hdiscarded
      rw [ahead_recycled (by omega)]
      exact hbefore (j + 1) (by omega)

theorem drained_drain (hready : card.ready = true) (hpending : card.pending = false)
    (hrounds : rounds < 15) : (drain rounds card).2.Drained ↔ card.Filled rounds := by
  induction rounds generalizing card with
  | zero => exact ⟨fun _ k hk => absurd hk (Nat.not_lt_zero k), fun _ => .inr rfl⟩
  | succ _ ih =>
    by_cases hdone : (card.ahead 0).Done
    · obtain ⟨frame, hreceive, hframe⟩ := receive_done hready hdone
      by_cases hkept : (card.ahead 0).Kept
      · obtain ⟨byte, bytes, rfl⟩ :=
          List.exists_cons_of_ne_nil fun hnil => hframe.mp hnil hkept
        rw [drain, hreceive, filled_of_kept hdone hkept (by omega)]
        exact ih hready hpending (by omega)
      · rw [drain, hreceive, hframe.mpr hkept, filled_of_discarded hdone hkept, Drained,
          ← ahead_zero, ahead_recycled (by omega)]
        change _ ∨ card.pending = true ↔ _
        rw [hpending]
        simp
    · have hempty : card.receive 1514 = ([], card) := by
        rw [ahead_zero] at hdone
        exact if_pos (.inr hdone)
      rw [drain, hempty]
      refine iff_of_true (.inl ?_) (.of_not_done hdone)
      rwa [← ahead_zero]

/-- **When no received frame is left behind.** A poll ends with an empty descriptor, or looks again,
just when no frame that it discards has a completed descriptor behind it. -/
theorem poll_drains (hready : card.ready = true) (hidle : card.polling = false)
    (hpending : card.pending = true) : card.poll.2.Drained ↔ card.Filled 8 := by
  rw [poll, if_neg (by simp [hready, hidle])]
  simp only [takePending, hpending, if_true]
  exact @drained_drain { card with polling := true, pending := false } 8 hready rfl (by decide)

def twoFrames (errors : UInt8) : Card where
  ready := true
  rx i := ⟨60, if i < 2 then 3 else 0, if i = 0 then errors else 0⟩
  buffers _ := Buffer.zeroed
  rxNext := 0
  pending := true
  polling := false

theorem poll_drains_twoFrames : (twoFrames 0).poll.2.Drained :=
  (poll_drains rfl rfl rfl).mpr (by unfold Filled; decide)

/-- The first frame is discarded, and the second one stays where it is. -/
theorem poll_stops_at_discarded : ((twoFrames 1).poll.2.rx (twoFrames 1).poll.2.rxNext).Done
    ∧ (twoFrames 1).poll.2.pending = false := by
  decide +kernel

end Card

end Kaguya.Net
