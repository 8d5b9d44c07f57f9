import Kaguya.Lib.Prog
import Kaguya.Lib.Buffer

/-!
# The block device

A volume reaches its disk through two callbacks that transfer whole 512-byte sectors. The device
refuses a request outside it and may fail any request inside it: `faults` decides by the number of
the request. A request that fails changes nothing. `served` is the history of requests, which no
function reads.
-/

namespace Kaguya.FileSystem

open Prog

inductive Request where
  | read (lba count : Nat)
  | write (lba count : Nat) (data : List UInt8)
  deriving DecidableEq, Repr

structure Device where
  bytes : Buffer
  sectors : Nat
  faults : Nat → Bool
  served : List Request

namespace Device

def issued (device : Device) : Nat := device.served.length

def record (device : Device) (request : Request) : Device :=
  { device with served := device.served ++ [request] }

def read (lba count : Nat) : Prog Device Buffer := fun device =>
  let device' := device.record (.read lba count)
  if device.sectors < lba + count then (.error (-2), device')
  else if device.faults device.issued then (.error (-3), device')
  else (.ok fun i => if i < count * 512 then device.bytes (lba * 512 + i) else 0, device')

def write (lba count : Nat) (data : Buffer) : Prog Device Unit := fun device =>
  let device' := device.record (.write lba count (data.slice 0 (count * 512)))
  if device.sectors < lba + count then (.error (-2), device')
  else if device.faults device.issued then (.error (-3), device')
  else (.ok (), { device' with bytes := device.bytes.memCopy (lba * 512) data 0 (count * 512) })

def NonFailing (device : Device) : Prop := ∀ i, device.faults i = false

structure Served (d d' : Device) (n : Nat) : Prop where
  sectors : d'.sectors = d.sectors
  faults : d'.faults = d.faults
  issued : d'.issued = d.issued + n
  clean : ∀ i < n, d.faults (d.issued + i) = false

structure Broke (d d' : Device) (n : Nat) : Prop where
  sectors : d'.sectors = d.sectors
  faults : d'.faults = d.faults
  issued : d'.issued = d.issued + n + 1
  clean : ∀ i < n, d.faults (d.issued + i) = false
  hit : d.faults (d.issued + n) = true

structure Later (d d' : Device) : Prop where
  sectors : d'.sectors = d.sectors
  faults : d'.faults = d.faults
  issued : d.issued ≤ d'.issued

variable {d d' d'' : Device} {m n : Nat}

theorem Served.refl (d : Device) :
    Served d d 0 := ⟨rfl, rfl, rfl, fun _ hi => absurd hi (Nat.not_lt_zero _)⟩

theorem Served.trans (h : Served d d' m) (h' : Served d' d'' n) : Served d d'' (m + n) := by
  refine ⟨h'.sectors.trans h.sectors, h'.faults.trans h.faults, ?_, fun i hi => ?_⟩
  · rw [h'.issued, h.issued, Nat.add_assoc]
  by_cases him : i < m
  · exact h.clean i him
  · have hclean := h'.clean (i - m) (by omega)
    rwa [h.faults, h.issued, show d.issued + m + (i - m) = d.issued + i by omega] at hclean

theorem Served.broke (h : Served d d' m) (h' : Broke d' d'' n) : Broke d d'' (m + n) := by
  refine ⟨h'.sectors.trans h.sectors, h'.faults.trans h.faults, ?_, fun i hi => ?_, ?_⟩
  · rw [h'.issued, h.issued]
    omega
  · by_cases him : i < m
    · exact h.clean i him
    · have hclean := h'.clean (i - m) (by omega)
      rwa [h.faults, h.issued, show d.issued + m + (i - m) = d.issued + i by omega] at hclean
  · have hhit := h'.hit
    rwa [h.faults, h.issued, Nat.add_assoc] at hhit

theorem Later.refl (d : Device) : Later d d := ⟨rfl, rfl, le_rfl⟩

theorem Later.trans (h : Later d d') (h' : Later d' d'') : Later d d'' :=
  ⟨h'.sectors.trans h.sectors, h'.faults.trans h.faults, h.issued.trans h'.issued⟩

theorem Served.later (h : Served d d' n) :
    Later d d' := ⟨h.sectors, h.faults, by rw [h.issued]; omega⟩

theorem Broke.later (h : Broke d d' n) :
    Later d d' := ⟨h.sectors, h.faults, by rw [h.issued]; omega⟩

theorem Served.le_sectors {k : Nat} (h : Served d d' n) (hs : k ≤ d.sectors) :
    k ≤ d'.sectors := hs.trans_eq h.sectors.symm

theorem Later.le_sectors {k : Nat} (h : Later d d') (hs : k ≤ d.sectors) :
    k ≤ d'.sectors := hs.trans_eq h.sectors.symm

theorem Later.nonFailing (h : Later d d') (hd : NonFailing d) : NonFailing d' := by
  intro i
  rw [h.faults, hd i]

theorem Broke.not_nonFailing (h : Broke d d' n) : ¬ NonFailing d := fun hd => by
  have hhit := h.hit
  rw [hd] at hhit
  exact Bool.noConfusion hhit

theorem issued_record (d : Device) (request : Request) :
    (d.record request).issued = d.issued + 1 := by
  simp [issued, record]

theorem read_wp {lba count : Nat} (h : lba + count ≤ d.sectors) : wp (read lba count)
      (fun buffer d' => (∀ i < count * 512, buffer i = d.bytes (lba * 512 + i)) ∧ d'.bytes = d.bytes
        ∧ Served d d' 1)
      (fun code d' => code = -3 ∧ d'.bytes = d.bytes ∧ Broke d d' 0) d := by
  unfold wp read
  rw [if_neg (by omega)]
  cases hfault : d.faults d.issued with
  | true =>
    refine ⟨rfl, rfl, rfl, rfl, issued_record d _, fun i hi => absurd hi (Nat.not_lt_zero i), ?_⟩
    simpa using hfault
  | false =>
    refine ⟨fun i hi => if_pos hi, rfl, rfl, rfl, issued_record d _, fun i hi => ?_⟩
    obtain rfl : i = 0 := by omega
    simpa using hfault

theorem write_wp {lba count : Nat} {data : Buffer} (h : lba + count ≤ d.sectors) :
    wp (write lba count data)
      (fun _ d' => d'.bytes = d.bytes.memCopy (lba * 512) data 0 (count * 512) ∧ Served d d' 1)
      (fun code d' => code = -3 ∧ d'.bytes = d.bytes ∧ Broke d d' 0) d := by
  unfold wp write
  rw [if_neg (by omega)]
  cases hfault : d.faults d.issued with
  | true =>
    refine ⟨rfl, rfl, rfl, rfl, issued_record d _, fun i hi => absurd hi (Nat.not_lt_zero i), ?_⟩
    simpa using hfault
  | false =>
    refine ⟨rfl, rfl, rfl, issued_record d _, fun i hi => ?_⟩
    obtain rfl : i = 0 := by omega
    simpa using hfault

theorem read_bytes (lba count : Nat) (d : Device) :
    (read lba count d).2.bytes = d.bytes ∧ Later d (read lba count d).2 := by
  have hlater : Later d (d.record (.read lba count)) := ⟨rfl, rfl, by rw [issued_record]; omega⟩
  unfold read
  split
  · exact ⟨rfl, hlater⟩
  · split <;> exact ⟨rfl, hlater⟩

theorem write_bytes (lba count : Nat) (data : Buffer) (d : Device) :
    (∀ i, ¬ (lba * 512 ≤ i ∧ i < (lba + count) * 512) → (write lba count data d).2.bytes i
      = d.bytes i)
      ∧ Later d (write lba count data d).2 := by
  have hlater : Later d (d.record (.write lba count (data.slice 0 (count * 512)))) :=
    ⟨rfl, rfl, by rw [issued_record]; omega⟩
  unfold write
  split
  · exact ⟨fun _ _ => rfl, hlater⟩
  split
  · exact ⟨fun _ _ => rfl, hlater⟩
  · refine ⟨fun i hi => ?_, ⟨rfl, rfl, hlater.issued⟩⟩
    exact Buffer.memCopy_of_not_mem (by rw [Nat.add_mul] at hi; exact hi)

end Device

end Kaguya.FileSystem
