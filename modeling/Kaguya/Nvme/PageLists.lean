import Mathlib.Order.Interval.Finset.Nat
import Kaguya.Nvme.Queue

/-!
# What the controller makes of a command's pages

The first pointer of a command is the buffer. The second one is its second page, or the address of a
list with all pages but the first.
-/

namespace Kaguya.Nvme

variable {command : Command} {buffer sectors list : Nat} {pages : PageList}

def touched (buffer bytes : Nat) :
    Finset Nat := (Finset.range bytes).image fun k => (buffer + k) / 4096

theorem card_touched {bytes : Nat} (hbytes : 0 < bytes) :
    (touched buffer bytes).card = (buffer % 4096 + bytes + 4095) / 4096 := by
  have hpages : touched buffer bytes = Finset.Icc (buffer / 4096)
      ((buffer + bytes - 1) / 4096) := by
    ext page
    simp only [touched, Finset.mem_image, Finset.mem_range, Finset.mem_Icc]
    constructor
    · rintro ⟨k, hk, rfl⟩
      omega
    · intro hpage
      exact ⟨max (page * 4096) buffer - buffer, by omega, by omega⟩
  rw [hpages, Nat.card_Icc]
  omega

theorem toNat_halves (address : UInt64) :
    address.toUInt32.toNat + 2 ^ 32 * (address >>> 32).toUInt32.toNat = address.toNat := by
  have hlt := address.toNat_lt
  simp [UInt64.toNat_shiftRight, Nat.shiftRight_eq_div_pow]
  omega

variable {address : UInt64}

theorem prp_prp1 : (command.prp1 address).prp 6 = address.toNat := toNat_halves address

theorem prp_prp2 : (command.prp2 address).prp 8 = address.toNat := toNat_halves address

theorem prp1_prp2 : (command.prp2 address).prp 6 = command.prp 6 := rfl

def Fits (buffer sectors : Nat) : Prop :=
  0 < buffer ∧ 1 ≤ sectors ∧ sectors ≤ 65536 ∧ buffer + 512 * sectors < 2 ^ 64
    ∧ (touched buffer (512 * sectors)).card ≤ 513

theorem setPrps_of_fits (hlist : list ≠ 0) (haligned : list % 4096 = 0) (h : Fits buffer sectors) :
    setPrps command buffer sectors list pages = if (touched buffer (512 * sectors)).card = 1 then
        (true, (command.prp1 (UInt64.ofNat buffer)).prp2 0, pages)
      else if (touched buffer (512 * sectors)).card = 2
        then (true, (command.prp1 (UInt64.ofNat buffer)).prp2
        (UInt64.ofNat (buffer / 4096 * 4096 + 4096)), pages)
      else (true, (command.prp1 (UInt64.ofNat buffer)).prp2 (UInt64.ofNat list), fun i =>
        if i + 1 < (touched buffer (512 * sectors)).card then
          UInt64.ofNat (buffer / 4096 * 4096 + (i + 1) * 4096) else pages i) := by
  obtain ⟨hbuffer, hone, hmany, hend, hpages⟩ := h
  have hcard : ((buffer - buffer / 4096 * 4096) + sectors * 512 + 4095) / 4096
      = (touched buffer (512 * sectors)).card := by
    rw [card_touched (by omega)]
    omega
  rw [setPrps, if_neg (by omega)]
  dsimp only
  rw [if_neg (by omega), hcard, if_neg (by omega)]
  split_ifs <;> simp_all

theorem fits_of_setPrps (h : (setPrps command buffer sectors list pages).1 = true) :
    Fits buffer sectors := by
  unfold setPrps at h
  dsimp only at h
  split_ifs at h with hsectors hend hpages
  all_goals
    refine ⟨by omega, by omega, by omega, by omega, ?_⟩
    rw [card_touched (by omega)]
    omega

theorem toNat_ofNat {n : Nat} (h : n < 2 ^ 64) :
    (UInt64.ofNat n).toNat = n := UInt64.toNat_ofNat_of_lt h

/-- **Page lists describe the buffer.** A buffer is described exactly if it fits. The controller
then finds its bytes in order, and at most 512 entries are written, each the address of a page. -/
theorem setPrps_exact (command : Command) (pages : PageList) (hbuffer : buffer < 2 ^ 64)
    (hlist : list ≠ 0) (haligned : list % 4096 = 0) (hlt : list < 2 ^ 64) :
    ((setPrps command buffer sectors list pages).1 = true ↔ Fits buffer sectors)
    ∧ ((setPrps command buffer sectors list pages).1 = true →
      (∀ lists : Nat → PageList, lists list = (setPrps command buffer sectors list pages).2.2 →
        ∀ k < 512 * sectors, (setPrps command buffer sectors list pages).2.1.place lists
          (512 * sectors) k = buffer + k)
      ∧ ∀ i, (setPrps command buffer sectors list pages).2.2 i ≠ pages i →
        i < 512 ∧ ((setPrps command buffer sectors list pages).2.2 i).toNat % 4096 = 0) := by
  refine ⟨⟨fits_of_setPrps, fun h => ?_⟩, fun htrue => ?_⟩
  · rw [setPrps_of_fits hlist haligned h]
    split_ifs <;> rfl
  have h := fits_of_setPrps htrue
  obtain ⟨_, hone, hmany, hend, hpages⟩ := id h
  have hcard := @card_touched buffer (512 * sectors) (by omega)
  rw [setPrps_of_fits hlist haligned h]
  split_ifs with hsingle hpair
  · refine ⟨fun lists _ k hk => ?_, fun i hi => absurd rfl hi⟩
    simp only [Command.place, prp1_prp2, prp_prp1, toNat_ofNat hbuffer]
    rw [if_pos (by omega)]
  · refine ⟨fun lists _ k hk => ?_, fun i hi => absurd rfl hi⟩
    simp only [Command.place, prp1_prp2, prp_prp1, prp_prp2, toNat_ofNat hbuffer]
    rw [toNat_ofNat (by omega)]
    split_ifs <;> omega
  refine ⟨fun lists hlists k hk => ?_, fun i hi => ?_⟩
  · simp only [Command.place, prp1_prp2, prp_prp1, prp_prp2, toNat_ofNat hbuffer, toNat_ofNat hlt,
      hlists]
    rw [if_neg (show ¬ buffer % 4096 + 512 * sectors ≤ 2 * 4096 by omega)]
    split_ifs
    · rfl
    · rw [toNat_ofNat (by omega)]
      omega
    · omega
  · dsimp only at hi ⊢
    split_ifs at hi ⊢ with hwritten
    · rw [toNat_ofNat (by omega)]
      omega
    · exact absurd rfl hi

theorem setPrps_exact_threePages :
    (setPrps (Command.new 2 100 1) 0x1080 24 0x8000 fun _ => 0).1 = true ∧ Fits 0x1080 24 := by
  have hexact := @setPrps_exact 0x1080 24 0x8000 (Command.new 2 100 1) (fun _ => 0) (by decide)
    (by decide) (by decide) (by decide)
  have htrue : (setPrps (Command.new 2 100 1) 0x1080 24 0x8000 fun _ => 0).1 = true := by
    decide +kernel
  exact ⟨htrue, hexact.1.mp htrue⟩

end Kaguya.Nvme
