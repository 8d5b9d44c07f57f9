import Kaguya.FileSystem.Files

/-!
# Reading a file

A read copies the bytes of the file at the positions asked for, cut off at its end, and leaves the
disk alone. It returns unless the device fails.
-/

namespace Kaguya.FileSystem

open Prog Device

variable {s : ReadState} {clusters first offset length : Nat} {path : List Nat} {whole : Bool}

def ReadFailed (d : Device) (code : Int) (d' : Device) : Prop :=
  code = -3 ∧ d'.bytes = d.bytes ∧ d.Faulted d'

theorem readLoop_wp {n cluster within done : Nat} (hs : 81 + 8 * clusters ≤ s.device.sectors)
    (hsound : Sound s.device.image.fat clusters first path)
    (hlong : offset + length ≤ 4096 * path.length) (hdone : done ≤ length)
    (hat : done < length → cluster = s.device.image.fat^[(offset + done) / 4096] first
      ∧ within = (offset + done) % 4096) (hn : length ≤ done + n)
    (hcopied : ∀ i < done, s.output i = s.device.image.logical path (offset + i)) :
    wp (readLoop length whole n cluster within done)
      (fun count s' => count = length
        ∧ (∀ i < length, s'.output i = s.device.image.logical path (offset + i))
        ∧ s'.device.bytes = s.device.bytes ∧ Later s.device s'.device)
      (fun code s' => ReadFailed s.device code s'.device) s := by
  induction n generalizing s cluster within done with
  | zero =>
    have heq : done = length := by omega
    rw [heq] at hcopied
    exact ⟨heq, hcopied, rfl, Later.refl _⟩
  | succ n ih =>
    rw [readLoop, wp_ite]
    constructor
    · intro hmore
      obtain ⟨hcluster, hwithin⟩ := hat hmore
      have hk : (offset + done) / 4096 < path.length := by omega
      have hlive := hsound.walk.live_iterate hk
      have hget := hsound.walk.getElem_eq hk
      rw [← hcluster] at hlive hget
      have hmem : cluster ∈ path := hget ▸ List.getElem_mem hk
      rw [if_neg (not_not.mpr hlive), wp_bind]
      refine wp_zoom.mpr (wp_mono (readCluster_wp hs (hsound.two_le hmem) (hsound.within _ hmem)) ?_
        ?_)
      · rintro workspace d1 ⟨hworkspace, hbytes1, hserved1⟩
        have himage1 := Device.image_eq_of_bytes hbytes1
        rw [wp_bind, wp_modify]
        -- the bytes copied in this round all lie in one cluster
        have hcopied1 : ∀ i < done + min (4096 - within) (length - done),
            s.output.memCopy done workspace within (min (4096 - within) (length - done)) i
              = s.device.image.logical path (offset + i) := by
          intro i hi
          by_cases hold : i < done
          · rw [Buffer.memCopy_of_not_mem (by omega)]
            exact hcopied i hold
          have hidx : (offset + i) / 4096 = (offset + done) / 4096 := by omega
          rw [Buffer.memCopy_of_mem (by omega) hi, logical_eq hidx hk, hget,
            hworkspace _ (by omega)]
          congr 1
          omega
        have hs1 := hserved1.le_sectors hs
        rw [wp_ite]
        constructor
        · intro _
          rw [wp_bind]
          refine wp_zoom.mpr
            (wp_mono (jihooFatRead_wp (hsound.lt_fatEntries hmem)
            (by change 81 ≤ d1.sectors; omega)) ?_ ?_)
          · rintro next d2 ⟨rfl, hbytes2, hserved2⟩
            have himage2 := (Device.image_eq_of_bytes hbytes2).trans himage1
            have hlater2 := hserved1.later.trans hserved2.later
            have hs2 := hserved2.le_sectors hs1
            refine wp_mono (ih hs2 ?_ (by omega) ?_ (by omega) ?_) ?_ ?_
            · rw [himage2]
              exact hsound
            · intro hagain
              refine ⟨?_, by omega⟩
              have hnext : (offset + (done + min (4096 - within) (length - done))) / 4096
                  = (offset + done) / 4096 + 1 := by
                omega
              rw [himage2, himage1, hnext, Function.iterate_succ_apply', ← hcluster]
            · rw [himage2]
              exact hcopied1
            · rintro count s' ⟨hcount, houtput, hbytes, hlater⟩
              refine ⟨hcount, ?_, hbytes.trans (hbytes2.trans hbytes1), hlater2.trans hlater⟩
              rw [himage2] at houtput
              exact houtput
            · rintro code s' ⟨hcode, hbytes, hfaulted⟩
              exact ⟨hcode, hbytes.trans (hbytes2.trans hbytes1), hlater2.faulted hfaulted⟩
          · rintro code d2 hfailed
            exact ⟨hfailed.1, hfailed.2.1.trans hbytes1, hserved1.later.faulted hfailed.faulted⟩
        · intro hlast
          rw [not_or] at hlast
          refine wp_mono (ih hs1 ?_ (by omega) (fun hagain => absurd hagain hlast.2) (by omega) ?_)
            ?_ ?_
          · rw [himage1]
            exact hsound
          · rw [himage1]
            exact hcopied1
          · rintro count s' ⟨hcount, houtput, hbytes, hlater⟩
            refine ⟨hcount, ?_, hbytes.trans hbytes1, hserved1.later.trans hlater⟩
            rw [himage1] at houtput
            exact houtput
          · rintro code s' ⟨hcode, hbytes, hfaulted⟩
            exact ⟨hcode, hbytes.trans hbytes1, hserved1.later.faulted hfaulted⟩
      · rintro code d1 hfailed
        exact ⟨hfailed.1, hfailed.2.1, hfailed.faulted⟩
    · intro hfull
      have heq : done = length := by omega
      rw [heq] at hcopied ⊢
      exact ⟨rfl, hcopied, rfl, Later.refl _⟩

/-- **Reading from a file.** The count is what is left of the file at the offset, if that is less
than what was asked for. -/
theorem jihooFileRead_wp {size : Nat} (hs : 81 + 8 * clusters ≤ s.device.sectors)
    (hsound : Sound s.device.image.fat clusters first path) (hlong : size ≤ 4096 * path.length) :
    wp (jihooFileRead ⟨first, size⟩ offset length whole)
        (fun count s' => count = min length (size - offset)
        ∧ (∀ i < count, s'.output i = s.device.image.logical path (offset + i))
        ∧ s'.device.bytes = s.device.bytes ∧ Later s.device s'.device)
      (fun code s' => ReadFailed s.device code s'.device) s := by
  rw [jihooFileRead, wp_ite]
  constructor
  · intro hnothing
    change offset ≥ size ∨ length = 0 at hnothing
    refine ⟨by omega, fun i hi => absurd hi (Nat.not_lt_zero i), rfl, Later.refl _⟩
  intro hsome
  change ¬ (offset ≥ size ∨ length = 0) at hsome
  dsimp only
  rw [wp_bind]
  refine wp_zoom.mpr (wp_mono (jihooFatWalk_wp (by omega) hsound (by omega)) ?_ ?_)
  · rintro ⟨previous, cluster⟩ d1 ⟨_, hcluster, hbytes1, hlater1⟩
    have himage1 := Device.image_eq_of_bytes hbytes1
    have hs1 := hlater1.le_sectors hs
    have hsound1 : Sound d1.image.fat clusters first path := by
      rw [himage1]
      exact hsound
    have hcluster1 : cluster = d1.image.fat^[offset / 4096] first := by
      rw [himage1]
      exact hcluster
    refine wp_mono (readLoop_wp hs1 hsound1 (by omega) (Nat.zero_le _)
      (fun _ => ⟨hcluster1, rfl⟩) (by omega) fun i hi => absurd hi (Nat.not_lt_zero i)) ?_ ?_
    · rintro count s' ⟨hcount, houtput, hbytes, hlater⟩
      refine ⟨hcount, ?_, hbytes.trans hbytes1, hlater1.trans hlater⟩
      rw [himage1] at houtput
      rw [hcount]
      exact houtput
    · rintro code s' ⟨hcode, hbytes, hfaulted⟩
      exact ⟨hcode, hbytes.trans hbytes1, hlater1.faulted hfaulted⟩
  · rintro code d1 ⟨hcode, hbytes, hfaulted⟩
    exact ⟨hcode, hbytes, hfaulted⟩

end Kaguya.FileSystem
