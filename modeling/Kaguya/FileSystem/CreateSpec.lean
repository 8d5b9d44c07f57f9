import Kaguya.FileSystem.WriteSpec

/-!
# Storing a new file

The loop of `create` stores its input in fresh clusters. It does what a write to an empty file does,
one whole cluster a round, so it is the same `Job` with nothing before it and its rounds are
accounted for by the same lemmas.
-/

namespace Kaguya.FileSystem

open Prog Device Job

def createJob (image : Image) (clusters : Nat) (input : List UInt8) : Job :=
  ⟨image, clusters, 0, 0, 0, input.length, Buffer.ofList input, []⟩

theorem createJob_valid (image : Image) (clusters : Nat) (input : List UInt8) :
    (createJob image clusters input).Valid := ⟨Sound.nil, Nat.zero_le _, Nat.zero_le _⟩

variable {image : Image} {clusters first previous : Nat} {input : List UInt8} {path : List Nat}
  {d : Device}

/-- The clusters in `path` are stored; the last of them is `previous`. -/
structure Storing (image : Image) (clusters : Nat) (input : List UInt8) (path : List Nat)
    (d : Device) (offset first previous : Nat) : Prop where
  progress : (createJob image clusters input).Progress path ⟨d, first, offset⟩
  offset : offset = min input.length (4096 * path.length)
  previous : previous = if path.length = 0 then 0 else d.image.fat^[path.length - 1] first

theorem Storing.start (himage : d.image = image) : Storing image clusters input [] d 0 0 0 := by
  refine ⟨Progress.start (createJob_valid image clusters input) himage, ?_, rfl⟩
  simp

theorem Storing.atCluster {offset : Nat}
    (h : Storing image clusters input path d offset first previous)
    (hmore : offset < input.length) :
    (createJob image clusters input).AtCluster path ⟨d, first, offset⟩ path.length previous
      (d.image.fat^[path.length] first) := by
  have hoffset := h.offset
  refine ⟨h.progress, le_rfl, ?_, rfl, h.previous, ?_, ?_, .inr ?_⟩
  · change _ < input.length
    omega
  · change _ ≤ offset
    omega
  · change offset < _
    omega
  · change offset = _
    omega

def StoreFailed (image : Image) (clusters : Nat) (input : List UInt8) (d : Device) (code : Int)
    (d' : Device) : Prop :=
  (∃ path first reached, (createJob image clusters input).Progress path ⟨d', first, reached⟩) ∧
    ((code = -5 ∧ Later d d') ∨ (code = -3 ∧ d.Faulted d'))

def Overfull (clusters room : Nat) (input : List UInt8) (code : Int) (d' : Device) : Prop :=
  code = -5 → d'.image.free clusters = ∅ ∧ 4096 * room < input.length

theorem Overfull.of_fault {room : Nat} {code : Int} (hcode : code = -3) (input : List UInt8)
    (d : Device) : Overfull clusters room input code d := by
  intro hfull
  omega

theorem link_wp {offset c : Nat} (h : Storing image clusters input path d offset first previous)
    (hmore : offset < input.length) (hs : 81 ≤ d.sectors) (hc : 2 ≤ c)
    (hlast : c ≤ lastCluster clusters) (hfree : d.image.fat c = 0) {d1 : Device}
    (himage1 : d1.image = d.image.setFat c 0xffff) (hlater1 : Later d d1) :
    wp (when (previous ≠ 0) (jihooFatWrite previous c))
      (fun _ d' => (createJob image clusters input).Progress (path ++ [c])
          ⟨d', if first = 0 then c else first, offset⟩
        ∧ (d'.image.free clusters).card + (path.length + 1) = (d.image.free clusters).card
          + path.length ∧ Later d d')
      (fun code d' => StoreFailed image clusters input d code d' ∧ code = -3) d1 := by
  have hat := h.atCluster hmore
  have hlink := linkCluster_wp (u := ⟨d1, first, offset⟩) (createJob_valid image clusters input) hat
    hs rfl hc hlast hfree himage1 rfl rfl hlater1
  have hlength : (path ++ [c]).length = path.length + 1 := by simp
  rw [linkCluster, wp_ite] at hlink
  rw [wp_when]
  constructor
  · intro hprevious
    have hne : path ≠ [] := by
      intro hnil
      apply hprevious
      rw [h.previous, hnil]
      rfl
    have hfirst : first ≠ 0 := by
      have hlive := h.progress.sound.walk.live_iterate (List.length_pos_iff.mpr hne)
      change dataCluster first at hlive
      have := hlive.1
      omega
    refine wp_mono (wp_zoom.mp (hlink.2 hprevious)) ?_ ?_
    · rintro _ d' ⟨hprogress, hroom, _, hlater⟩
      rw [room, room, hlength] at hroom
      rw [if_neg hfirst]
      exact ⟨hprogress, hroom, hlater⟩
    · rintro code d' ⟨hcode, hprogress, _, hfaulted⟩
      exact ⟨⟨⟨path, first, offset, hprogress⟩, .inr ⟨hcode, hfaulted⟩⟩, hcode⟩
  · intro hprevious
    have hzero := hat.previous_eq_zero_iff.mp (not_not.mp hprevious)
    have hfirst : first = 0 := h.progress.sound.empty (List.length_eq_zero_iff.mp hzero)
    obtain ⟨hprogress, hroom, _, hlater⟩ := wp_modify.mp (hlink.1 (not_not.mp hprevious))
    rw [room, room, hlength] at hroom
    rw [if_pos hfirst]
    exact ⟨hprogress, hroom, hlater⟩

theorem storedCluster_eq {k : Nat} (hmore : 4096 * k < input.length) :
    writeContents 0 0 input.length (4096 * k) (Buffer.ofList input) Buffer.zeroed
      = Buffer.zeroed.memCopy 0 (Buffer.ofList input) (4096 * k)
        (min (input.length - 4096 * k) 4096) := by
  have hlo : max 0 (4096 * k) = 4096 * k := Nat.zero_max _
  have hhi : min 0 (4096 * k + 4096) = 0 := Nat.zero_min _
  simp only [writeContents, hlo, hhi]
  rw [if_neg (Nat.not_lt_zero _), if_pos (by omega)]
  congr 1
  · omega
  · omega

theorem createLoop_wp {n offset : Nat}
    (h : Storing image clusters input path d offset first previous)
    (hs : 81 + 8 * clusters ≤ d.sectors) (hn : input.length < 4096 * (path.length + n)) :
    wp (Volume.createLoop clusters input n offset first previous)
      (fun first' d' => (∃ path', (createJob image clusters input).Progress path'
          ⟨d', first', input.length⟩) ∧ Later d d') (fun code d' => StoreFailed image clusters input
            d code d'
        ∧ Overfull clusters ((d.image.free clusters).card + path.length) input code d') d := by
  induction n generalizing path d offset first previous with
  | zero =>
    have hoffset := h.offset
    have hdone : offset = input.length := by omega
    exact ⟨⟨path, hdone ▸ h.progress⟩, Later.refl d⟩
  | succ n ih =>
    rw [Volume.createLoop, wp_ite]
    constructor
    · intro hmore
      have hat := h.atCluster hmore
      have hoffset : offset = 4096 * path.length := by
        have := h.offset
        omega
      refine wp_seq (jihooFatAlloc_wp (by omega)) ?_ ?_
      · rintro c d1 ⟨hc, hlast, hfree, himage1, hlater1⟩
        refine wp_seq (link_wp h hmore (by omega) hc hlast hfree himage1 hlater1) ?_
          fun code d' hfailed => ⟨hfailed.1, .of_fault hfailed.2 input d'⟩
        rintro _ d2 ⟨hprogress2, hroom2, hlater2⟩
        have hs2 := hlater2.le_sectors hs
        have hlength : (path ++ [c]).length = path.length + 1 := by simp
        have hready : (createJob image clusters input).Ready (path ++ [c])
            ⟨d2, if first = 0 then c else first, offset⟩ path.length c Buffer.zeroed := by
          refine ⟨hprogress2, by omega, by simp, ?_⟩
          intro x _ hx
          exact absurd hx (Nat.not_lt_zero x)
        refine wp_seq (writeCluster_wp hs2 hc hlast) ?_ ?_
        · rintro _ d3 ⟨hbytes3, hserved3⟩
          have hlater3 := hlater2.trans hserved3.later
          have himage3 : d3.image = d2.image.setCluster c
              ((writeContents 0 0 input.length (4096 * path.length) (Buffer.ofList input)
              Buffer.zeroed).upTo 4096) := by
            rw [storedCluster_eq (by omega), ← hoffset, Device.image, hbytes3,
              image_memCopy_cluster hc, Device.image]
          have hreached : offset + min (input.length - offset) 4096 = min input.length
              (4096 * (path.length + 1)) := by
            omega
          have hprogress3 :=
            hready.stored (createJob_valid image clusters input) hat.more hat.low hat.high hat.early
            (u := ⟨d3, if first = 0 then c else first, offset + min (input.length - offset) 4096⟩)
            himage3 rfl hreached
          have hstoring : Storing image clusters input (path ++ [c]) d3
              (offset + min (input.length - offset) 4096) (if first = 0 then c else first) c := by
            refine ⟨hprogress3, by rw [hlength]; exact hreached, ?_⟩
            have hget := hprogress3.sound.walk.getElem_eq (k := path.length) (by omega)
            rw [List.getElem_append_right le_rfl] at hget
            simp only [Nat.sub_self, List.getElem_singleton] at hget
            rw [hlength, if_neg (by omega), Nat.add_sub_cancel]
            exact hget
          have hs3 := hlater3.le_sectors hs
          have hroom3 : (d3.image.free clusters).card + (path ++ [c]).length
              = (d.image.free clusters).card + path.length := by
            rw [hlength, ← hroom2, himage3]
            rfl
          refine wp_mono (ih hstoring hs3 (by rw [hlength]; omega)) ?_ ?_
          · rintro first' d' ⟨hpath, hlater⟩
            exact ⟨hpath, hlater3.trans hlater⟩
          rintro code d' ⟨⟨hpath, hcase⟩, hfull⟩
          rw [hroom3] at hfull
          rcases hcase with ⟨hcode, hlater⟩ | ⟨hcode, hfaulted⟩
          · exact ⟨⟨hpath, .inl ⟨hcode, hlater3.trans hlater⟩⟩, hfull⟩
          · exact ⟨⟨hpath, .inr ⟨hcode, hlater3.faulted hfaulted⟩⟩, hfull⟩
        · intro code d3 hfailed
          refine ⟨⟨⟨path ++ [c], if first = 0 then c else first, offset, ?_⟩,
            .inr ⟨hfailed.1, hlater2.faulted hfailed.faulted⟩⟩, .of_fault hfailed.1 input d3⟩
          exact hprogress2.quiet (Device.image_eq_of_bytes hfailed.2.1) rfl rfl
      · rintro code d1 ⟨hbytes, hcase⟩
        have himage1 := Device.image_eq_of_bytes hbytes
        have hprogress1 := h.progress.quiet (u := ⟨d1, first, offset⟩) himage1 rfl rfl
        rcases hcase with ⟨hcode, hlater, hnone⟩ | ⟨hcode, hfaulted⟩
        · refine ⟨⟨⟨path, first, offset, hprogress1⟩, .inl ⟨hcode, hlater⟩⟩, fun _ => ?_⟩
          have hempty := free_eq_empty hnone
          rw [himage1, hempty, Finset.card_empty]
          exact ⟨rfl, by omega⟩
        · exact ⟨⟨⟨path, first, offset, hprogress1⟩, .inr ⟨hcode, hfaulted⟩⟩,
            .of_fault hcode input d1⟩
    · intro hdone
      have hoffset := h.offset
      have heq : offset = input.length := by omega
      exact ⟨⟨path, heq ▸ h.progress⟩, Later.refl d⟩

end Kaguya.FileSystem
