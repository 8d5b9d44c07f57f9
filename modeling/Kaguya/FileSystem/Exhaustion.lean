import Kaguya.FileSystem.Names

/-!
# Writing on a device that fails and on a disk that is full

A write to an open file is safe under every pattern of device failures: what it reports is what can
be read afterwards, and a write that went wrong has damaged at most the range it was to write. When
the clusters run out, a write far behind the end of a file and the creation of a file leave no
cluster free.
-/

namespace Kaguya.FileSystem

open Function Prog Device

namespace Volume

variable {v : Volume} {id : FileId} {requested : Option Nat} {name input : List UInt8}

structure OnlyContents (v : Volume) (slot : Nat) (v' : Volume) : Prop where
  clusters : v'.clusters = v.clusters
  others : ∀ t, t ≠ slot → v'.image.table t = v.image.table t
  name : ∃ contents, v'.image.table slot = some (storedName (v.image.entry slot), contents)
  chains : ChainsSound v'.image v'.clusters

variable {slot : Nat} {paths : Nat → List Nat}

variable {image : Image} {contents : List UInt8} {v' : Volume}

theorem contents_of_table (h : image.table slot = some (name, contents)) :
    image.contents slot = contents :=
  (Image.table_eq_some_iff.mp h).2

theorem Holds.onlyContents (h : v.Holds paths slot contents v')
    (hclusters : v'.clusters = v.clusters) :
    v'.image.contents slot = contents ∧ v.OnlyContents slot v' := by
  obtain ⟨⟨path, hlayout⟩, htable⟩ := h
  have hself : v'.image.table slot = some (storedName (v.image.entry slot), contents) := by
    rw [htable, update_self]
  refine ⟨contents_of_table hself, hclusters, ?_, ⟨contents, hself⟩, hlayout.chainsSound⟩
  intro t ht
  rw [htable, update_of_ne ht]

theorem onlyContents_of_image (hlayout : Layout v.image v.clusters paths)
    (hinUse : v.image.InUse slot) (hclusters : v'.clusters = v.clusters)
    (himage : v'.image = v.image) : v.OnlyContents slot v' := by
  refine ⟨hclusters, fun t _ => by rw [himage], ⟨v.image.contents slot, ?_⟩, ?_⟩
  · rw [himage]
    exact if_pos hinUse
  · rw [himage, hclusters]
    exact hlayout.chainsSound

/-- **Writing under faults.** Whatever requests the device fails, a write that returns has written
what it reports, and one that does not return has changed nothing outside the range it was given. -/
theorem writeAt_under_faults (hfits : v.Fits) (hchains : ChainInvariant v.image v.clusters)
    (hgood : v.Good id) (requested : Option Nat) (input : List UInt8) :
    (∀ offset count v', writeAt id requested input v = (.ok (offset, count), v') →
      offset = requested.getD (v.image.size id.slot) ∧ count ≤ input.length
      ∧ v'.image.contents id.slot = (if count = 0 then v.image.contents id.slot
          else overlay (v.image.contents id.slot) offset (input.take count))
      ∧ v.OnlyContents id.slot v')
    ∧ (∀ code v', writeAt id requested input v = (.error code, v') →
      v'.image.size id.slot = v.image.size id.slot
      ∧ Damaged (v.image.contents id.slot) (requested.getD (v.image.size id.slot)) input.length
          (v'.image.contents id.slot)
      ∧ v.OnlyContents id.slot v') := by
  obtain ⟨paths, hlayout⟩ := hchains
  have hwrite : wp (writeAt id requested input) _ _ v := writeAt_wp hfits hlayout
  have hinUse := hgood.2.2
  constructor
  · intro offset count v' hrun
    obtain ⟨_, hsame, _, hoffset, hcase⟩ := wp_ok hwrite hrun
    refine ⟨hoffset, ?_⟩
    rcases hcase with ⟨_, hcount, himage⟩ | ⟨hpos, hle, _, hholds⟩
    · have hcount : count = 0 := hcount
      rw [if_pos hcount, himage]
      exact ⟨by omega, rfl, onlyContents_of_image hlayout hinUse hsame.clusters himage⟩
    · rw [if_neg (by omega)]
      exact ⟨hle, hholds.onlyContents hsame.clusters⟩
  · intro code v' hrun
    obtain ⟨hsame, _, hcase⟩ := wp_error hwrite hrun
    rcases hcase with ⟨himage, _⟩ | ⟨_, _, contents, hdamaged, _, hholds⟩
    · rw [himage]
      exact ⟨rfl, ⟨rfl, fun _ _ => rfl⟩, onlyContents_of_image hlayout hinUse hsame.clusters himage⟩
    obtain ⟨hcontents, honly⟩ := hholds.onlyContents hsame.clusters
    have hsize : v'.image.size id.slot = v.image.size id.slot := by
      rw [← length_contents, ← length_contents, hcontents]
      exact hdamaged.1
    rw [hcontents]
    exact ⟨hsize, hdamaged, honly⟩

theorem writeAt_under_faults_oneFile : (oneFile fun n => n == 3).OnlyContents 0
    (writeAt ⟨0, 0⟩ (some 5000) [7] (oneFile fun n => n == 3)).2 := by
  have hgood : (oneFile fun n => n == 3).Good ⟨0, 0⟩ :=
    ⟨by decide, rfl, inUse_of_lookup (oneFile_lookup _)⟩
  have hfaults := writeAt_under_faults (oneFile_fits _) ⟨_, oneFile_layout _⟩ hgood (some 5000) [7]
  rcases hrun : writeAt ⟨0, 0⟩ (some 5000) [7] (oneFile fun n => n == 3) with ⟨code | reply, v'⟩
  · exact (hfaults.2 code v' hrun).2.2
  · exact (hfaults.1 reply.1 reply.2 v' hrun).2.2.2

theorem size_le_of_layout {clusters : Nat} (h : Layout image clusters paths)
    (hslot : image.InUse slot) : image.size slot ≤ 4096 * (lastCluster clusters - 1) := by
  have hsound := h.sound slot hslot
  have hsub : (paths slot).toFinset ⊆ Finset.Icc 2 (lastCluster clusters) := by
    intro c hc
    rw [List.mem_toFinset] at hc
    exact Finset.mem_Icc.mpr ⟨hsound.two_le hc, hsound.within c hc⟩
  have hcard := Finset.card_le_card hsub
  rw [List.toFinset_card_of_nodup hsound.walk.nodup, Nat.card_Icc] at hcard
  have hlong := h.long slot hslot
  omega

theorem working_run {v0 : Volume} (hdevice : v.device.NonFailing) (hfits : v.Fits)
    (hformat : format v = (.ok (), v0)) (ops : List Op) : Working v.clusters (v0.run ops) :=
  run_invariant (working_of_format hdevice hfits hformat) fun _ hu op _ => hu.after op

/-- A write of so many bytes at this offset is refused or has nothing to do, or it finds no cluster
to use up, or it reaches its offset before the clusters run out. -/
def Reaches (v : Volume) (id : FileId) (offset count : Nat) : Prop :=
  ¬ v.Good id ∨ count = 0 ∨ 0xffffffff < offset + count ∨ v.image.free v.clusters = ∅
    ∨ offset < 4096 * ((v.image.free v.clusters).card + (v.image.chain id.slot).length)

variable {clusters : Nat}

theorem Working.keeps_free_iff (h : Working clusters v) :
    (∀ code v', writeAt id requested input v = (.error code, v') →
        v'.image.free v.clusters = v.image.free v.clusters)
      ↔ v.Reaches id (requested.getD (v.image.size id.slot)) input.length := by
  obtain ⟨paths, hlayout⟩ := h.chains
  have hwrite : wp (writeAt id requested input) _ _ v := writeAt_wp h.fits hlayout
  constructor
  · intro hkeeps
    by_contra hnot
    simp only [Reaches, not_or, not_not, not_lt] at hnot
    obtain ⟨hgood, hcount, hrange, hsome, hroom⟩ := hnot
    rw [hlayout.chain_eq hgood.2.2] at hroom
    rcases hrun : writeAt id requested input v with ⟨code | reply, v'⟩
    · obtain ⟨_, _, ⟨_, hrefused⟩ | ⟨_, _, _, _, hspent, _⟩⟩ := wp_error hwrite hrun
      · exact hrefused h.nonFailing ⟨hgood, hrange⟩
      · obtain ⟨_, _, _, hempty, _⟩ := hspent h.nonFailing
        exact hsome ((hkeeps code v' hrun).symm.trans hempty)
    · obtain ⟨_, _, _, hoffset, ⟨hnil, _⟩ | ⟨hpos, _, hlong, _⟩⟩ := wp_ok hwrite hrun
      · exact hcount (List.length_eq_zero_iff.mpr hnil)
      · rw [hoffset] at hlong
        omega
  · intro hreaches code v' hfailed
    obtain ⟨_, _, ⟨himage, _⟩ | ⟨hgood, hne, _, _, hspent, _⟩⟩ := wp_error hwrite hfailed
    · rw [himage]
    obtain ⟨_, _, hrange, hempty, hroom⟩ := hspent h.nonFailing
    rcases hreaches with hstale | hnothing | hbeyond | hfull | hlt
    · exact absurd hgood hstale
    · exact absurd (List.length_eq_zero_iff.mp hnothing) hne
    · omega
    · rw [hempty, hfull]
    · rw [hlayout.chain_eq hgood.2.2] at hlt
      omega

/-- **When a write that fails uses up no clusters**: just when it could have reached its offset, or
had no clusters to use up. -/
theorem failed_write_keeps_free {v0 : Volume} (hdevice : v.device.NonFailing) (hfits : v.Fits)
    (hformat : format v = (.ok (), v0)) (ops : List Op) :
    (∀ code v', writeAt id requested input (v0.run ops) = (.error code, v') →
        v'.image.free v.clusters = (v0.run ops).image.free v.clusters)
      ↔ (v0.run ops).Reaches id (requested.getD ((v0.run ops).image.size id.slot))
        input.length := by
  have hworking := working_run hdevice hfits hformat ops
  rw [← hworking.clusters]
  exact hworking.keeps_free_iff

theorem Working.write_far (h : Working 2 v) (hgood : v.Good id) :
    ∃ v', writeAt id (some 8192) [1] v = (.error (-5), v') ∧ v'.Good id ∧ v'.image.free 2 = ∅
      ∧ v'.image.size id.slot = v.image.size id.slot := by
  obtain ⟨paths, hlayout⟩ := h.chains
  have hwrite : wp (writeAt id (some 8192) [1]) _ _ v := writeAt_wp h.fits hlayout
  have hinUse : ∀ {contents : List UInt8} {v' : Volume}, v.Holds paths id.slot contents v' →
      v'.image.InUse id.slot := fun hholds => inUse_of_table (by rw [hholds.2, update_self])
  rcases hrun : writeAt id (some 8192) [1] v with ⟨code | reply, v'⟩
  · obtain ⟨hsame, hgenerations, ⟨_, haccepts⟩ | ⟨_, _, contents, hdamaged, hspent, hholds⟩⟩ :=
      wp_error hwrite hrun
    · exact absurd ⟨hgood, by simp⟩ (haccepts h.nonFailing)
    obtain ⟨rfl, _, _, hempty, _⟩ := hspent h.nonFailing
    rw [h.clusters] at hempty
    refine ⟨v', rfl, ⟨hgood.1, by rw [hgenerations]; exact hgood.2.1, hinUse hholds⟩, hempty, ?_⟩
    rw [← length_contents, ← length_contents, (hholds.onlyContents hsame.clusters).1]
    exact hdamaged.1
  exfalso
  obtain ⟨_, hsame, _, hoffset, ⟨hnil, _⟩ | ⟨hpos, _, _, hholds⟩⟩ := wp_ok hwrite hrun
  · cases hnil
  obtain ⟨path, hlayout'⟩ := hholds.1
  have hsize := size_le_of_layout hlayout' (hinUse hholds)
  have hlast : lastCluster 2 = 3 := rfl
  rw [hsame.clusters, h.clusters, hlast, ← length_contents, (hholds.onlyContents hsame.clusters).1,
    length_overlay, hoffset, List.length_take] at hsize
  simp only [Option.getD_some, List.length_singleton] at hsize
  omega

/-- A write far behind the end of a file has used up the clusters, and a second one fails as well:
now it has nothing to use up. -/
theorem failed_write_keeps_free_twice : ∃ v0 id v', format blank = (.ok (), v0) ∧
    let v := v0.run [.openFile [97] true false, .writeAt id (some 8192) [1]]
    v.Good id ∧ writeAt id (some 8192) [1] v = (.error (-5), v')
      ∧ v'.image.free 2 = v.image.free 2 := by
  obtain ⟨v0, v1, id, hformat, hopen, hcoherent, hclusters, hgood, _⟩ := openFile_blank
  obtain ⟨v2, hfirst, hgood2, hempty, _⟩ := (hclusters ▸ hcoherent.working).write_far hgood
  have hafter : v1.after (.writeAt id (some 8192) [1]) = v2 :=
    after_of_wp (P := (· = v2)) (exec_wp_of_wp (by rw [wp, hfirst]))
  have hrun : v0.run [.openFile [97] true false, .writeAt id (some 8192) [1]] = v2 := by
    rw [run_cons, after, hopen, run_cons, hafter, run_nil]
  have hworking := working_run (fun _ => rfl) blank_fits hformat
    [.openFile [97] true false, .writeAt id (some 8192) [1]]
  have hkeeps := @failed_write_keeps_free blank id (some 8192) [1] v0 (fun _ => rfl) blank_fits
    hformat [.openFile [97] true false, .writeAt id (some 8192) [1]]
  rw [hrun] at hworking hkeeps
  have htwo : Working 2 v2 := hworking
  obtain ⟨v3, hsecond, _⟩ := htwo.write_far hgood2
  refine ⟨v0, id, v3, hformat, ?_⟩
  rw [hrun]
  refine ⟨hgood2, hsecond, hkeeps.mpr (.inr (.inr (.inr (.inl ?_)))) (-5) v3 hsecond⟩
  rw [htwo.clusters]
  exact hempty

theorem free_eq_pair (hfat : ∀ c, 2 ≤ c → image.fat c = 0) : image.free 2 = {2, 3} := by
  rw [Image.free, Finset.filter_true_of_mem]
  · rfl
  · intro c hc
    exact hfat c (Finset.mem_Icc.mp hc).1

/-- On a disk of two clusters a write at position 8192 of an empty file reports that the disk is
full. Both clusters are gone, and the file is still empty. -/
theorem failed_write_takes_clusters : ∃ v0 v1 v2 id, format blank = (.ok (), v0)
    ∧ exec (.openFile [97] true false) v0 = (.ok (.handle id), v1)
    ∧ writeAt id (some 8192) [1] v1 = (.error (-5), v2) ∧ v1.Good id
    ∧ v2.image.size id.slot = v1.image.size id.slot
    ∧ v1.image.free 2 = {2, 3} ∧ v2.image.free 2 = ∅ := by
  obtain ⟨v0, v1, id, hformat, hopen, hcoherent, hclusters, hgood, _, _, hfat⟩ := openFile_blank
  obtain ⟨v2, hrun, _, hempty, hsize⟩ := (hclusters ▸ hcoherent.working).write_far hgood
  exact ⟨v0, v1, v2, id, hformat, hopen, hrun, hgood, hsize, free_eq_pair hfat, hempty⟩

end Volume

end Kaguya.FileSystem
