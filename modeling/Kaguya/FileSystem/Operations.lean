import Kaguya.FileSystem.Entries
import Kaguya.FileSystem.ReadSpec

/-!
# What the operations do to a volume with sound chains

Each operation that changes the disk, on a volume that has a layout and a device that may fail at
any request: which layout it leaves, and which slot of the table of files it changes. Only the two
that free a chain before they clear its entry can leave no layout, and the specification says at
which request.
-/

namespace Kaguya.FileSystem

open Function Prog Device List

namespace Volume

variable {v : Volume} {paths : Nat → List Nat}

structure Same (v v' : Volume) : Prop where
  clusters : v'.clusters = v.clusters
  later : Later v.device v'.device

variable {v' v1 : Volume} {slot : Nat} {input name : List UInt8} {path : List Nat} {image : Image}

theorem Quiet.same (h : v.Quiet v') : v.Same v' := ⟨h.clusters, h.later⟩

theorem Quiet.layout (h : v.Quiet v') (hlayout : Layout v.image v.clusters paths) :
    Layout v'.image v'.clusters paths := by
  rw [h.image, h.clusters]
  exact hlayout

theorem Same.trans {v'' : Volume} (h : v.Same v') (h' : v'.Same v'') : v.Same v'' :=
  ⟨h'.clusters.trans h.clusters, h.later.trans h'.later⟩

theorem Same.fits (h : v.Same v') (hv : v.Fits) : v'.Fits := by
  rw [Fits, h.clusters, h.later.sectors]
  exact hv

/-- The file in `slot` now has these contents, and no other file has changed. -/
def Holds (v : Volume) (paths : Nat → List Nat) (slot : Nat) (contents : List UInt8) (v' : Volume) :
    Prop :=
  (∃ path, Layout v'.image v'.clusters (update paths slot path))
    ∧ v'.image.table = update v.image.table slot
        (some (storedName (v.image.entry slot), contents))

def Damaged (old : List UInt8) (offset count : Nat) (contents : List UInt8) : Prop :=
  contents.length = old.length
    ∧ ∀ x, ¬ (offset ≤ x ∧ x < offset + count) → contents.getD x 0 = old.getD x 0

section Contents
variable {d : Device} {clusters first size offset : Nat} {input : List UInt8} {old path : List Nat}
  {w : WriteState}

variable (h : (writeJob d clusters first size offset input old).Progress path w)
include h

theorem map_logical_eq_overlay (hreached : offset < w.reached) :
    (range (max size w.reached)).map (w.device.image.logical path)
          = overlay ((range size).map (d.image.logical old)) offset
          (input.take (w.reached - offset)) := by
  have hbound : w.reached ≤ offset + input.length := h.bound
  have hcount : (input.take (w.reached - offset)).length = w.reached - offset := by
    rw [length_take]
    omega
  apply map_range_eq_overlay
  · rw [length_map, length_range, hcount]
    omega
  intro x hx
  have hdata := h.data x (by change x < size ∨ _; omega)
  rw [hdata, Job.expected, hcount]
  by_cases hin : offset ≤ x ∧ x < offset + (w.reached - offset)
  · rw [if_pos hin, if_pos (by omega), Job.target]
    change (if offset ≤ x then Buffer.ofList input (x - offset) else _) = _
    rw [if_pos hin.1, Buffer.ofList, getD_eq_getElem _ _ (by omega), getD_eq_getElem _ _ (by omega),
      getElem_take]
  rw [if_neg hin]
  by_cases hold : x < size
  · rw [getD_eq_getElem _ _ (by simpa using hold), getElem_map, getElem_range]
    exact (writeJob d clusters first size offset input old).expected_eq_old hold fun _ => by
      change x < offset; omega
  rw [if_pos (by omega), Job.target]
  change (if offset ≤ x then _ else if size ≤ x then 0 else _) = _
  rw [if_neg (by omega), if_pos (by omega), getD_eq_default]
  simpa using hold

theorem damaged_map_logical : Damaged ((range size).map (d.image.logical old)) offset input.length
      ((range size).map (w.device.image.logical path)) := by
  have hbound : w.reached ≤ offset + input.length := h.bound
  refine ⟨by simp, ?_⟩
  intro x hx
  by_cases hsize : x < size
  · rw [getD_eq_getElem _ _ (by simpa using hsize), getD_eq_getElem _ _ (by simpa using hsize),
      getElem_map, getElem_map, getElem_range, h.data x (.inl hsize)]
    exact (writeJob d clusters first size offset input old).expected_eq_old hsize fun _ => by
      change x < offset; omega
  · rw [getD_eq_default _ _ (by simpa using hsize), getD_eq_default _ _ (by simpa using hsize)]

theorem map_logical_eq_old (hreached : w.reached ≤ offset) :
    (range size).map (w.device.image.logical path) = (range size).map (d.image.logical old) := by
  refine map_congr_left fun x hx => ?_
  have hsize : x < size := mem_range.mp hx
  rw [h.data x (.inl hsize)]
  exact (writeJob d clusters first size offset input old).expected_eq_old hsize fun hlt => by
    change x < offset; omega

end Contents

theorem Holds.of_quiet {contents : List UInt8} (h : v.Quiet v1)
    (h' : v1.Holds paths slot contents v') : v.Holds paths slot contents v' := by
  rw [Holds, h.image] at h'
  exact h'

section Written
variable {d : Device} {clusters slot offset : Nat} {input : List UInt8} {path : List Nat}
  {w : WriteState} {outcome : WriteOutcome}

abbrev slotJob (d : Device) (clusters slot offset : Nat) (input : List UInt8)
    (paths : Nat → List Nat) : Job :=
  writeJob d clusters (d.image.first slot) (d.image.size slot) offset input (paths slot)

section
variable (hlayout : Layout d.image clusters paths)
include hlayout

variable (hinUse : d.image.InUse slot)
include hinUse

theorem slotJob_valid : (slotJob d clusters slot offset input paths).Valid :=
  ⟨hlayout.sound slot hinUse, hlayout.long slot hinUse, Nat.le_add_right _ _⟩

theorem slotJob_disjoint : ∀ t, t ≠ slot → d.image.InUse t → (paths slot).Disjoint (paths t) :=
  fun t ht hin => hlayout.disjoint slot t hinUse hin (Ne.symm ht)

theorem size_le_of_wrote
    (hwrote : Wrote (slotJob d clusters slot offset input paths) outcome path w) :
    outcome.file.size ≤ 4096 * path.length
      ∧ (offset + input.length ≤ 0xffffffff → outcome.file.size ≤ 0xffffffff) := by
  have hlong : d.image.size slot ≤ 4096 * path.length :=
    hwrote.progress.size_le (slotJob_valid hlayout hinUse)
  have hreached := hwrote.progress.long
  have hbound : w.reached ≤ offset + input.length := hwrote.progress.bound
  have hnarrow : d.image.size slot < 2 ^ (4 * 8) := Buffer.get_lt _ _ _
  have hsize : outcome.file.size = if w.reached > offset then max (d.image.size slot) w.reached
    else d.image.size slot := hwrote.size
  rw [hsize]
  constructor <;> split <;> omega

theorem wrote_entry (hrange : offset + input.length ≤ 0xffffffff)
    (hwrote : Wrote (slotJob d clusters slot offset input paths) outcome path w)
    (himage : image = w.device.image.setEntry slot
      ((((d.image.entry slot).put 22 outcome.file.first 2).put 24 outcome.file.size 4).upTo 32)) :
    Layout image clusters (update paths slot path)
      ∧ image.table = update d.image.table slot (some (storedName (d.image.entry slot),
          (range outcome.file.size).map (w.device.image.logical path))) := by
  obtain ⟨hlong, hnarrow⟩ := size_le_of_wrote hlayout hinUse hwrote
  have hold := slotJob_disjoint hlayout hinUse
  have hfirst := hwrote.progress.first_lt
  rw [← hwrote.first] at hfirst
  have hsize : ((((d.image.entry slot).put 22 outcome.file.first 2).put 24
      outcome.file.size 4).upTo 32).get 24 4 = outcome.file.size := get_size_put (hnarrow hrange)
  have hfirstEq : ((((d.image.entry slot).put 22 outcome.file.first 2).put 24
      outcome.file.size 4).upTo 32).get 22 2 = w.first := (get_first_put hfirst).trans hwrote.first
  have hmark : (((d.image.entry slot).put 22 outcome.file.first 2).put 24 outcome.file.size 4).upTo
      32 28 = 1 := by
    rw [Buffer.upTo_of_lt (by omega), put_mark]
    exact hinUse
  rw [himage]
  constructor
  · exact hwrote.progress.layout_setEntry hlayout hold hfirstEq (by rw [hsize]; exact hlong)
  · rw [hwrote.progress.table_setEntry hlayout hold hfirstEq (by rw [hsize]; exact hlong) hmark,
      storedName_put, hsize]
    rfl

/-- The entry could not be written: the slot still has the file it had, on a chain that may have
grown behind its end. -/
theorem wrote_no_entry
    (hwrote : Wrote (slotJob d clusters slot offset input paths) outcome path w) :
    ∃ contents, Damaged (d.image.contents slot) offset input.length contents
      ∧ (∃ path', Layout w.device.image clusters (update paths slot path'))
      ∧ w.device.image.table = update d.image.table slot
        (some (storedName (d.image.entry slot), contents)) := by
  by_cases hnil : paths slot = []
  · -- the first cluster of the file never reached the directory
    refine ⟨d.image.contents slot, ⟨rfl, fun _ _ => rfl⟩, ⟨paths slot, ?_⟩, ?_⟩
    · rw [update_eq_self]
      exact hwrote.progress.layout_unlinked hlayout hnil
    rw [hwrote.progress.table_unlinked hlayout hnil]
    have hself : d.image.table slot = some (storedName (d.image.entry slot),
        d.image.contents slot) := if_pos hinUse
    rw [← hself, update_eq_self]
    rfl
  · have hfirst : (d.image.entry slot).get 22 2 = w.first := (hwrote.progress.kept hnil).symm
    have hlong : (d.image.entry slot).get 24 4 ≤ 4096 * path.length :=
      hwrote.progress.size_le (slotJob_valid hlayout hinUse)
    have hold := slotJob_disjoint hlayout hinUse
    have hself := hwrote.progress.setEntry_self slot
    refine ⟨(range (d.image.size slot)).map (w.device.image.logical path), ?_, ⟨path, ?_⟩, ?_⟩
    · rw [hlayout.contents_eq hinUse]
      exact damaged_map_logical hwrote.progress
    · rw [← hself]
      exact hwrote.progress.layout_setEntry hlayout hold hfirst hlong
    · rw [← hself]
      exact hwrote.progress.table_setEntry hlayout hold hfirst hlong hinUse

end

def WriteStopped (d : Device) (input : List UInt8) (offset : Nat) (w : WriteState)
    (outcome : WriteOutcome) : Prop :=
  match outcome.status with
  | .ok _ => w.reached = offset + input.length ∧ Later d w.device
  | .error code => (code = -5 ∧ Later d w.device) ∨ (code = -3 ∧ d.Faulted w.device)

theorem WriteStopped.later (h : WriteStopped d input offset w outcome) : Later d w.device := by
  unfold WriteStopped at h
  split at h
  · exact h.2
  · rcases h with ⟨_, hlater⟩ | ⟨_, hfaulted⟩
    · exact hlater
    · exact hfaulted.1

theorem recordWrite_wp {u : Volume} (hdevice : u.device = w.device) (hs : 81 ≤ d.sectors)
    (hslot : slot < 256) (hlayout : Layout d.image u.clusters paths) (hinUse : d.image.InUse slot)
    (hlength : input.length ≠ 0) (hrange : offset + input.length ≤ 0xffffffff)
    (hwrote : Wrote (slotJob d u.clusters slot offset input paths) outcome path w)
    (hstopped : WriteStopped d input offset w outcome)
    (hspent : ∀ code, outcome.status = .error code →
      (slotJob d u.clusters slot offset input paths).Exhausted
      ((d.image.free u.clusters).card + (paths slot).length) code w) :
    wp (recordWrite slot (d.image.entry slot) offset input outcome)
      (fun reply v' => v'.clusters = u.clusters ∧ v'.generations = u.generations
        ∧ Later d v'.device ∧ reply.1 = offset ∧ 0 < reply.2 ∧ reply.2 ≤ input.length
        ∧ offset + reply.2 ≤ 4096 * ((d.image.free u.clusters).card + (paths slot).length)
        ∧ (∃ path', Layout v'.image u.clusters (update paths slot path'))
        ∧ v'.image.table = update d.image.table slot (some (storedName (d.image.entry slot),
            overlay (d.image.contents slot) offset (input.take reply.2))))
      (fun code v' => v'.clusters = u.clusters ∧ v'.generations = u.generations
        ∧ Later d v'.device ∧ ∃ contents, Damaged (d.image.contents slot) offset input.length
          contents
          ∧ (d.NonFailing → code = -5 ∧ contents = d.image.contents slot ∧ v'.image.free u.clusters
            = ∅
            ∧ 4096 * ((d.image.free u.clusters).card + (paths slot).length) ≤ offset)
          ∧ (∃ path', Layout v'.image u.clusters (update paths slot path'))
          ∧ v'.image.table = update d.image.table slot
              (some (storedName (d.image.entry slot), contents))) u := by
  have hlater := hstopped.later
  have hmetadata : 81 ≤ u.device.sectors := by
    rw [hdevice, hlater.sectors]
    exact hs
  have hkeep : u.retired slot ((((d.image.entry slot).put 22 outcome.file.first 2).put 24
      outcome.file.size 4) 28) = u.generations := by
    rw [retired, put_mark, if_neg]
    rw [show d.image.entry slot 28 = 1 from hinUse]
    decide
  rw [recordWrite]
  refine wp_seq (writeEntry_wp hmetadata hslot) ?_ ?_
  · rintro _ v' ⟨himage, hgenerations, hclusters, hserved⟩
    rw [hkeep] at hgenerations
    rw [show u.image = w.device.image from congrArg Device.image hdevice] at himage
    have hlater' : Later d v'.device := by
      rw [hdevice] at hserved
      exact hlater.trans hserved.later
    obtain ⟨hlayout', htable⟩ := wrote_entry hlayout hinUse hrange hwrote himage
    have hcontents := hlayout.contents_eq hinUse
    have hwritten : outcome.written = w.reached - offset := hwrote.written
    have hbound : w.reached ≤ offset + input.length := hwrote.progress.bound
    have hroom : w.reached ≤ 4096 * ((d.image.free u.clusters).card + (paths slot).length) :=
      hwrote.progress.long.trans (Nat.mul_le_mul_left _ hwrote.progress.length_le)
    have hsize : outcome.file.size = if w.reached > offset then max (d.image.size slot) w.reached
      else d.image.size slot := hwrote.size
    -- some bytes were accepted: the contents are the overlay of just these
    have hsome : offset < w.reached → ∀ count, count = w.reached - offset →
        v'.image.table = update d.image.table slot (some (storedName (d.image.entry slot),
          overlay (d.image.contents slot) offset (input.take count))) := by
      rintro hgt count rfl
      rw [htable, hsize, if_pos hgt, map_logical_eq_overlay hwrote.progress hgt, hcontents]
    cases hstatus : outcome.status with
    | ok =>
      rw [WriteStopped, hstatus] at hstopped
      exact ⟨hclusters, hgenerations, hlater', rfl, by omega, le_rfl, by omega, ⟨path, hlayout'⟩,
        hsome (by omega) _ (by omega)⟩
    | error code =>
      rw [wp_ite]
      constructor
      · intro hpos
        exact ⟨hclusters, hgenerations, hlater', rfl, hpos, by omega, by omega, ⟨path, hlayout'⟩,
          hsome (by omega) _ hwritten⟩
      intro hnone
      have hle : w.reached ≤ offset := by omega
      refine ⟨hclusters, hgenerations, hlater', d.image.contents slot,
        ⟨rfl, fun _ _ => rfl⟩, fun hnonFailing => ?_, ⟨path, hlayout'⟩, ?_⟩
      · rw [WriteStopped, hstatus] at hstopped
        rcases hstopped with ⟨hcode, _⟩ | ⟨_, hfaulted⟩
        · obtain ⟨hempty, hspent⟩ := hspent code hstatus hcode
          rw [himage]
          exact ⟨hcode, rfl, hempty, hspent.trans hle⟩
        · exact absurd hnonFailing hfaulted.2
      · rw [htable, hsize, if_neg (by omega), map_logical_eq_old hwrote.progress hle, hcontents]
  · rintro _ v' ⟨hgenerations, hclusters, hfailed⟩
    rw [hkeep] at hgenerations
    rw [hdevice] at hfailed
    obtain ⟨contents, hdamaged, hlayout', htable⟩ := wrote_no_entry hlayout hinUse hwrote
    have himage : v'.image = w.device.image := Device.image_eq_of_bytes hfailed.2.1
    have hfaulted := hlater.faulted hfailed.faulted
    refine ⟨hclusters, hgenerations, hfaulted.1, contents, hdamaged, ?_, ?_, ?_⟩
    · intro hnonFailing
      exact absurd hnonFailing hfaulted.2
    · rw [himage]
      exact hlayout'
    · rw [himage]
      exact htable

end Written

theorem writeAt_wp {id : FileId} {requested : Option Nat} (hfits : v.Fits)
    (hlayout : Layout v.image v.clusters paths) :
    wp (writeAt id requested input) (fun reply v' => v.Good id ∧ v.Same v'
        ∧ v'.generations = v.generations
        ∧ reply.1 = requested.getD (v.image.size id.slot)
        ∧ ((input = [] ∧ reply.2 = 0 ∧ v'.image = v.image)
          ∨ (0 < reply.2 ∧ reply.2 ≤ input.length
            ∧ reply.1 + reply.2 ≤ 4096 * ((v.image.free v.clusters).card + (paths id.slot).length)
            ∧ v.Holds paths id.slot
              (overlay (v.image.contents id.slot) reply.1 (input.take reply.2)) v')))
      (fun code v' => v.Same v' ∧ v'.generations = v.generations
        ∧ ((v'.image = v.image ∧ (v.device.NonFailing → ¬ (v.Good id
            ∧ requested.getD (v.image.size id.slot) + input.length ≤ 0xffffffff)))
          ∨ (v.Good id ∧ input ≠ [] ∧ ∃ contents, Damaged (v.image.contents id.slot)
              (requested.getD (v.image.size id.slot)) input.length contents
            ∧ (v.device.NonFailing → code = -5 ∧ contents = v.image.contents id.slot
              ∧ requested.getD (v.image.size id.slot) + input.length ≤ 0xffffffff
              ∧ v'.image.free v.clusters = ∅
              ∧ 4096 * ((v.image.free v.clusters).card + (paths id.slot).length)
                ≤ requested.getD (v.image.size id.slot))
            ∧ v.Holds paths id.slot contents v'))) v := by
  rw [writeAt]
  refine wp_seq (opened_wp hfits.metadata) ?_ ?_
  · rintro entry v1 ⟨hgood, rfl, hquiet⟩
    obtain ⟨hslot, hgeneration, hinUse⟩ := hgood
    have himage : v.image = v1.device.image := hquiet.image.symm
    rw [himage, ← hquiet.clusters] at hlayout
    have hinUse1 : v1.device.image.InUse id.slot := himage ▸ hinUse
    rw [himage]
    rw [wp_ite]
    constructor
    · intro hempty
      exact ⟨⟨hslot, hgeneration, hinUse⟩, hquiet.same, hquiet.generations, rfl,
        .inl ⟨length_eq_zero_iff.mp hempty, rfl, rfl⟩⟩
    intro hlength
    rw [wp_ite]
    constructor
    · intro hrange
      refine ⟨hquiet.same, hquiet.generations, .inl ⟨rfl, fun _ hfits => ?_⟩⟩
      change requested.getD (v1.device.image.size id.slot) > 0xffffffff
        ∨ input.length > 0xffffffff - requested.getD (v1.device.image.size id.slot) at hrange
      omega
    intro hrange
    rw [wp_bind, wp_state, wp_bind, wp_onDevice]
    change ¬ (requested.getD (v1.device.image.size id.slot) > 0xffffffff
      ∨ input.length > 0xffffffff - requested.getD (v1.device.image.size id.slot)) at hrange
    change wp (jihooFileWrite v1.clusters ⟨v1.device.image.first id.slot,
      v1.device.image.size id.slot⟩
      (requested.getD (v1.device.image.size id.slot)) input) _ _ v1.device
    have hstop : requested.getD (v1.device.image.size id.slot) + input.length ≤ 0xffffffff := by
      omega
    refine wp_mono (jihooFileWrite_wp (slotJob_valid hlayout hinUse1) (hquiet.fits hfits)
      hlength hrange) ?_ fun code d hfalse => hfalse.elim
    rintro outcome d ⟨path, w, rfl, hwrote, hstatus, hspent⟩
    have hfits1 := hquiet.fits hfits
    rw [← hquiet.clusters]
    refine wp_mono (recordWrite_wp rfl hfits1.metadata hslot hlayout hinUse1 hlength hstop hwrote
      hstatus hspent) ?_ ?_
    · rintro ⟨_, count⟩ v' ⟨hclusters, hgenerations, hlater, rfl, hpos, hle, hroom,
        ⟨path', hlayout'⟩, htable⟩
      refine ⟨⟨hslot, hgeneration, hinUse⟩, ⟨hclusters.trans hquiet.clusters,
        hquiet.later.trans hlater⟩, hgenerations.trans hquiet.generations, rfl,
        .inr ⟨hpos, hle, hroom, Holds.of_quiet hquiet ⟨⟨path', ?_⟩, htable⟩⟩⟩
      rw [hclusters]
      exact hlayout'
    rintro code v' ⟨hclusters, hgenerations, hlater, contents, hdamaged, hsame, ⟨path', hlayout'⟩,
      htable⟩
    refine ⟨⟨hclusters.trans hquiet.clusters, hquiet.later.trans hlater⟩,
      hgenerations.trans hquiet.generations, .inr ⟨⟨hslot, hgeneration, hinUse⟩,
      fun hnil => hlength (by rw [hnil]; rfl), contents, hdamaged, ?_,
      Holds.of_quiet hquiet ⟨⟨path', ?_⟩, htable⟩⟩⟩
    · intro hnonFailing
      obtain ⟨hcode, hcontents, hspent'⟩ := hsame (hquiet.later.nonFailing hnonFailing)
      exact ⟨hcode, hcontents, hstop, hspent'⟩
    · rw [hclusters]
      exact hlayout'
  · rintro code v1 (⟨_, hstale, hquiet⟩ | ⟨hquiet, hfailed⟩)
    · exact ⟨hquiet.same, hquiet.generations, .inl ⟨hquiet.image, fun _ h => hstale h.1⟩⟩
    · exact ⟨hquiet.same, hquiet.generations,
        .inl ⟨hquiet.image, fun hnonFailing => absurd hnonFailing hfailed.faulted.2⟩⟩

/-- The removal of the file in `slot` broke off at a request after the first `n`. The clusters freed
until then are still reachable from the entry. -/
def Interrupted (v : Volume) (n : Nat) (path : List Nat) (v' : Volume) : Prop :=
  ∃ k < 3 * path.length + 2, Broke v.device v'.device (n + k)
    ∧ v'.image = v.image.clear (path.take (k / 3))

theorem Interrupted.after {m n : Nat} (h : v1.Interrupted n path v')
    (hserved : Served v.device v1.device m) (himage : v1.image = v.image) :
    v.Interrupted (m + n) path v' := by
  obtain ⟨k, hk, hbroke, himage'⟩ := h
  refine ⟨k, hk, ?_, by rw [himage', himage]⟩
  rw [Nat.add_assoc]
  exact hserved.broke hbroke

def cleared (v : Volume) (name : List UInt8) : Table (List UInt8) (List UInt8) :=
  match v.image.lookup name with
  | some slot => update v.image.table slot none
  | none => v.image.table

def room (v : Volume) (name : List UInt8) : Nat :=
  (v.image.free v.clusters).card + match v.image.lookup name with
    | some slot => (v.image.chain slot).length
    | none => 0

structure Removed (v : Volume) (name : List UInt8) (v' : Volume) : Prop where
  table : v'.image.table = v.cleared name
  layout : ∃ paths', Layout v'.image v'.clusters paths'
  room : (v'.image.free v'.clusters).card = v.room name
  kept : v.image.lookup name = none → v'.image = v.image
  vacated : ∀ slot, v.image.lookup name = some slot → slot < 256 ∧ v'.image.entry slot 28 = 0

theorem inUse_of_lookup (h : image.lookup name = some slot) :
    image.InUse slot := (lookup_eq_some_iff.mp h).2.1.1

theorem card_free_clear {clusters first : Nat} (hsound : Sound image.fat clusters first path) :
    ((image.clear path).free clusters).card = (image.free clusters).card + path.length := by
  have hunion : (image.clear path).free clusters = image.free clusters ∪ path.toFinset := by
    ext c
    rw [Finset.mem_union, mem_toFinset, mem_free, mem_free, Image.clear]
    dsimp only
    by_cases hc : c ∈ path
    · rw [if_pos hc]
      exact ⟨fun _ => .inr hc, fun _ => ⟨⟨hsound.two_le hc, hsound.within c hc⟩, rfl⟩⟩
    · rw [if_neg hc]
      exact ⟨.inl, fun h => h.resolve_right hc⟩
  have hdisjoint : Disjoint (image.free clusters) path.toFinset := by
    rw [Finset.disjoint_left]
    intro c hc hmem
    exact hsound.not_mem_of_free (mem_free.mp hc).2 (mem_toFinset.mp hmem)
  rw [hunion, Finset.card_union_of_disjoint hdisjoint, toFinset_card_of_nodup hsound.walk.nodup]

theorem removeFound_wp (hfits : v.Fits) (hlayout : Layout v.image v.clusters paths) :
    wp (removeFound ((v.image.lookup name).map (Image.found v.image))) (fun _ v' => v.Same v'
      ∧ v.Removed name v')
      (fun _ v' => v.Same v' ∧ ∃ slot, v.image.lookup name = some slot
        ∧ v.Interrupted 0 (paths slot) v') v := by
  cases hlookup : v.image.lookup name with
  | none =>
    refine ⟨⟨rfl, Later.refl _⟩, ?_, ⟨paths, hlayout⟩, ?_, fun _ => rfl, ?_⟩
    · rw [cleared, hlookup]
    · rw [room, hlookup]
      rfl
    · intro slot hslot
      rw [hlookup] at hslot
      cases hslot
  | some slot =>
    have hinUse := inUse_of_lookup hlookup
    have hslot := (lookup_eq_some_iff.mp hlookup).1
    refine wp_mono (remove_wp hfits.metadata hslot (hlayout.sound slot hinUse)) ?_ ?_
    · rintro _ v' ⟨himage, _, hclusters, hserved⟩
      refine ⟨⟨hclusters, hserved.later⟩, ?_, ⟨update paths slot [], ?_⟩, ?_, ?_, ?_⟩
      · rw [himage, table_removed hlayout hinUse, cleared, hlookup]
      · rw [himage, hclusters]
        exact layout_removed hlayout hinUse
      · have hroom : v.room name = (v.image.free v.clusters).card + (paths slot).length := by
          rw [room, hlookup, ← hlayout.chain_eq hinUse]
        rw [himage, hclusters, hroom]
        exact card_free_clear (hlayout.sound slot hinUse)
      · intro hnone
        rw [hlookup] at hnone
        cases hnone
      intro slot' hslot'
      obtain rfl : slot = slot' := Option.some_inj.mp (hlookup.symm.trans hslot')
      rw [himage, Image.setEntry_entry_self]
      exact ⟨hslot, rfl⟩
    · rintro _ v' ⟨hclusters, _, k, hk, hbroke, himage⟩
      refine ⟨⟨hclusters, hbroke.later⟩, slot, rfl, k, hk, ?_, himage⟩
      rw [Nat.zero_add]
      exact hbroke

theorem Quiet.removeFound_wp (h : v.Quiet v1) (name : List UInt8) (hfits : v.Fits)
    (hlayout : Layout v.image v.clusters paths) :
    wp (removeFound ((v.image.lookup name).map (Image.found v.image)))
      (fun _ v' => v1.Same v' ∧ v.Removed name v')
      (fun _ v' => v1.Same v' ∧ ∃ slot, v.image.lookup name = some slot
        ∧ v1.Interrupted 0 (paths slot) v') v1 := by
  have hlayout1 := h.layout hlayout
  have hremove : wp (removeFound ((v1.image.lookup name).map (Image.found v1.image))) _ _ v1 :=
    Volume.removeFound_wp (h.fits hfits) hlayout1
  rw [h.image] at hremove
  refine wp_mono hremove ?_ fun _ _ hfailed => hfailed
  rintro _ v' ⟨hsame, hremoved⟩
  refine ⟨hsame, ?_, hremoved.layout, ?_, ?_, ?_⟩
  · rw [hremoved.table, cleared, cleared, h.image]
  · rw [hremoved.room, room, room, h.image, h.clusters]
  · rw [← h.image]
    exact hremoved.kept
  · rw [← h.image]
    exact hremoved.vacated

theorem delete_wp (hfits : v.Fits) (hlayout : Layout v.image v.clusters paths) : wp (delete name)
      (fun _ v' => v.Same v' ∧ v.image.lookup name ≠ none ∧ v'.image.table = v.cleared name
        ∧ ∃ paths', Layout v'.image v'.clusters paths') (fun _ v' =>
          v.Same v' ∧ (v'.image = v.image ∨ (validName name
        ∧ ∃ slot, v.image.lookup name = some slot ∧ v.Interrupted (slot + 1) (paths slot) v')))
          v := by
  rw [delete, wp_bind]
  by_cases hname : name.length = 0 ∨ name.length > 21
  · unfold wp
    rw [find_fails hname]
    exact ⟨⟨rfl, Later.refl _⟩, .inl rfl⟩
  refine wp_mono (find_wp hfits.metadata hname) ?_ ?_
  · rintro found v1 ⟨rfl, hquiet, hserved⟩
    have hremove := hquiet.removeFound_wp name hfits hlayout
    cases hlookup : v.image.lookup name with
    | none => exact ⟨hquiet.same, .inl hquiet.image⟩
    | some slot =>
      rw [hlookup] at hremove hserved
      refine wp_mono hremove ?_ ?_
      · rintro _ v' ⟨hsame, hremoved⟩
        exact ⟨hquiet.same.trans hsame, by simp, hremoved.table, hremoved.layout⟩
      rintro _ v' ⟨hsame, slot', hslot', hinterrupted⟩
      refine ⟨hquiet.same.trans hsame, .inr ⟨hname, slot, rfl, ?_⟩⟩
      obtain rfl := Option.some_inj.mp hslot'
      exact hinterrupted.after hserved hquiet.image
  · rintro _ v1 ⟨hquiet, _⟩
    exact ⟨hquiet.same, .inl hquiet.image⟩

theorem map_logical_eq_input {clusters : Nat} {w : WriteState}
    (h : (createJob image clusters input).Progress path w) (hreached : w.reached = input.length) :
    (range input.length).map (w.device.image.logical path) = input := by
  refine ext_getElem (by simp) ?_
  intro x hx hx'
  rw [getElem_map, getElem_range, h.data x (.inr (by omega)), Job.expected, if_pos (by omega),
    Job.target]
  change (if 0 ≤ x then Buffer.ofList input (x - 0) else _) = _
  rw [if_pos (Nat.zero_le x), Nat.sub_zero, Buffer.ofList, getD_eq_getElem _ _ hx']

theorem store_wp (hfits : v.Fits) (hlayout : Layout v.image v.clusters paths) (hslot : slot < 256)
    (hname : name.length ≤ 21) (hinput : input.length ≤ 0xffffffff) : wp (do
        let first ← onDevice (createLoop v.clusters input (input.length / 4096 + 2) 0 0 0)
        writeEntry slot (newEntry name first input.length))
      (fun _ v' => v.Same v' ∧ v'.image.table = update v.image.table slot
        (some (name.takeWhile (· ≠ 0), input))
        ∧ input.length ≤ 4096 * (v.image.free v.clusters).card
        ∧ ∃ paths', Layout v'.image v'.clusters paths')
      (fun code v' => v.Same v' ∧ v'.image.table = v.image.table
        ∧ (∃ paths', Layout v'.image v'.clusters paths')
        ∧ (v.device.NonFailing → code = -5 ∧ v'.image.free v.clusters = ∅
          ∧ 4096 * (v.image.free v.clusters).card < input.length)) v := by
  have hstart : Storing v.image v.clusters input [] v.device 0 0 0 := Storing.start rfl
  rw [wp_bind, wp_onDevice]
  refine wp_mono (createLoop_wp hstart hfits (by simp only [length_nil]; omega)) ?_ ?_
  · rintro first d ⟨⟨path, hprogress⟩, hlater⟩
    have hs := hlater.le_sectors hfits.metadata
    have hold : ∀ t, t ≠ slot → v.image.InUse t → ([] : List Nat).Disjoint (paths t) := fun t _ _ =>
      disjoint_nil_left _
    have hlong : input.length ≤ 4096 * path.length := hprogress.long
    have hsize : ((newEntry name first input.length).upTo 32).get 24 4 = input.length :=
      get_size_newEntry hinput
    have hfirst : ((newEntry name first input.length).upTo 32).get 22 2 = first :=
      get_first_newEntry hprogress.first_lt
    have hmark : (newEntry name first input.length).upTo 32 28 = 1 := by
      rw [Buffer.upTo_of_lt (by omega)]
      exact newEntry_mark
    refine wp_mono (writeEntry_wp hs hslot) ?_ ?_
    · rintro _ v' ⟨himage, _, hclusters, hserved⟩
      change v'.image = d.image.setEntry slot _ at himage
      refine ⟨⟨hclusters, hlater.trans hserved.later⟩, ?_, ?_, update paths slot path, ?_⟩
      · rw [himage, hprogress.table_setEntry hlayout hold hfirst (by rw [hsize]; exact hlong) hmark,
          storedName_newEntry hname, hsize, map_logical_eq_input hprogress rfl]
        rfl
      · exact hlong.trans (Nat.mul_le_mul_left _ hprogress.length_le)
      · rw [himage, hclusters]
        exact hprogress.layout_setEntry hlayout hold hfirst (by rw [hsize]; exact hlong)
    · rintro _ v' ⟨_, hclusters, hfailed⟩
      have himage : v'.image = d.image := Device.image_eq_of_bytes hfailed.2.1
      have hfaulted := hlater.faulted hfailed.faulted
      refine ⟨⟨hclusters, hfaulted.1⟩, ?_, ⟨paths, ?_⟩, fun hnonFailing => ?_⟩
      · rw [himage]
        exact hprogress.table_unlinked hlayout rfl
      · rw [himage, hclusters]
        exact hprogress.layout_unlinked hlayout rfl
      · exact absurd hnonFailing hfaulted.2
  · rintro _ d ⟨⟨⟨path, first, reached, hprogress⟩, hcase⟩, hfull⟩
    have hlater : Later v.device d := by
      rcases hcase with ⟨_, hlater⟩ | ⟨_, hfaulted⟩
      · exact hlater
      · exact hfaulted.1
    refine ⟨⟨rfl, hlater⟩, hprogress.table_unlinked hlayout rfl,
      ⟨paths, hprogress.layout_unlinked hlayout rfl⟩, fun hnonFailing => ?_⟩
    rcases hcase with ⟨hcode, _⟩ | ⟨_, hfaulted⟩
    · exact ⟨hcode, hfull hcode⟩
    · exact absurd hnonFailing hfaulted.2

/-- Removing the file that has the name. The lookup makes `slot + 2` requests with the check of the
volume before it. -/
theorem removeOld_wp (hfits : v.Fits) (hlayout : Layout v.image v.clusters paths)
    (hname : validName name) :
    wp (removeOld name) (fun _ v' => v.image.boot = magic ∧ v.Same v' ∧ v.Removed name v')
      (fun _ v' => v.Same v' ∧ ((v'.image = v.image ∧ (v.device.NonFailing → v.image.boot ≠ magic))
          ∨ (v.image.boot = magic ∧ ∃ slot, v.image.lookup name = some slot
            ∧ v.Interrupted (slot + 2) (paths slot) v'))) v := by
  rw [removeOld]
  refine wp_seq (check_wp hfits.metadata) ?_ ?_
  · rintro _ v1 ⟨hmagic, hquiet1, hserved1⟩
    refine wp_seq (find_wp (hquiet1.fits hfits).metadata hname) ?_ ?_
    · rintro found v2 ⟨rfl, hquiet2, hserved2⟩
      have hquiet := hquiet1.trans hquiet2
      have hserved := hserved1.trans hserved2
      rw [hquiet1.image] at hserved ⊢
      refine wp_mono (hquiet.removeFound_wp name hfits hlayout) ?_ ?_
      · rintro _ v' ⟨hsame, hremoved⟩
        exact ⟨hmagic, hquiet.same.trans hsame, hremoved⟩
      rintro _ v' ⟨hsame, slot, hlookup, hinterrupted⟩
      refine ⟨hquiet.same.trans hsame, .inr ⟨hmagic, slot, hlookup, ?_⟩⟩
      have hafter := hinterrupted.after hserved hquiet.image
      rw [hlookup] at hafter
      simp only [scanCost] at hafter
      rwa [show 1 + (slot + 1 - 0) + 0 = slot + 2 by omega] at hafter
    · rintro _ v2 ⟨hquiet2, hfailed⟩
      have hquiet := hquiet1.trans hquiet2
      have hfaulted := hquiet1.later.faulted hfailed.faulted
      exact ⟨hquiet.same, .inl ⟨hquiet.image, fun hnonFailing => absurd hnonFailing hfaulted.2⟩⟩
  · rintro _ v1 (⟨_, hmagic, hquiet⟩ | ⟨hquiet, hfailed⟩)
    · exact ⟨hquiet.same, .inl ⟨hquiet.image, fun _ => hmagic⟩⟩
    · exact ⟨hquiet.same,
        .inl ⟨hquiet.image, fun hnonFailing => absurd hnonFailing hfailed.faulted.2⟩⟩

def Accepts (v : Volume) (name input : List UInt8) : Prop :=
  validName name ∧ input.length ≤ 0xffffffff ∧ v.image.boot = magic
    ∧ (v.image.lookup name = none → v.image.vacant ≠ none)

theorem create_wp (hfits : v.Fits) (hlayout : Layout v.image v.clusters paths) :
    wp (create name input)
      (fun _ v' => v.Same v' ∧ ∃ slot, v.cleared name slot = none
        ∧ v'.image.table = update (v.cleared name) slot (some (name.takeWhile (· ≠ 0), input))
        ∧ input.length ≤ 4096 * v.room name ∧ ∃ paths', Layout v'.image v'.clusters paths')
      (fun code v' => v.Same v'
        ∧ ((v'.image = v.image ∧ (v.device.NonFailing → ¬ v.Accepts name input))
        ∨ (validName name ∧ input.length ≤ 0xffffffff ∧ v.image.boot = magic
          ∧ ∃ slot, v.image.lookup name = some slot ∧ v.Interrupted (slot + 2) (paths slot) v')
        ∨ (v'.image.table = v.cleared name ∧ (∃ paths', Layout v'.image v'.clusters paths')
          ∧ (v.device.NonFailing → code = -5 ∧ v.Accepts name input
            ∧ v'.image.free v.clusters = ∅ ∧ 4096 * v.room name < input.length)))) v := by
  rw [create, wp_ite]
  constructor
  · intro hname
    exact ⟨⟨rfl, Later.refl _⟩, .inl ⟨rfl, fun _ haccepts => haccepts.1 hname⟩⟩
  intro hname
  rw [wp_ite]
  constructor
  · intro hinput
    refine ⟨⟨rfl, Later.refl _⟩, .inl ⟨rfl, fun _ haccepts => ?_⟩⟩
    have := haccepts.2.1
    omega
  intro hinput
  refine wp_seq (removeOld_wp hfits hlayout hname) ?_ ?_
  · rintro _ v1 ⟨hmagic, hsame1, hremoved⟩
    have htable1 := hremoved.table
    obtain ⟨paths1, hlayout1⟩ := hremoved.layout
    refine wp_seq (freeSlot_wp (hsame1.fits hfits).metadata) ?_ ?_
    · rintro slot v2 ⟨hvacant, hquiet2⟩
      have hsame2 := hsame1.trans hquiet2.same
      have htable2 : v2.image.table = v.cleared name := by
        rw [hquiet2.image]
        exact htable1
      obtain ⟨hslot, hfree, _⟩ := vacant_eq_some_iff.mp hvacant
      have hnone : v.cleared name slot = none := by
        rw [← htable1]
        apply Image.table_of_not_inUse
        rw [Image.InUse, hfree]
        decide
      have hlayout2 := hquiet2.layout hlayout1
      have hlength : name.length ≤ 21 := by
        have := not_or.mp hname
        omega
      rw [wp_bind, wp_state]
      refine wp_mono (store_wp (hsame2.fits hfits) hlayout2 hslot hlength (by omega)) ?_ ?_
      · rintro _ v' ⟨hsame', htable', hfits', hlayout'⟩
        rw [hquiet2.image, hquiet2.clusters, hremoved.room] at hfits'
        exact ⟨hsame2.trans hsame', slot, hnone, by rw [htable', htable2], hfits', hlayout'⟩
      rintro _ v' ⟨hsame', htable', hlayout', hfull⟩
      refine ⟨hsame2.trans hsame', .inr (.inr ⟨by rw [htable', htable2], hlayout', ?_⟩)⟩
      intro hnonFailing
      obtain ⟨hcode, hspent⟩ := hfull (hsame2.later.nonFailing hnonFailing)
      rw [hquiet2.image, hquiet2.clusters, hremoved.room, hsame1.clusters] at hspent
      refine ⟨hcode, ⟨hname, by omega, hmagic, fun hlookup hnone => ?_⟩, hspent⟩
      rw [hremoved.kept hlookup, hnone] at hvacant
      cases hvacant
    · rintro _ v2 ⟨hquiet2, hcase⟩
      refine ⟨hsame1.trans hquiet2.same, ?_⟩
      cases hlookup : v.image.lookup name with
      | none =>
        have himage1 := hremoved.kept hlookup
        refine .inl ⟨hquiet2.image.trans himage1, fun hnonFailing haccepts => ?_⟩
        rcases hcase with ⟨_, hvacant⟩ | ⟨_, hfaulted⟩
        · rw [himage1] at hvacant
          exact haccepts.2.2.2 hlookup hvacant
        · exact absurd hnonFailing (hsame1.later.faulted hfaulted).2
      | some slot =>
        -- the slot of the old file is vacant now, so only a fault can have stopped the search
        refine .inr (.inr ⟨?_, ⟨paths1, ?_⟩, fun hnonFailing => ?_⟩)
        · rw [hquiet2.image]
          exact htable1
        · exact hquiet2.layout hlayout1
        obtain ⟨hslot, hzero⟩ := hremoved.vacated slot hlookup
        rcases hcase with ⟨_, hvacant⟩ | ⟨_, hfaulted⟩
        · exact absurd hzero (mark_ne_zero_of_vacant hvacant hslot)
        · exact absurd hnonFailing (hsame1.later.faulted hfaulted).2
  · rintro _ v1 ⟨hsame, ⟨himage, hmagic⟩ | ⟨hmagic, slot, hlookup, hinterrupted⟩⟩
    · exact ⟨hsame, .inl ⟨himage, fun hnonFailing haccepts =>
        hmagic hnonFailing haccepts.2.2.1⟩⟩
    · exact ⟨hsame, .inr (.inl ⟨hname, by omega, hmagic, slot, hlookup, hinterrupted⟩)⟩

theorem inUse_of_table {file : List UInt8 × List UInt8} (h : image.table slot = some file) :
    image.InUse slot := by
  by_contra hnot
  rw [Image.table_of_not_inUse hnot] at h
  cases h

theorem when_truncate_wp {truncating : Bool} (hfits : v.Fits)
    (hlayout : Layout v.image v.clusters paths) (hlookup : v.image.lookup name = some slot) :
    wp (when (truncating = true) (truncate slot (v.image.entry slot)))
      (fun _ v' => v.Same v'
        ∧ v'.image.table = (if truncating then update v.image.table slot (some (name, []))
            else v.image.table)
        ∧ ∃ paths', Layout v'.image v'.clusters paths')
      (fun _ v' => v.Same v'
        ∧ (v'.image.table = v.image.table ∨ v'.image.table = update v.image.table slot
        (some (name, [])))
        ∧ ∃ paths', Layout v'.image v'.clusters paths') v := by
  obtain ⟨hslot, ⟨hinUse, hstored⟩, _⟩ := lookup_eq_some_iff.mp hlookup
  rw [wp_when]
  constructor
  · intro htruncating
    rw [if_pos htruncating]
    refine wp_mono (truncate_wp hfits.metadata hslot hinUse (hlayout.sound slot hinUse)) ?_ ?_
    · rintro _ v' ⟨hclusters, _, hlater, himage | ⟨himage, _, hsize⟩⟩
      · refine ⟨⟨hclusters, hlater⟩, ?_, update paths slot [], ?_⟩
        · rw [himage, table_emptied hlayout hinUse (List.Subset.refl _), hstored]
        · rw [himage, hclusters]
          exact layout_emptied hlayout hinUse (List.Subset.refl _)
      -- the file was empty already
      refine ⟨⟨hclusters, hlater⟩, ?_, paths, ?_⟩
      · have hself : v.image.table slot = some (name, []) := by
          rw [Image.table_eq_some_iff, Image.contents, hsize]
          exact ⟨⟨hinUse, hstored⟩, rfl⟩
        rw [himage, ← hself, update_eq_self]
      · rw [himage, hclusters]
        exact hlayout
    · rintro _ v' ⟨hclusters, _, _, hfaulted, himage | ⟨k, himage⟩⟩
      · refine ⟨⟨hclusters, hfaulted.1⟩, .inl (by rw [himage]), paths, ?_⟩
        rw [himage, hclusters]
        exact hlayout
      refine ⟨⟨hclusters, hfaulted.1⟩, .inr ?_, update paths slot [], ?_⟩
      · rw [himage, table_emptied hlayout hinUse (take_subset _ _), hstored]
      · rw [himage, hclusters]
        exact layout_emptied hlayout hinUse (take_subset _ _)
  · intro htruncating
    rw [if_neg htruncating]
    exact ⟨⟨rfl, Later.refl _⟩, rfl, paths, hlayout⟩

theorem writeEntry_empty_wp (hfits : v.Fits) (hlayout : Layout v.image v.clusters paths)
    (hslot : slot < 256) (hname : name.length ≤ 21) : wp (writeEntry slot (newEntry name 0 0))
      (fun _ v' => v.Same v' ∧ v'.image.table = update v.image.table slot
        (some (name.takeWhile (· ≠ 0), []))
        ∧ ∃ paths', Layout v'.image v'.clusters paths') (fun _ v' =>
          v.Same v' ∧ v'.image = v.image) v := by
  have hstart : (createJob v.image v.clusters []).Progress [] ⟨v.device, 0, 0⟩ :=
    (Storing.start rfl).progress
  have hold : ∀ t, t ≠ slot → v.image.InUse t → ([] : List Nat).Disjoint (paths t) := fun t _ _ =>
    disjoint_nil_left _
  have hsize : ((newEntry name 0 0).upTo 32).get 24 4 = 0 := get_size_newEntry (by omega)
  have hfirst : ((newEntry name 0 0).upTo 32).get 22 2 = 0 := get_first_newEntry (by omega)
  have hmark : (newEntry name 0 0).upTo 32 28 = 1 := by
    rw [Buffer.upTo_of_lt (by omega)]
    exact newEntry_mark
  refine wp_mono (writeEntry_wp hfits.metadata hslot) ?_ ?_
  · rintro _ v' ⟨himage, _, hclusters, hserved⟩
    refine ⟨⟨hclusters, hserved.later⟩, ?_, update paths slot [], ?_⟩
    · have htable := hstart.table_setEntry hlayout hold hfirst (by rw [hsize]; omega) hmark
      rw [hsize, storedName_newEntry hname] at htable
      rw [himage]
      exact htable
    · rw [himage, hclusters]
      exact hstart.layout_setEntry hlayout hold hfirst (by rw [hsize]; omega)
  · rintro _ v' ⟨_, hclusters, hfailed⟩
    exact ⟨⟨hclusters, hfailed.faulted.1⟩, Device.image_eq_of_bytes hfailed.2.1⟩

theorem openFile_wp {create truncating : Bool} (hfits : v.Fits)
    (hlayout : Layout v.image v.clusters paths) : wp (openFile name create truncating)
      (fun id v' => v.Same v' ∧ id.slot < 256 ∧ id.generation = v'.generations id.slot
        ∧ ((v.image.lookup name = some id.slot ∧ v'.image.table = if truncating
              then update v.image.table id.slot (some (name, [])) else v.image.table)
          ∨ (v.image.lookup name = none ∧ create = true ∧ v.image.table id.slot = none
            ∧ v'.image.table
              = update v.image.table id.slot (some (name.takeWhile (· ≠ 0), []))))
        ∧ ∃ paths', Layout v'.image v'.clusters paths')
      (fun _ v' => v.Same v' ∧ (v'.image.table = v.image.table ∨ ∃ slot,
        v.image.lookup name = some slot
          ∧ v'.image.table = update v.image.table slot (some (name, [])))
        ∧ ∃ paths', Layout v'.image v'.clusters paths') v := by
  have hkept : ∀ v1, v.Quiet v1 → v.Same v1 ∧ (v1.image.table = v.image.table
      ∨ ∃ slot, v.image.lookup name = some slot ∧ v1.image.table = update v.image.table slot
      (some (name, []))) ∧ ∃ paths', Layout v1.image v1.clusters paths' := by
    intro v1 hquiet
    refine ⟨hquiet.same, .inl (by rw [hquiet.image]), paths, ?_⟩
    exact hquiet.layout hlayout
  rw [openFile]
  refine wp_seq (check_wp hfits.metadata) ?_ ?_
  · rintro _ v1 ⟨_, hquiet1, _⟩
    rw [wp_bind]
    by_cases hname : name.length = 0 ∨ name.length > 21
    · unfold wp
      rw [find_fails hname]
      exact hkept v1 hquiet1
    refine wp_mono (find_wp (hquiet1.fits hfits).metadata hname) ?_ ?_
    · rintro found v2 ⟨rfl, hquiet2, _⟩
      have hquiet := hquiet1.trans hquiet2
      have hlayout2 := hquiet.layout hlayout
      have hfits2 := hquiet.fits hfits
      rw [hquiet1.image]
      cases hlookup : v.image.lookup name with
      | some slot =>
        have hlookup2 : v2.image.lookup name = some slot := by rw [hquiet.image, hlookup]
        have htruncate : wp (when (truncating = true) (truncate slot (v.image.entry slot))) _ _
            v2 :=
          hquiet.image ▸ when_truncate_wp hfits2 hlayout2 hlookup2
        change wp (do when (truncating = true) (truncate slot (v.image.entry slot))
                      handle slot) _ _ v2
        rw [wp_bind]
        refine wp_mono htruncate ?_ ?_
        · rintro _ v' ⟨hsame, htable, hlayout'⟩
          exact ⟨hquiet.same.trans hsame, (lookup_eq_some_iff.mp hlookup).1, rfl,
            .inl ⟨rfl, htable⟩, hlayout'⟩
        rintro _ v' ⟨hsame, htable, hlayout'⟩
        refine ⟨hquiet.same.trans hsame, ?_, hlayout'⟩
        rcases htable with hold | hnew
        · exact .inl hold
        · exact .inr ⟨slot, rfl, hnew⟩
      | none =>
        change wp (if create = true then _ else _) _ _ v2
        rw [wp_ite]
        constructor
        · intro hcreate
          refine wp_seq (freeSlot_wp hfits2.metadata) ?_ ?_
          · rintro slot v3 ⟨hvacant, hquiet3⟩
            obtain ⟨hslot, hfree, _⟩ := vacant_eq_some_iff.mp hvacant
            have hquiet' := hquiet.trans hquiet3
            have hlayout3 := hquiet'.layout hlayout
            have hnone : v.image.table slot = none := by
              rw [← hquiet.image]
              apply Image.table_of_not_inUse
              rw [Image.InUse, hfree]
              decide
            rw [wp_bind, ← newEntry_empty (by omega)]
            refine wp_mono (writeEntry_empty_wp (hquiet'.fits hfits) hlayout3 hslot (by omega)) ?_
              ?_
            · rintro _ v' ⟨hsame, htable, hlayout'⟩
              rw [hquiet'.image] at htable
              exact ⟨hquiet'.same.trans hsame, hslot, rfl, .inr ⟨rfl, hcreate, hnone, htable⟩,
                hlayout'⟩
            rintro _ v' ⟨hsame, himage⟩
            refine ⟨hquiet'.same.trans hsame, .inl (by rw [himage, hquiet'.image]), paths, ?_⟩
            rw [himage, hsame.clusters]
            exact hlayout3
          · rintro _ v3 ⟨hquiet3, _⟩
            rw [← hlookup]
            exact hkept v3 (hquiet.trans hquiet3)
        · intro _
          rw [← hlookup]
          exact hkept v2 hquiet
    · rintro _ v2 ⟨hquiet2, _⟩
      exact hkept v2 (hquiet1.trans hquiet2)
  · rintro _ v1 (⟨_, _, hquiet⟩ | ⟨hquiet, _⟩)
    · exact hkept v1 hquiet
    · exact hkept v1 hquiet

end Volume

end Kaguya.FileSystem
