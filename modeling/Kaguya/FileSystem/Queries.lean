import Kaguya.FileSystem.Operations

/-!
# Operations that only read

On a volume with sound chains, what `size`, `readAt`, `readFile` and `list` return is what the table
of files says.
-/

namespace Kaguya.FileSystem

open Prog Device List

namespace Volume

variable {v : Volume} {paths : Nat → List Nat}

def Refused (v : Volume) (stale : Prop) (code : Int) (v' : Volume) : Prop :=
  v.Quiet v' ∧ ((code = -6 ∧ stale) ∨ (code = -3 ∧ v.device.Faulted v'.device))

variable {n offset length slot : Nat} {id : FileId} {s : Reader}

theorem Failed.refused {stale : Prop} {code : Int} {v' : Volume} (h : v.Failed n code v') :
    v.Refused stale code v' := ⟨h.1, .inr ⟨h.2.1, h.2.faulted⟩⟩

theorem size_wp (hs : 81 ≤ v.device.sectors) :
    wp (size id) (fun bytes v' => v.Good id ∧ bytes = v.image.size id.slot ∧ v.Quiet v')
      (v.Refused (¬ v.Good id)) v := by
  rw [size]
  refine wp_seq (opened_wp hs) ?_ ?_
  · rintro entry v' ⟨hgood, rfl, hquiet⟩
    exact ⟨hgood, rfl, hquiet⟩
  · rintro code v' (⟨hcode, hstale, hquiet⟩ | hfailed)
    · exact ⟨hquiet, .inl ⟨hcode, hstale⟩⟩
    · exact hfailed.refused

theorem slice_eq_drop_take {output : Buffer} {f : Nat → UInt8} {size count : Nat}
    (hcount : count = min length (size - offset))
    (houtput : ∀ i < count, output i = f (offset + i)) :
    output.slice 0 count = (((range size).map f).drop offset).take length := by
  refine ext_getElem ?_ ?_
  · simp only [Buffer.length_slice, length_take, length_drop, length_map, length_range]
    exact hcount
  intro i hi hi'
  rw [Buffer.length_slice] at hi
  rw [Buffer.getElem_slice, Nat.zero_add, houtput i hi, getElem_take, getElem_drop, getElem_map,
    getElem_range]

theorem wp_withOutput {α : Type} {m : Prog Reader α} {Q : α × Buffer → Volume → Prop}
    {E : Int → Volume → Prop} :
    wp (withOutput m) Q E v ↔ wp m (fun a s => Q (a, s.output) s.volume)
        (fun code s => E code s.volume)
        ⟨v, Buffer.zeroed⟩ := by
  unfold wp withOutput
  rcases m ⟨v, Buffer.zeroed⟩ with ⟨_ | _, _⟩ <;> rfl

theorem readData_wp (offset length : Nat) (whole : Bool) (hfits : s.volume.Fits)
    (hlayout : Layout s.volume.image s.volume.clusters paths) (hinUse : s.volume.image.InUse slot) :
    wp (readData (s.volume.image.entry slot) offset length whole)
          (fun count s' => s'.output.slice 0 count
          = ((s.volume.image.contents slot).drop offset).take length ∧ s.volume.Quiet s'.volume)
      (fun code s' => code = -3 ∧ s.volume.Quiet s'.volume
        ∧ s.volume.device.Faulted s'.volume.device) s := by
  refine wp_zoom.mpr
    (wp_mono (jihooFileRead_wp hfits (hlayout.sound slot hinUse) (hlayout.long slot hinUse)) ?_ ?_)
  · rintro count s' ⟨hcount, houtput, hbytes, hlater⟩
    rw [hlayout.contents_eq hinUse]
    exact ⟨slice_eq_drop_take hcount houtput, quiet_of_device hbytes hlater⟩
  · rintro code s' ⟨hcode, hbytes, hfaulted⟩
    exact ⟨hcode, quiet_of_device hbytes hfaulted.1, hfaulted⟩

theorem readAt_wp (hfits : s.volume.Fits)
    (hlayout : Layout s.volume.image s.volume.clusters paths) :
    wp (readAt id offset length) (fun count s' => s.volume.Good id ∧ s'.output.slice 0 count
          = ((s.volume.image.contents id.slot).drop offset).take length ∧ s.volume.Quiet s'.volume)
      (fun code s' => s.volume.Refused (¬ s.volume.Good id) code s'.volume) s := by
  rw [readAt, wp_bind]
  refine wp_zoom.mpr (wp_mono (opened_wp hfits.metadata) ?_ ?_)
  · rintro entry v1 ⟨hgood, rfl, hquiet⟩
    have hlayout1 := hquiet.layout hlayout
    have hinUse1 : v1.image.InUse id.slot := by
      rw [hquiet.image]
      exact hgood.2.2
    rw [← hquiet.image]
    refine wp_mono (readData_wp (s := ⟨v1, s.output⟩) offset length false (hquiet.fits hfits)
      hlayout1 hinUse1) ?_ ?_
    · rintro count s' ⟨houtput, hquiet'⟩
      exact ⟨hgood, houtput, hquiet.trans hquiet'⟩
    · rintro code s' ⟨hcode, hquiet', hfaulted⟩
      exact ⟨hquiet.trans hquiet', .inr ⟨hcode, hquiet.later.faulted hfaulted⟩⟩
  · rintro code v1 (⟨hcode, hstale, hquiet⟩ | hfailed)
    · exact ⟨hquiet, .inl ⟨hcode, hstale⟩⟩
    · exact hfailed.refused

theorem length_contents (image : Image) (slot : Nat) :
    (image.contents slot).length = image.size slot := by
  simp [Image.contents]

variable {name : List UInt8} {image : Image}

theorem readFile_wp (hfits : v.Fits) (hlayout : Layout v.image v.clusters paths) :
    wp (readFile name) (fun output v' => v.image.files name = some output ∧ v.Quiet v')
      (fun _ v' => v.Quiet v') v := by
  rw [readFile, wp_bind]
  by_cases hname : name.length = 0 ∨ name.length > 21
  · unfold wp
    rw [find_fails hname]
    exact Quiet.refl v
  refine wp_mono (find_wp hfits.metadata hname) ?_ fun code v' hfailed => hfailed.1
  rintro found v1 ⟨rfl, hquiet, _⟩
  cases hlookup : v.image.lookup name with
  | none => exact hquiet
  | some slot =>
    have hinUse := inUse_of_lookup hlookup
    have hfiles : v.image.files name = some (v.image.contents slot) := by
      rw [Image.files, hlookup]
      rfl
    have hlength := length_contents v.image slot
    change wp (if v.image.size slot > 0 then _
      else pure (Buffer.zeroed.slice 0 (v.image.size slot)))
      _ _ v1
    rw [hfiles, wp_ite]
    constructor
    · intro hpos
      have hlayout1 := hquiet.layout hlayout
      have hinUse1 : v1.image.InUse slot := by
        rw [hquiet.image]
        exact hinUse
      rw [wp_bind, wp_withOutput]
      have hread := readData_wp (s := ⟨v1, Buffer.zeroed⟩) 0 (v.image.size slot) true
        (hquiet.fits hfits) hlayout1 hinUse1
      rw [hquiet.image] at hread
      refine wp_mono hread ?_ ?_
      · rintro count s' ⟨houtput, hquiet'⟩
        rw [drop_zero, ← hlength, take_length] at houtput
        have hcount : count = v.image.size slot := by
          have hlengths := congrArg List.length houtput
          rw [Buffer.length_slice, hlength] at hlengths
          exact hlengths
        rw [hcount] at houtput
        exact ⟨congrArg some houtput.symm, hquiet.trans hquiet'⟩
      · rintro code s' ⟨_, hquiet', _⟩
        exact hquiet.trans hquiet'
    · intro hzero
      have hempty : v.image.size slot = 0 := by omega
      refine ⟨?_, hquiet⟩
      rw [hempty] at hlength ⊢
      rw [length_eq_zero_iff.mp hlength]
      rfl

def listed (image : Image) (slot : Nat) : Option FileEntry :=
  if image.InUse slot then
    some ⟨lossyName (storedName (image.entry slot)), image.size slot, image.first slot⟩
  else none

theorem listLoop_wp {entries : List FileEntry} (hs : 81 ≤ v.device.sectors)
    (hn : slot + n ≤ rootEntries) : wp (listLoop n slot entries)
      (fun result v' => result = entries ++ (range' slot n).filterMap (listed v.image) ∧ v.Quiet v')
      (fun _ v' => v.Quiet v') v := by
  induction n generalizing v slot entries with
  | zero => exact ⟨by simp, Quiet.refl v⟩
  | succ n ih =>
    rw [listLoop, wp_bind, readEntry, wp_onDevice]
    refine wp_mono (jihooDirRead_wp (by omega) hs) ?_ ?_
    · rintro entry d ⟨rfl, hbytes, hserved⟩
      have hquiet := quiet_of_device hbytes hserved.later
      have hs1 : 81 ≤ ({ v with device := d } : Volume).device.sectors := by
        rw [hserved.sectors]
        exact hs
      have hrest : ∀ entries', entries ++ (range' slot (n + 1)).filterMap (listed v.image)
          = entries' ++ (range' (slot + 1) n).filterMap (listed v.image) →
          wp (listLoop n (slot + 1) entries') (fun result v' => result
                = entries ++ (range' slot (n + 1)).filterMap (listed v.image) ∧ v.Quiet v')
            (fun _ v' => v.Quiet v') { v with device := d } := by
        intro entries' hentries
        refine wp_mono (ih hs1 (by omega)) ?_ fun code v' hquiet' => hquiet.trans hquiet'
        rintro result v' ⟨hresult, hquiet'⟩
        refine ⟨?_, hquiet.trans hquiet'⟩
        rw [hresult, hquiet.image, hentries]
      rw [wp_ite]
      constructor
      · intro hmark
        apply hrest
        have hnone : listed v.image slot = none := if_neg hmark
        rw [range'_succ, filterMap_cons, hnone]
      intro hmark
      apply hrest
      have hsome : listed v.image slot = some ⟨lossyName (storedName (v.image.entry slot)),
        v.image.size slot, v.image.first slot⟩ := if_pos (not_not.mp hmark)
      rw [range'_succ, filterMap_cons, hsome, append_assoc]
      rfl
    · intro code d hfailed
      exact (Failed.of_device hfailed).1

theorem list_wp (hs : 81 ≤ v.device.sectors) : wp list
      (fun result v' => result = (range 256).filterMap (listed v.image) ∧ v.Quiet v')
        (fun _ v' => v.Quiet v') v := by
  rw [list]
  refine wp_seq (check_wp hs) ?_ ?_
  · rintro _ v1 ⟨_, hquiet, hserved⟩
    have hs1 := hserved.le_sectors hs
    refine wp_mono (listLoop_wp hs1 le_rfl) ?_ fun code v' hquiet' => hquiet.trans hquiet'
    rintro result v' ⟨hresult, hquiet'⟩
    refine ⟨?_, hquiet.trans hquiet'⟩
    rw [hresult, hquiet.image, nil_append, range_eq_range']
  · rintro code v1 (⟨_, _, hquiet⟩ | ⟨hquiet, _⟩)
    · exact hquiet
    · exact hquiet

def namesListed (image : Image) : List (List UInt8) :=
  (range 256).filterMap fun slot =>
    if image.InUse slot then some (storedName (image.entry slot)) else none

theorem mem_namesListed : name ∈ namesListed image ↔ ∃ slot < 256, image.Names name slot := by
  simp only [namesListed, mem_filterMap, mem_range]
  constructor
  · rintro ⟨slot, hslot, hname⟩
    by_cases hinUse : image.InUse slot
    · rw [if_pos hinUse, Option.some_inj] at hname
      exact ⟨slot, hslot, hinUse, hname⟩
    · rw [if_neg hinUse] at hname
      cases hname
  · rintro ⟨slot, hslot, hinUse, hname⟩
    exact ⟨slot, hslot, by rw [if_pos hinUse, hname]⟩

theorem mem_namesListed_iff_files : name ∈ namesListed image ↔ image.files name ≠ none := by
  rw [mem_namesListed, Image.files, Ne, Option.map_eq_none_iff, lookup_eq_none_iff]
  push Not
  rfl

theorem nodup_namesListed (hdistinct : image.table.Distinct) : (namesListed image).Nodup := by
  refine Nodup.filterMap ?_ nodup_range
  intro s t name hs ht
  have hnames : ∀ slot, name ∈ (if image.InUse slot then some (storedName (image.entry slot))
      else none) → image.Names name slot := by
    intro slot hslot
    by_cases hinUse : image.InUse slot
    · rw [if_pos hinUse, Option.mem_some_iff] at hslot
      exact ⟨hinUse, hslot⟩
    · rw [if_neg hinUse] at hslot
      cases hslot
  exact Image.distinct_iff.mp hdistinct s t name (hnames s hs) (hnames t ht)

theorem map_listed (hdistinct : image.table.Distinct) :
    ((range 256).filterMap (listed image)).map (fun entry => (entry.name, entry.size))
      = (namesListed image).map fun name =>
        (lossyName name, ((image.files name).getD []).length) := by
  rw [namesListed, map_filterMap, map_filterMap]
  refine filterMap_congr fun slot hslot => ?_
  by_cases hinUse : image.InUse slot
  · have hfiles : image.files (storedName (image.entry slot)) = some (image.contents slot) := by
      rw [Image.files, lookup_of_names (mem_range.mp hslot) hdistinct ⟨hinUse, rfl⟩]
      rfl
    rw [listed, if_pos hinUse, if_pos hinUse, Option.map_some, Option.map_some, hfiles,
      Option.getD_some, length_contents]
  · rw [listed, if_neg hinUse, if_neg hinUse]
    rfl

end Volume

end Kaguya.FileSystem
