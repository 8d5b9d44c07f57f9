import Kaguya.FileSystem.Handles

/-!
# The names in the directory

The directory stores a name in 22 bytes and reads it back up to the first NUL. A name without a NUL
comes back as it was passed, so calls with such names keep the names of the directory apart and find
again what they have put there, on any disk and wherever the device fails. A name with a NUL is
stored cut short, and the next call does not find it.
-/

namespace Kaguya.FileSystem

open Prog Device

namespace Volume

variable {v v' : Volume} {slot : Nat} {name : List UInt8}

def UniqueNames (image : Image) : Prop :=
  ∀ s t, image.InUse s → image.InUse t → storedName (image.entry s) = storedName (image.entry t) →
  s = t

theorem NamesKept.unique (h : v.NamesKept v') (hunique : UniqueNames v.image) :
    UniqueNames v'.image := by
  intro s t hs ht heq
  rw [h.name, h.name] at heq
  exact hunique s t ((h.inUse_iff s).mp hs) ((h.inUse_iff t).mp ht) heq

variable {entry : Buffer} {t : Nat} {image : Image}

theorem Edited.entry_of_ne (h : v.Edited v' slot entry) (ht : t ≠ slot) :
    v'.image.entry t = v.image.entry t := by
  rw [h.entry, Function.update_of_ne ht]

theorem Edited.entry_self (h : v.Edited v' slot entry) : v'.image.entry slot = entry := by
  rw [h.entry, Function.update_self]

theorem Cleared.not_inUse (h : v.Cleared v' slot) : ¬ v'.image.InUse slot := by
  rw [Image.InUse, h.1.entry_self]
  decide

theorem Cleared.names_iff (h : v.Cleared v' slot) (name : List UInt8) :
    v'.image.Names name t ↔ t ≠ slot ∧ v.image.Names name t := by
  by_cases ht : t = slot
  · rw [ht]
    exact ⟨fun hnames => absurd hnames.1 h.not_inUse, fun hnames => absurd rfl hnames.1⟩
  · rw [Image.Names, Image.InUse, h.1.entry_of_ne ht]
    exact ⟨fun hnames => ⟨ht, hnames⟩, fun hnames => hnames.2⟩

theorem Cleared.unique (h : v.Cleared v' slot) (hunique : UniqueNames v.image) :
    UniqueNames v'.image := by
  intro s t hs ht heq
  have hsNames := (h.names_iff (storedName (v'.image.entry s))).mp ⟨hs, rfl⟩
  have htNames := (h.names_iff (storedName (v'.image.entry s))).mp ⟨ht, heq.symm⟩
  exact hunique s t hsNames.2.1 htNames.2.1 (hsNames.2.2.trans htNames.2.2.symm)

theorem Filled.unique (h : v.Filled v' slot entry) (hunique : UniqueNames v.image)
    (hfresh : ∀ t, v.image.InUse t → storedName (v.image.entry t) ≠ storedName entry) :
    UniqueNames v'.image := by
  obtain ⟨_, hedited, _⟩ := h
  -- an entry in use is the new one or an old one that has another name
  have hold : ∀ t, t ≠ slot → v'.image.InUse t →
      v.image.InUse t ∧ storedName (v'.image.entry t) = storedName (v.image.entry t) := by
    intro t ht hinUse
    rw [Image.InUse, hedited.entry_of_ne ht] at hinUse
    exact ⟨hinUse, by rw [hedited.entry_of_ne ht]⟩
  have hnew : storedName (v'.image.entry slot) = storedName entry := by rw [hedited.entry_self]
  intro s t hs ht heq
  by_cases hsNew : s = slot
  · by_cases htNew : t = slot
    · rw [hsNew, htNew]
    · obtain ⟨htOld, htName⟩ := hold t htNew ht
      rw [hsNew, hnew, htName] at heq
      exact absurd heq.symm (hfresh t htOld)
  obtain ⟨hsOld, hsName⟩ := hold s hsNew hs
  by_cases htNew : t = slot
  · rw [htNew, hnew, hsName] at heq
    exact absurd heq (hfresh s hsOld)
  · obtain ⟨htOld, htName⟩ := hold t htNew ht
    rw [hsName, htName] at heq
    exact hunique s t hsOld htOld heq

theorem lookup_of_unique (hunique : UniqueNames v.image) (hnames : v.image.Names name slot) :
    v.image.lookup name = some slot := by
  refine lookup_eq_some_iff.mpr ⟨Image.inUse_lt hnames.1, hnames, fun j hj hother => ?_⟩
  have heq := hunique j slot hother.1 hnames.1 (hother.2.trans hnames.2.symm)
  omega

theorem Removal.unique (h : v.Removal name v') (hunique : UniqueNames v.image) :
    UniqueNames v'.image ∧ v'.image.lookup name = none := by
  unfold Removal at h
  cases hlookup : v.image.lookup name with
  | none =>
    rw [hlookup] at h
    rw [h.image]
    exact ⟨hunique, hlookup⟩
  | some slot =>
    rw [hlookup] at h
    refine ⟨h.unique hunique, lookup_eq_none_iff.mpr fun t _ hnames => ?_⟩
    obtain ⟨hne, hold⟩ := (h.names_iff name).mp hnames
    have hslot := (lookup_eq_some_iff.mp hlookup).2.1
    exact hne (hunique t slot hold.1 hslot.1 (hold.2.trans hslot.2.symm))

theorem Removal.later (h : v.Removal name v') : Later v.device v'.device := by
  unfold Removal at h
  cases hlookup : v.image.lookup name with
  | none =>
    rw [hlookup] at h
    exact h.later
  | some =>
    rw [hlookup] at h
    exact h.1.later

theorem Filled.finds {first size : Nat} (h : v.Filled v' slot ((newEntry name first size).upTo 32))
    (hunique : UniqueNames v.image) (hlookup : v.image.lookup name = none) (hname : validName name)
    (hnul : 0 ∉ name) : UniqueNames v'.image ∧ v'.image.lookup name = some slot := by
  have hstored : storedName ((newEntry name first size).upTo 32) = name := by
    unfold validName at hname
    rw [storedName_newEntry (by omega), takeWhile_of_nulFree hnul]
  have hunique' : UniqueNames v'.image := by
    refine h.unique hunique fun t ht heq => ?_
    exact lookup_eq_none_iff.mp hlookup t (Image.inUse_lt ht) ⟨ht, heq.trans hstored⟩
  refine ⟨hunique', lookup_of_unique hunique' ⟨?_, ?_⟩⟩
  · rw [Image.InUse, h.2.1.entry_self, Buffer.upTo_of_lt (by decide)]
    exact newEntry_mark
  · rw [h.2.1.entry_self, hstored]

def Finds (image : Image) : Op → Reply → Prop
  | .create name input, _ => ∃ slot first, image.lookup name = some slot
      ∧ image.entry slot = (newEntry name first input.length).upTo 32
  | .openFile name _ _, .handle id => image.lookup name = some id.slot
  | _, _ => True

theorem exec_finds {op : Op} (hs : 81 ≤ v.device.sectors) (hunique : UniqueNames v.image)
    (hnul : op.NulFree) (hop : op ≠ .format) : wp (exec op)
      (fun reply v' => Later v.device v'.device ∧ UniqueNames v'.image ∧ Finds v'.image op reply)
      (fun _ v' => Later v.device v'.device ∧ UniqueNames v'.image) v := by
  have hkept : ∀ v', v.NamesKept v' → Later v.device v'.device ∧ UniqueNames v'.image :=
    fun v' h => ⟨h.later, h.unique hunique⟩
  have hreading : op.Reading → wp (exec op) (fun _ v' => Later v.device v'.device
    ∧ UniqueNames v'.image)
      (fun _ v' => Later v.device v'.device ∧ UniqueNames v'.image) v := fun h =>
    wp_mono (exec_keeps h).wp (fun _ v' hquiet => hkept v' hquiet.namesKept)
      fun _ v' hquiet => hkept v' hquiet.namesKept
  cases op with
  | format => exact absurd rfl hop
  | create =>
    rw [exec, wp_bind, create, wp_ite]
    refine ⟨fun _ => hkept v (NamesKept.refl v), fun hname => ?_⟩
    rw [wp_ite]
    refine ⟨fun _ => hkept v (NamesKept.refl v), fun _ => ?_⟩
    refine wp_seq (removeOld_removes hs) ?_ fun _ v1 h => hkept v1 h.1
    rintro _ v1 ⟨_, hremoval⟩
    obtain ⟨hunique1, hlookup1⟩ := Removal.unique hremoval hunique
    have hlater1 := Removal.later hremoval
    refine wp_mono (store_fills (hlater1.le_sectors hs)) ?_ ?_
    · rintro _ v2 ⟨slot, first, hfilled⟩
      obtain ⟨hunique2, hlookup2⟩ := hfilled.finds hunique1 hlookup1 hname hnul
      exact ⟨hlater1.trans hfilled.2.1.later, hunique2, slot, first, hlookup2,
        hfilled.2.1.entry_self⟩
    · intro _ v2 h
      exact ⟨hlater1.trans h.later, h.unique hunique1⟩
  | delete =>
    rw [exec]
    refine wp_seq (delete_clears hs) ?_ fun _ v1 h => hkept v1 h
    rintro _ v1 ⟨slot, _, hcleared⟩
    exact ⟨hcleared.1.later, hcleared.unique hunique, trivial⟩
  | openFile name =>
    rw [exec]
    refine wp_seq (openFile_opens hs) ?_ fun _ v1 h => hkept v1 h.1
    rintro id v1 ⟨hname, _, _, hopened⟩
    cases hlookup : v.image.lookup name with
    | none =>
      rw [hlookup] at hopened
      obtain ⟨hunique1, hlookup1⟩ := hopened.finds hunique hlookup hname hnul
      exact ⟨hopened.2.1.later, hunique1, hlookup1⟩
    | some =>
      rw [hlookup] at hopened
      obtain ⟨rfl, hnames⟩ := hopened
      have hslot := (lookup_eq_some_iff.mp hlookup).2.1
      have hunique1 := hnames.unique hunique
      refine ⟨hnames.later, hunique1, lookup_of_unique hunique1 ⟨?_, ?_⟩⟩
      · exact (hnames.inUse_iff _).mpr hslot.1
      · rw [hnames.name, hslot.2]
  | writeAt =>
    rw [exec]
    refine wp_seq (writeAt_keeps hs) ?_ fun _ v1 h => hkept v1 h
    intro _ v1 h
    exact ⟨h.later, h.unique hunique, trivial⟩
  | check | size | readAt | readFile | list =>
    exact wp_mono (hreading trivial) (fun _ _ h => ⟨h.1, h.2, trivial⟩) fun _ _ h => h

theorem run_unique {ops : List Op} (hs : 81 ≤ v.device.sectors) (hunique : UniqueNames v.image)
    (hops : ∀ op ∈ ops, op.NulFree ∧ op ≠ .format) :
    81 ≤ (v.run ops).device.sectors ∧ UniqueNames (v.run ops).image := by
  refine run_invariant (P := fun u => 81 ≤ u.device.sectors ∧ UniqueNames u.image)
    ⟨hs, hunique⟩ ?_
  rintro u ⟨hsu, huniqueu⟩ op hop
  have hstep := wp_final (R := fun u' => Later u.device u'.device ∧ UniqueNames u'.image)
    (wp_mono (exec_finds hsu huniqueu (hops op hop).1 (hops op hop).2) (fun _ _ h => ⟨h.1, h.2.1⟩)
    fun _ _ h => h)
  exact ⟨by rw [after, hstep.1.sectors]; exact hsu, hstep.2⟩

/-- **Names are unique and findable.** After any calls that pass no name with a NUL, no two entries
have the same name, and a call that has put a name into the directory has put it where it is found.
-/
theorem names_unique_and_findable {ops : List Op} (hs : 81 ≤ v.device.sectors)
    (hunique : UniqueNames v.image) (hops : ∀ op ∈ ops, op.NulFree ∧ op ≠ .format) :
    UniqueNames (v.run ops).image ∧ ∀ op reply, op.NulFree ∧ op ≠ .format →
      (exec op (v.run ops)).1 = .ok reply → Finds ((v.run ops).after op).image op reply := by
  obtain ⟨hs', hunique'⟩ := run_unique hs hunique hops
  refine ⟨hunique', fun op reply hop hok => ?_⟩
  have hrun : exec op (v.run ops) = (.ok reply, (v.run ops).after op) := Prod.ext hok rfl
  exact (wp_ok (exec_finds hs' hunique' hop.1 hop.2) hrun).2.2

theorem Empty.unique (h : Empty image) : UniqueNames image := fun s _ hs =>
  absurd hs (h.not_inUse s)

theorem names_unique_and_findable_blank : ∃ v0, format blank = (.ok (), v0)
    ∧ UniqueNames (v0.run [.create [97] [1], .openFile [98] true false, .delete [97]]).image := by
  obtain ⟨v0, hformat, hsame, _, hempty⟩ := format_ok blank_fits.metadata fun _ => rfl
  refine ⟨v0, hformat, (names_unique_and_findable ?_ hempty.unique ?_).1⟩
  · rw [hsame.later.sectors]
    exact blank_fits.metadata
  · decide

theorem lookup_of_nul (hnul : 0 ∈ name) : image.lookup name = none := by
  refine lookup_eq_none_iff.mpr fun slot _ hnames => ?_
  rw [← hnames.2, storedName, Buffer.slice, List.mem_map] at hnul
  obtain ⟨i, hi, hzero⟩ := hnul
  have hlt : i < nameLength (image.entry slot) := by simpa using hi
  exact ne_zero_of_lt_nameLength hlt (by simpa using hzero)

theorem exec_openFile_of_vacant {free : Nat} (hs : 81 ≤ v.device.sectors)
    (hdevice : v.device.NonFailing) (hboot : v.image.boot = magic)
    (hlookup : v.image.lookup name = none) (hfree : v.image.vacant = some free)
    (hname : validName name) : ∃ id v', exec (.openFile name true false) v = (.ok (.handle id), v')
      ∧ v.Filled v' free ((newEntry name 0 0).upTo 32) := by
  have hexec : wp (exec (.openFile name true false)) (fun reply v' => ∃ id, reply = .handle id
        ∧ v.Filled v' free ((newEntry name 0 0).upTo 32)) (fun _ _ => False) v := by
    rw [exec]
    refine wp_seq (wp_and (openFile_of_vacant hs hdevice hboot hlookup hfree hname)
      (openFile_opens hs)) ?_ fun _ _ hfalse => hfalse.1
    rintro id v' ⟨_, _, _, _, hopened⟩
    rw [hlookup] at hopened
    have hslot : id.slot = free := Option.some.inj (hopened.1.symm.trans hfree)
    rw [hslot] at hopened
    exact ⟨id, rfl, hopened⟩
  obtain ⟨_, v', hrun, id, rfl, hfilled⟩ := wp_returns hexec
  exact ⟨id, v', hrun, hfilled⟩

/-- Opening the name `a` NUL on an empty volume makes an entry that the name does not find, and
opening it again makes another one with the same stored name. -/
theorem nul_is_not_findable : ∃ v0 v1 v2 id1 id2, format blank = (.ok (), v0)
    ∧ exec (.openFile [97, 0] true false) v0 = (.ok (.handle id1), v1)
    ∧ v1.image.lookup [97, 0] = none
    ∧ exec (.openFile [97, 0] true false) v1 = (.ok (.handle id2), v2)
    ∧ ¬ UniqueNames v2.image := by
  obtain ⟨v0, hformat, hsame, _, hempty⟩ := format_ok blank_fits.metadata fun _ => rfl
  have hname : validName [97, 0] := by unfold validName; decide
  have hdevice0 : v0.device.NonFailing := hsame.later.nonFailing fun _ => rfl
  have hs0 : 81 ≤ v0.device.sectors := by
    rw [hsame.later.sectors]
    exact blank_fits.metadata
  have hvacant0 : v0.image.vacant = some 0 := by
    rw [vacant_eq_some_iff, hempty.entries]
    exact ⟨by decide, rfl, fun j hj => absurd hj (Nat.not_lt_zero j)⟩
  obtain ⟨id1, v1, hopen1, _, hedited1, _⟩ := exec_openFile_of_vacant hs0 hdevice0 hempty.boot
    (hempty.lookup _) hvacant0 hname
  have hmark : ((newEntry [97, 0] 0 0).upTo 32) 28 = 1 := by
    rw [Buffer.upTo_of_lt (by decide), newEntry_mark]
  have hvacant1 : v1.image.vacant = some 1 := by
    rw [vacant_eq_some_iff, hedited1.entry_of_ne (by decide), hempty.entries]
    refine ⟨by decide, rfl, fun j hj => ?_⟩
    obtain rfl : j = 0 := by omega
    rw [hedited1.entry_self, hmark]
    decide
  have hs1 := hedited1.later.le_sectors hs0
  obtain ⟨id2, v2, hopen2, _, hedited2, _⟩ := exec_openFile_of_vacant hs1
    (hedited1.later.nonFailing hdevice0) (hedited1.boot.trans hempty.boot)
    (lookup_of_nul (by decide)) hvacant1 hname
  refine ⟨v0, v1, v2, id1, id2, hformat, hopen1, lookup_of_nul (by decide), hopen2, ?_⟩
  intro hunique
  have hentry0 : v2.image.entry 0 = (newEntry [97, 0] 0 0).upTo 32 := by
    rw [hedited2.entry_of_ne (by decide), hedited1.entry_self]
  have hentry1 : v2.image.entry 1 = (newEntry [97, 0] 0 0).upTo 32 := hedited2.entry_self
  have heq : 0 = 1 := hunique 0 1 (by rw [Image.InUse, hentry0, hmark])
    (by rw [Image.InUse, hentry1, hmark]) (by rw [hentry0, hentry1])
  exact absurd heq (by decide)

end Volume

end Kaguya.FileSystem
