import Kaguya.FileSystem.Chains

/-!
# The volume refines the abstract file system

On a device that does not fail, and as long as no caller passes a name with a NUL in it, the
directory never holds a name twice. The table of files then represents the map that `Spec` talks
about, and each call that succeeds does to the map what `Meets` says. A call that fails may lose the
file it works on, but no other.
-/

namespace Kaguya.FileSystem

open Function Prog Device

namespace Volume

variable {v : Volume} {paths : Nat → List Nat}

instance (v : Volume) (id : FileId) : Decidable (v.Good id) :=
  inferInstanceAs (Decidable (_ ∧ _ ∧ _))

def resolve (v : Volume) (id : FileId) : Option (List UInt8) :=
  if v.Good id then some (storedName (v.image.entry id.slot)) else none

def Op.NulFree : Op → Prop
  | .create name _ | .delete name | .openFile name _ _ | .readFile name => 0 ∉ name
  | _ => True

instance : DecidablePred Op.NulFree
  | .create name _ | .delete name | .openFile name _ _ | .readFile name =>
    inferInstanceAs (Decidable (0 ∉ name))
  | .check | .format | .size _ | .readAt _ _ _ | .writeAt _ _ _ | .list =>
    inferInstanceAs (Decidable True)

structure Coherent (v : Volume) : Prop where
  working : Working v.clusters v
  distinct : v.image.table.Distinct

variable {name contents : List UInt8} {v' : Volume} {slot : Nat} {id : FileId} {op : Op}
  {truncate : Bool}

theorem takeWhile_of_nulFree (h : 0 ∉ name) : name.takeWhile (· ≠ 0) = name := by
  rw [List.takeWhile_eq_self_iff]
  intro b hb
  simpa using fun hzero : b = 0 => h (hzero ▸ hb)

theorem represents (hdistinct : v.image.table.Distinct) : v.image.table.Represents v.image.files :=
  represents_files (fun _ hs => Image.inUse_lt hs) hdistinct

variable {files : Files} {input : List UInt8} {requested : Option Nat} {v0 : Volume}

theorem files_eq (hdistinct : v'.image.table.Distinct)
    (hrepresents : v'.image.table.Represents files) :
    v'.image.files = files := (represents hdistinct).unique hrepresents

theorem files_filled {table : Table (List UInt8) (List UInt8)} (hdistinct : table.Distinct)
    (hrepresents : table.Represents files) (helsewhere : table.Elsewhere slot name)
    (hslot : ∀ name' contents', table slot = some (name', contents') → name' = name)
    (htable : v'.image.table = update table slot (some (name, contents))) :
    v'.image.table.Distinct ∧ v'.image.files = update files name (some contents) := by
  have hdistinct' : v'.image.table.Distinct := by
    rw [htable]
    exact hdistinct.fill helsewhere
  refine ⟨hdistinct', files_eq hdistinct' ?_⟩
  rw [htable]
  exact hrepresents.fill helsewhere hslot

theorem table_of_lookup (h : v.image.lookup name = some slot) :
    v.image.table slot = some (name, v.image.contents slot) :=
  Image.table_eq_some_iff.mpr ⟨(lookup_eq_some_iff.mp h).2.1, rfl⟩

section
variable (hdistinct : v.image.table.Distinct)
include hdistinct

theorem files_rewritten {old : List UInt8} (hslot : v.image.table slot = some (name, old))
    (htable : v'.image.table = update v.image.table slot (some (name, contents))) :
    v'.image.table.Distinct ∧ v'.image.files = update v.image.files name (some contents) := by
  refine files_filled hdistinct (represents hdistinct) (hdistinct.elsewhere hslot) ?_ htable
  intro name' contents' hslot'
  rw [hslot, Option.some_inj, Prod.mk.injEq] at hslot'
  exact hslot'.1.symm

theorem cleared_spec (name : List UInt8) :
    (v.cleared name).Distinct ∧ (v.cleared name).Represents (update v.image.files name none)
      ∧ ∀ slot contents, v.cleared name slot ≠ some (name, contents) := by
  have hrepresents := represents hdistinct
  cases hlookup : v.image.lookup name with
  | some slot =>
    have hslot := table_of_lookup hlookup
    have hcleared : v.cleared name = update v.image.table slot none := by
      rw [cleared, hlookup]
    have hrepresents' := hrepresents.empty hslot (hdistinct.elsewhere hslot)
    rw [hcleared]
    refine ⟨hdistinct.empty slot, hrepresents', ?_⟩
    intro t contents ht
    have hsome := (hrepresents' name contents).mpr ⟨t, ht⟩
    rw [update_self] at hsome
    cases hsome
  | none =>
    have hcleared : v.cleared name = v.image.table := by rw [cleared, hlookup]
    have hnone : v.image.files name = none := by
      rw [Image.files, hlookup]
      rfl
    rw [hcleared, ← hnone, update_eq_self]
    exact ⟨hdistinct, hrepresents, hrepresents.eq_none_iff.mp hnone⟩

theorem files_created (hvacant : v.cleared name slot = none)
    (htable : v'.image.table = update (v.cleared name) slot (some (name, contents))) :
    v'.image.table.Distinct ∧ v'.image.files = update v.image.files name (some contents) := by
  obtain ⟨hdistinct', hrepresents, hnone⟩ := cleared_spec hdistinct name
  have hfilled := files_filled hdistinct' hrepresents (fun t x ht => absurd ht (hnone t x))
    (fun name' contents' hslot => by
      rw [hvacant] at hslot
      cases hslot) htable
  rwa [update_idem] at hfilled

end

theorem resolve_of_table (hslot : id.slot < 256)
    (hgeneration : id.generation = v.generations id.slot)
    (htable : v.image.table id.slot = some (name, contents)) : v.resolve id = some name := by
  obtain ⟨⟨hinUse, hstored⟩, _⟩ := Image.table_eq_some_iff.mp htable
  rw [resolve, if_pos ⟨hslot, hgeneration.symm, hinUse⟩, hstored]

theorem files_of_good (hdistinct : v.image.table.Distinct) (hgood : v.Good id) :
    v.resolve id = some (storedName (v.image.entry id.slot)) ∧ v.image.table id.slot
          = some (storedName (v.image.entry id.slot), v.image.contents id.slot)
      ∧ v.image.files (storedName (v.image.entry id.slot)) = some (v.image.contents id.slot) := by
  have htable : v.image.table id.slot = some (storedName (v.image.entry id.slot),
      v.image.contents id.slot) :=
    if_pos hgood.2.2
  exact ⟨if_pos hgood, htable, (represents hdistinct _ _).mpr ⟨id.slot, htable⟩⟩

def Fulfils (v : Volume) (op : Op) (reply : Reply) (v' : Volume) : Prop :=
  v'.image.table.Distinct ∧ Meets v.image.files v.resolve v'.image.files v'.resolve op reply

def Spares (v : Volume) (op : Op) (v' : Volume) : Prop :=
  v'.image.table.Distinct
    ∧ ∀ name, subject v.resolve op ≠ some name → v'.image.files name = v.image.files name

theorem spares_of_image (hdistinct : v.image.table.Distinct) (himage : v'.image = v.image) :
    v.Spares op v' := by
  rw [Spares, himage]
  exact ⟨hdistinct, fun _ _ => rfl⟩

theorem spares_of_update {target : List UInt8} {contents : Option (List UInt8)}
    (hdistinct : v'.image.table.Distinct) (hsubject : subject v.resolve op = some target)
    (hfiles : v'.image.files = update v.image.files target contents) : v.Spares op v' := by
  refine ⟨hdistinct, fun name hname => ?_⟩
  rw [hfiles]
  refine update_of_ne (fun heq => hname ?_) ..
  rw [hsubject, heq]

theorem Interrupted.not_nonFailing {n : Nat} {path : List Nat} (h : v.Interrupted n path v') :
    ¬ v.device.NonFailing := by
  obtain ⟨_, _, hbroke, _⟩ := h
  exact hbroke.not_nonFailing

section
variable (h : v.Coherent)
include h

theorem create_meets (hname : 0 ∉ name) :
    wp (create name input) (fun _ => v.Fulfils (.create name input) .done)
      (fun _ => v.Spares (.create name input)) v := by
  obtain ⟨paths, hlayout⟩ := h.working.chains
  refine wp_mono (create_wp h.working.fits hlayout) ?_ ?_
  · rintro _ v' ⟨_, slot, hvacant, htable, _⟩
    rw [takeWhile_of_nulFree hname] at htable
    exact files_created h.distinct hvacant htable
  rintro _ v' ⟨_, ⟨himage, _⟩ | ⟨_, _, _, _, _, hinterrupted⟩ | ⟨htable, _⟩⟩
  · exact spares_of_image h.distinct himage
  · exact absurd h.working.nonFailing hinterrupted.not_nonFailing
  · obtain ⟨hdistinct, hrepresents, _⟩ := cleared_spec h.distinct name
    rw [← htable] at hdistinct hrepresents
    exact spares_of_update hdistinct rfl (files_eq hdistinct hrepresents)

theorem delete_meets :
    wp (delete name) (fun _ => v.Fulfils (.delete name) .done) (fun _ => v.Spares (.delete name))
      v := by
  obtain ⟨paths, hlayout⟩ := h.working.chains
  refine wp_mono (delete_wp h.working.fits hlayout) ?_ ?_
  · rintro _ v' ⟨_, hfound, htable, _⟩
    obtain ⟨hdistinct, hrepresents, _⟩ := cleared_spec h.distinct name
    rw [← htable] at hdistinct hrepresents
    refine ⟨hdistinct, ?_, files_eq hdistinct hrepresents⟩
    rw [Image.files, Ne, Option.map_eq_none_iff]
    exact hfound
  · rintro _ v' ⟨_, himage | ⟨_, _, _, hinterrupted⟩⟩
    · exact spares_of_image h.distinct himage
    · exact absurd h.working.nonFailing hinterrupted.not_nonFailing

theorem openFile_meets {create : Bool} (hname : 0 ∉ name) : wp (openFile name create truncate)
      (fun id => v.Fulfils (.openFile name create truncate) (.handle id))
      (fun _ => v.Spares (.openFile name create truncate)) v := by
  obtain ⟨paths, hlayout⟩ := h.working.chains
  refine wp_mono (openFile_wp h.working.fits hlayout) ?_ ?_
  · rintro id v' ⟨_, hslot, hgeneration, ⟨hlookup, htable⟩ | ⟨hlookup, hcreate, hvacant, htable⟩, _⟩
    · have hold := table_of_lookup hlookup
      have hsome : v.image.files name = some (v.image.contents id.slot) := by
        rw [Image.files, hlookup]
        rfl
      by_cases htruncate : truncate = true
      · rw [if_pos htruncate] at htable
        obtain ⟨hdistinct, hfiles⟩ := files_rewritten h.distinct hold htable
        refine ⟨hdistinct, resolve_of_table hslot hgeneration (by rw [htable, update_self]), ?_, ?_⟩
        · rw [hsome]
          intro hnone
          cases hnone
        · rw [if_pos (.inr htruncate), hfiles]
      · rw [if_neg htruncate] at htable
        have hdistinct : v'.image.table.Distinct := htable ▸ h.distinct
        refine ⟨hdistinct, resolve_of_table hslot hgeneration (htable ▸ hold), ?_, ?_⟩
        · rw [hsome]
          intro hnone
          cases hnone
        · rw [hsome, if_neg (by simpa using htruncate)]
          exact files_eq hdistinct (htable ▸ represents h.distinct)
    · rw [takeWhile_of_nulFree hname] at htable
      have hcleared : v.cleared name = v.image.table := by rw [cleared, hlookup]
      have hnone : v.image.files name = none := by
        rw [Image.files, hlookup]
        rfl
      rw [← hcleared] at htable hvacant
      obtain ⟨hdistinct, hfiles⟩ := files_created h.distinct hvacant htable
      refine ⟨hdistinct, resolve_of_table hslot hgeneration (by rw [htable, update_self]),
        fun _ => hcreate, ?_⟩
      rw [if_pos (.inl hnone), hfiles]
  · rintro _ v' ⟨_, htable | ⟨slot, hlookup, htable⟩, _⟩
    · have hdistinct : v'.image.table.Distinct := htable ▸ h.distinct
      refine ⟨hdistinct, fun _ _ => ?_⟩
      rw [files_eq hdistinct (htable ▸ represents h.distinct)]
    · obtain ⟨hdistinct, hfiles⟩ := files_rewritten h.distinct (table_of_lookup hlookup) htable
      exact spares_of_update hdistinct rfl hfiles

theorem writeAt_meets : wp (writeAt id requested input)
      (fun reply => v.Fulfils (.writeAt id requested input) (.written reply.1 reply.2))
      (fun _ => v.Spares (.writeAt id requested input)) v := by
  obtain ⟨paths, hlayout⟩ := h.working.chains
  refine wp_mono (writeAt_wp h.working.fits hlayout) ?_ ?_
  · rintro ⟨offset, count⟩ v' ⟨hgood, _, _, hoffset, hcase⟩
    obtain ⟨hresolve, htable, hfiles⟩ := files_of_good h.distinct hgood
    rw [← length_contents] at hoffset
    rcases hcase with ⟨rfl, hcount, himage⟩ | ⟨hpos, hle, _, _, htable'⟩
    · rw [Fulfils, himage]
      refine ⟨h.distinct, _, _, hresolve, hfiles, hoffset, by omega, fun hne => absurd rfl hne, ?_⟩
      exact (if_pos hcount).symm
    · obtain ⟨hdistinct, hfiles'⟩ := files_rewritten h.distinct htable htable'
      refine ⟨hdistinct, _, _, hresolve, hfiles, hoffset, hle, fun _ => hpos, ?_⟩
      rw [hfiles', if_neg (Nat.ne_of_gt hpos)]
  · rintro _ v' ⟨_, _, ⟨himage, _⟩ | ⟨hgood, _, contents, _, _, _, htable'⟩⟩
    · exact spares_of_image h.distinct himage
    · obtain ⟨hresolve, htable, _⟩ := files_of_good h.distinct hgood
      obtain ⟨hdistinct, hfiles'⟩ := files_rewritten h.distinct htable htable'
      exact spares_of_update hdistinct hresolve hfiles'

theorem format_meets :
    wp format (fun _ => v.Fulfils .format .done) (fun _ => v.Spares .format) v := by
  refine wp_mono (format_wp h.working.fits.metadata) ?_ ?_
  · rintro _ v' ⟨_, _, hempty⟩
    have hdistinct : v'.image.table.Distinct := by
      rw [hempty.table]
      intro s t name x y hs
      cases hs
    refine ⟨hdistinct, files_eq hdistinct ?_⟩
    rw [hempty.table]
    intro name contents
    simp
  · rintro _ v' ⟨_, hfaulted⟩
    exact absurd h.working.nonFailing hfaulted.2

theorem exec_meets (hop : op.NulFree) : wp (exec op) (v.Fulfils op) (fun _ => v.Spares op) v := by
  obtain ⟨paths, hlayout⟩ := h.working.chains
  have hfits := h.working.fits
  have hquiet : ∀ v', v.Quiet v' → v.Spares op v' := fun v' hq =>
    spares_of_image h.distinct hq.image
  have hsame : ∀ v' reply, v.Quiet v' →
      Meets v.image.files v.resolve v.image.files v'.resolve op reply → v.Fulfils op reply v' := by
    intro v' reply hq hmeets
    rw [Fulfils, hq.image]
    exact ⟨h.distinct, hmeets⟩
  cases op with
  | check =>
    rw [exec]
    refine wp_seq (check_wp hfits.metadata) ?_ ?_
    · rintro _ v' ⟨_, hq, _⟩
      exact hsame v' .done hq rfl
    · rintro _ v' (⟨_, _, hq⟩ | ⟨hq, _⟩) <;> exact hquiet v' hq
  | format =>
    rw [exec, wp_bind]
    exact format_meets h
  | create =>
    rw [exec, wp_bind]
    exact create_meets h hop
  | delete =>
    rw [exec, wp_bind]
    exact delete_meets h
  | openFile =>
    rw [exec, wp_bind]
    exact openFile_meets h hop
  | size =>
    rw [exec]
    refine wp_seq (size_wp hfits.metadata) ?_ fun _ v' hrefused => hquiet v' hrefused.1
    rintro bytes v' ⟨hgood, hbytes, hq⟩
    obtain ⟨hresolve, _, hfiles⟩ := files_of_good h.distinct hgood
    rw [← length_contents] at hbytes
    exact hsame v' _ hq ⟨_, _, hresolve, hfiles, hbytes, rfl⟩
  | readAt =>
    rw [exec, wp_bind, wp_withOutput]
    refine wp_mono (readAt_wp hfits hlayout) ?_ fun _ s' hrefused => hquiet s'.volume hrefused.1
    rintro count s' ⟨hgood, houtput, hq⟩
    obtain ⟨hresolve, _, hfiles⟩ := files_of_good h.distinct hgood
    exact hsame s'.volume _ hq ⟨_, _, hresolve, hfiles, houtput, rfl⟩
  | readFile =>
    rw [exec]
    refine wp_seq (readFile_wp hfits hlayout) ?_ fun _ v' hq => hquiet v' hq
    rintro output v' ⟨hfiles, hq⟩
    exact hsame v' _ hq ⟨hfiles, rfl⟩
  | writeAt =>
    rw [exec, wp_bind]
    exact writeAt_meets h
  | list =>
    rw [exec]
    refine wp_seq (list_wp hfits.metadata) ?_ fun _ v' hq => hquiet v' hq
    rintro listed v' ⟨rfl, hq⟩
    exact hsame v' _ hq ⟨rfl, namesListed v.image, nodup_namesListed h.distinct,
      fun name => mem_namesListed_iff_files, map_listed h.distinct⟩

end

theorem Coherent.after (h : v.Coherent) (hop : op.NulFree) : (v.after op).Coherent := by
  have hworking := h.working.after op
  refine ⟨⟨hworking.nonFailing, hworking.fits, rfl, hworking.chains⟩, ?_⟩
  exact after_of_wp (wp_mono (exec_meets h hop) (fun _ _ hfulfils => hfulfils.1)
    fun _ _ hspares => hspares.1)

theorem coherent_of_format (hdevice : v.device.NonFailing) (hfits : v.Fits)
    (hformat : format v = (.ok (), v0)) : v0.Coherent := by
  have hworking := working_of_format hdevice hfits hformat
  obtain ⟨v', hrun, _, _, hempty⟩ := format_ok hfits.metadata hdevice
  obtain rfl : v0 = v' := (Prod.mk.inj (hformat.symm.trans hrun)).2
  refine ⟨⟨hworking.nonFailing, hworking.fits, rfl, hworking.chains⟩, ?_⟩
  rw [hempty.table]
  intro s t name x y hs
  cases hs

theorem coherent_run (hdevice : v.device.NonFailing) (hfits : v.Fits)
    (hformat : format v = (.ok (), v0)) {ops : List Op} (hops : ∀ op ∈ ops, op.NulFree) :
    (v0.run ops).Coherent :=
  run_invariant (coherent_of_format hdevice hfits hformat)
    fun _ hu op hop => hu.after (hops op hop)

/-- **The volume refines the abstract file system.** After any run on a formatted volume, a call
that succeeds does what the abstract file system asks of it, and no call, successful or not, changes
a file that it does not work on. -/
theorem volume_refines {v0 : Volume} (hdevice : v.device.NonFailing) (hfits : v.Fits)
    (hformat : format v = (.ok (), v0)) {ops : List Op} (hops : ∀ op ∈ ops, op.NulFree) {op : Op}
    (hop : op.NulFree) :
    (∀ reply, (exec op (v0.run ops)).1 = .ok reply →
      Meets (v0.run ops).image.files (v0.run ops).resolve ((v0.run ops).after op).image.files
        ((v0.run ops).after op).resolve op reply)
    ∧ (op ≠ .format → ∀ name, subject (v0.run ops).resolve op ≠ some name →
      ((v0.run ops).after op).image.files name = (v0.run ops).image.files name) := by
  have hmeets := exec_meets (coherent_run hdevice hfits hformat hops) hop
  have hafter : (v0.run ops).after op = (exec op (v0.run ops)).2 := rfl
  unfold wp at hmeets
  rcases hexec : exec op (v0.run ops) with ⟨code | reply, v'⟩ <;> rw [hexec] at hmeets hafter
  · constructor
    · intro reply hreply
      cases hreply
    · intro _ name hname
      rw [hafter]
      exact hmeets.2 name hname
  · constructor
    · intro reply' hreply
      rw [hafter, ← Except.ok.inj hreply]
      exact hmeets.2
    · intro hformat' name hname
      rw [hafter]
      exact hmeets.2.frame hformat' hname

section
variable (hs : 81 ≤ v.device.sectors)
include hs

theorem openFile_of_vacant {free : Nat} (hdevice : v.device.NonFailing)
    (hboot : v.image.boot = magic) (hlookup : v.image.lookup name = none)
    (hfree : v.image.vacant = some free) (hname : validName name) : wp (openFile name true truncate)
      (fun id v' => id.slot = free ∧ ∃ entry, v'.image = v.image.setEntry free entry)
        (fun _ _ => False) v := by
  have hcontra : ∀ {v1 : Volume} {n : Nat} {code : Int} {d : Device}, v.Quiet v1 →
      v1.device.Failed n code d → False := by
    intro v1 n code d hquiet hfailed
    exact hfailed.faulted.2 (hquiet.later.nonFailing hdevice)
  rw [openFile]
  refine wp_seq (check_wp hs) ?_ ?_
  · rintro _ v1 ⟨_, hquiet1, _⟩
    have hs1 := hquiet1.later.le_sectors hs
    refine wp_seq (find_wp hs1 hname) ?_ fun _ _ hfailed => hcontra hquiet1 hfailed.2
    rintro found v2 ⟨rfl, hquiet2, _⟩
    have hquiet := hquiet1.trans hquiet2
    have hs2 := hquiet.later.le_sectors hs
    rw [hquiet1.image, hlookup]
    refine wp_seq (freeSlot_wp hs2) ?_ ?_
    · rintro slot v3 ⟨hvacant, hquiet3⟩
      have hs3 := hquiet3.later.le_sectors hs2
      refine wp_seq (writeEntry_wp hs3 (vacant_eq_some_iff.mp hvacant).1) ?_
        fun _ _ hfailed => hcontra (hquiet.trans hquiet3) hfailed.2.2
      rintro _ v4 ⟨himage, _, _, _⟩
      rw [hquiet.image, hfree] at hvacant
      obtain rfl := Option.some.inj hvacant
      rw [(hquiet.trans hquiet3).image] at himage
      exact ⟨rfl, _, himage⟩
    · rintro _ v3 ⟨_, ⟨_, hfull⟩ | ⟨_, hfaulted⟩⟩
      · rw [hquiet.image, hfree] at hfull
        cases hfull
      · exact hfaulted.2 (hquiet.later.nonFailing hdevice)
  · rintro _ v1 (⟨_, hmagic, _⟩ | ⟨_, hfailed⟩)
    · exact hmagic hboot
    · exact hcontra (Quiet.refl v) hfailed

theorem openFile_of_empty (hdevice : v.device.NonFailing) (hempty : Empty v.image)
    (hname : validName name) : wp (openFile name true truncate)
      (fun id v' => id.slot = 0 ∧ ∃ entry, v'.image = v.image.setEntry 0 entry) (fun _ _ => False)
        v := by
  have hvacant : v.image.vacant = some 0 := by
    rw [vacant_eq_some_iff, hempty.entries]
    exact ⟨by decide, rfl, fun j hj => absurd hj (Nat.not_lt_zero j)⟩
  exact openFile_of_vacant hs hdevice hempty.boot (hempty.lookup name) hvacant hname

theorem writeAt_nothing (hdevice : v.device.NonFailing) (hgood : v.Good id) :
    wp (writeAt id requested [])
      (fun reply v' => reply = (requested.getD (v.image.size id.slot), 0) ∧ v'.image = v.image)
        (fun _ _ => False) v := by
  rw [writeAt]
  refine wp_seq (opened_wp hs) ?_ ?_
  · rintro entry v1 ⟨_, rfl, hquiet⟩
    exact ⟨rfl, hquiet.image⟩
  · rintro _ v1 (⟨_, hstale, _⟩ | ⟨_, hfailed⟩)
    · exact hstale hgood
    · exact hfailed.faulted.2 hdevice

end

theorem openFile_blank : ∃ v0 v1 id, format blank = (.ok (), v0)
    ∧ exec (.openFile [97] true false) v0 = (.ok (.handle id), v1)
    ∧ v1.Coherent ∧ v1.clusters = 2 ∧ v1.Good id ∧ v1.image.files [97] = some []
    ∧ v1.image.boot = magic ∧ ∀ c, 2 ≤ c → v1.image.fat c = 0 := by
  obtain ⟨v0, hformat, hsame0, _, hempty⟩ := format_ok blank_fits.metadata fun _ => rfl
  have hdevice0 : v0.device.NonFailing := hsame0.later.nonFailing fun _ => rfl
  have hcoherent0 := coherent_of_format (fun _ => rfl) blank_fits hformat
  have hs0 := hcoherent0.working.fits.metadata
  have hopen : wp (exec (.openFile [97] true false))
      (fun reply v' => ∃ id, reply = .handle id ∧ (∃ entry, v'.image = v0.image.setEntry 0 entry)
        ∧ v0.Fulfils (.openFile [97] true false) (.handle id) v') (fun _ _ => False) v0 := by
    rw [exec]
    refine wp_seq (wp_and (openFile_of_empty hs0 hdevice0 hempty (by unfold validName; decide))
      (openFile_meets hcoherent0 (by decide))) ?_ fun _ _ hfalse => hfalse.1
    rintro id v' ⟨⟨_, hentry⟩, hfulfils⟩
    exact ⟨id, rfl, hentry, hfulfils⟩
  obtain ⟨_, v1, hexec, id, rfl, ⟨entry, himage⟩, _, hresolve, _, hfiles⟩ := wp_returns hopen
  have hafter : v0.after (.openFile [97] true false) = v1 := congrArg Prod.snd hexec
  have hworking := (working_of_format (fun _ => rfl) blank_fits hformat).after
    (.openFile [97] true false)
  rw [hafter] at hworking
  refine ⟨v0, v1, id, hformat, hexec, ?_, hworking.clusters, ?_, ?_, ?_, ?_⟩
  · rw [← hafter]
    exact hcoherent0.after (by decide)
  · by_contra hstale
    rw [resolve, if_neg hstale] at hresolve
    cases hresolve
  · rw [hfiles]
    split
    · exact update_self ..
    rename_i hold
    rw [not_or] at hold
    have hnone : v0.image.files [97] = none := by
      rw [(represents hcoherent0.distinct).eq_none_iff, hempty.table]
      intro s x hs
      cases hs
    exact absurd hnone hold.1
  · rw [himage]
    exact hempty.boot
  · rw [himage]
    exact hempty.free

theorem volume_refines_written : ∃ v0 v2 id, format blank = (.ok (), v0)
    ∧ exec (.writeAt id (some 0) [1]) (v0.run [.openFile [97] true false]) = (.ok (.written 0 1),
      v2)
    ∧ v2.image.files [97] = some [1] ∧ (v2.after (.create [98] [2])).image.files [97]
      = some [1] := by
  obtain ⟨v0, v1, id, hformat, hexec1, hcoherent, hclusters, hgood, hcontents, _, hfree⟩ :=
    openFile_blank
  have hopen : v0.after (.openFile [97] true false) = v1 := congrArg Prod.snd hexec1
  have hrun : v0.run [.openFile [97] true false] = v1 := by rw [run_cons, run_nil, hopen]
  obtain ⟨paths, hlayout⟩ := hcoherent.working.chains
  have hwrite : wp (exec (.writeAt id (some 0) [1])) (fun reply _ => reply = .written 0 1)
      (fun _ _ => False) v1 := by
    rw [exec]
    refine wp_seq (writeAt_wp hcoherent.working.fits hlayout) ?_ ?_
    · rintro ⟨offset, count⟩ v' ⟨_, _, _, rfl, ⟨hnil, _⟩ | ⟨hpos, hle, _⟩⟩
      · cases hnil
      · obtain rfl : count = 1 := Nat.le_antisymm hle hpos
        rfl
    rintro code v' ⟨_, _, ⟨_, haccepts⟩ | ⟨_, _, _, _, hspent, _⟩⟩
    · exact haccepts hcoherent.working.nonFailing ⟨hgood, by simp⟩
    -- the clusters are all free, so that the first byte finds one
    obtain ⟨_, _, _, _, hfull⟩ := hspent hcoherent.working.nonFailing
    have hmem : 2 ∈ v1.image.free v1.clusters := by
      rw [hclusters, mem_free]
      exact ⟨by decide, hfree 2 (by decide)⟩
    have hpos := Finset.card_pos.mpr ⟨2, hmem⟩
    simp only [Option.getD_some] at hfull
    omega
  obtain ⟨_, v2, hexec2, rfl⟩ := wp_returns hwrite
  have hafter : v1.after (.writeAt id (some 0) [1]) = v2 := congrArg Prod.snd hexec2
  have hopened := (@volume_refines blank v0 (fun _ => rfl) blank_fits hformat [] (by decide)
    (.openFile [97] true false) (by decide)).1 (.handle id) (congrArg Prod.fst hexec1)
  have hwritten := (@volume_refines blank v0 (fun _ => rfl) blank_fits hformat
    [.openFile [97] true false] (by decide) (.writeAt id (some 0) [1]) trivial).1 (.written 0 1)
  rw [hrun, hafter] at hwritten
  obtain ⟨name, old, hname, hold, _, _, _, hfiles⟩ := hwritten (congrArg Prod.fst hexec2)
  have hresolve : v1.resolve id = some [97] := hrun ▸ hopened.1
  obtain rfl : [97] = name := Option.some.inj (hresolve.symm.trans hname)
  obtain rfl : [] = old := Option.some.inj (hcontents.symm.trans hold)
  have hnow : v2.image.files [97] = some [1] := by
    rw [hfiles, if_neg Nat.one_ne_zero, update_self]
    rfl
  have hkept := (@volume_refines blank v0 (fun _ => rfl) blank_fits hformat
    [.openFile [97] true false, .writeAt id (some 0) [1]] (by simp [Op.NulFree])
    (.create [98] [2]) (by decide)).2 (by simp) [97] (by simp [subject])
  rw [run_cons, run_cons, run_nil, hopen, hafter] at hkept
  refine ⟨v0, v2, id, hformat, ?_, hnow, hkept.trans hnow⟩
  rw [hrun]
  exact hexec2

/-- A write of no bytes at position 1 of an empty file does not pad the file. -/
theorem writeAt_nothing_does_not_pad : ∃ v0 v1 v2 id, format blank = (.ok (), v0)
    ∧ exec (.openFile [97] true false) v0 = (.ok (.handle id), v1)
    ∧ exec (.writeAt id (some 1) []) v1 = (.ok (.written 1 0), v2)
    ∧ v1.image.files [97] = some [] ∧ v2.image.files [97] = some []
    ∧ v2.image.files [97] ≠ some (overlay [] 1 []) := by
  obtain ⟨v0, v1, id, hformat, hexec1, hcoherent, _, hgood, hcontents, _⟩ := openFile_blank
  have hwrite : wp (exec (.writeAt id (some 1) []))
      (fun reply v' => reply = .written 1 0 ∧ v'.image = v1.image) (fun _ _ => False) v1 := by
    rw [exec]
    refine wp_seq (writeAt_nothing hcoherent.working.fits.metadata hcoherent.working.nonFailing
      hgood) ?_ fun _ _ hfalse => hfalse
    rintro reply v' ⟨rfl, himage⟩
    exact ⟨rfl, himage⟩
  obtain ⟨_, v2, hexec2, rfl, himage2⟩ := wp_returns hwrite
  refine ⟨v0, v1, v2, id, hformat, hexec1, hexec2, hcontents, ?_, ?_⟩
  · rw [himage2, hcontents]
  · rw [himage2, hcontents]
    decide

end Volume

end Kaguya.FileSystem
