import Kaguya.FileSystem.Format

/-!
# The chains of a volume over whole runs

Without device failures every call keeps the chains of a volume sound. With failures one window
remains: `delete` and `create` free the chain of the file they remove before they clear its entry,
and a device that fails in between leaves an entry whose chain starts with a free cluster. `Exposed`
is that window, and outside of it every call is safe.
-/

namespace Kaguya.FileSystem

open Prog Device

/-- The chain of every entry in use is acyclic, stays in the data area, ends in an end mark, has
room for the size and passes no free cluster; no two entries share a cluster; the two reserved
entries of the table are as format wrote them. -/
def ChainsSound (image : Image) (clusters : Nat) : Prop :=
  (∀ slot, image.InUse slot → (image.first slot = 0 ∨ 2 ≤ image.first slot) ∧
    ∃ path, Chain image.fat dataCluster (image.first slot) path ∧ path.Nodup
      ∧ (∀ c ∈ path, 2 ≤ c ∧ c ≤ min (clusters + 1) 16383 ∧ image.fat c ≠ 0)
      ∧ (∀ hne : path ≠ [], 0xfff0 ≤ image.fat (path.getLast hne))
      ∧ (image.size slot + 4095) / 4096 ≤ path.length)
  ∧ (∀ s t c, image.InUse s → image.InUse t → s ≠ t → image.Owns s c → ¬ image.Owns t c)
  ∧ image.fat 0 = 0xfff8 ∧ image.fat 1 = 0xffff

/-- No entry in use reaches a free cluster, and no two of them reach the same one. -/
def Safe (image : Image) : Prop :=
  (∀ slot c, image.InUse slot → image.Owns slot c → image.fat c ≠ 0)
  ∧ ∀ s t c, image.InUse s → image.InUse t → s ≠ t → image.Owns s c → ¬ image.Owns t c

section Layouts
variable {image : Image} {clusters : Nat} {paths : Nat → List Nat}

variable (h : Layout image clusters paths)
include h

theorem Layout.not_owns {s t c : Nat} (hs : image.InUse s) (ht : image.InUse t) (hst : s ≠ t)
    (hc : image.Owns s c) : ¬ image.Owns t c := by
  rw [h.owns_iff hs] at hc
  rw [h.owns_iff ht]
  exact fun hc' => h.disjoint s t hs ht hst hc hc'

theorem Layout.chainsSound : ChainsSound image clusters := by
  refine ⟨fun slot hslot => ?_, fun s t c => h.not_owns, h.reserved⟩
  have hsound := h.sound slot hslot
  have hlong := h.long slot hslot
  refine ⟨?_, paths slot, hsound.walk, hsound.walk.nodup, ?_, ?_, by omega⟩
  · cases hpath : paths slot with
    | nil => exact .inl (hsound.empty hpath)
    | cons =>
      have hwalk := hsound.walk
      rw [hpath, Chain.cons_iff] at hwalk
      exact .inr hwalk.2.1.1
  · intro c hc
    rw [← lastCluster_eq]
    exact ⟨hsound.two_le hc, hsound.within c hc, hsound.fat_ne_zero hc⟩
  intro hne
  have hends := hsound.ends hne
  have hpos := List.length_pos_iff.mpr hne
  rw [hsound.walk.getLast_eq hne, ← Function.iterate_succ_apply' image.fat]
  rwa [Nat.succ_eq_add_one, Nat.sub_add_cancel hpos]

theorem Layout.safe : Safe image := by
  refine ⟨fun slot c hslot hc => ?_, fun s t c => h.not_owns⟩
  rw [h.owns_iff hslot] at hc
  exact (h.sound slot hslot).fat_ne_zero hc

theorem not_safe_clear {slot n : Nat} (hslot : image.InUse slot) (hne : paths slot ≠ [])
    (hn : 0 < n) : ¬ Safe (image.clear ((paths slot).take n)) := by
  intro hsafe
  cases hpath : paths slot with
  | nil => exact hne hpath
  | cons =>
    have hwalk := (h.sound slot hslot).walk
    rw [hpath, Chain.cons_iff] at hwalk
    obtain ⟨hc, hlive, _⟩ := hwalk
    have howns : (image.clear ((paths slot).take n)).Owns slot (image.first slot) := .here hlive
    apply hsafe.1 slot _ hslot howns
    apply if_pos
    rw [hpath, ← hc]
    obtain ⟨m, rfl⟩ : ∃ m, n = m + 1 := ⟨n - 1, by omega⟩
    rw [List.take_succ_cons]
    exact List.mem_cons_self

end Layouts

namespace Volume

variable {v : Volume} {paths : Nat → List Nat}

def FirstFault (d : Device) (n : Nat) : Prop :=
  (∀ i < n, d.faults (d.issued + i) = false) ∧ d.faults (d.issued + n) = true

/-- The device fails while the file in `slot` is being removed, which takes the requests from the
`n`-th on, after the first cluster has been freed and before the entry has been cleared. -/
def Breaks (v : Volume) (slot n : Nat) : Prop :=
  ∃ k, 3 ≤ k ∧ k < 3 * (v.image.chain slot).length + 2 ∧ FirstFault v.device (n + k)

/-- The call removes a file, and the device fails in the window of the removal. -/
def Exposed (v : Volume) : Op → Prop
  | .delete name => validName name
      ∧ ∃ slot, v.image.lookup name = some slot ∧ v.Breaks slot (slot + 1)
  | .create name input => validName name ∧ input.length ≤ 0xffffffff ∧ v.image.boot = magic
      ∧ ∃ slot, v.image.lookup name = some slot ∧ v.Breaks slot (slot + 2)
  | _ => False

variable {d d' : Device} {n m : Nat} {op : Op}

theorem FirstFault.not_nonFailing (h : FirstFault d n) : ¬ d.NonFailing := by
  intro hd
  have hhit := h.2
  rw [hd] at hhit
  cases hhit

theorem Exposed.not_nonFailing (h : v.Exposed op) : ¬ v.device.NonFailing := by
  cases op with
  | delete =>
    obtain ⟨_, _, _, k, _, _, hfault⟩ := h
    exact hfault.not_nonFailing
  | create =>
    obtain ⟨_, _, _, _, _, k, _, _, hfault⟩ := h
    exact hfault.not_nonFailing
  | _ => exact h.elim

variable {slot : Nat} {v' : Volume} {P : Volume → Prop}

theorem Interrupted.cases (h : v.Interrupted n (paths slot) v')
    (hlayout : Layout v.image v.clusters paths) (hslot : v.image.InUse slot) :
    v'.image = v.image ∨ v.Breaks slot n := by
  obtain ⟨k, hk, hbroke, himage⟩ := h
  by_cases hearly : k < 3
  · left
    rw [himage, Nat.div_eq_of_lt hearly, List.take_zero, Image.clear_nil]
  right
  refine ⟨k, by omega, ?_, hbroke.clean, hbroke.hit⟩
  rw [hlayout.chain_eq hslot]
  exact hk

def Kept (v v' : Volume) : Prop := v.Same v' ∧ ChainInvariant v'.image v'.clusters

theorem kept_of_image (hlayout : Layout v.image v.clusters paths) (hsame : v.Same v')
    (himage : v'.image = v.image) : v.Kept v' := by
  refine ⟨hsame, paths, ?_⟩
  rw [himage, hsame.clusters]
  exact hlayout

theorem exec_wp_of_wp {α : Type} {m : Prog Volume α} {f : α → Reply}
    (h : wp m (fun _ => P) (fun _ => P) v) :
    wp (do let a ← m; pure (f a)) (fun _ => P) (fun _ => P) v := by
  rw [wp_bind]
  exact h

theorem after_of_wp (h : wp (exec op) (fun _ => P) (fun _ => P) v) : P (v.after op) := wp_final h

theorem after_kept (hfits : v.Fits) (hinvariant : ChainInvariant v.image v.clusters)
    (hop : op ≠ .format) (hexposed : ¬ v.Exposed op) : v.Kept (v.after op) := by
  obtain ⟨paths, hlayout⟩ := hinvariant
  have hs := hfits.metadata
  have hquiet : ∀ v', v.Quiet v' → v.Kept v' := fun v' hq =>
    kept_of_image hlayout hq.same hq.image
  apply after_of_wp
  cases op with
  | check =>
    apply exec_wp_of_wp
    refine wp_mono (check_wp hs) (fun _ v' h => hquiet v' h.2.1) ?_
    rintro code v' (⟨_, _, hq⟩ | ⟨hq, _⟩) <;> exact hquiet v' hq
  | format => exact absurd rfl hop
  | create =>
    apply exec_wp_of_wp
    refine wp_mono (create_wp hfits hlayout) ?_ ?_
    · rintro _ v' ⟨hsame, _, _, _, _, hlayout'⟩
      exact ⟨hsame, hlayout'⟩
    rintro _ v' ⟨hsame, ⟨himage, _⟩ | ⟨hname, hinput, hboot, slot, hlookup, hinterrupted⟩
      | ⟨_, hlayout', _⟩⟩
    · exact kept_of_image hlayout hsame himage
    · rcases hinterrupted.cases hlayout (inUse_of_lookup hlookup) with himage | hbreaks
      · exact kept_of_image hlayout hsame himage
      · exact absurd ⟨hname, hinput, hboot, slot, hlookup, hbreaks⟩ hexposed
    · exact ⟨hsame, hlayout'⟩
  | delete =>
    apply exec_wp_of_wp
    refine wp_mono (delete_wp hfits hlayout) ?_ ?_
    · rintro _ v' ⟨hsame, _, _, hlayout'⟩
      exact ⟨hsame, hlayout'⟩
    rintro _ v' ⟨hsame, himage | ⟨hname, slot, hlookup, hinterrupted⟩⟩
    · exact kept_of_image hlayout hsame himage
    · rcases hinterrupted.cases hlayout (inUse_of_lookup hlookup) with himage | hbreaks
      · exact kept_of_image hlayout hsame himage
      · exact absurd ⟨hname, slot, hlookup, hbreaks⟩ hexposed
  | openFile =>
    apply exec_wp_of_wp
    refine wp_mono (openFile_wp hfits hlayout) ?_ ?_
    · rintro _ v' ⟨hsame, _, _, _, hlayout'⟩
      exact ⟨hsame, hlayout'⟩
    · rintro _ v' ⟨hsame, _, hlayout'⟩
      exact ⟨hsame, hlayout'⟩
  | size =>
    apply exec_wp_of_wp
    exact wp_mono (size_wp hs) (fun _ v' h => hquiet v' h.2.2) fun _ v' h => hquiet v' h.1
  | readAt =>
    apply exec_wp_of_wp
    rw [wp_withOutput]
    exact wp_mono (readAt_wp hfits hlayout) (fun _ s' h => hquiet s'.volume h.2.2)
      fun _ s' h => hquiet s'.volume h.1
  | readFile =>
    apply exec_wp_of_wp
    exact wp_mono (readFile_wp hfits hlayout) (fun _ v' h => hquiet v' h.2) fun _ v' h =>
      hquiet v' h
  | writeAt =>
    apply exec_wp_of_wp
    refine wp_mono (writeAt_wp hfits hlayout) ?_ ?_
    · rintro _ v' ⟨_, hsame, _, _, ⟨_, _, himage⟩ | ⟨_, _, _, ⟨path, hlayout'⟩, _⟩⟩
      · exact kept_of_image hlayout hsame himage
      · exact ⟨hsame, _, hlayout'⟩
    · rintro _ v' ⟨hsame, _, ⟨himage, _⟩ | ⟨_, _, _, _, _, ⟨path, hlayout'⟩, _⟩⟩
      · exact kept_of_image hlayout hsame himage
      · exact ⟨hsame, _, hlayout'⟩
  | list =>
    apply exec_wp_of_wp
    exact wp_mono (list_wp hs) (fun _ v' h => hquiet v' h.2) fun _ v' h => hquiet v' h

structure Working (clusters : Nat) (v : Volume) : Prop where
  nonFailing : v.device.NonFailing
  fits : v.Fits
  clusters : v.clusters = clusters
  chains : ChainInvariant v.image v.clusters

theorem working_of_format {v0 : Volume} (hdevice : v.device.NonFailing) (hfits : v.Fits)
    (hformat : format v = (.ok (), v0)) : Working v.clusters v0 := by
  obtain ⟨v', hrun, hsame, _, hempty⟩ := format_ok hfits.metadata hdevice
  obtain rfl : v0 = v' := (Prod.mk.inj (hformat.symm.trans hrun)).2
  exact ⟨hsame.later.nonFailing hdevice, hsame.fits hfits, hsame.clusters, _,
    hempty.layout v0.clusters⟩

theorem Working.after {clusters : Nat} (h : Working clusters v) (op : Op) :
    Working clusters (v.after op) := by
  by_cases hop : op = .format
  · subst hop
    obtain ⟨v', hrun, hsame, _, hempty⟩ := format_ok h.fits.metadata h.nonFailing
    have hafter : v.after .format = v' := by
      have hformat : wp (exec .format) (fun _ u => u = v') (fun _ u => u = v') v := by
        apply exec_wp_of_wp
        unfold wp
        rw [hrun]
      exact after_of_wp hformat
    rw [hafter]
    exact ⟨hsame.later.nonFailing h.nonFailing, hsame.fits h.fits,
      hsame.clusters.trans h.clusters, _, hempty.layout v'.clusters⟩
  · obtain ⟨hsame, hchains⟩ := after_kept h.fits h.chains hop fun hexposed =>
      hexposed.not_nonFailing h.nonFailing
    exact ⟨hsame.later.nonFailing h.nonFailing, hsame.fits h.fits, hsame.clusters.trans h.clusters,
      hchains⟩

/-- **The chains are sound after every run** on a formatted volume whose device does not fail,
whatever the calls and whether they succeed or not. -/
theorem chainsSound_run {v0 : Volume} (hdevice : v.device.NonFailing) (hfits : v.Fits)
    (hformat : format v = (.ok (), v0)) (ops : List Op) :
    ChainsSound (v0.run ops).image v.clusters := by
  have hworking : Working v.clusters (v0.run ops) :=
    run_invariant (working_of_format hdevice hfits hformat) fun u hu op _ => hu.after op
  obtain ⟨paths, hlayout⟩ := hworking.chains
  rw [hworking.clusters] at hlayout
  exact hlayout.chainsSound

def blank : Volume :=
  ⟨⟨Buffer.zeroed, 97, fun _ => false, []⟩, 2, fun _ => 0⟩

theorem blank_fits : blank.Fits := by
  unfold Fits
  decide

theorem chainsSound_run_blank : ∃ v0, format blank = (.ok (), v0)
    ∧ ChainsSound (v0.run [.create [97] [1], .openFile [98] true false, .delete [97]]).image 2 := by
  obtain ⟨v0, hformat, _⟩ := format_ok blank_fits.metadata fun _ => rfl
  exact ⟨v0, hformat, chainsSound_run (fun _ => rfl) blank_fits hformat _⟩

theorem FirstFault.of_served (h : FirstFault d (m + n)) (hserved : Served d d' m) :
    FirstFault d' n := by
  refine ⟨fun i hi => ?_, ?_⟩
  · rw [hserved.faults, hserved.issued, Nat.add_assoc]
    exact h.1 (m + i) (by omega)
  · rw [hserved.faults, hserved.issued, Nat.add_assoc]
    exact h.2

theorem FirstFault.le_of_served (h : FirstFault d n) (hserved : Served d d' m) : m ≤ n := by
  by_contra hlt
  have hclean := hserved.clean n (by omega)
  rw [h.2] at hclean
  cases hclean

theorem FirstFault.eq_of_broke (h : FirstFault d n) (hbroke : Broke d d' m) : m = n := by
  rcases Nat.lt_trichotomy m n with hlt | heq | hgt
  · have hclean := h.1 m hlt
    rw [hbroke.hit] at hclean
    cases hclean
  · exact heq
  · have hclean := hbroke.clean n hgt
    rw [h.2] at hclean
    cases hclean

theorem FirstFault.not_failed {code : Int} (h : FirstFault d n) (hfailed : d.Failed m code d') :
    n < m := by
  obtain ⟨_, _, k, hk, hbroke⟩ := hfailed
  have := h.eq_of_broke hbroke
  omega

theorem removeFound_breaks {name : List UInt8} {k : Nat} (hfits : v.Fits)
    (hlayout : Layout v.image v.clusters paths) (hlookup : v.image.lookup name = some slot)
    (hk : k < 3 * (paths slot).length + 2) (hfault : FirstFault v.device k) :
    wp (removeFound (some (Image.found v.image slot))) (fun _ _ => False)
      (fun _ v' => v'.image = v.image.clear ((paths slot).take (k / 3))) v := by
  have hinUse := inUse_of_lookup hlookup
  refine wp_mono (remove_wp hfits.metadata (lookup_eq_some_iff.mp hlookup).1
    (hlayout.sound slot hinUse)) ?_ ?_
  · rintro _ v' ⟨_, _, _, hserved⟩
    have := hfault.le_of_served hserved
    omega
  · rintro _ v' ⟨_, _, k', _, hbroke, himage⟩
    obtain rfl := hfault.eq_of_broke hbroke
    exact himage

theorem not_safe_of_exposed (hfits : v.Fits) (hinvariant : ChainInvariant v.image v.clusters)
    (hexposed : v.Exposed op) : ¬ Safe (v.after op).image := by
  obtain ⟨paths, hlayout⟩ := hinvariant
  have hs := hfits.metadata
  -- what the interrupted removal leaves
  have hunsafe : ∀ slot k, v.image.InUse slot → 3 ≤ k → k < 3 * (v.image.chain slot).length + 2 →
      ∀ v' : Volume, v'.image = v.image.clear ((paths slot).take (k / 3)) → ¬ Safe v'.image := by
    intro slot k hslot hlo hhi v' himage
    rw [hlayout.chain_eq hslot] at hhi
    rw [himage]
    refine not_safe_clear hlayout hslot ?_ (by omega)
    intro hnil
    rw [hnil] at hhi
    simp only [List.length_nil] at hhi
    omega
  cases op with
  | delete name =>
    obtain ⟨hname, slot, hlookup, k, hlo, hhi, hfault⟩ := hexposed
    have hinUse := inUse_of_lookup hlookup
    refine after_of_wp (P := fun v' => ¬ Safe v'.image) (exec_wp_of_wp ?_)
    rw [delete]
    refine wp_seq (find_wp hs hname) ?_ ?_
    · rintro found v1 ⟨rfl, hquiet, hserved⟩
      rw [hlookup] at hserved ⊢
      have hlayout1 := hquiet.layout hlayout
      have hlookup1 : v1.image.lookup name = some slot := by rw [hquiet.image, hlookup]
      have hremove := removeFound_breaks (hquiet.fits hfits) hlayout1 hlookup1
        (hlayout.chain_eq hinUse ▸ hhi) (hfault.of_served hserved)
      rw [hquiet.image] at hremove
      exact wp_mono hremove (fun _ _ hfalse => hfalse.elim)
        fun _ v' himage => hunsafe slot k hinUse hlo hhi v' himage
    · rintro _ v1 ⟨_, hfailed⟩
      have := hfault.not_failed hfailed
      rw [hlookup] at this
      simp only [scanCost] at this
      omega
  | create name =>
    obtain ⟨hname, hinput, hboot, slot, hlookup, k, hlo, hhi, hfault⟩ := hexposed
    have hinUse := inUse_of_lookup hlookup
    refine after_of_wp (P := fun v' => ¬ Safe v'.image) (exec_wp_of_wp ?_)
    rw [create, if_neg hname, if_neg (by omega), wp_bind, removeOld]
    refine wp_seq (check_wp hs) ?_ ?_
    · rintro _ v1 ⟨_, hquiet1, hserved1⟩
      have hfault1 : FirstFault v1.device (slot + 1 + k) := by
        apply FirstFault.of_served _ hserved1
        rwa [show 1 + (slot + 1 + k) = slot + 2 + k by omega]
      refine wp_seq (find_wp (hquiet1.fits hfits).metadata hname) ?_ ?_
      · rintro found v2 ⟨rfl, hquiet2, hserved2⟩
        have hquiet := hquiet1.trans hquiet2
        rw [hquiet1.image, hlookup] at hserved2 ⊢
        have hlayout2 := hquiet.layout hlayout
        have hlookup2 : v2.image.lookup name = some slot := by rw [hquiet.image, hlookup]
        have hremove := removeFound_breaks (hquiet.fits hfits) hlayout2 hlookup2
          (hlayout.chain_eq hinUse ▸ hhi) (hfault1.of_served hserved2)
        rw [hquiet.image] at hremove
        exact wp_mono hremove (fun _ _ hfalse => hfalse.elim)
          fun _ v' himage => hunsafe slot k hinUse hlo hhi v' himage
      · rintro _ v2 ⟨_, hfailed⟩
        have := hfault1.not_failed hfailed
        rw [hquiet1.image, hlookup] at this
        simp only [scanCost] at this
        omega
    · rintro _ v1 (⟨_, hnotMagic, _⟩ | ⟨_, hfailed⟩)
      · exact absurd hboot hnotMagic
      · have := hfault.not_failed hfailed
        omega
  | _ => exact hexposed.elim

/-- **Failure safety.** A call on a volume with sound chains is safe under every pattern of device
failures but those of the window. -/
theorem safe_after_iff {op : Op} (hfits : v.Fits) (hchains : ChainInvariant v.image v.clusters)
    (hop : op ≠ .format) : Safe (v.after op).image ↔ ¬ v.Exposed op := by
  constructor
  · intro hsafe hexposed
    exact not_safe_of_exposed hfits hchains hexposed hsafe
  · intro hexposed
    obtain ⟨_, paths, hlayout⟩ := after_kept hfits hchains hop hexposed
    exact hlayout.safe

variable (faults : Nat → Bool)

def oneFileBytes : Buffer :=
  (((Buffer.zeroed.put 512 0xfff8 2).put 514 0xffff 2).put 516 0xffff 2).memCopy 33280
    (newEntry [97] 2 1) 0 32

def oneFile : Volume :=
  ⟨⟨oneFileBytes, 97, faults, []⟩, 2, fun _ => 0⟩

theorem oneFile_fits : (oneFile faults).Fits := by
  change 81 + 8 * 2 ≤ 97
  decide

theorem oneFile_image : (oneFile faults).image
    = ((((FileSystem.image Buffer.zeroed).setFat 0 0xfff8).setFat 1 0xffff).setFat 2
      0xffff).setEntry
      0 ((newEntry [97] 2 1).upTo 32) := by
  change FileSystem.image (Buffer.memCopy _ (33280 + 32 * 0) _ 0 32) = _
  rw [image_memCopy_entry (by decide)]
  change (FileSystem.image (((Buffer.zeroed.put (512 + 2 * 0) 0xfff8 2).put (512 + 2 * 1) 0xffff
    2).put (512 + 2 * 2) 0xffff 2)).setEntry _ _ = _
  rw [image_put_fat (by decide) (by decide), image_put_fat (by decide) (by decide),
    image_put_fat (by decide) (by decide)]

theorem oneFile_layout : Layout (oneFile faults).image 2 (Function.update (fun _ => []) 0 [2]) := by
  have hunused : ∀ slot, ¬ ((((FileSystem.image Buffer.zeroed).setFat 0 0xfff8).setFat 1
      0xffff).setFat 2 0xffff).InUse slot := by
    intro slot
    have hzero : (FileSystem.image Buffer.zeroed).entry slot = Buffer.zeroed := by
      simp only [FileSystem.image]
      split
      · exact Buffer.upTo_zeroed 32
      · rfl
    change ¬ (FileSystem.image Buffer.zeroed).entry slot 28 = 1
    rw [hzero]
    decide
  have hbase : Layout ((((FileSystem.image Buffer.zeroed).setFat 0 0xfff8).setFat 1 0xffff).setFat 2
      0xffff) 2 fun _ => [] :=
    ⟨fun slot hslot => absurd hslot (hunused slot), fun slot hslot => absurd hslot (hunused slot),
      fun s _ hs => absurd hs (hunused s), rfl, rfl⟩
  rw [oneFile_image]
  refine hbase.setEntry ?_ ?_ fun t _ ht => absurd ht (hunused t)
  · rw [get_first_newEntry (by decide)]
    exact Sound.single le_rfl (by decide) Image.setFat_fat_self
  · rw [get_size_newEntry (by decide)]
    decide

theorem oneFile_lookup : (oneFile faults).image.lookup [97] = some 0 := by
  rw [lookup_eq_some_iff, oneFile_image]
  refine ⟨by decide, ⟨?_, ?_⟩, fun j hj => absurd hj (Nat.not_lt_zero j)⟩
  · rw [Image.InUse, Image.setEntry_entry_self, Buffer.upTo_of_lt (by decide)]
    exact newEntry_mark
  · rw [Image.setEntry_entry_self, storedName_newEntry (by decide)]
    decide

/-- With a device that does not fail the deletion is safe. -/
theorem safe_after_delete_oneFile :
    Safe ((oneFile fun _ => false).after (.delete [97])).image :=
  (safe_after_iff (oneFile_fits _) ⟨_, oneFile_layout _⟩ (by simp)).mpr
    fun hexposed => hexposed.not_nonFailing fun _ => rfl

/-- A write that fails after the first cluster is free leaves the entry pointing to it: the deletion
of a file of one cluster makes one request for the lookup and three for the cluster, and the fifth
one here fails. -/
theorem not_safe_after_delete_oneFile :
    (oneFile fun i => i == 4).Fits
      ∧ ChainInvariant (oneFile fun i => i == 4).image (oneFile fun i => i == 4).clusters
      ∧ ¬ Safe ((oneFile fun i => i == 4).after (.delete [97])).image := by
  have hlayout := oneFile_layout fun i => i == 4
  have hlookup := oneFile_lookup fun i => i == 4
  refine ⟨oneFile_fits _, ⟨_, hlayout⟩, not_safe_of_exposed (oneFile_fits _) ⟨_, hlayout⟩ ?_⟩
  refine ⟨by unfold validName; decide, 0, hlookup, 3, le_rfl, ?_, ?_, rfl⟩
  · rw [hlayout.chain_eq (inUse_of_lookup hlookup)]
    decide
  · decide

end Volume

end Kaguya.FileSystem
