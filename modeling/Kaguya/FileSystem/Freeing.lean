import Kaguya.FileSystem.FatSpec

/-!
# Freeing a chain of any shape

`jihooFatFree` on a table that may have cycles, chains that share clusters, and links that lead out
of it. Every visit clears an entry, and the visit of a cleared entry is the last.
-/

namespace Kaguya.FileSystem

open Function Prog Device

variable {fat : Nat → Nat} {c x y first n : Nat} {d : Device}

/-- The links from `c` lead to `x` by way of data clusters. -/
inductive Reaches (fat : Nat → Nat) : Nat → Nat → Prop
  | here {c : Nat} : dataCluster c → Reaches fat c c
  | next {c x : Nat} : dataCluster c → Reaches fat (fat c) x → Reaches fat c x

theorem Reaches.data (h : Reaches fat c x) : dataCluster c := by
  cases h <;> assumption

theorem Reaches.of_update (h : Reaches (update fat c 0) y x) : Reaches fat y x := by
  induction h with
  | here hdata => exact .here hdata
  | @next y x hdata hrest ih =>
    by_cases hy : y = c
    · -- a cleared entry leads nowhere
      rw [hy, update_self] at hrest
      exact absurd hrest.data (by decide)
    · rw [update_of_ne hy] at ih
      exact .next hdata ih

theorem Reaches.update (h : Reaches fat y x) :
    x = c ∨ Reaches (update fat c 0) y x ∨ Reaches (update fat c 0) (fat c) x := by
  induction h with
  | here hdata => exact .inr (.inl (.here hdata))
  | @next y x hdata hrest ih =>
    by_cases hy : y = c
    · rw [hy] at ih
      rcases ih with heq | hback | hback
      · exact .inl heq
      · exact .inr (.inr hback)
      · exact .inr (.inr hback)
    · have hstep := update_of_ne hy 0 fat
      refine ih.imp_right (Or.imp_left fun hpath => .next hdata ?_)
      rwa [hstep]

theorem reaches_iff (hc : dataCluster c) :
    Reaches fat c x ↔ x = c ∨ Reaches (update fat c 0) (fat c) x := by
  constructor
  · intro h
    cases h with
    | here => exact .inl rfl
    | next _ hrest =>
      rcases hrest.update with heq | hback | hback
      · exact .inl heq
      · exact .inr hback
      · exact .inr hback
  · rintro (rfl | h)
    · exact .here hc
    · exact .next hc h.of_update

def linked (fat : Nat → Nat) : Finset Nat := (Finset.range fatEntries).filter (fat · ≠ 0)

theorem card_linked_update (hc : c < fatEntries) (hlink : fat c ≠ 0) :
    (linked (update fat c 0)).card < (linked fat).card := by
  apply Finset.card_lt_card
  refine Finset.ssubset_iff_subset_ne.mpr ⟨fun x hx => ?_, fun heq => ?_⟩
  · simp only [linked, Finset.mem_filter, update_apply] at hx ⊢
    grind
  · have hmem : c ∈ linked fat := by simp [linked, hc, hlink]
    rw [← heq] at hmem
    simp [linked] at hmem

/-- What is left when everything that `first` reaches has been cleared. -/
structure Freed (image image' : Image) (first : Nat) : Prop where
  boot : image'.boot = image.boot
  entry : image'.entry = image.entry
  cluster : image'.cluster = image.cluster
  cleared : ∀ x < fatEntries, Reaches image.fat first x → image'.fat x = 0
  kept : ∀ x, ¬ (x < fatEntries ∧ Reaches image.fat first x) → image'.fat x = image.fat x

theorem Freed.refl {image : Image} (h : ∀ x < fatEntries, ¬ Reaches image.fat first x) :
    Freed image image first :=
  ⟨rfl, rfl, rfl, fun x hx hreach => absurd hreach (h x hx), fun _ _ => rfl⟩

theorem Freed.step {image image' : Image} (hdata : dataCluster c) (hc : c < fatEntries)
    (h : Freed (image.setFat c 0) image' (image.fat c)) : Freed image image' c := by
  refine ⟨h.boot, h.entry, h.cluster, fun x hx hreach => ?_, fun x hx => ?_⟩
  · by_cases hpath : Reaches (image.setFat c 0).fat (image.fat c) x
    · exact h.cleared x hx hpath
    · obtain rfl : x = c := ((reaches_iff hdata).mp hreach).resolve_right hpath
      rw [h.kept x fun hx => hpath hx.2, Image.setFat_fat_self]
  · rw [reaches_iff hdata, not_and, not_or] at hx
    have hne : x ≠ c := fun heq => (hx (heq ▸ hc)).1 heq
    rw [h.kept x fun hreach => (hx hreach.1).2 hreach.2, Image.setFat_fat_of_ne hne]

theorem linked_lt (hlink : dataCluster (d.image.fat first)) (hc : first < fatEntries)
    (hn : (linked d.image.fat).card < n + 1) : (linked (update d.image.fat first 0)).card < n := by
  have hcard := card_linked_update hc (show d.image.fat first ≠ 0 from fun hzero => by
    rw [hzero] at hlink
    exact absurd hlink (by decide))
  omega

/-- The loop ends within this many rounds, and fails only at a link out of the table. -/
theorem freeLoop_any (hs : 81 ≤ d.sectors) (hdevice : d.NonFailing)
    (hn : dataCluster first → (linked d.image.fat).card < n) :
    wp (freeLoop n first) (fun _ d' => (∀ x, Reaches d.image.fat first x → x < fatEntries)
      ∧ Freed d.image d'.image first)
      (fun code d' => code = -2 ∧ (∃ x, Reaches d.image.fat first x ∧ fatEntries ≤ x)
        ∧ Freed d.image d'.image first) d := by
  induction n generalizing d first with
  | zero =>
    have hnone : ∀ x, ¬ Reaches d.image.fat first x := fun x h =>
      absurd (hn h.data) (Nat.not_lt_zero _)
    exact wp_pure.mpr ⟨fun x h => absurd h (hnone x), Freed.refl fun x _ => hnone x⟩
  | succ n ih =>
    rw [freeLoop, wp_ite]
    refine ⟨fun hdata => ?_, fun hend => ?_⟩
    · by_cases hc : first < fatEntries
      · refine freeRound_wp hc hs (fun d1 himage hserved => ?_) fun _ _ _ hbroke =>
          absurd hdevice hbroke.not_nonFailing
        have hfat : d1.image.fat = update d.image.fat first 0 := by rw [himage]; rfl
        refine wp_mono (ih (hserved.le_sectors hs) (hserved.later.nonFailing hdevice) fun hnext =>
          ?_) ?_ ?_
        · rw [hfat]
          exact linked_lt hnext hc (hn hdata)
        · rintro _ d2 ⟨hinside, hfreed⟩
          rw [hfat] at hinside
          rw [himage] at hfreed
          refine ⟨fun x hreach => ?_, hfreed.step hdata hc⟩
          rcases (reaches_iff hdata).mp hreach with rfl | hrest
          · exact hc
          · exact hinside x hrest
        · rintro code d2 ⟨rfl, ⟨x, hreach, hx⟩, hfreed⟩
          rw [hfat] at hreach
          rw [himage] at hfreed
          exact ⟨rfl, ⟨x, (reaches_iff hdata).mpr (.inr hreach), hx⟩, hfreed.step hdata hc⟩
      · rw [wp_bind, jihooFatRead, if_pos (by omega), wp_fail]
        refine ⟨rfl, ⟨first, .here hdata, by omega⟩, Freed.refl fun x hx hreach => ?_⟩
        -- there is no entry that could lead on
        have hzero : d.image.fat first = 0 := if_neg hc
        cases hreach with
        | here => exact hc hx
        | next _ hrest =>
          rw [hzero] at hrest
          exact absurd hrest.data (by decide)
    · have hnone : ∀ x, ¬ Reaches d.image.fat first x := fun x h => hend h.data
      exact wp_pure.mpr ⟨fun x h => absurd h (hnone x), Freed.refl fun x _ => hnone x⟩

theorem freeLoop_more {m : Nat} (hs : 81 ≤ d.sectors)
    (hn : dataCluster first → (linked d.image.fat).card < n) (hm : n ≤ m) :
    freeLoop m first d = freeLoop n first d := by
  induction n generalizing d first m with
  | zero =>
    have hend : ¬ dataCluster first := fun h => absurd (hn h) (Nat.not_lt_zero _)
    cases m with
    | zero => rfl
    | succ => rw [freeLoop, freeLoop, if_neg hend]
  | succ n ih =>
    obtain ⟨m, rfl⟩ := Nat.exists_eq_succ_of_ne_zero (by omega : m ≠ 0)
    rw [freeLoop, freeLoop]
    split_ifs with hdata
    · by_cases hc : first < fatEntries
      · apply bind_congr_of_wp (jihooFatRead_wp hc hs)
        rintro next d1 ⟨hnext, hbytes1, hserved1⟩
        apply bind_congr_of_wp (jihooFatWrite_wp hc (hserved1.le_sectors hs))
        rintro _ d2 ⟨hbytes2, hserved2⟩
        have hfat : d2.image.fat = update d.image.fat first 0 := by
          rw [setFat_of_write hc (by omega) hbytes2, Device.image_eq_of_bytes hbytes1]
          rfl
        refine ih (hserved2.le_sectors (hserved1.le_sectors hs)) (fun hlink => ?_) (by omega)
        rw [hfat]
        exact linked_lt (hnext ▸ hlink) hc (hn hdata)
      · rw [jihooFatRead, if_pos (by omega)]
        rfl
    · rfl

/-- **Freeing is safe on any table.** The loop ends within 16385 rounds. Everything that `first`
reaches has been cleared and nothing else, and an error is reported exactly if a link out of the
table is among it. -/
theorem freeLoop_safe (hs : 81 ≤ d.sectors) (hdevice : d.NonFailing) (first : Nat) :
    ∃ result d', (∀ n, fatEntries + 1 ≤ n → freeLoop n first d = (result, d'))
      ∧ Freed d.image d'.image first
      ∧ (result = .ok () ∧ (∀ x, Reaches d.image.fat first x → x < fatEntries)
        ∨ result = .error (-2) ∧ ∃ x, Reaches d.image.fat first x ∧ fatEntries ≤ x) := by
  have hcard : (linked d.image.fat).card < fatEntries + 1 :=
    Nat.lt_succ_of_le ((Finset.card_filter_le _ _).trans_eq (Finset.card_range _))
  have hloop := @freeLoop_any first (fatEntries + 1) d hs hdevice fun _ => hcard
  rcases hrun : jihooFatFree first d with ⟨code | _, d'⟩
  · obtain ⟨rfl, hout, hfreed⟩ := wp_error hloop hrun
    exact ⟨_, _, fun n hn => (freeLoop_more hs (fun _ => hcard) hn).trans hrun, hfreed,
      .inr ⟨rfl, hout⟩⟩
  · obtain ⟨hinside, hfreed⟩ := wp_ok hloop hrun
    exact ⟨_, _, fun n hn => (freeLoop_more hs (fun _ => hcard) hn).trans hrun, hfreed,
      .inl ⟨rfl, hinside⟩⟩

def selfLinked : Device := ⟨fun i => if i = 516 then 2 else 0, 97, fun _ => false, []⟩

theorem freeLoop_safe_selfLinked : ∃ result d',
    (∀ n, fatEntries + 1 ≤ n → freeLoop n 2 selfLinked = (result, d'))
    ∧ Freed selfLinked.image d'.image 2
    ∧ (result = .ok () ∧ (∀ x, Reaches selfLinked.image.fat 2 x → x < fatEntries)
      ∨ result = .error (-2) ∧ ∃ x, Reaches selfLinked.image.fat 2 x ∧ fatEntries ≤ x) :=
  freeLoop_safe (by decide) (fun _ => rfl) 2

end Kaguya.FileSystem
