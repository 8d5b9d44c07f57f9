import Kaguya.FileSystem.Layout

/-!
# What the FAT and directory calls do

One specification for each call of `fat.jh` that walks the table or the directory, on a device that
may fail anywhere. The calls that only read say so; `jihooFatFree` also counts its requests, because
how far it got when the device failed is what a half-finished deletion depends on.
-/

namespace Kaguya.FileSystem

open Prog Device List Image

variable {d : Device}

/-- The device failed during the call: what a call reports when it gives up because of the device.
-/
def Device.Faulted (d d' : Device) : Prop := Later d d' ∧ ¬ d.NonFailing

variable {n c clusters first : Nat} {d' : Device} {path : List Nat}

theorem Device.Failed.faulted {code : Int} (h : d.Failed n code d') : d.Faulted d' := by
  obtain ⟨_, _, k, _, hbroke⟩ := h
  exact ⟨hbroke.later, hbroke.not_nonFailing⟩

theorem Device.Later.faulted {d'' : Device} (h : Later d d') (h' : d'.Faulted d'') :
    d.Faulted d'' :=
  ⟨h.trans h'.1, fun hd => h'.2 (h.nonFailing hd)⟩

theorem Device.image_eq_of_bytes (h : d'.bytes = d.bytes) :
    d'.image = d.image := congrArg FileSystem.image h

theorem setFat_of_write {value : Nat} (hc : c < fatEntries) (hvalue : value < 65536)
    (h : d'.bytes = d.bytes.put (512 + 2 * c) value 2) : d'.image = d.image.setFat c value := by
  rw [Device.image, h, image_put_fat hc hvalue, Device.image]

theorem allocLoop_wp (hs : 81 ≤ d.sectors) (hn : c + n ≤ fatEntries) : wp (allocLoop n c)
      (fun fresh d' => c ≤ fresh ∧ fresh < c + n ∧ d.image.fat fresh = 0
        ∧ d'.image = d.image.setFat fresh 0xffff ∧ Later d d')
      (fun code d' => d'.bytes = d.bytes
        ∧ ((code = -5 ∧ Later d d' ∧ ∀ i, c ≤ i → i < c + n → d.image.fat i ≠ 0)
          ∨ (code = -3 ∧ d.Faulted d'))) d := by
  induction n generalizing c d with
  | zero =>
    refine ⟨rfl, .inl ⟨rfl, Later.refl d, ?_⟩⟩
    intro i hi hlt
    omega
  | succ n ih =>
    rw [allocLoop]
    refine wp_seq (jihooFatRead_wp (by omega) hs) ?_ ?_
    · rintro entry d1 ⟨rfl, hbytes1, hserved1⟩
      have himage1 := Device.image_eq_of_bytes hbytes1
      have hs1 := hserved1.le_sectors hs
      rw [wp_ite]
      constructor
      · intro hfree
        refine wp_seq (jihooFatWrite_wp (by omega) hs1) ?_ ?_
        · rintro _ d2 ⟨hbytes2, hserved2⟩
          refine ⟨le_rfl, by omega, hfree, ?_, hserved1.later.trans hserved2.later⟩
          rw [setFat_of_write (by omega) (by omega) hbytes2, himage1]
        · rintro code d2 hfailed
          refine ⟨hfailed.2.1.trans hbytes1, .inr ⟨hfailed.1, ?_⟩⟩
          exact hserved1.later.faulted hfailed.faulted
      intro htaken
      refine wp_mono (ih hs1 (by omega)) ?_ ?_
      · rintro fresh d2 ⟨hle, hlt, hfree, himage2, hlater2⟩
        rw [himage1] at hfree himage2
        exact ⟨by omega, by omega, hfree, himage2, hserved1.later.trans hlater2⟩
      rintro code d2 ⟨hbytes2, hcase⟩
      refine ⟨hbytes2.trans hbytes1, ?_⟩
      rcases hcase with ⟨hcode, hlater2, hfull⟩ | ⟨hcode, hfaulted⟩
      · refine .inl ⟨hcode, hserved1.later.trans hlater2, ?_⟩
        intro i hi hlt
        by_cases hic : i = c
        · rw [hic]
          exact htaken
        · rw [himage1] at hfull
          exact hfull i (by omega) (by omega)
      · exact .inr ⟨hcode, hserved1.later.faulted hfaulted⟩
    · intro code d1 hfailed
      exact ⟨hfailed.2.1, .inr ⟨hfailed.1, hfailed.faulted⟩⟩

theorem jihooFatAlloc_wp (hs : 81 ≤ d.sectors) : wp (jihooFatAlloc clusters)
      (fun fresh d' => 2 ≤ fresh ∧ fresh ≤ lastCluster clusters ∧ d.image.fat fresh = 0
        ∧ d'.image = d.image.setFat fresh 0xffff ∧ Later d d') (fun code d' =>
          d'.bytes = d.bytes ∧ ((code = -5 ∧ Later d d'
            ∧ ∀ c, 2 ≤ c → c ≤ lastCluster clusters → d.image.fat c ≠ 0)
              ∨ (code = -3 ∧ d.Faulted d'))) d := by
  have hlast := lastCluster_lt clusters
  have hpos : 1 ≤ lastCluster clusters := by rw [lastCluster_eq]; omega
  refine wp_mono (allocLoop_wp hs (by omega)) ?_ ?_
  · rintro fresh d' ⟨hle, hlt, hfree, himage, hlater⟩
    exact ⟨hle, by omega, hfree, himage, hlater⟩
  · rintro code d' ⟨hbytes, ⟨hcode, hlater, hfull⟩ | hfaulted⟩
    · exact ⟨hbytes, .inl ⟨hcode, hlater, fun c hc hcl => hfull c hc (by omega)⟩⟩
    · exact ⟨hbytes, .inr hfaulted⟩

@[simp]
theorem Image.clear_nil (image : Image) : image.clear [] = image := by
  simp [Image.clear]

theorem Image.clear_cons (image : Image) (c : Nat) (path : List Nat) :
    image.clear (c :: path) = (image.setFat c 0).clear path := by
  refine Image.ext rfl ?_ rfl rfl
  funext x
  simp only [Image.clear, Image.setFat, mem_cons, Function.update_apply]
  by_cases hx : x = c <;> by_cases hpath : x ∈ path <;> simp [hx, hpath]

/-- A round of the loop in `jihooFatFree`: three requests, and the entry is cleared by the last. -/
theorem freeRound_wp {rest : Nat → Prog Device Unit} {Q : Unit → Device → Prop}
    {E : Int → Device → Prop} (hc : c < fatEntries) (hs : 81 ≤ d.sectors)
    (hrest : ∀ d', d'.image = d.image.setFat c 0 → Served d d' 3 → wp (rest (d.image.fat c)) Q E d')
    (hfailed : ∀ d' k, k < 3 → Broke d d' k → d'.image = d.image → E (-3) d') :
    wp (jihooFatRead c >>= fun next => jihooFatWrite c 0 >>= fun _ => rest next) Q E d := by
  refine wp_seq (jihooFatRead_wp hc hs) ?_ ?_
  · rintro next d1 ⟨rfl, hbytes1, hserved1⟩
    have himage1 := Device.image_eq_of_bytes hbytes1
    refine wp_seq (jihooFatWrite_wp hc (hserved1.le_sectors hs)) ?_ ?_
    · rintro _ d2 ⟨hbytes2, hserved2⟩
      refine hrest d2 ?_ (hserved1.trans hserved2)
      rw [setFat_of_write hc (by omega) hbytes2, himage1]
    · rintro code d2 ⟨rfl, hbytes2, k, hk, hbroke⟩
      refine hfailed d2 (1 + k) (by omega) (hserved1.broke hbroke) ?_
      rw [Device.image_eq_of_bytes hbytes2, himage1]
  · rintro code d1 ⟨rfl, hbytes1, k, hk, hbroke⟩
    exact hfailed d1 k (by omega) hbroke (Device.image_eq_of_bytes hbytes1)

/-- **Freeing a chain.** It takes three requests for each cluster, and a failure at request `k`
leaves the first `k / 3` clusters free and the others as they were. -/
theorem freeLoop_wp (hs : 81 ≤ d.sectors) (hchain : Chain d.image.fat dataCluster first path)
    (hlt : ∀ c ∈ path, c < fatEntries) (hn : path.length ≤ n) : wp (freeLoop n first)
      (fun _ d' => d'.image = d.image.clear path ∧ Served d d' (3 * path.length))
      (fun code d' => code = -3 ∧ ∃ k < 3 * path.length, Broke d d' k
        ∧ d'.image = d.image.clear (path.take (k / 3))) d := by
  induction path generalizing n first d with
  | nil =>
    have hdead := Chain.nil_iff.mp hchain
    cases n with
    | zero => exact ⟨by simp, Served.refl d⟩
    | succ =>
      rw [freeLoop, if_neg hdead]
      exact ⟨by simp, Served.refl d⟩
  | cons c rest ih =>
    obtain ⟨rfl, hlive, hrest⟩ := Chain.cons_iff.mp hchain
    have hlength : (c :: rest).length = rest.length + 1 := length_cons
    obtain ⟨n, rfl⟩ := Nat.exists_eq_succ_of_ne_zero (show n ≠ 0 by omega)
    rw [freeLoop, if_pos hlive]
    refine freeRound_wp (hlt c mem_cons_self) hs (fun d1 himage hserved => ?_) fun d1 k hk hbroke
      himage => ?_
    · have hnotMem : c ∉ rest := (nodup_cons.mp hchain.nodup).1
      -- the rest of the chain does not see that its front is gone
      have hrest1 : Chain d1.image.fat dataCluster (d.image.fat c) rest := by
        refine hrest.congr fun x hx => ?_
        rw [himage]
        exact setFat_fat_of_ne fun heq => hnotMem (heq ▸ hx)
      refine wp_mono (ih (hserved.le_sectors hs) hrest1 (fun x hx => hlt x (mem_cons_of_mem c hx))
        (by omega)) ?_ ?_
      · rintro _ d2 ⟨himage2, hserved2⟩
        rw [himage2, himage, clear_cons, hlength, Nat.mul_succ, Nat.add_comm]
        exact ⟨rfl, hserved.trans hserved2⟩
      · rintro code d2 ⟨hcode, k, hk, hbroke, himage2⟩
        refine ⟨hcode, 3 + k, by omega, hserved.broke hbroke, ?_⟩
        rw [himage2, himage, show (3 + k) / 3 = k / 3 + 1 by omega, take_succ_cons, clear_cons]
    · refine ⟨rfl, k, by omega, hbroke, ?_⟩
      rw [himage, show k / 3 = 0 by omega, take_zero, clear_nil]

theorem jihooFatFree_wp (hs : 81 ≤ d.sectors) (hsound : Sound d.image.fat clusters first path) :
    wp (jihooFatFree first) (fun _ d' => d'.image = d.image.clear path
      ∧ Served d d' (3 * path.length))
      (fun code d' => code = -3 ∧ ∃ k < 3 * path.length, Broke d d' k
        ∧ d'.image = d.image.clear (path.take (k / 3))) d := by
  have hlength := hsound.length_le
  exact freeLoop_wp hs hsound.walk (fun c hc => hsound.lt_fatEntries hc) (by omega)

theorem walkLoop_wp {i p : Nat} (hs : 81 ≤ d.sectors)
    (hchain : Chain d.image.fat dataCluster first path) (hlt : ∀ c ∈ path, c < fatEntries)
    (hn : i + n ≤ path.length) : wp (walkLoop n p (d.image.fat^[i] first))
      (fun found d' => found.1 = (if n = 0 then p else d.image.fat^[i + n - 1] first)
        ∧ found.2 = d.image.fat^[i + n] first ∧ d'.bytes = d.bytes ∧ Later d d')
      (fun code d' => code = -3 ∧ d'.bytes = d.bytes ∧ d.Faulted d') d := by
  induction n generalizing i p d with
  | zero => exact ⟨rfl, rfl, rfl, Later.refl d⟩
  | succ n ih =>
    have hi : i < path.length := by omega
    have hlive := hchain.live_iterate hi
    rw [walkLoop, if_neg (by rintro (h | h) <;> have := hlive.1 <;> have := hlive.2 <;> omega),
      wp_bind]
    refine wp_mono (jihooFatRead_wp (hlt _ (hchain.iterate_mem hi)) hs) ?_ ?_
    · rintro next d1 ⟨rfl, hbytes1, hserved1⟩
      have himage1 := Device.image_eq_of_bytes hbytes1
      have hs1 := hserved1.le_sectors hs
      have hrec := ih (d := d1) (i := i + 1) (p := d.image.fat^[i] first) hs1 (by rwa [himage1])
        (by omega)
      rw [himage1, Function.iterate_succ_apply'] at hrec
      refine wp_mono hrec ?_ ?_
      · rintro found d2 ⟨hprev, hcluster, hbytes2, hlater2⟩
        refine ⟨?_, ?_, hbytes2.trans hbytes1, hserved1.later.trans hlater2⟩
        · rw [hprev, if_neg (by omega : ¬ n + 1 = 0)]
          by_cases hzero : n = 0
          · subst hzero
            rfl
          · rw [if_neg hzero, show i + 1 + n - 1 = i + (n + 1) - 1 by omega]
        · rw [hcluster, show i + 1 + n = i + (n + 1) by omega]
      · rintro code d2 ⟨hcode, hbytes2, hfaulted⟩
        exact ⟨hcode, hbytes2.trans hbytes1, hserved1.later.faulted hfaulted⟩
    · intro code d1 hfailed
      exact ⟨hfailed.1, hfailed.2.1, hfailed.faulted⟩

theorem jihooFatWalk_wp {steps : Nat} (hs : 81 ≤ d.sectors)
    (hsound : Sound d.image.fat clusters first path) (hsteps : steps ≤ path.length) :
    wp (jihooFatWalk first steps)
      (fun found d' => found.1 = (if steps = 0 then 0 else d.image.fat^[steps - 1] first)
        ∧ found.2 = d.image.fat^[steps] first ∧ d'.bytes = d.bytes ∧ Later d d')
      (fun code d' => code = -3 ∧ d'.bytes = d.bytes ∧ d.Faulted d') d := by
  have hwalk := walkLoop_wp (i := 0) (p := 0) (n := steps) hs hsound.walk
    (fun c hc => hsound.lt_fatEntries hc) (by omega)
  rw [Nat.zero_add] at hwalk
  exact hwalk

end Kaguya.FileSystem
