import Kaguya.FileSystem.Files

/-!
# Writing into a file

A write is a `Job`: the file as it was, and the input it is to receive. `Progress` says how far the
job has come: the chain may have grown behind its old end by clusters that were free, every position
below `reached` holds what the job wants there, and every other position of the file what it held
before. The clusters of the file and the free ones are its `room`, which rounds that succeed keep.
-/

namespace Kaguya.FileSystem

open Prog Device List Image

structure Job where
  before : Image
  clusters : Nat
  first : Nat
  size : Nat
  offset : Nat
  stop : Nat
  input : Buffer
  old : List Nat

namespace Job

structure Valid (job : Job) : Prop where
  sound : Sound job.before.fat job.clusters job.first job.old
  long : job.size ≤ 4096 * job.old.length
  ordered : job.offset ≤ job.stop

/-- What the job wants at a position: the input, zeros between the end of the file and the input,
and the old contents before that. -/
def target (job : Job) (x : Nat) : UInt8 :=
  if job.offset ≤ x then job.input (x - job.offset)
  else if job.size ≤ x then 0
  else job.before.logical job.old x

def expected (job : Job) (reached x : Nat) : UInt8 :=
  if x < reached then job.target x else job.before.logical job.old x

variable {x c : Nat} {w' u : WriteState} {code : Int}

theorem expected_eq_old (job : Job) {reached : Nat} (hsize : x < job.size)
    (hx : x < reached → x < job.offset) :
    job.expected reached x = job.before.logical job.old x := by
  rw [expected]
  split
  · rename_i hlt
    have := hx hlt
    rw [target, if_neg (by omega), if_neg (by omega)]
  · rfl

structure Progress (job : Job) (path : List Nat) (w : WriteState) : Prop where
  sound : Sound w.device.image.fat job.clusters w.first path
  grown : job.old <+: path
  fresh : ∀ c ∈ path, c ∉ job.old → job.before.fat c = 0
  fat : ∀ c, c ∉ path → w.device.image.fat c = job.before.fat c ∨ job.before.fat c = 0
  boot : w.device.image.boot = job.before.boot
  entry : w.device.image.entry = job.before.entry
  cluster : ∀ c, c ∉ path → w.device.image.cluster c = job.before.cluster c
  kept : job.old ≠ [] → w.first = job.first
  bound : w.reached ≤ job.stop
  long : w.reached ≤ 4096 * path.length
  data : ∀ x, x < job.size ∨ x < w.reached → w.device.image.logical path x = job.expected w.reached
    x

structure AtCluster (job : Job) (path : List Nat) (w : WriteState) (k previous cluster : Nat) :
    Prop where
  progress : job.Progress path w
  before : k ≤ path.length
  more : 4096 * k < job.stop
  cluster : cluster = w.device.image.fat^[k] w.first
  previous : previous = if k = 0 then 0 else w.device.image.fat^[k - 1] w.first
  low : 4096 * k ≤ w.reached
  high : w.reached < 4096 * (k + 1)
  early : w.reached ≤ job.offset ∨ w.reached = 4096 * k

variable {job : Job} {path : List Nat} {w : WriteState} {k previous cluster : Nat}

def room (job : Job) (path : List Nat) (w : WriteState) : Nat :=
  (w.device.image.free job.clusters).card + path.length

theorem room_of_fat (h : w'.device.image.fat = w.device.image.fat) :
    job.room path w' = job.room path w := by
  rw [room, room, free_congr h]

/-- Giving up for want of clusters: none is free, and the file has come to the end of its room. -/
def Exhausted (job : Job) (room : Nat) (code : Int) (w' : WriteState) : Prop :=
  code = -5 → w'.device.image.free job.clusters = ∅ ∧ 4096 * room ≤ w'.reached

theorem Exhausted.of_fault {room : Nat} (job : Job) (w : WriteState) (hcode : code = -3) :
    job.Exhausted room code w := by
  intro hfull
  omega

theorem Progress.size_le (h : job.Progress path w) (hjob : job.Valid) :
    job.size ≤ 4096 * path.length := by
  have hlength := h.grown.length_le
  have hlong := hjob.long
  omega

theorem Progress.length_le (h : job.Progress path w) :
    path.length ≤ (job.before.free job.clusters).card + job.old.length := by
  have hsub : path.toFinset ⊆ job.before.free job.clusters ∪ job.old.toFinset := by
    intro c hc
    rw [mem_toFinset] at hc
    rw [Finset.mem_union, mem_toFinset]
    by_cases hold : c ∈ job.old
    · exact .inr hold
    · exact .inl (mem_free.mpr ⟨⟨h.sound.two_le hc, h.sound.within c hc⟩, h.fresh c hc hold⟩)
  calc path.length = path.toFinset.card := (toFinset_card_of_nodup h.sound.walk.nodup).symm
    _ ≤ (job.before.free job.clusters ∪ job.old.toFinset).card := Finset.card_le_card hsub
    _ ≤ (job.before.free job.clusters).card + job.old.toFinset.card := Finset.card_union_le _ _
    _ ≤ _ := Nat.add_le_add_left (toFinset_card_le _) _

section
variable (h : job.AtCluster path w k previous cluster)
include h

theorem AtCluster.live_iff : dataCluster cluster ↔ k < path.length := by
  have hwalk := h.progress.sound.walk
  constructor
  · intro hlive
    by_contra hge
    have hk : k = path.length := le_antisymm h.before (by omega)
    exact hwalk.not_live_end (hk ▸ h.cluster ▸ hlive)
  · intro hlt
    rw [h.cluster]
    exact hwalk.live_iterate hlt

theorem AtCluster.getElem (hk : k < path.length) : path[k] = cluster := by
  rw [h.progress.sound.walk.getElem_eq hk, h.cluster]

theorem AtCluster.previous_eq_zero_iff : previous = 0 ↔ k = 0 := by
  rw [h.previous]
  split
  · simpa using ‹k = 0›
  rename_i hk
  have hlt : k - 1 < path.length := by
    have := h.before
    omega
  have htwo := (h.progress.sound.walk.live_iterate hlt).1
  constructor
  · intro hzero
    omega
  · intro hzero
    exact absurd hzero hk

end

theorem Progress.quiet (h : job.Progress path w) (himage : u.device.image = w.device.image)
    (hfirst : u.first = w.first) (hreached : u.reached = w.reached) : job.Progress path u := by
  obtain ⟨h1, h2, h3, h4, h5, h6, h7, h8, h9, h10, h11⟩ := h
  refine ⟨?_, h2, h3, ?_, ?_, ?_, ?_, ?_, ?_, ?_, ?_⟩
  · rwa [himage, hfirst]
  · rwa [himage]
  · rwa [himage]
  · rwa [himage]
  · rwa [himage]
  · rwa [hfirst]
  · rwa [hreached]
  · rwa [hreached]
  · rwa [himage, hreached]

theorem logical_append {image image' : Image} (hcluster : image'.cluster = image.cluster)
    (hx : x < 4096 * path.length) : image'.logical (path ++ [c]) x = image.logical path x := by
  have hlt : x / 4096 < path.length := by omega
  rw [Image.logical, Image.logical, hcluster, getD_append _ _ _ _ hlt]

theorem Progress.allocated (h : job.Progress path w) (hfree : w.device.image.fat c = 0)
    (himage : w'.device.image = w.device.image.setFat c 0xffff) (hfirst : w'.first = w.first)
    (hreached : w'.reached = w.reached) : job.Progress path w' := by
  have hnotMem := h.sound.not_mem_of_free hfree
  have hsame : ∀ x, x ≠ c → w'.device.image.fat x = w.device.image.fat x := by
    intro x hx
    rw [himage]
    exact setFat_fat_of_ne hx
  refine ⟨?_, h.grown, h.fresh, ?_, ?_, ?_, ?_, ?_, ?_, ?_, ?_⟩
  · rw [hfirst]
    refine h.sound.congr fun x hx => hsame x ?_
    intro heq
    exact hnotMem (heq ▸ hx)
  · intro x hx
    by_cases hxc : x = c
    · right
      rcases h.fat c hnotMem with heq | hzero
      · rw [hxc, ← heq, hfree]
      · rw [hxc, hzero]
    · rw [hsame x hxc]
      exact h.fat x hx
  · rw [himage]
    exact h.boot
  · rw [himage]
    exact h.entry
  · rw [himage]
    exact h.cluster
  · rw [hfirst]
    exact h.kept
  · rw [hreached]
    exact h.bound
  · rw [hreached]
    exact h.long
  · rw [himage, hreached]
    exact h.data

theorem Progress.linked (h : job.Progress path w) (hjob : job.Valid)
    (hfree : w.device.image.fat c = 0)
    (hsound : Sound w'.device.image.fat job.clusters w'.first (path ++ [c]))
    (hfat : ∀ x, x ∉ path → x ≠ c → w'.device.image.fat x = w.device.image.fat x)
    (hboot : w'.device.image.boot = w.device.image.boot)
    (hentry : w'.device.image.entry = w.device.image.entry)
    (hcluster : w'.device.image.cluster = w.device.image.cluster)
    (hfirst : path ≠ [] → w'.first = w.first) (hreached : w'.reached = w.reached) :
    job.Progress (path ++ [c]) w' := by
  have hnotMem := h.sound.not_mem_of_free hfree
  have hfreeBefore : job.before.fat c = 0 := by
    rcases h.fat c hnotMem with heq | hzero
    · rw [← heq, hfree]
    · exact hzero
  refine ⟨hsound, h.grown.trans (prefix_append _ _), ?_, ?_, hboot.trans h.boot,
    hentry.trans h.entry, ?_, ?_, ?_, ?_, ?_⟩
  · intro x hx hold
    rcases mem_append.mp hx with hmem | hmem
    · exact h.fresh x hmem hold
    · rw [mem_singleton.mp hmem]
      exact hfreeBefore
  · intro x hx
    rw [mem_append, not_or, mem_singleton] at hx
    rw [hfat x hx.1 hx.2]
    exact h.fat x hx.1
  · intro x hx
    rw [mem_append, not_or] at hx
    rw [hcluster]
    exact h.cluster x hx.1
  · intro hold
    have hne : path ≠ [] := by
      rintro rfl
      exact hold (prefix_nil.mp h.grown)
    rw [hfirst hne]
    exact h.kept hold
  · rw [hreached]
    exact h.bound
  · rw [hreached, length_append]
    have := h.long
    omega
  intro x hx
  rw [hreached] at hx ⊢
  have hinside : x < 4096 * path.length := by
    rcases hx with hlt | hlt
    · exact hlt.trans_le (h.size_le hjob)
    · exact hlt.trans_le h.long
  rw [logical_append hcluster hinside]
  exact h.data x hx

/-- What a round needs of the cluster it is given: its number, and in the workspace whatever of the
old contents is to stay. -/
structure Ready (job : Job) (path : List Nat) (w : WriteState) (k cluster : Nat)
    (workspace : Buffer) : Prop where
  progress : job.Progress path w
  inside : k < path.length
  getElem : path[k] = cluster
  kept : ∀ x, x / 4096 = k → x < job.size → x < job.offset ∨ job.stop ≤ x →
    workspace (x - 4096 * k) = w.device.image.logical path x

theorem linkCluster_wp (hjob : job.Valid) (h : job.AtCluster path w k previous cluster)
    (hs : 81 ≤ w.device.sectors) (hend : k = path.length) (hc : 2 ≤ c)
    (hlast : c ≤ lastCluster job.clusters) (hfree : w.device.image.fat c = 0)
    (himage1 : u.device.image = w.device.image.setFat c 0xffff) (hfirst1 : u.first = w.first)
    (hreached1 : u.reached = w.reached) (hlater1 : Later w.device u.device) :
    wp (linkCluster previous c)
      (fun _ w' => job.Progress (path ++ [c]) w' ∧ job.room (path ++ [c]) w' = job.room path w
        ∧ w'.reached = w.reached ∧ Later w.device w'.device)
      (fun code w' => code = -3 ∧ job.Progress path w' ∧ w'.reached = w.reached
        ∧ w.device.Faulted w'.device) u := by
  have hnotMem := h.progress.sound.not_mem_of_free hfree
  have hself : u.device.image.fat c = 0xffff := by
    rw [himage1]
    exact setFat_fat_self
  have hother : ∀ x, x ≠ c → u.device.image.fat x = w.device.image.fat x := by
    intro x hx
    rw [himage1]
    exact setFat_fat_of_ne hx
  have hroom1 : (u.device.image.free job.clusters).card + 1
      = (w.device.image.free job.clusters).card := by
    rw [himage1, free_setFat (by omega)]
    exact Finset.card_erase_add_one (mem_free.mpr ⟨⟨hc, hlast⟩, hfree⟩)
  have hlength : (path ++ [c]).length = path.length + 1 := by simp
  rw [linkCluster, wp_ite]
  constructor
  · -- nothing precedes the cluster: it becomes the first of the file
    intro hprevious
    have hnil : path = [] := by
      rw [← length_eq_zero_iff, ← hend]
      exact h.previous_eq_zero_iff.mp hprevious
    subst hnil
    refine ⟨?_, ?_, hreached1, hlater1⟩
    · refine h.progress.linked hjob hfree (Sound.single hc hlast hself) (fun x _ hx => hother x hx)
        ?_ ?_ ?_ (fun hne => absurd rfl hne) hreached1
      · rw [himage1]
        rfl
      · rw [himage1]
        rfl
      · rw [himage1]
        rfl
    · rw [room, room, hlength]
      omega
  intro hprevious
  have hk : k ≠ 0 := fun hk => hprevious (h.previous_eq_zero_iff.mpr hk)
  have hne : path ≠ [] := by
    rw [← length_pos_iff]
    omega
  have hprev : previous = w.device.image.fat^[path.length - 1] w.first := by
    rw [h.previous, if_neg hk, hend]
  have hmem : previous ∈ path := by
    rw [hprev, ← h.progress.sound.walk.getLast_eq hne]
    exact getLast_mem hne
  have hpreviousLt := h.progress.sound.lt_fatEntries hmem
  have hcLt := hlast.trans_lt (lastCluster_lt job.clusters)
  have hfatEntries : fatEntries = 16384 := rfl
  have hcprev : c ≠ previous := fun heq => hnotMem (heq ▸ hmem)
  have hs1 := hlater1.le_sectors hs
  refine wp_zoom.mpr (wp_mono (jihooFatWrite_wp hpreviousLt hs1) ?_ ?_)
  · rintro _ d ⟨hbytes, hserved⟩
    have himage : d.image = u.device.image.setFat previous c :=
      setFat_of_write hpreviousLt (by omega) hbytes
    have hsame : ∀ x, x ≠ c → x ≠ previous → d.image.fat x = w.device.image.fat x := by
      intro x hxc hxp
      rw [himage, setFat_fat_of_ne hxp]
      exact hother x hxc
    refine ⟨?_, ?_, hreached1, hlater1.trans hserved.later⟩
    · refine h.progress.linked hjob hfree ?_ ?_ ?_ ?_ ?_ (fun _ => hfirst1) hreached1
      · rw [hfirst1]
        refine h.progress.sound.extend hne hc hlast hnotMem ?_ ?_ ?_
        · rw [← hprev, himage]
          exact setFat_fat_self
        · rw [himage, setFat_fat_of_ne hcprev]
          exact hself
        · rw [← hprev]
          exact hsame
      · intro x hx hxc
        exact hsame x hxc fun heq => hx (heq ▸ hmem)
      · rw [himage, himage1]
        rfl
      · rw [himage, himage1]
        rfl
      · rw [himage, himage1]
        rfl
    · have htaken : u.device.image.fat previous ≠ 0 := by
        rw [hother previous (Ne.symm hcprev)]
        exact h.progress.sound.fat_ne_zero hmem
      rw [room, room, hlength]
      rw [himage, free_setFat_of_taken htaken (by omega)]
      omega
  · rintro code d hfailed
    refine ⟨hfailed.1, ?_, hreached1, hlater1.faulted hfailed.faulted⟩
    refine h.progress.allocated hfree ?_ hfirst1 hreached1
    rw [Device.image_eq_of_bytes hfailed.2.1, himage1]

def GaveUp (job : Job) (w : WriteState) (code : Int) (w' : WriteState) : Prop :=
  (∃ path, job.Progress path w') ∧
    ((code = -5 ∧ Later w.device w'.device) ∨ (code = -3 ∧ w.device.Faulted w'.device))

theorem writeTarget_wp (hjob : job.Valid) (h : job.AtCluster path w k previous cluster)
    (hs : 81 + 8 * job.clusters ≤ w.device.sectors) (workspace : Buffer) :
    wp (writeTarget job.clusters job.offset job.stop (4096 * k) previous cluster workspace)
      (fun target w' => (∃ path', job.Ready path' w' k target.1 target.2
        ∧ job.room path' w' = job.room path w)
        ∧ w'.reached = w.reached ∧ Later w.device w'.device)
      (fun code w' => job.GaveUp w code w' ∧ job.Exhausted (job.room path w) code w') w := by
  have hmetadata : 81 ≤ w.device.sectors := by omega
  rw [writeTarget, wp_ite]
  constructor
  · intro hdead
    have hend : k = path.length := by
      have hnot : ¬ k < path.length := fun hlt => hdead (h.live_iff.mpr hlt)
      have := h.before
      omega
    rw [wp_bind]
    refine wp_zoom.mpr (wp_mono (jihooFatAlloc_wp hmetadata) ?_ ?_)
    · rintro c d ⟨hc, hlast, hfree, himage, hlater⟩
      refine wp_seq (linkCluster_wp hjob h hmetadata hend hc hlast hfree himage rfl rfl hlater) ?_
        ?_
      · rintro _ w' ⟨hprogress, hroom, hreached, hlater'⟩
        refine ⟨⟨path ++ [c], ⟨hprogress, ?_, ?_, ?_⟩, hroom⟩, hreached, hlater'⟩
        · simp [hend]
        · simp [hend]
        -- the file had nothing here
        intro x hx hsize
        have hlong := h.progress.size_le hjob
        omega
      · rintro code w' ⟨hcode, hprogress, _, hfaulted⟩
        exact ⟨⟨⟨path, hprogress⟩, .inr ⟨hcode, hfaulted⟩⟩, .of_fault job w' hcode⟩
    · rintro code d ⟨hbytes, hcase⟩
      have himage : d.image = w.device.image := Device.image_eq_of_bytes hbytes
      have hprogress : job.Progress path ⟨d, w.first, w.reached⟩ := h.progress.quiet himage rfl rfl
      rcases hcase with ⟨hcode, hlater, hfull⟩ | ⟨hcode, hfaulted⟩
      · refine ⟨⟨⟨path, hprogress⟩, .inl ⟨hcode, hlater⟩⟩, fun _ => ?_⟩
        have hempty := free_eq_empty hfull
        have hlow := h.low
        rw [room, hempty, Finset.card_empty]
        constructor
        · exact (free_congr (congrArg Image.fat himage)).trans hempty
        · change _ ≤ w.reached
          omega
      · exact ⟨⟨⟨path, hprogress⟩, .inr ⟨hcode, hfaulted⟩⟩, .of_fault job _ hcode⟩
  · intro hlive
    have hk := h.live_iff.mp (not_not.mp hlive)
    have hget := h.getElem hk
    have hmem : cluster ∈ path := hget ▸ getElem_mem hk
    rw [wp_ite]
    constructor
    · intro _
      rw [wp_bind]
      refine wp_zoom.mpr
        (wp_mono (readCluster_wp hs (h.progress.sound.two_le hmem) (h.progress.sound.within _ hmem))
        ?_ ?_)
      · rintro old d ⟨hold, hbytes, hserved⟩
        have himage := Device.image_eq_of_bytes hbytes
        refine ⟨⟨path, ⟨h.progress.quiet himage rfl rfl, hk, hget, ?_⟩,
          room_of_fat (congrArg Image.fat himage)⟩, rfl, hserved.later⟩
        intro x hx _ _
        rw [logical_eq hx hk, hget, himage]
        exact hold _ (by omega)
      · rintro code d hfailed
        exact ⟨⟨⟨path, h.progress.quiet (Device.image_eq_of_bytes hfailed.2.1) rfl rfl⟩,
          .inr ⟨hfailed.1, hfailed.faulted⟩⟩, .of_fault job _ hfailed.1⟩
    · -- the whole cluster is overwritten
      intro hwhole
      refine ⟨⟨path, ⟨h.progress, hk, hget, ?_⟩, rfl⟩, rfl, Later.refl _⟩
      intro x hx _ hcase
      exfalso
      omega

variable {workspace : Buffer} {w1 : WriteState} {n : Nat}

theorem writeContents_apply {size offset stop : Nat} {input : Buffer} (hx : x / 4096 = k) :
    writeContents size offset stop (4096 * k) input workspace (x - 4096 * k)
      = if offset ≤ x ∧ x < stop then input (x - offset)
        else if size ≤ x ∧ x < offset then 0 else workspace (x - 4096 * k) := by
  have hgap : (if max size (4096 * k) < min offset (4096 * k + 4096)
      then workspace.memFill (max size (4096 * k) - 4096 * k) 0
        (min offset (4096 * k + 4096) - max size (4096 * k)) else workspace) (x - 4096 * k)
      = if size ≤ x ∧ x < offset then 0 else workspace (x - 4096 * k) := by
    by_cases hin : size ≤ x ∧ x < offset
    · rw [if_pos (by omega), if_pos hin, Buffer.memFill, if_pos (by omega)]
    rw [if_neg hin]
    split
    · rw [Buffer.memFill, if_neg (by omega)]
    · rfl
  simp only [writeContents]
  by_cases hin : offset ≤ x ∧ x < stop
  · rw [if_pos (by omega), if_pos hin, Buffer.memCopy_of_mem (by omega) (by omega)]
    congr 1
    omega
  rw [if_neg hin, ← hgap]
  split
  · rw [Buffer.memCopy_of_not_mem (by omega)]
  · rfl

/-- **One round.** The cluster at position `k` now holds what the job wants there, and the other
clusters of the file what they held. -/
theorem Ready.stored (hjob : job.Valid) (h : job.Ready path w k cluster workspace)
    (hmore : 4096 * k < job.stop) (hlow : 4096 * k ≤ w.reached) (hhigh : w.reached < 4096 * (k + 1))
    (hearly : w.reached ≤ job.offset ∨ w.reached = 4096 * k)
    (himage : u.device.image = w.device.image.setCluster cluster
      ((writeContents job.size job.offset job.stop (4096 * k) job.input workspace).upTo 4096))
    (hfirst : u.first = w.first) (hreached : u.reached = min job.stop (4096 * (k + 1))) :
    job.Progress path u := by
  have hmem : cluster ∈ path := h.getElem ▸ getElem_mem h.inside
  have hother : ∀ c, c ≠ cluster → u.device.image.cluster c = w.device.image.cluster c := by
    intro c hc
    rw [himage]
    exact setCluster_cluster_of_ne hc
  have hsize := h.progress.size_le hjob
  have hinside := h.inside
  refine ⟨?_, h.progress.grown, h.progress.fresh, ?_, ?_, ?_, ?_, ?_, ?_, ?_, ?_⟩
  · rw [himage, hfirst]
    exact h.progress.sound
  · rw [himage]
    exact h.progress.fat
  · rw [himage]
    exact h.progress.boot
  · rw [himage]
    exact h.progress.entry
  · intro c hc
    rw [hother c fun heq => hc (heq ▸ hmem)]
    exact h.progress.cluster c hc
  · rw [hfirst]
    exact h.progress.kept
  · rw [hreached]
    exact min_le_left _ _
  · rw [hreached]
    omega
  intro x hx
  by_cases hxk : x / 4096 = k
  · -- a position of the cluster that was written
    rw [logical_eq hxk h.inside, h.getElem, himage, setCluster_cluster_self,
      Buffer.upTo_of_lt (by omega), writeContents_apply hxk]
    by_cases hinput : job.offset ≤ x ∧ x < job.stop
    · rw [if_pos hinput, expected, if_pos (by omega), target, if_pos hinput.1]
    rw [if_neg hinput]
    by_cases hgap : job.size ≤ x ∧ x < job.offset
    · rw [if_pos hgap, expected, if_pos (by omega), target, if_neg (by omega), if_pos hgap.1]
    · have hxsize : x < job.size := by omega
      rw [if_neg hgap, h.kept x hxk hxsize (by omega), h.progress.data x (.inl hxsize)]
      rw [job.expected_eq_old hxsize (by omega), job.expected_eq_old hxsize (by omega)]
  · -- a position of another cluster
    have hidx : x / 4096 < path.length := by omega
    have hne : path[x / 4096] ≠ cluster := by
      rw [← h.getElem]
      exact fun heq => hxk ((h.progress.sound.walk.nodup.getElem_inj_iff).mp heq)
    have hsame : u.device.image.logical path x = w.device.image.logical path x := by
      rw [logical_eq rfl hidx, logical_eq rfl hidx, hother _ hne]
    rw [hsame, h.progress.data x (by omega), expected, expected]
    by_cases hlt : x < w.reached
    · rw [if_pos hlt, if_pos (by omega)]
    · rw [if_neg hlt, if_neg (by omega)]

abbrev roundEnd (job : Job) (k : Nat) : Nat :=
  max (min job.stop (4096 * k + 4096)) (min job.offset (4096 * k + 4096))

theorem Progress.next {d : Device} {first : Nat}
    (h : job.Progress path ⟨d, first, job.roundEnd k⟩) (hinside : k < path.length)
    (hget : path[k] = cluster) (hrest : ¬ 4096 * k + 4096 ≥ job.stop) :
    job.AtCluster path ⟨d, first, job.roundEnd k⟩ (k + 1) cluster (d.image.fat cluster) := by
  have hcluster : cluster = d.image.fat^[k] first := by
    rw [← hget]
    exact h.sound.walk.getElem_eq hinside
  have hend : job.roundEnd k = 4096 * (k + 1) := by
    rw [roundEnd]
    omega
  refine ⟨h, hinside, by omega, ?_, ?_, hend.ge, ?_, .inr hend⟩
  · rw [Function.iterate_succ_apply', ← hcluster]
  · rw [if_neg (by omega)]
    exact hcluster
  · change job.roundEnd k < _
    omega

theorem GaveUp.after (h : job.GaveUp w1 code w') (hlater : Later w.device w1.device) :
    job.GaveUp w code w' := by
  obtain ⟨hpath, ⟨hcode, hlater'⟩ | ⟨hcode, hfaulted⟩⟩ := h
  · exact ⟨hpath, .inl ⟨hcode, hlater.trans hlater'⟩⟩
  · exact ⟨hpath, .inr ⟨hcode, hlater.faulted hfaulted⟩⟩

theorem Progress.gaveUp {d : Device} {room : Nat} (h : job.Progress path w1)
    (hlater : Later w.device w1.device) (hfailed : w1.device.Failed n code d) :
    job.GaveUp w code { w1 with device := d }
      ∧ job.Exhausted room code { w1 with device := d } := by
  refine ⟨⟨⟨path, h.quiet (Device.image_eq_of_bytes hfailed.2.1) rfl rfl⟩, .inr ⟨hfailed.1, ?_⟩⟩,
    .of_fault job _ hfailed.1⟩
  exact hlater.faulted hfailed.faulted

/-- **The loop of `writeRange`.** It ends with the job done, or gives up having done part of it. -/
theorem writeLoop_wp (hjob : job.Valid) (h : job.AtCluster path w k previous cluster)
    (hs : 81 + 8 * job.clusters ≤ w.device.sectors) (hn : job.stop < 4096 * (k + n))
    (workspace : Buffer) :
    wp (writeLoop job.clusters job.size job.offset job.stop job.input n (4096 * k) previous cluster
      workspace)
      (fun _ w' => (∃ path', job.Progress path' w') ∧ w'.reached = job.stop
        ∧ Later w.device w'.device)
      (fun code w' => job.GaveUp w code w' ∧ job.Exhausted (job.room path w) code w') w := by
  induction n generalizing k path w previous cluster workspace with
  | zero =>
    have := h.more
    omega
  | succ n ih =>
    rw [writeLoop]
    refine wp_seq (writeTarget_wp hjob h hs workspace) ?_ fun code w' hgaveUp => hgaveUp
    rintro ⟨cluster', workspace'⟩ w1 ⟨⟨path1, hready, hroom⟩, hreached1, hlater1⟩
    dsimp only at hready ⊢
    have hmem : cluster' ∈ path1 := hready.getElem ▸ getElem_mem hready.inside
    have htwo := hready.progress.sound.two_le hmem
    have hs1 := hlater1.le_sectors hs
    rw [wp_bind]
    refine wp_zoom.mpr (wp_mono (writeCluster_wp hs1 htwo (hready.progress.sound.within _ hmem))
      ?_ fun code d2 hfailed => hready.progress.gaveUp hlater1 hfailed)
    rintro _ d2 ⟨hbytes2, hserved2⟩
    have hlater2 := hlater1.trans hserved2.later
    have himage2 : d2.image = w1.device.image.setCluster cluster'
        ((writeContents job.size job.offset job.stop (4096 * k) job.input workspace').upTo
        4096) := by
      rw [Device.image, hbytes2, image_memCopy_cluster htwo, Device.image]
    have hend : job.roundEnd k = min job.stop (4096 * (k + 1)) := by
      have hordered := hjob.ordered
      rw [roundEnd]
      omega
    have hprogress2 : job.Progress path1 ⟨d2, w1.first, job.roundEnd k⟩ :=
      hready.stored hjob h.more (hreached1 ▸ h.low) (hreached1 ▸ h.high) (hreached1 ▸ h.early)
      himage2 rfl hend
    rw [wp_bind, wp_modify, wp_ite]
    constructor
    · intro hdone
      refine ⟨⟨path1, hprogress2⟩, ?_, hlater2⟩
      change job.roundEnd k = _
      omega
    intro hrest
    have hs2 : 81 ≤ d2.sectors := by
      rw [hlater2.sectors]
      omega
    rw [wp_bind]
    refine wp_zoom.mpr (wp_mono (jihooFatRead_wp (hready.progress.sound.lt_fatEntries hmem) hs2)
      ?_ fun code d3 hfailed => hprogress2.gaveUp hlater2 hfailed)
    rintro next d3 ⟨rfl, hbytes3, hserved3⟩
    have himage3 := Device.image_eq_of_bytes hbytes3
    have hlater3 := hlater2.trans hserved3.later
    have hprogress3 : job.Progress path1 ⟨d3, w1.first, job.roundEnd k⟩ :=
      hprogress2.quiet himage3 rfl rfl
    have hat := hprogress3.next hready.inside hready.getElem hrest
    rw [himage3] at hat
    have hs3 := hlater3.le_sectors hs
    have hroom3 : job.room path1 ⟨d3, w1.first, job.roundEnd k⟩ = job.room path w := by
      rw [← hroom]
      apply room_of_fat
      rw [himage3, himage2]
      rfl
    refine wp_mono (ih hat hs3 (by omega) _) ?_ ?_
    · rintro _ w' ⟨hpath, hreached, hlater⟩
      exact ⟨hpath, hreached, hlater3.trans hlater⟩
    · intro code w' hfailed
      rw [hroom3] at hfailed
      exact ⟨hfailed.1.after hlater3, hfailed.2⟩

/-- Before the first round the file is as it was, which is what the job expects of a file it has
reached the end of. -/
theorem Progress.start (hjob : job.Valid) {d : Device} (himage : d.image = job.before) :
    job.Progress job.old ⟨d, job.first, min job.offset job.size⟩ := by
  have hlong := hjob.long
  have hordered := hjob.ordered
  refine ⟨?_, prefix_refl _, fun c hc hnew => absurd hc hnew, fun c _ => .inl ?_, ?_, ?_, ?_,
    fun _ => rfl, ?_, ?_, ?_⟩
  · rw [himage]
    exact hjob.sound
  · rw [himage]
  · rw [himage]
  · rw [himage]
  · intro c _
    rw [himage]
  · change min _ _ ≤ _
    omega
  · change min _ _ ≤ _
    omega
  intro x _
  change d.image.logical job.old x = job.expected (min job.offset job.size) x
  rw [himage, expected]
  split
  · rw [target, if_neg (by omega), if_neg (by omega)]
  · rfl

end Job

open Job

variable {d : Device} {clusters first size offset : Nat} {input : List UInt8} {old : List Nat}

def writeJob (d : Device) (clusters first size offset : Nat) (input : List UInt8) (old : List Nat) :
    Job :=
  ⟨d.image, clusters, first, size, offset, offset + input.length, Buffer.ofList input, old⟩

theorem writeRange_wp (hjob : (writeJob d clusters first size offset input old).Valid)
    (hs : 81 + 8 * clusters ≤ d.sectors) (hlength : input.length ≠ 0) :
    wp (writeRange clusters ⟨first, size⟩ offset input)
      (fun _ w' => (∃ path, (writeJob d clusters first size offset input old).Progress path w')
        ∧ w'.reached = offset + input.length ∧ Later d w'.device)
      (fun code w' => (writeJob d clusters first size offset input old).GaveUp
          ⟨d, first, min offset size⟩ code w'
            ∧ (writeJob d clusters first size offset input old).Exhausted
          ((d.image.free clusters).card + old.length) code w') ⟨d, first, min offset size⟩ := by
  have hlong : size ≤ 4096 * old.length := hjob.long
  have hsteps : (min offset size - min offset size % 4096) / 4096 = min offset size / 4096 := by
    omega
  have hstart : min offset size - min offset size % 4096 = 4096 * (min offset size / 4096) := by
    omega
  rw [writeRange, wp_bind]
  rw [hsteps]
  have hmetadata : 81 ≤ d.sectors := by omega
  have hinside : min offset size / 4096 ≤ old.length := by omega
  refine wp_zoom.mpr (wp_mono (jihooFatWalk_wp hmetadata hjob.sound hinside) ?_ ?_)
  · rintro ⟨previous, cluster⟩ d' ⟨hprevious, hcluster, hbytes, hlater⟩
    have himage : d'.image = d.image := Device.image_eq_of_bytes hbytes
    have hprogress := Progress.start hjob (d := d') himage
    have hat : (writeJob d clusters first size offset input old).AtCluster old
        ⟨d', first, min offset size⟩ (min offset size / 4096) previous cluster := by
      refine ⟨hprogress, by omega, ?_, ?_, ?_, ?_, ?_, .inl ?_⟩
      · change _ < offset + input.length
        omega
      · rw [himage]
        exact hcluster
      · rw [himage]
        exact hprevious
      · change _ ≤ min offset size
        omega
      · change min offset size < _
        omega
      · change min offset size ≤ offset
        omega
    have hs' : 81 + 8 * clusters ≤ d'.sectors := by rw [hlater.sectors]; exact hs
    have hbound : offset + input.length < 4096
        * (min offset size / 4096 + ((offset + input.length) / 4096 + 1)) := by
      omega
    rw [hstart]
    refine wp_mono (writeLoop_wp hjob hat hs' hbound Buffer.zeroed) ?_ ?_
    · rintro _ w' ⟨hpath, hreached, hlater'⟩
      exact ⟨hpath, hreached, hlater.trans hlater'⟩
    rintro code w' ⟨⟨hpath, hcase⟩, hexhausted⟩
    have hroom : (writeJob d clusters first size offset input old).room old
        ⟨d', first, min offset size⟩ = (d.image.free clusters).card + old.length := by
      change (d'.image.free clusters).card + _ = _
      rw [himage]
    rw [hroom] at hexhausted
    rcases hcase with ⟨hcode, hlater'⟩ | ⟨hcode, hfaulted⟩
    · exact ⟨⟨hpath, .inl ⟨hcode, hlater.trans hlater'⟩⟩, hexhausted⟩
    · exact ⟨⟨hpath, .inr ⟨hcode, hlater.faulted hfaulted⟩⟩, hexhausted⟩
  · rintro code d' ⟨hcode, hbytes, hfaulted⟩
    exact ⟨⟨⟨old, Progress.start hjob (Device.image_eq_of_bytes hbytes)⟩, .inr ⟨hcode, hfaulted⟩⟩,
      .of_fault _ _ hcode⟩

structure Wrote (job : Job) (outcome : WriteOutcome) (path : List Nat) (w : WriteState) : Prop where
  progress : job.Progress path w
  first : outcome.file.first = w.first
  size : outcome.file.size = if w.reached > job.offset then max job.size w.reached else job.size
  written : outcome.written = w.reached - job.offset

theorem jihooFileWrite_wp (hjob : (writeJob d clusters first size offset input old).Valid)
    (hs : 81 + 8 * clusters ≤ d.sectors) (hlength : input.length ≠ 0)
    (hrange : ¬ (offset > 0xffffffff ∨ input.length > 0xffffffff - offset)) :
    wp (jihooFileWrite clusters ⟨first, size⟩ offset input)
      (fun outcome d' => ∃ path w, w.device = d'
        ∧ Wrote (writeJob d clusters first size offset input old) outcome path w
        ∧ (match outcome.status with
          | .ok _ => w.reached = offset + input.length ∧ Later d d'
          | .error code => (code = -5 ∧ Later d d') ∨ (code = -3 ∧ d.Faulted d'))
        ∧ ∀ code, outcome.status = .error code →
            (writeJob d clusters first size offset input old).Exhausted
            ((d.image.free clusters).card + old.length) code w) (fun _ _ => False) d := by
  have hrun := writeRange_wp hjob hs hlength
  unfold wp jihooFileWrite
  rw [if_neg hlength, if_neg hrange]
  dsimp only
  rcases hstatus : writeRange clusters ⟨first, size⟩ offset input ⟨d, first, min offset size⟩
    with ⟨code | _, w⟩
  · obtain ⟨⟨⟨path, hprogress⟩, hcase⟩, hexhausted⟩ := wp_error hrun hstatus
    by_cases hgt : w.reached > offset
    · rw [if_pos hgt]
      refine ⟨path, w, rfl, ⟨hprogress, rfl, ?_, rfl⟩, hcase, ?_⟩
      · exact (if_pos hgt).symm
      · rintro _ ⟨⟩
        exact hexhausted
    rw [if_neg hgt]
    refine ⟨path, w, rfl, ⟨hprogress, rfl, ?_, ?_⟩, hcase, ?_⟩
    · exact (if_neg hgt).symm
    · change 0 = w.reached - offset
      omega
    · rintro _ ⟨⟩
      exact hexhausted
  · obtain ⟨⟨path, hprogress⟩, hreached, hlater⟩ := wp_ok hrun hstatus
    have hgt : w.reached > offset := by omega
    rw [if_pos hgt]
    refine ⟨path, w, rfl, ⟨hprogress, rfl, ?_, rfl⟩, ⟨hreached, hlater⟩, fun _ hno => nomatch hno⟩
    change max size w.reached = if w.reached > offset then _ else _
    rw [if_pos hgt]
    rfl

end Kaguya.FileSystem
