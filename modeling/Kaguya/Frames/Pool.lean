import Kaguya.Frames.Boot
import Kaguya.Lib.Chain

/-!
# The frame pool

The pool of `frame.jh` takes over the boot allocator's cursor. It hands out the frames that were
given back, which it keeps in a list that runs through the frames themselves, and then unused pages
of the memory map. No frame is handed out twice, whatever the calls and whatever the owners of
frames write into them.

The memory map is not in usable memory, so the pool does not write over it.
-/

namespace Kaguya.Frames

open Trapping List

structure Pool where
  map : MemoryMap
  cursor : Cursor
  freeHead : Nat
  inUse : Nat
  memory : Buffer

namespace Pool

def commit (memory : Buffer) (map : MemoryMap) (cursor : Cursor) : Pool where
  map := map
  cursor := cursor
  freeHead := 0
  inUse := 0
  memory := memory

def alloc (p : Pool) : Trapping (Nat × Pool) := do
  if p.freeHead ≠ 0 then
    let next := p.memory.get p.freeHead 8
    let inUse ← plus 64 p.inUse 1
    return (p.freeHead, { p with freeHead := next, inUse := inUse })
  else if p.map.stride = 0 then return (0, p)
  else
    let (frame, cursor) ← bootFrame p.map p.cursor
    if frame = 0 then return (0, { p with cursor := cursor })
    let inUse ← plus 64 p.inUse 1
    return (frame, { p with cursor := cursor, inUse := inUse })

def free (p : Pool) (frame : Nat) : Trapping Pool := do
  let inUse ← minus p.inUse 1
  return { p with
    memory := p.memory.put frame p.freeHead 8
    freeHead := frame
    inUse := inUse }

end Pool

inductive BootCall where
  | frame
  | frames (count : Nat)

structure Booting where
  cursor : Cursor
  handed : List (List Nat)

def Booting.record (b : Booting) (cursor : Cursor) (start count : Nat) : Booting where
  cursor := cursor
  handed :=
    if start = 0 then b.handed
    else b.handed ++ [(range count).map fun j => start + 4096 * j]

def Booting.step (map : MemoryMap) (b : Booting) : BootCall → Trapping Booting
  | .frame => do
      let (frame, cursor) ← bootFrame map b.cursor
      return b.record cursor frame 1
  | .frames count => do
      let (start, cursor) ← bootFrames map b.cursor count
      return b.record cursor start count

inductive Action where
  | alloc
  | free (frame : Nat)
  | fill (frame : Nat) (contents : Buffer)

structure System where
  pool : Pool
  outstanding : List Nat
  boot : List (List Nat)

def System.step (s : System) : Action → Trapping System
  | .alloc => do
      let (frame, pool) ← s.pool.alloc
      return { s with
        pool := pool
        outstanding := if frame = 0 then s.outstanding else frame :: s.outstanding }
  | .free frame => do
      if frame ∈ s.outstanding then
        let pool ← s.pool.free frame
        return { s with
          pool := pool
          outstanding := s.outstanding.erase frame }
      else return s
  | .fill frame contents =>
    if frame ∈ s.outstanding then
      return { s with pool := { s.pool with
        memory := s.pool.memory.memCopy frame contents frame 4096 } }
    else return s

/-- Calls of the boot allocator, then `jihoo_pool_commit`, then calls of the pool. -/
def run (map : MemoryMap) (memory : Buffer) (calls : List BootCall) (actions : List Action) :
    Trapping System := do
  let b ← calls.foldlM (Booting.step map) ⟨⟨0, 0⟩, []⟩
  actions.foldlM System.step ⟨Pool.commit memory map b.cursor, [], b.handed⟩

def IsFrame (map : MemoryMap) (frame : Nat) : Prop := frame ≠ 0 ∧ ∃ i k, map.PageAt i k frame

structure Sound (map : MemoryMap) (s : System) : Prop where
  frames : ∀ frame ∈ s.outstanding, IsFrame map frame
  bootFrames : ∀ pages ∈ s.boot, ∀ frame ∈ pages, IsFrame map frame
  /-- No frame is outstanding twice, none was handed out twice at boot, and none is both. -/
  nodup : (s.outstanding ++ s.boot.flatten).Nodup
  inUse : s.pool.inUse = s.outstanding.length

variable {map : MemoryMap} {cursor cursor' : Cursor} {frame other : Nat}

structure Booting.Invariant (map : MemoryMap) (b : Booting) : Prop where
  given : ∀ frame ∈ b.handed.flatten, frame ≠ 0 ∧ Given map b.cursor frame
  nodup : b.handed.flatten.Nodup

theorem Booting.Invariant.record {b : Booting} {start count : Nat} (h : b.Invariant map)
    (hvalid : map.Valid) (hrun : BootRun map b.cursor count (start, cursor)) :
    (b.record cursor start count).Invariant map := by
  unfold Booting.record
  split
  · refine ⟨?_, h.nodup⟩
    intro frame hmem
    obtain ⟨hne, hgiven⟩ := h.given frame hmem
    exact ⟨hne, hgiven.later hrun.le⟩
  rename_i hstart
  have hpages : ∀ frame ∈ (range count).map (fun j => start + 4096 * j), frame ≠ 0
      ∧ Fresh map b.cursor cursor frame := by
    intro frame hmem
    obtain ⟨j, hj, rfl⟩ := mem_map.mp hmem
    exact ⟨by omega, hrun.fresh hstart j (mem_range.mp hj)⟩
  constructor
  · intro frame hmem
    rw [flatten_append, flatten_singleton] at hmem
    rcases mem_append.mp hmem with hold | hnew
    · obtain ⟨hne, hgiven⟩ := h.given frame hold
      exact ⟨hne, hgiven.later hrun.le⟩
    · obtain ⟨hne, hfresh⟩ := hpages frame hnew
      exact ⟨hne, hfresh.given⟩
  · rw [flatten_append, flatten_singleton]
    apply h.nodup.append
    · apply nodup_range.map
      intro j j' heq
      dsimp only at heq
      omega
    · intro frame hold hnew
      exact (hpages frame hnew).2.ne hvalid (h.given frame hold).2 rfl

theorem Booting.Invariant.step {b : Booting} (h : b.Invariant map) (hvalid : map.Valid)
    (call : BootCall) : Returns (b.step map call) (Booting.Invariant map) := by
  cases call with
  | frame =>
    apply (returns_bootFrame hvalid b.cursor).bind
    rintro ⟨frame, cursor⟩ ⟨hle, hfresh⟩
    apply returns_pure.mpr
    apply h.record hvalid
    refine ⟨hle, fun hne j hj => ?_⟩
    obtain rfl : j = 0 := Nat.lt_one_iff.mp hj
    exact hfresh hne
  | frames count =>
    apply (returns_bootFrames hvalid b.cursor count).bind
    rintro ⟨start, cursor⟩ hrun
    exact returns_pure.mpr (h.record hvalid hrun)

def FreeList (p : Pool) (frames : List Nat) : Prop :=
  Chain (fun frame => p.memory.get frame 8) (· ≠ 0) p.freeHead frames

structure Invariant (map : MemoryMap) (s : System) : Prop where
  map_eq : s.pool.map = map
  inUse : s.pool.inUse = s.outstanding.length
  /-- What is free, outstanding and handed out at boot are different pages before the cursor. -/
  partition : ∃ free, FreeList s.pool free ∧ (free ++ s.outstanding ++ s.boot.flatten).Nodup
    ∧ ∀ frame ∈ free ++ s.outstanding ++ s.boot.flatten, frame ≠ 0 ∧ Given map s.pool.cursor frame

theorem Given.apart (h : Given map cursor frame) (h' : Given map cursor other) (hvalid : map.Valid)
    (hne : frame ≠ other) : frame + 4096 ≤ other ∨ other + 4096 ≤ frame := by
  have hframe := h.bounds hvalid
  have hother := h'.bounds hvalid
  omega

theorem length_lt_of_given {frames : List Nat} (hvalid : map.Valid) (hnodup : frames.Nodup)
    (hgiven : ∀ frame ∈ frames, Given map cursor frame) : frames.length < 2 ^ 53 := by
  have hdivided : (frames.map (· / 4096)).Nodup := by
    apply hnodup.map_on
    intro frame hframe other hother heq
    have hbounds := (hgiven frame hframe).bounds hvalid
    have hbounds' := (hgiven other hother).bounds hvalid
    omega
  have hsubset : frames.map (· / 4096) ⊆ range (2 ^ 52) := by
    intro page hpage
    obtain ⟨frame, hframe, rfl⟩ := mem_map.mp hpage
    have hbounds := (hgiven frame hframe).bounds hvalid
    rw [mem_range]
    omega
  have hle := (subperm_of_subset hdivided hsubset).length_le
  rw [length_map, length_range] at hle
  exact Nat.lt_of_le_of_lt hle (by decide)

section Steps
variable {s : System} (h : Invariant map s) (hvalid : map.Valid)
include h hvalid

theorem Invariant.inUse_lt : s.pool.inUse < 2 ^ 53 := by
  obtain ⟨free, _, hnodup, hgiven⟩ := h.partition
  rw [h.inUse]
  apply length_lt_of_given hvalid
  · exact hnodup.of_append_left.of_append_right
  · intro frame hmem
    exact (hgiven frame (mem_append_left _ (mem_append_right _ hmem))).2

theorem Invariant.alloc : Returns (s.step .alloc) (Invariant map) := by
  have hcount := h.inUse_lt hvalid
  obtain ⟨free, hfree, hnodup, hgiven⟩ := h.partition
  change Returns (s.pool.alloc >>= _) _
  unfold Pool.alloc
  by_cases hhead : s.pool.freeHead ≠ 0
  · -- the first frame of the list
    rw [if_pos hhead, plus_eq (by omega), ok_bind]
    cases hfree with
    | stop hnone => exact absurd hhead hnone
    | @link _ rest _ hrest =>
      apply returns_pure.mpr
      rw [if_neg hhead]
      have hperm : (s.pool.freeHead :: rest ++ s.outstanding ++ s.boot.flatten).Perm
          (rest ++ s.pool.freeHead :: s.outstanding ++ s.boot.flatten) :=
          (perm_middle.symm).append_right _
      refine ⟨h.map_eq, ?_, rest, hrest, hperm.nodup hnodup, ?_⟩
      · rw [length_cons, h.inUse]
      · intro frame hmem
        exact hgiven frame (hperm.mem_iff.mpr hmem)
  -- a page that was never used
  have hstride := hvalid.stride
  rw [if_neg hhead, h.map_eq, if_neg (by omega)]
  obtain ⟨⟨frame, cursor⟩, hboot, hle, hfresh⟩ := returns_bootFrame hvalid s.pool.cursor
  rw [hboot, ok_bind]
  dsimp only
  by_cases hframe : frame = 0
  · rw [if_pos hframe]
    apply returns_pure.mpr
    rw [if_pos rfl]
    refine ⟨rfl, h.inUse, free, hfree, hnodup, ?_⟩
    intro other hmem
    obtain ⟨hne, hother⟩ := hgiven other hmem
    exact ⟨hne, hother.later hle⟩
  have hfresh := hfresh hframe
  have hperm : (frame :: (free ++ s.outstanding ++ s.boot.flatten)).Perm
      (free ++ frame :: s.outstanding ++ s.boot.flatten) := (perm_middle.symm).append_right _
  rw [if_neg hframe, plus_eq (by omega), ok_bind]
  apply returns_pure.mpr
  rw [if_neg hframe]
  refine ⟨rfl, ?_, free, hfree, ?_, ?_⟩
  · rw [length_cons, h.inUse]
  · apply hperm.nodup
    rw [nodup_cons]
    exact ⟨fun hmem => hfresh.ne hvalid (hgiven frame hmem).2 rfl, hnodup⟩
  intro other hmem
  rcases mem_cons.mp (hperm.mem_iff.mpr hmem) with rfl | hold
  · exact ⟨hframe, hfresh.given⟩
  · obtain ⟨hne, hother⟩ := hgiven other hold
    exact ⟨hne, hother.later hle⟩

theorem Invariant.free (hframe : frame ∈ s.outstanding) :
    Returns (s.step (.free frame)) (Invariant map) := by
  obtain ⟨free, hfree, hnodup, hgiven⟩ := h.partition
  have hmem : frame ∈ free ++ s.outstanding ++ s.boot.flatten :=
    mem_append_left _ (mem_append_right _ hframe)
  obtain ⟨hne, hpage⟩ := hgiven frame hmem
  have hpos : 0 < s.outstanding.length := length_pos_of_mem hframe
  have hhead : s.pool.freeHead < 2 ^ 64 := by
    cases hfree with
    | stop hnone =>
      rw [not_not.mp hnone]
      decide
    | link =>
      have hbounds := (hgiven s.pool.freeHead (by simp)).2.bounds hvalid
      omega
  have hperm : (free ++ s.outstanding ++ s.boot.flatten).Perm
      (frame :: free ++ s.outstanding.erase frame ++ s.boot.flatten) :=
    (((perm_cons_erase hframe).append_left free).trans perm_middle).append_right _
  change Returns (if frame ∈ s.outstanding then s.pool.free frame >>= _ else pure s) _
  rw [if_pos hframe]
  unfold Pool.free
  rw [minus_eq (by rw [h.inUse]; exact hpos), ok_bind]
  apply returns_pure.mpr
  refine ⟨h.map_eq, ?_, frame :: free, ?_, hperm.nodup hnodup, ?_⟩
  · dsimp only
    rw [h.inUse, length_erase_of_mem hframe]
  · refine Chain.link ?_ ?_
    · exact hne
    dsimp only
    rw [Buffer.get_put hhead]
    apply Chain.congr hfree
    intro other hother
    have hdistinct : other ≠ frame := by
      rintro rfl
      exact (nodup_cons.mp (hperm.nodup hnodup).of_append_left.of_append_left).1 hother
    have hapart := (hgiven other (mem_append_left _ (mem_append_left _ hother))).2.apart hpage
      hvalid hdistinct
    exact Buffer.get_put_of_disjoint (by omega)
  · intro other hother
    exact hgiven other (hperm.mem_iff.mpr hother)

theorem Invariant.fill (hframe : frame ∈ s.outstanding) (contents : Buffer) :
    Returns (s.step (.fill frame contents)) (Invariant map) := by
  obtain ⟨free, hfree, hnodup, hgiven⟩ := h.partition
  have hpage := (hgiven frame (mem_append_left _ (mem_append_right _ hframe))).2
  change Returns (if frame ∈ s.outstanding then pure _ else pure s) _
  rw [if_pos hframe]
  apply returns_pure.mpr
  refine ⟨h.map_eq, h.inUse, free, ?_, hnodup, hgiven⟩
  apply Chain.congr hfree
  intro other hother
  have hdistinct : other ≠ frame := by
    rintro rfl
    exact (disjoint_of_nodup_append hnodup.of_append_left) hother hframe
  have hapart := (hgiven other (mem_append_left _ (mem_append_left _ hother))).2.apart hpage hvalid
    hdistinct
  apply Buffer.get_congr
  intro i hi
  exact Buffer.memCopy_of_not_mem (by omega)

theorem Invariant.step (action : Action) : Returns (s.step action) (Invariant map) := by
  cases action with
  | alloc => exact h.alloc hvalid
  | free frame =>
    by_cases hframe : frame ∈ s.outstanding
    · exact h.free hvalid hframe
    · change Returns (if frame ∈ s.outstanding then _ else pure s) _
      rw [if_neg hframe]
      exact returns_pure.mpr h
  | fill frame contents =>
    by_cases hframe : frame ∈ s.outstanding
    · exact h.fill hvalid hframe contents
    · change Returns (if frame ∈ s.outstanding then _ else pure s) _
      rw [if_neg hframe]
      exact returns_pure.mpr h

end Steps

theorem Invariant.sound {s : System} (h : Invariant map s) : Sound map s := by
  obtain ⟨free, _, hnodup, hgiven⟩ := h.partition
  have hframe : ∀ frame ∈ free ++ s.outstanding ++ s.boot.flatten, IsFrame map frame := by
    intro frame hmem
    obtain ⟨hne, i, k, hpage, _⟩ := hgiven frame hmem
    exact ⟨hne, i, k, hpage⟩
  constructor
  · intro frame hmem
    exact hframe frame (mem_append_left _ (mem_append_right _ hmem))
  · intro pages hpages frame hmem
    exact hframe frame (mem_append_right _ (mem_flatten.mpr ⟨pages, hpages, hmem⟩))
  · rw [append_assoc] at hnodup
    exact hnodup.of_append_right
  · exact h.inUse

/-- **Frames are handed out soundly**, at boot and by the pool, in every run. -/
theorem run_sound (hvalid : map.Valid) (memory : Buffer) (calls : List BootCall)
    (actions : List Action) : Returns (run map memory calls actions) (Sound map) := by
  have hboot : Returns (calls.foldlM (Booting.step map) ⟨⟨0, 0⟩, []⟩) (Booting.Invariant map) := by
    apply returns_foldlM
    · intro b hb call _
      exact hb.step hvalid call
    · exact ⟨fun _ hmem => (nomatch hmem), nodup_nil⟩
  apply hboot.bind
  intro b hb
  have hpool : Returns (actions.foldlM System.step ⟨Pool.commit memory map b.cursor, [], b.handed⟩)
      (Invariant map) := by
    apply returns_foldlM
    · intro s hs action _
      exact hs.step hvalid action
    · exact ⟨rfl, rfl, [], Chain.stop (not_not.mpr rfl), hb.nodup, hb.given⟩
  exact hpool.mono fun _ h => h.sound

theorem run_sound_smallMap :
    Returns (run smallMap Buffer.zeroed [.frame, .frames 2]
      [.alloc, .alloc, .free 0x4000, .alloc, .alloc]) (Sound smallMap)
    ∧ (run smallMap Buffer.zeroed [.frame, .frames 2]
      [.alloc, .alloc, .free 0x4000, .alloc, .alloc]).map (fun s => (s.outstanding, s.boot))
      = .ok ([0x6000, 0x4000, 0x5000], [[0x1000], [0x2000, 0x3000]]) :=
  ⟨run_sound valid_smallMap _ _ _, by decide +kernel⟩

end Kaguya.Frames
