import Kaguya.Heap.Layout

/-!
# The operations of the heap

Every operation of the interface takes a memory that is laid out by a plan to another one, with the
allocation added or removed. An allocation that fails changes nothing.
-/

namespace Kaguya.Heap

open Block List

namespace LaidOut

variable {start border stop : Nat} {h : Heap} {live : List Allocation} {plan : Plan}
variable {a : Allocation} {size alignment bucket : Nat}
variable (i : LaidOut start border stop h live plan)

/-- The outcome of an allocation: nothing has changed, or the plan has a place for it. No slab is
added unless the request has to carve one. -/
def Allocates (start border stop : Nat) (h : Heap) (live : List Allocation) (plan : Plan)
    (size alignment : Nat) (carves : Prop) (result : Nat × Heap) : Prop :=
  result = (0, h)
  ∨ (result.1 ≠ 0 ∧ ∃ plan',
    LaidOut start border stop result.2 (⟨result.1, size, alignment⟩ :: live) plan'
    ∧ (¬ carves → ∀ b ∈ plan'.blocks, b.use = .slab → b ∈ plan.blocks))

def slabCells (base bucket : Nat) : List Cell :=
  (range 32).map fun k => ⟨base + k * (classSize bucket + 8), bucket⟩

theorem slabCells_apart (base bucket : Nat) :
    (slabCells base bucket).Pairwise fun c d => c.stop ≤ d.address ∨ d.stop ≤ c.address := by
  unfold slabCells
  rw [pairwise_map]
  refine pairwise_lt_range.imp fun {j k} hlt => .inl ?_
  have hmul := Nat.mul_le_mul_right (classSize bucket + 8) (Nat.succ_le_of_lt hlt)
  unfold Cell.stop
  rw [Nat.succ_mul] at hmul
  dsimp only
  omega

variable {base needed : Nat} {front back : List Large} {block : Large} {memory : Buffer}

theorem slabCells_bounds (hlt : bucket < 10) (hbase : 8 ∣ base) {d : Cell}
    (hd : d ∈ slabCells base bucket) :
    d.bucket = bucket ∧ 8 ∣ d.address ∧ base ≤ d.address ∧ d.stop ≤ base + (classSize bucket + 8)
      * 32 := by
  obtain ⟨k, hk, rfl⟩ := mem_map.mp hd
  have hk := mem_range.mp hk
  have hclass := classSize_spec hlt
  have hmul := Nat.mul_le_mul_right (classSize bucket + 8) (Nat.succ_le_of_lt hk)
  have hdvd : 8 ∣ k * (classSize bucket + 8) := Dvd.dvd.mul_left (by omega) k
  rw [Nat.succ_mul] at hmul
  unfold Cell.stop
  dsimp only
  omega

section

include i

theorem pushAll (addresses : List Nat) (hcells : ∀ a ∈ addresses, (⟨a, bucket⟩ : Cell) ∈ plan.cells)
    (hnodup : addresses.Nodup)
    (hfresh : ∀ a ∈ addresses, a ∉ plan.lists bucket ∧ Vacant ⟨a, bucket⟩ live) :
    LaidOut start border stop (addresses.foldl (fun h a => h.push bucket a) h) live
      (plan.setList bucket (addresses.reverse ++ plan.lists bucket))
    ∧ Kept live h.memory (addresses.foldl (fun h a => h.push bucket a) h).memory := by
  induction addresses generalizing h plan with
  | nil => exact ⟨by simpa [Plan.setList] using i, fun _ _ _ _ _ => rfl⟩
  | cons a _ ih =>
    obtain ⟨hnew, hnodup⟩ := nodup_cons.mp hnodup
    have hpush := i.push (hcells a mem_cons_self) (hfresh a mem_cons_self).1
      (hfresh a mem_cons_self).2
    have hkept := i.kept_cell (hcells a mem_cons_self) (h.free bucket)
    have hall := ih hpush (fun b hb => hcells b (mem_cons_of_mem a hb)) hnodup fun b hb => ?_
    · exact ⟨by simpa [Plan.setList] using hall.1, hkept.trans hall.2⟩
    have hb' := hfresh b (mem_cons_of_mem a hb)
    refine ⟨?_, hb'.2⟩
    rw [Plan.lists_setList, mem_cons, not_or]
    exact ⟨fun heq : b = a => hnew (heq ▸ hb), hb'.1⟩

theorem carve (hlt : bucket < 10) (hblocks : plan.blocks = front ++ block :: back)
    (hfree : block.use = .free) (hle : needed ≤ block.size)
    (hneeded : (classSize bucket + 8) * 32 ≤ needed)
    (hlisted : Listed memory h.large border stop (front ++ (block.taken needed .slab ++ back)))
    (hbytes : ∀ x, Outside plan.blocks x → ¬ (block.address ≤ x ∧ x < block.stop) →
      memory x = h.memory x) : ∃ blocks, LaidOut start border stop { h with memory := memory } live
      { plan with blocks := blocks, cells := slabCells (block.address + HEADER) bucket
        ++ plan.cells } := by
  have hmem : block ∈ plan.blocks := by
    rw [hblocks]
    simp
  obtain ⟨size, blocks, hlisted', hsettled, hslab, hsize, hsize', hused, hback⟩ :=
    i.take hblocks hfree hle (by nofun) hlisted
  refine ⟨blocks, ?_⟩
  have hblocked : LaidOut start border stop { h with memory := memory } live
      { plan with blocks := blocks } := by
    refine i.reblock hlisted' hsettled (fun b hb huse => hused b hb (by rw [huse]; nofun))
      (fun d hd => i.cells_of_take hmem hfree hbytes hd) i.payloads i.aligned (fun a ha _ => ha) ?_
      ?_
    · intro a ha hlarge
      obtain ⟨b, hb, hin⟩ := i.large a ha hlarge
      refine ⟨b, hused b hb ?_, i.inBlock_of_take hmem hfree hbytes hb hin⟩
      rw [hin.use]
      nofun
    · intro b hb p hp
      rcases hback b hb (by rw [hp]; nofun) with hold | rfl
      · obtain ⟨a, ha, hlarge, hin⟩ := i.held b hold p hp
        exact ⟨a, ha, hlarge, i.inBlock_of_take hmem hfree hbytes hold hin⟩
      · cases hp
  have hdvd : 8 ∣ block.address + HEADER := by
    have haddress := i.listed.tiles.dvd_address i.geometry.ends.2.1 i.listed.words block hmem
    unfold HEADER
    omega
  refine hblocked.addCells hslab rfl (fun d hd => ?_) (slabCells_apart _ _) fun d hd => ?_
  · obtain ⟨hbucket, haddress, hlo, hhi⟩ := slabCells_bounds hlt hdvd hd
    refine ⟨by omega, haddress, hlo, ?_⟩
    unfold Large.stop
    dsimp only
    omega
  · have hapart := i.cell_block hd hmem (by rw [hfree]; nofun)
    unfold Large.stop at hapart ⊢
    dsimp only
    omega

theorem fill {cells : List Cell} (hplan : plan.cells = slabCells base bucket ++ cells)
    (hspare : ∀ a ∈ plan.lists bucket, (⟨a, bucket⟩ : Cell) ∈ cells)
    (hvacant : ∀ d ∈ slabCells base bucket, Vacant d live)
    (hbase : base + (classSize bucket + 8) * 32 ≤ 2 ^ 64) :
    ∃ list, LaidOut start border stop ((range' 1 31).foldl
        (fun h k => h.push bucket (add base (k * (classSize bucket + 8)))) h) live
        (plan.setList bucket list) ∧ base ∉ list ∧ Kept live h.memory ((range' 1 31).foldl
        (fun h k => h.push bucket (add base (k * (classSize bucket + 8)))) h).memory := by
  have hmem : ∀ k < 32, (⟨base + k * (classSize bucket + 8), bucket⟩ : Cell) ∈ slabCells base
      bucket :=
    fun k hk => mem_map.mpr ⟨k, mem_range.mpr hk, rfl⟩
  have hapart := (pairwise_append.mp (hplan ▸ i.geometry.apart)).2.2
  have hfresh : ∀ k < 32, base + k * (classSize bucket + 8) ∉ plan.lists bucket := by
    intro k hk hlisted
    have hself := hapart _ (hmem k hk) _ (hspare _ hlisted)
    unfold Cell.stop at hself
    omega
  have hfold : (range' 1 31).foldl
      (fun h k => h.push bucket (add base (k * (classSize bucket + 8)))) h
        = ((range' 1 31).map fun k => base + k * (classSize bucket + 8)).foldl
        (fun h a => h.push bucket a) h := by
    rw [foldl_map]
    apply foldl_ext
    intro h k hk
    have hk := (mem_range'_1.mp hk).2
    have hmul := Nat.mul_le_mul_right (classSize bucket + 8) (Nat.succ_le_of_lt hk)
    rw [Nat.succ_mul] at hmul
    rw [add_of_lt (by omega)]
  rw [hfold]
  have hcells : ∀ a ∈ (range' 1 31).map fun k =>
    base + k * (classSize bucket + 8), (⟨a, bucket⟩ : Cell) ∈ plan.cells := by
    intro a ha
    obtain ⟨k, hk, rfl⟩ := mem_map.mp ha
    have hk := (mem_range'_1.mp hk).2
    rw [hplan]
    exact mem_append_left cells (hmem k hk)
  have hpushed := i.pushAll _ hcells ?_ ?_
  · refine ⟨_, hpushed.1, ?_, hpushed.2⟩
    rw [mem_append, not_or]
    refine ⟨fun hlisted => ?_, ?_⟩
    · obtain ⟨k, hk, heq⟩ := mem_map.mp (mem_reverse.mp hlisted)
      have hpos := Nat.mul_le_mul_right (classSize bucket + 8) (mem_range'_1.mp hk).1
      omega
    · simpa using hfresh 0 (by omega)
  · refine Nodup.map (fun j k heq => ?_) nodup_range'
    exact Nat.eq_of_mul_eq_mul_right (by omega : 0 < classSize bucket + 8) (by omega)
  intro a ha
  obtain ⟨k, hk, rfl⟩ := mem_map.mp ha
  have hk := (mem_range'_1.mp hk).2
  exact ⟨hfresh k hk, hvacant _ (hmem k hk)⟩

end

section Small
variable (hbucket : bucketFor size alignment = some bucket) (halignment : alignment ∣ 8)
include hbucket halignment

variable (i : LaidOut start border stop h live plan)
include i

theorem holdNew {address : Nat} (hd : (⟨address, bucket⟩ : Cell) ∈ plan.cells)
    (hfresh : address ∉ plan.lists bucket) (hvacant : Vacant ⟨address, bucket⟩ live) :
    add address 8 ≠ 0 ∧ LaidOut start border stop { h with memory := h.memory.put address bucket 8 }
      (⟨add address 8, size, alignment⟩ :: live) plan := by
  have hbounds := i.cell_bounds hd
  have hcell := i.geometry.bucket _ hd
  have hclass := classSize_spec hcell.1
  unfold Cell.stop at hbounds
  dsimp only at hbounds hcell hclass
  have hadd : add address 8 = address + 8 := add_of_lt (by omega)
  rw [hadd]
  refine ⟨by omega, i.hold hd hfresh hvacant hbucket rfl ?_⟩
  apply Nat.mod_eq_zero_of_dvd
  exact halignment.trans (Nat.dvd_add hcell.2 (Nat.dvd_refl 8))

theorem allocSmall_spec :
    Allocates start border stop h live plan size alignment (h.exhausted bucket)
      (h.allocSmall bucket)
    ∧ Kept live h.memory (h.allocSmall bucket).2.memory := by
  obtain ⟨hlt, hsize, _⟩ := bucketFor_spec hbucket
  have hchain := i.chains bucket hlt
  unfold allocSmall
  dsimp only
  split
  · rename_i hhead
    cases hlist : plan.lists bucket with
    | nil =>
      rw [hlist] at hchain
      have hnull := Chain.nil_iff.mp hchain
      exact absurd hhead hnull
    | cons _ rest =>
      rw [hlist] at hchain
      obtain ⟨rfl, _, hrest⟩ := Chain.cons_iff.mp hchain
      have hd := i.spare bucket hlt (h.free bucket) (by simp [hlist])
      have hvacant := i.vacant_of_spare hd (by simp [hlist])
      have hpop := i.pop hd hlist
      have hfresh : h.free bucket ∉ (plan.setList bucket rest).lists bucket := by
        rw [Plan.lists_setList]
        exact (nodup_cons.mp hchain.nodup).1
      obtain ⟨hne, hheld⟩ := hpop.holdNew hbucket halignment hd hfresh hvacant
      exact ⟨.inr ⟨hne, _, hheld, fun _ b hb _ => hb⟩, i.kept_cell hd _⟩
  rename_i hhead
  obtain ⟨harena, hborder, hdvd⟩ := i.geometry.bounds
  obtain ⟨_, hends, hmax⟩ := i.geometry.ends
  have haligned : add h.arena 7 / 8 * 8 = h.arena := by
    rw [add_of_lt (by omega)]
    omega
  split
  · rename_i hroom
    rw [haligned, i.arenaEnd] at hroom
    have hbump := i.bump hlt (by omega)
    have hapart := (pairwise_cons.mp hbump.geometry.apart).1
    obtain ⟨hfresh, hvacant⟩ := i.vacant_of_apart hapart hlt
    obtain ⟨hne, hheld⟩ := hbump.holdNew hbucket halignment mem_cons_self hfresh hvacant
    have htotal : add h.arena (classSize bucket + 8) = h.arena + (classSize bucket + 8) :=
      add_of_lt (by omega)
    rw [haligned, htotal]
    exact ⟨.inr ⟨hne, _, hheld, fun _ b hb _ => hb⟩, hbump.kept_cell mem_cons_self _⟩
  rename_i hroom
  have hexhausted : h.exhausted bucket := ⟨not_not.mp hhead, hroom⟩
  have hslab := allocLarge_spec i.listed (by omega : 0 < (classSize bucket + 8) * 32)
  rcases hslab with hnull | ⟨front, block, back, needed, memory, hblocks, hfree, hneeded, hle,
    hresult, hlisted, hbytes⟩
  · rw [hnull]
    exact ⟨.inl rfl, fun _ _ _ _ _ => rfl⟩
  rw [hresult]
  have hmem : block ∈ plan.blocks := by
    rw [hblocks]
    simp
  have hbounds := i.listed.bounds hmem
  unfold Large.stop at hbounds
  rw [if_neg (by omega)]
  obtain ⟨blocks, hcarved⟩ := i.carve hlt hblocks hfree hle hneeded (hlisted .slab nofun) hbytes
  have hapart := (pairwise_append.mp hcarved.geometry.apart).2.2
  have hvacant : ∀ d ∈ slabCells (block.address + HEADER) bucket, Vacant d live := by
    intro d hd
    obtain ⟨k, _, rfl⟩ := mem_map.mp hd
    exact (i.vacant_of_apart (hapart _ hd) hlt).2
  obtain ⟨list, hfilled, hfirst, hkept⟩ := hcarved.fill rfl (i.spare bucket hlt) hvacant (by omega)
  have hd : (⟨block.address + HEADER, bucket⟩ : Cell) ∈ slabCells (block.address + HEADER) bucket :=
    mem_map.mpr ⟨0, by decide, by simp⟩
  obtain ⟨hne, hheld⟩ := hfilled.holdNew hbucket halignment (mem_append_left _ hd)
    (by rw [Plan.lists_setList]; exact hfirst) (hvacant _ hd)
  refine ⟨.inr ⟨hne, _, hheld, fun hnot => absurd hexhausted hnot⟩, ?_⟩
  have hword := hfilled.kept_cell (mem_append_left _ hd) bucket
  exact (i.kept_of_take hmem hfree hbytes).trans (hkept.trans hword)

end Small

theorem padding_spec (candidate : Nat) (hpos : 0 < alignment) :
    (candidate + (if candidate % alignment = 0 then 0 else alignment - candidate % alignment))
      % alignment = 0
    ∧ (if candidate % alignment = 0 then 0 else alignment - candidate % alignment) < alignment := by
  split
  · rename_i hzero
    exact ⟨hzero, hpos⟩
  have hlt := Nat.mod_lt candidate hpos
  refine ⟨?_, by omega⟩
  have hsum : candidate + (alignment - candidate % alignment) = alignment
      * (candidate / alignment + 1) := by
    have hdiv := Nat.div_add_mod candidate alignment
    rw [Nat.mul_succ]
    omega
  rw [hsum, Nat.mul_mod_right]

section

include i

theorem holdLarge {p : Nat} (hblocks : plan.blocks = front ++ block :: back)
    (hfree : block.use = .free) (hle : needed ≤ block.size)
    (hlisted : Listed memory h.large border stop (front ++ (block.taken needed (.held p) ++ back)))
    (hbytes : ∀ x, Outside plan.blocks x → ¬ (block.address ≤ x ∧ x < block.stop) →
      memory x = h.memory x) (hstart : block.address + HEADER + 16 ≤ p)
    (hroom : p + size < block.address + HEADER + needed) (halign : p % alignment = 0)
    (hnone : bucketFor size alignment = none) : ∃ plan', LaidOut start border stop
        { h with memory := (memory.put (p - 16) (2 ^ 64 - 1) 8).put (p - 8) block.address 8 }
        (⟨p, size, alignment⟩ :: live) plan'
      ∧ (∀ b ∈ plan'.blocks, b.use = .slab → b ∈ plan.blocks)
      ∧ Kept live h.memory ((memory.put (p - 16) (2 ^ 64 - 1) 8).put (p - 8) block.address 8) := by
  have hmem : block ∈ plan.blocks := by
    rw [hblocks]
    simp
  have hbounds := i.listed.bounds hmem
  have hstop : block.stop = block.address + HEADER + block.size := rfl
  obtain ⟨bytes, blocks, hlisted', hsettled, hin, hbytes', hsize, hused, hback⟩ :=
    i.take hblocks hfree hle (by nofun) hlisted
  -- the two words are in the body of the block
  have hput : ∀ x, ¬ (p - 16 ≤ x ∧ x < p) →
      ((memory.put (p - 16) (2 ^ 64 - 1) 8).put (p - 8) block.address 8) x = memory x := by
    intro x hx
    rw [Buffer.put_of_not_mem (by omega), Buffer.put_of_not_mem (by omega)]
  have hbody : ∀ x, ¬ Outside blocks x → ¬ (p - 16 ≤ x ∧ x < p) := by
    intro x hx hmem
    apply hx
    apply hlisted'.outside hin
    · dsimp only
      omega
    · unfold Large.stop
      dsimp only
      omega
  have hframe : ∀ x, Outside plan.blocks x → ¬ (block.address ≤ x ∧ x < block.stop) →
      ((memory.put (p - 16) (2 ^ 64 - 1) 8).put (p - 8) block.address 8) x = h.memory x := by
    intro x hx hout
    rw [hput x (by omega), hbytes x hx hout]
  have hnew : InBlock ((memory.put (p - 16) (2 ^ 64 - 1) 8).put (p - 8) block.address 8)
      ⟨p, size, alignment⟩ ⟨block.address, bytes, .held p⟩ := by
    refine ⟨rfl, hstart, ?_, ?_, Buffer.get_put (by omega)⟩
    · unfold Large.stop
      dsimp only
      omega
    · unfold Large.stop
      dsimp only
      omega
  refine ⟨{ plan with blocks := blocks },
    i.reblock (hlisted'.of_outside fun x hx => hput x (hbody x hx)) hsettled
    (fun b hb huse => hused b hb (by rw [huse]; nofun))
    (fun d hd => i.cells_of_take hmem hfree hframe hd) ?_ ?_ ?_ ?_ ?_, ?_,
    i.kept_of_take hmem hfree hframe⟩
  · refine nodup_cons.mpr ⟨fun hpayload => ?_, i.payloads⟩
    obtain ⟨a, ha, heq⟩ := mem_map.mp hpayload
    have hnot := i.live_free hmem hfree ha (.inl rfl)
    dsimp only at heq
    omega
  · intro a ha
    rcases mem_cons.mp ha with rfl | ha
    · exact halign
    · exact i.aligned a ha
  · intro a ha hsmall
    rcases mem_cons.mp ha with rfl | ha
    · rw [show Allocation.bucket ⟨p, size, alignment⟩ = none from hnone] at hsmall
      cases hsmall
    · exact ha
  · intro a ha hlarge
    rcases mem_cons.mp ha with rfl | ha
    · exact ⟨_, hin, hnew⟩
    obtain ⟨b, hb, hold⟩ := i.large a ha hlarge
    refine ⟨b, hused b hb ?_, i.inBlock_of_take hmem hfree hframe hb hold⟩
    rw [hold.use]
    nofun
  · intro b hb q hq
    rcases hback b hb (by rw [hq]; nofun) with hold | rfl
    · obtain ⟨a, ha, hlarge, hina⟩ := i.held b hold q hq
      exact ⟨a, mem_cons_of_mem _ ha, hlarge, i.inBlock_of_take hmem hfree hframe hold hina⟩
    · exact ⟨_, mem_cons_self, hnone, hnew⟩
  · intro b hb huse
    rcases hback b hb (by rw [huse]; nofun) with hold | rfl
    · exact hold
    · cases huse

theorem allocAligned_spec (hnone : bucketFor size alignment = none) (hpos : 0 < alignment) :
    Allocates start border stop h live plan size alignment False (h.allocAligned size alignment)
    ∧ Kept live h.memory (h.allocAligned size alignment).2.memory := by
  unfold allocAligned
  split
  · exact ⟨.inl rfl, fun _ _ _ _ _ => rfl⟩
  dsimp only
  split
  · exact ⟨.inl rfl, fun _ _ _ _ _ => rfl⟩
  rcases allocLarge_spec i.listed (by omega : 0 < size + (alignment + 16)) with hnull | ⟨front,
    block, back, needed, memory, hblocks, hfree, hneeded, hle, hresult, hlisted, hbytes⟩
  · rw [hnull]
    exact ⟨.inl rfl, fun _ _ _ _ _ => rfl⟩
  rw [hresult]
  have hmem : block ∈ plan.blocks := by
    rw [hblocks]
    simp
  obtain ⟨hzero, hlo, hhi, hmax⟩ := i.listed.bounds hmem
  have hstop : block.stop = block.address + HEADER + block.size := rfl
  rw [if_neg (by omega)]
  have hcandidate : add (block.address + HEADER) 16 = block.address + HEADER + 16 :=
    add_of_lt (by omega)
  rw [hcandidate]
  obtain ⟨halign, hpadding⟩ := padding_spec (block.address + HEADER + 16) hpos
  generalize (if (block.address + HEADER + 16) % alignment = 0 then 0
    else alignment - (block.address + HEADER + 16) % alignment) = padding at halign hpadding ⊢
  have haligned : add (block.address + HEADER + 16) padding = block.address + HEADER + 16
      + padding := add_of_lt (by omega)
  rw [haligned]
  obtain ⟨p, hp⟩ : ∃ p, p = block.address + HEADER + 16 + padding := ⟨_, rfl⟩
  rw [← hp] at halign ⊢
  rw [sub_of_le (by omega) (by omega), sub_of_le (by omega) (by omega),
    sub_of_le (by omega) (by omega), Nat.add_sub_cancel]
  obtain ⟨plan', hheld, hslabs, hkept⟩ := i.holdLarge hblocks hfree hle
    (hlisted (.held p) nofun) hbytes (by omega) (by omega) halign hnone
  refine ⟨.inr ⟨?_, plan', hheld, fun _ => hslabs⟩, hkept⟩
  omega

theorem alloc_spec (size alignment : Nat) : Allocates start border stop h live plan size alignment
      (∃ bucket, bucketFor size alignment = some bucket ∧ h.exhausted bucket)
        (h.alloc size alignment)
    ∧ Kept live h.memory (h.alloc size alignment).2.memory := by
  unfold alloc
  split
  · exact ⟨.inl rfl, fun _ _ _ _ _ => rfl⟩
  rename_i hpower
  rw [not_or, not_not] at hpower
  split
  · rename_i bucket hbucket
    have halignment : alignment ∣ 8 := by
      have hle := (bucketFor_spec hbucket).2.2
      have hall : ∀ n ≤ 8, n ≠ 0 → n &&& (n - 1) = 0 → n ∣ 8 := by decide
      exact hall alignment hle hpower.1 hpower.2
    obtain ⟨hallocates, hkept⟩ := i.allocSmall_spec hbucket halignment
    refine ⟨hallocates.imp_right fun ⟨hne, plan', hheld, hslabs⟩ => ?_, hkept⟩
    exact ⟨hne, plan', hheld, fun hnot => hslabs fun h => hnot ⟨bucket, hbucket, h⟩⟩
  · rename_i hnone
    obtain ⟨hallocates, hkept⟩ := i.allocAligned_spec hnone (Nat.pos_of_ne_zero hpower.1)
    refine ⟨hallocates.imp_right fun ⟨hne, plan', hheld, hslabs⟩ => ?_, hkept⟩
    exact ⟨hne, plan', hheld, fun _ => hslabs fun h => h⟩

end

section

include i

theorem release {b : Large} (hb : b ∈ plan.blocks) (hin : InBlock h.memory a b) :
    (∃ memory, h.freeLarge (b.address + HEADER) = { h with memory := memory }
      ∧ ∀ x, Outside plan.blocks x → memory x = h.memory x)
    ∧ ∃ plan', LaidOut start border stop (h.freeLarge (b.address + HEADER)) (without a.payload live)
      plan'
      ∧ ∀ c ∈ plan'.blocks, c.use ≠ .free → c ∈ plan.blocks ∧ c ≠ b := by
  have hused : b.use ≠ .free := by
    rw [hin.use]
    nofun
  have hstart := hin.start
  have hinside := hin.inside
  have hstop : b.stop = b.address + HEADER + b.size := rfl
  obtain ⟨front, back, hblocks⟩ := append_of_mem hb
  have hlisted := i.listed
  have hsettled := i.geometry.settled
  rw [hblocks] at hlisted hsettled
  obtain ⟨memory, blocks, hresult, hlisted', hsettled', hsame, hbytes⟩ :=
    freeLarge_spec hlisted hsettled hused (by omega)
  rw [← hblocks] at hbytes
  -- another block in use is in front of the freed one or behind it
  have hother : ∀ c : Large, c.use ≠ .free → (c ∈ blocks ↔ c ∈ plan.blocks ∧ c ≠ b) := by
    intro c hc
    rw [hsame c hc, hblocks, mem_append, mem_cons]
    constructor
    · rintro (hmem | hmem)
      · have hle := hlisted.stop_le_of_front hmem
        refine ⟨.inl hmem, fun heq => ?_⟩
        unfold Large.stop at hle hstop
        rw [heq] at hle
        unfold HEADER at hle
        omega
      · have hle := hlisted.stop_le_of_back hmem
        refine ⟨.inr (.inr hmem), fun heq => ?_⟩
        rw [heq, hstop] at hle
        omega
    · rintro ⟨hmem | hmem | hmem, hne⟩
      · exact .inl hmem
      · exact absurd hmem hne
      · exact .inr hmem
  have hstay : ∀ a' c, c ∈ plan.blocks → InBlock h.memory a' c → InBlock memory a' c := by
    intro a' c hc hin'
    apply i.inBlock_congr hc hin'
    exact fun x hx _ _ => hbytes x hx
  refine ⟨⟨memory, hresult, hbytes⟩, ?_⟩
  rw [hresult]
  refine ⟨{ plan with blocks := blocks },
    i.reblock hlisted' hsettled' ?_ ?_ (i.nodup_without a.payload)
    (fun a' ha' => i.aligned a' (mem_without.mp ha').1) (fun a' ha' _ => (mem_without.mp ha').1) ?_
    ?_, ?_⟩
  · intro c hc huse
    refine (hother c ?_).mpr ⟨hc, ?_⟩
    · rw [huse]
      nofun
    · rintro rfl
      rw [hin.use] at huse
      cases huse
  · intro d hd
    apply i.word_congr hd
    exact fun x hx _ _ => hbytes x hx
  · intro a' ha' hlarge
    obtain ⟨hlive, hne⟩ := mem_without.mp ha'
    obtain ⟨c, hc, hin'⟩ := i.large a' hlive hlarge
    refine ⟨c, (hother c ?_).mpr ⟨hc, ?_⟩, hstay a' c hc hin'⟩
    · rw [hin'.use]
      nofun
    · rintro rfl
      exact hne (Use.held.inj (hin'.use.symm.trans hin.use))
  · intro c hc q hq
    obtain ⟨hold, hne⟩ := (hother c (by rw [hq]; nofun)).mp hc
    obtain ⟨a', ha', hlarge, hin'⟩ := i.held c hold q hq
    refine ⟨a', mem_without.mpr ⟨ha', fun hpayload => ?_⟩, hlarge, hstay a' c hold hin'⟩
    have hapart := i.listed.apart hold hb hne
    have hstart' := hin'.start
    have hinside' := hin'.inside
    omega
  · exact fun c hc hused' => (hother c hused').mp hc

variable (ha : a ∈ live)
include ha

theorem tag_small (hbucket : a.bucket = some bucket) :
    ∃ address, InCell h.memory plan a ⟨address, bucket⟩ ∧ bucket < 10 ∧ a.payload ≠ 0
      ∧ sub a.payload 8 = address := by
  obtain ⟨address, hin⟩ := i.small a ha bucket hbucket
  have hbounds := i.cell_bounds hin.mem
  have hlt := (i.geometry.bucket _ hin.mem).1
  have hpayload := hin.payload
  have hclass := classSize_spec hlt
  unfold Cell.stop at hbounds
  refine ⟨address, hin, hlt, by omega, ?_⟩
  rw [sub_of_le (by omega) (by omega), hpayload, Nat.add_sub_cancel]

theorem tag_large (hbucket : a.bucket = none) :
    ∃ b ∈ plan.blocks, InBlock h.memory a b ∧ ¬ b.address < 10 ∧ a.payload ≠ 0
      ∧ h.memory.get (sub a.payload 8) 8 = b.address := by
  obtain ⟨hstart, _, hborder⟩ := i.geometry.ends
  obtain ⟨b, hb, hin⟩ := i.large a ha hbucket
  have hbounds := i.listed.bounds hb
  have hborder := i.geometry.bounds
  have hfirst := hin.start
  have hinside := hin.inside
  refine ⟨b, hb, hin, by omega, by omega, ?_⟩
  rw [sub_of_le (by omega) (by omega), hin.tag]

theorem freePayload_small (hbucket : a.bucket = some bucket) :
    ∃ address, InCell h.memory plan a ⟨address, bucket⟩ ∧ h.freePayload a.payload = h.push bucket
      address := by
  obtain ⟨address, hin, hlt, hne, hfront⟩ := i.tag_small ha hbucket
  refine ⟨address, hin, ?_⟩
  unfold freePayload
  rw [if_neg hne, hfront, hin.tag, if_pos hlt]

theorem freePayload_large (hbucket : a.bucket = none) :
    ∃ b ∈ plan.blocks, InBlock h.memory a b ∧ h.freePayload a.payload = h.freeLarge
      (b.address + HEADER) := by
  obtain ⟨b, hb, hin, hlarge, hne, htag⟩ := i.tag_large ha hbucket
  have hbounds := i.listed.bounds hb
  have hfirst := hin.start
  have hinside := hin.inside
  refine ⟨b, hb, hin, ?_⟩
  unfold freePayload
  rw [if_neg hne, htag, if_neg hlarge, add_of_lt (by omega)]

theorem freePayload_spec :
    ∃ plan', LaidOut start border stop (h.freePayload a.payload) (without a.payload live) plan'
      ∧ ∀ b ∈ plan'.blocks, b.use = .slab → b ∈ plan.blocks := by
  cases hbucket : a.bucket with
  | some =>
    obtain ⟨address, hin, hfree⟩ := i.freePayload_small ha hbucket
    rw [hfree]
    have hdrop := i.drop ha (by rw [hbucket]; rfl)
    have hpush := hdrop.push hin.mem hin.taken fun a' ha' _ heq => ?_
    · exact ⟨_, hpush, fun b hb _ => hb⟩
    · exact (mem_without.mp ha').2 (heq.trans hin.payload.symm)
  | none =>
    obtain ⟨b, hb, hin, hfree⟩ := i.freePayload_large ha hbucket
    obtain ⟨_, plan', hfreed, hothers⟩ := i.release hb hin
    rw [hfree]
    refine ⟨plan', hfreed, fun c hc huse => (hothers c hc ?_).1⟩
    rw [huse]
    nofun

end

include i

theorem live_bounds (ha : a ∈ live) :
    start ≤ a.payload ∧ a.payload + a.size ≤ stop ∧ a.payload < 2 ^ 64 := by
  obtain ⟨hstart, hborder, _⟩ := i.geometry.bounds
  have hstop := i.listed.tiles.bounds.1
  have hmax := i.listed.bounded
  rcases i.live_cases ha with ⟨d, hd, _, hpayload, hend⟩ | ⟨b, hb, _, hin⟩
  · have hclass := classSize_spec (i.geometry.bucket d hd).1
    have hdstop : d.stop = d.address + (classSize d.bucket + 8) := rfl
    rcases i.geometry.placed d hd with hin | ⟨b, hb, _, hlo, hhi⟩
    · omega
    · have hbounds := i.listed.bounds hb
      omega
  · have hbounds := i.listed.bounds hb
    have hfirst := hin.start
    have hend := hin.stop
    have hinside := hin.inside
    omega

theorem realloc_cases (ha : a ∈ live) (size alignment : Nat) :
    h.realloc a.payload size alignment = (0, h)
    ∨ ∃ next h' count plan', next ≠ 0 ∧ h.realloc a.payload size alignment = (next, { h' with
        memory := h'.memory.memCopy next h'.memory a.payload count }.freePayload a.payload)
      ∧ count = (if size < h'.capacity a.payload then size else h'.capacity a.payload)
      ∧ Kept live h.memory h'.memory
      ∧ LaidOut start border stop h' (⟨next, size, alignment⟩ :: live) plan'
      ∧ LaidOut start border stop { h' with
        memory := h'.memory.memCopy next h'.memory a.payload count }
        (⟨next, size, alignment⟩ :: live) plan'
      ∧ (¬ (∃ bucket, bucketFor size alignment = some bucket ∧ h.exhausted bucket) →
        ∀ b ∈ plan'.blocks, b.use = .slab → b ∈ plan.blocks) := by
  have hpayload : a.payload ≠ 0 := by
    have hbounds := i.live_bounds ha
    have hends := i.geometry.ends
    omega
  unfold realloc
  obtain ⟨hnull | ⟨hne, plan', hnew, hslabs⟩, hkept⟩ := i.alloc_spec size alignment
  · rw [hnull]
    exact .inl (if_neg fun h => h.1 rfl)
  generalize h.alloc size alignment = result at hne hnew hkept ⊢
  obtain ⟨next, h'⟩ := result
  dsimp only at hne hnew hkept ⊢
  rw [if_pos ⟨hne, hpayload⟩]
  refine .inr ⟨next, h', _, plan', hne, rfl, rfl, hkept, hnew, ?_, hslabs⟩
  -- the copy stays inside the new allocation
  apply hnew.scribble
  intro x hx
  have hout := hx _ mem_cons_self
  dsimp only at hout
  apply Buffer.memCopy_of_not_mem
  split <;> omega

theorem realloc_spec (ha : a ∈ live) (size alignment : Nat) :
    Allocates start border stop h (without a.payload live) plan size alignment
      (∃ bucket, bucketFor size alignment = some bucket ∧ h.exhausted bucket)
        (h.realloc a.payload size alignment) := by
  rcases i.realloc_cases ha size alignment with hnull | ⟨next, h', count, plan', hne, hresult, _, _,
    hnew, hcopied, hslabs⟩
  · exact .inl hnull
  obtain ⟨plan'', hfreed, hslabs'⟩ := hcopied.freePayload_spec (mem_cons_of_mem _ ha)
  have hfresh : next ≠ a.payload := by
    intro heq
    have hmem := (nodup_cons.mp hnew.payloads).1
    exact hmem (mem_map.mpr ⟨a, ha, heq.symm⟩)
  have hwithout : without a.payload (⟨next, size, alignment⟩ :: live)
      = ⟨next, size, alignment⟩ :: without a.payload live := by
    unfold without
    rw [filter_cons_of_pos (by simpa using hfresh)]
  rw [hwithout] at hfreed
  rw [hresult]
  refine .inr ⟨hne, plan'', hfreed, fun hnot b hb huse => ?_⟩
  exact hslabs hnot b (hslabs' b hb huse) huse

end LaidOut

theorem realloc_fst (payload size alignment : Nat) (h : Heap) :
    (h.realloc payload size alignment).1 = (h.alloc size alignment).1 := by
  unfold realloc
  dsimp only
  split <;> rfl

theorem realloc_null (size alignment : Nat) (h : Heap) :
    h.realloc 0 size alignment = h.alloc size alignment := by
  unfold realloc
  exact if_neg fun h => h.2 rfl

end Kaguya.Heap
