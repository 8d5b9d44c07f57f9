import Kaguya.Heap.Sessions

/-!
# Moving an allocation

`jihoo_heap_realloc` takes a new place, copies as much as both places can hold, and frees the old
one. No operation of the heap writes into what is held, so the bytes arrive as they were.
-/

namespace Kaguya.Heap

open Block LaidOut List

variable {start border stop : Nat} {h : Heap} {live : List Allocation} {plan : Plan}
variable {a : Allocation} {size alignment bucket : Nat}

def Released (h : Heap) (a : Allocation) : Prop :=
  (∀ bucket, a.bucket = some bucket →
    OnChain (fun b => h.memory.get b 8) (· ≠ 0) (h.free bucket) (a.payload - 8))
  ∧ (a.bucket = none → ∃ b, h.OnLarge b ∧ (load h.memory b).free = true ∧ b ≤ a.payload
    ∧ a.payload < b + HEADER + (load h.memory b).size)

theorem LaidOut.freePayload_kept (i : LaidOut start border stop h live plan) (ha : a ∈ live) :
    Kept live h.memory (h.freePayload a.payload).memory ∧ (h.freePayload a.payload).Released a := by
  cases hbucket : a.bucket with
  | some bucket =>
    obtain ⟨address, hin, hfree⟩ := i.freePayload_small ha hbucket
    have hbounds := i.cell_bounds hin.mem
    have hpayload := hin.payload
    rw [hfree]
    constructor
    · exact i.kept_cell hin.mem (h.free bucket)
    refine ⟨fun bucket' hbucket' => ?_, fun hnone => ?_⟩
    · obtain rfl : bucket = bucket' := Option.some.inj (hbucket.symm.trans hbucket')
      rw [hpayload, Nat.add_sub_cancel, Heap.push]
      dsimp only
      rw [Function.update_self]
      exact .here (Nat.ne_of_gt hbounds.1)
    · rw [hbucket] at hnone
      cases hnone
  | none =>
    obtain ⟨b, hb, hin, hfree⟩ := i.freePayload_large ha hbucket
    obtain ⟨⟨memory, hresult, hbytes⟩, plan', i', hothers⟩ := i.release hb hin
    rw [hfree]
    constructor
    · rw [hresult]
      exact fun a' ha' x hlo hhi => hbytes x (i.outside_of_live ha' hlo hhi)
    refine ⟨fun bucket hsome => ?_, fun _ => ?_⟩
    · rw [hbucket] at hsome
      cases hsome
    have hbounds := i.listed.bounds hb
    have hstart := hin.start
    have hinside := hin.inside
    -- the block that the payload is in now was not in use before
    obtain ⟨c, hc, hlo, hhi⟩ := i'.listed.tiles.cover (x := a.payload) (by omega) (by omega)
    have hunused : c.use = .free := by
      by_contra hused
      obtain ⟨hold, hne⟩ := hothers c hc hused
      have hapart := i.listed.apart hold hb hne
      omega
    obtain ⟨hsize, hflag⟩ := i'.listed.stored c hc
    refine ⟨c.address, i'.onLarge_iff.mpr ⟨c, hc, rfl⟩, hflag.mpr hunused, hlo, ?_⟩
    rw [hsize]
    exact hhi

theorem LaidOut.size_le_capacity (i : LaidOut start border stop h live plan) (ha : a ∈ live) :
    a.size ≤ h.capacity a.payload := by
  unfold capacity
  cases hbucket : a.bucket with
  | some =>
    obtain ⟨address, hin, hlt, _, hfront⟩ := i.tag_small ha hbucket
    rw [hfront, hin.tag, if_pos hlt]
    exact (bucketFor_spec hbucket).2.1
  | none =>
    obtain ⟨b, hb, hin, hlarge, hne, htag⟩ := i.tag_large ha hbucket
    have hbounds := i.listed.bounds hb
    have hstop : b.stop = b.address + HEADER + b.size := rfl
    have hstart := hin.start
    have hend := hin.stop
    rw [htag, if_neg hlarge, (i.listed.stored b hb).1,
      add_of_lt (by omega : b.address + HEADER < 2 ^ 64)]
    unfold sub add
    omega

structure Moved (live : List Allocation) (a : Allocation) (size : Nat) (memory : Buffer) (q : Nat)
    (h' : Heap) : Prop where
  copied : ∀ k < min a.size size, h'.memory (q + k) = memory (a.payload + k)
  others : Kept (without a.payload live) memory h'.memory
  released : h'.Released a

theorem LaidOut.realloc_moved (i : LaidOut start border stop h live plan) (ha : a ∈ live)
    (size alignment : Nat) (hne : (h.realloc a.payload size alignment).1 ≠ 0) :
    Moved live a size h.memory (h.realloc a.payload size alignment).1
      (h.realloc a.payload size alignment).2 := by
  rcases i.realloc_cases ha size alignment with hnull | ⟨next, h', count, plan', _, hresult, hcount,
    hkept, hnew, hcopied, _⟩
  · rw [hnull] at hne
    exact absurd rfl hne
  have hcapacity := hnew.size_le_capacity (mem_cons_of_mem _ ha)
  have hmin : min a.size size ≤ count ∧ count ≤ size := by
    rw [hcount]
    split <;> omega
  obtain ⟨hstay, hreleased⟩ := hcopied.freePayload_kept (mem_cons_of_mem _ ha)
  rw [hresult]
  refine ⟨fun k hk => ?_, fun a' ha' x hlo hhi => ?_, hreleased⟩
  · rw [hstay _ mem_cons_self (next + k) (Nat.le_add_right _ _) (by dsimp only; omega)]
    dsimp only
    rw [Buffer.memCopy_of_mem (by omega) (by omega), Nat.add_sub_cancel_left]
    exact hkept a ha _ (by omega) (by omega)
  obtain ⟨hmem, _⟩ := mem_without.mp ha'
  have hfresh : a' ≠ ⟨next, size, alignment⟩ := by
    rintro rfl
    exact (nodup_cons.mp hnew.payloads).1 (mem_map.mpr ⟨_, hmem, rfl⟩)
  have hapart := hnew.apart_live (mem_cons_of_mem _ hmem) mem_cons_self hfresh
  unfold Apart at hapart
  dsimp only at hapart
  rw [hstay a' (mem_cons_of_mem _ hmem) x hlo hhi]
  dsimp only
  rw [Buffer.memCopy_of_not_mem (by omega)]
  exact hkept a' hmem x hlo hhi

/-- **Moving keeps the contents or does nothing.** The bytes of the allocation are in its new place
and those of all others are where they were; the old place is the allocator's again. -/
theorem realloc_exact (start size : Nat) (memory : Buffer) (hregion : Session.Region start size)
    (requests : List Request) :
    let s := (Session.init start size memory).run requests
    ∀ a ∈ s.live, ∀ n alignment,
    let q := (s.heap.realloc a.payload n alignment).1
    let t := s.step (.realloc a.payload n alignment)
    (q ≠ 0 → q % alignment = 0 ∧ t.live = ⟨q, n, alignment⟩ :: without a.payload s.live
      ∧ Moved s.live a n s.heap.memory q t.heap)
    ∧ (q = 0 → t = s) := by
  intro s a ha n alignment q t
  obtain ⟨plan, i, _⟩ := Session.laidOut_run (Session.laidOut_init hregion memory) requests
  have hstep : t = s.receive n alignment (without a.payload s.live)
      (s.heap.realloc a.payload n alignment) := if_pos (.inr ⟨a, ha, rfl⟩)
  have hmoved := i.realloc_moved ha n alignment
  rw [hstep]
  unfold Session.receive
  rcases i.realloc_spec ha n alignment with hnull | ⟨hne, plan', hnew, _⟩
  · have hq : q = 0 := congrArg Prod.fst hnull
    refine ⟨fun hne => absurd hq hne, fun _ => ?_⟩
    rw [if_pos hq, hnull]
  · refine ⟨fun _ => ⟨hnew.aligned _ mem_cons_self, if_neg hne, hmoved hne⟩, fun hq => ?_⟩
    exact absurd hq hne

theorem realloc_exact_pair :
    let s := (Session.init 4096 65536 Buffer.zeroed).run [.alloc 24 8, .alloc 5000 64]
    let t := s.step (.realloc 4104 5000 64)
    s.live = [⟨53312, 5000, 64⟩, ⟨4104, 24, 8⟩]
    ∧ ∃ q, t.live = [⟨q, 5000, 64⟩, ⟨53312, 5000, 64⟩]
      ∧ Moved s.live ⟨4104, 24, 8⟩ 5000 s.heap.memory q t.heap := by
  intro s t
  have hregion : Session.Region 4096 65536 := by
    constructor <;> decide
  have hlive : s.live = [⟨53312, 5000, 64⟩, ⟨4104, 24, 8⟩] := by decide
  have h := realloc_exact 4096 65536 Buffer.zeroed hregion [.alloc 24 8, .alloc 5000 64]
    ⟨4104, 24, 8⟩ (by change _ ∈ s.live; simp [hlive]) 5000 64
  obtain ⟨_, hnext, hmoved⟩ := h.1 (by decide)
  refine ⟨hlive, _, hnext.trans ?_, hmoved⟩
  rw [hlive]
  rfl

variable {s : Session} {request : Request}

def Request.Concerns (a : Allocation) : Request → Prop
  | .alloc _ _ => False
  | .free payload | .realloc payload _ _ => payload = a.payload
  | .write address _ => a.payload ≤ address ∧ address < a.payload + a.size

def Session.Keeps (a : Allocation) (s s' : Session) : Prop :=
  a ∈ s'.live ∧ Kept [a] s.heap.memory s'.heap.memory

theorem keeps_receive {n alignment : Nat} {rest live : List Allocation} {result : Nat × Heap}
    (ha : a ∈ s.live) (hrest : a ∈ rest) (hlive : a ∈ live)
    (hkept : Kept live s.heap.memory result.2.memory) :
    s.Keeps a (s.receive n alignment rest result) := by
  refine ⟨?_, fun a' ha' => hkept a' (mem_singleton.mp ha' ▸ hlive)⟩
  unfold Session.receive
  split
  · exact ha
  · exact mem_cons_of_mem _ hrest

theorem keeps_step (i : LaidOut start border stop s.heap s.live plan) (ha : a ∈ s.live)
    (hother : ¬ request.Concerns a) : s.Keeps a (s.step request) := by
  have hsame : s.Keeps a s := ⟨ha, fun _ _ _ _ _ => rfl⟩
  have hnew : ∀ n alignment, s.Keeps a (s.receive n alignment s.live (s.heap.alloc n alignment)) :=
    fun n alignment => keeps_receive ha ha ha (i.alloc_spec n alignment).2
  cases request with
  | alloc n alignment => exact hnew n alignment
  | free =>
    simp only [Session.step]
    split
    case isTrue hholds =>
      refine ⟨mem_without.mpr ⟨ha, Ne.symm hother⟩, ?_⟩
      rcases hholds with rfl | ⟨b, hb, rfl⟩
      · exact hsame.2
      · exact fun a' ha' => (i.freePayload_kept hb).1 a' (mem_singleton.mp ha' ▸ ha)
    case isFalse => exact hsame
  | realloc payload n alignment =>
    simp only [Session.step]
    split
    case isTrue hholds =>
      rcases hholds with rfl | ⟨b, hb, rfl⟩
      · rw [Session.without_null i, realloc_null]
        exact hnew n alignment
      have hleft : a ∈ without b.payload s.live := mem_without.mpr ⟨ha, Ne.symm hother⟩
      rcases i.realloc_spec hb n alignment with hfailed | ⟨hne, _⟩
      · rw [hfailed]
        exact hsame
      · exact keeps_receive ha hleft hleft (i.realloc_moved hb n alignment hne).others
    case isFalse => exact hsame
  | write =>
    simp only [Session.step]
    split
    case isTrue =>
      refine ⟨ha, fun a' ha' x hlo hhi => Function.update_of_ne ?_ _ _⟩
      rintro rfl
      exact hother (mem_singleton.mp ha' ▸ ⟨hlo, hhi⟩)
    case isFalse => exact hsame

/-- **What is held stays as it is.** However the heap is used, an allocation keeps its place and its
bytes until its owner writes into it, frees it or moves it. -/
theorem contents_stay (start size : Nat) (memory : Buffer) (hregion : Session.Region start size)
    (before after : List Request) (a : Allocation)
    (ha : a ∈ ((Session.init start size memory).run before).live)
    (hothers : ∀ request ∈ after, ¬ request.Concerns a) :
    ((Session.init start size memory).run before).Keeps a
      (((Session.init start size memory).run before).run after) := by
  obtain ⟨plan, i, -⟩ := Session.laidOut_run (Session.laidOut_init hregion memory) before
  generalize (Session.init start size memory).run before = s at ha i ⊢
  induction after generalizing s plan with
  | nil => exact ⟨ha, fun _ _ _ _ _ => rfl⟩
  | cons request _ ih =>
    obtain ⟨hmem, hkept⟩ := keeps_step i ha (hothers request mem_cons_self)
    obtain ⟨_, i', -⟩ := Session.laidOut_step i request
    obtain ⟨hlast, hkept'⟩ := ih (fun r hr => hothers r (mem_cons_of_mem _ hr)) _ _ hmem i'
    exact ⟨hlast, hkept.trans hkept'⟩

theorem contents_stay_pair :
    ((Session.init 4096 65536 Buffer.zeroed).run [.alloc 24 8]).Keeps ⟨4104, 24, 8⟩
      (((Session.init 4096 65536 Buffer.zeroed).run [.alloc 24 8]).run [.alloc 5000 64,
        .free 53312]) := by
  have hregion : Session.Region 4096 65536 := by
    constructor <;> decide
  exact contents_stay 4096 65536 Buffer.zeroed hregion _ _ _ (by decide)
    (by simp [Request.Concerns])

end Kaguya.Heap
