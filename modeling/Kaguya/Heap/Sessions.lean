import Kaguya.Heap.Operations

/-!
# Using the heap

A session is a heap together with what its callers hold. Callers may free or move only what they
hold, and in between they may write whatever they like into it. The results are about every sequence
of such requests, on a memory with arbitrary contents.
-/

namespace Kaguya.Heap

open Function Block LaidOut List

inductive Request
  | alloc (size alignment : Nat)
  | free (payload : Nat)
  | realloc (payload size alignment : Nat)
  | write (address : Nat) (value : UInt8)

structure Session where
  heap : Heap
  live : List Allocation

namespace Session

variable {start size : Nat} {memory : Buffer} {s : Session}

def init (start size : Nat) (memory : Buffer) : Session := ⟨Heap.init start size memory, []⟩

def Holds (payload : Nat) (s : Session) : Prop := payload = 0 ∨ ∃ a ∈ s.live, a.payload = payload

instance (payload : Nat) (s : Session) : Decidable (s.Holds payload) :=
  inferInstanceAs (Decidable (_ ∨ _))

def receive (size alignment : Nat) (rest : List Allocation) (result : Nat × Heap) (s : Session) :
    Session :=
  ⟨result.2, if result.1 = 0 then s.live else ⟨result.1, size, alignment⟩ :: rest⟩

def step (s : Session) : Request → Session
  | .alloc size alignment => s.receive size alignment s.live (s.heap.alloc size alignment)
  | .free payload =>
    if s.Holds payload then ⟨s.heap.freePayload payload, without payload s.live⟩ else s
  | .realloc payload size alignment =>
    if s.Holds payload then s.receive size alignment (without payload s.live)
      (s.heap.realloc payload size alignment)
    else s
  | .write address value =>
    if ∃ a ∈ s.live, a.payload ≤ address ∧ address < a.payload + a.size then
      { s with heap := { s.heap with memory := update s.heap.memory address value } }
    else s

def run (s : Session) (requests : List Request) : Session := requests.foldl step s

def Carves (s : Session) : Request → Prop
  | .alloc size alignment | .realloc _ size alignment =>
    (∃ bucket, bucketFor size alignment = some bucket ∧ s.heap.exhausted bucket)
    ∧ (s.heap.alloc size alignment).1 ≠ 0
  | _ => False

def NeverCarves (s : Session) : List Request → Prop
  | [] => True
  | request :: requests => ¬ s.Carves request ∧ NeverCarves (s.step request) requests

section Steps
variable {border stop : Nat} {plan : Plan}

theorem laidOut_receive {live : List Allocation} {result : Nat × Heap} {alignment : Nat}
    {carves : Prop} (i : LaidOut start border stop s.heap s.live plan)
    (h : Allocates start border stop s.heap live plan size alignment carves result) :
    ∃ plan', LaidOut start border stop (s.receive size alignment live result).heap
        (s.receive size alignment live result).live plan'
      ∧ (¬ (carves ∧ result.1 ≠ 0) → ∀ b ∈ plan'.blocks, b.use = .slab → b ∈ plan.blocks) := by
  rcases h with rfl | ⟨hne, plan', hnew, hslabs⟩
  · exact ⟨plan, i, fun _ b hb _ => hb⟩
  refine ⟨plan', ?_, fun hnot => hslabs fun h => hnot ⟨h, hne⟩⟩
  unfold receive
  rw [if_neg hne]
  exact hnew

variable (i : LaidOut start border stop s.heap s.live plan)
include i

theorem without_null : without 0 s.live = s.live := by
  unfold without
  rw [filter_eq_self]
  intro a ha
  have hbounds := i.live_bounds ha
  have hends := i.geometry.ends
  simp
  omega

theorem laidOut_step (request : Request) :
    ∃ plan', LaidOut start border stop (s.step request).heap (s.step request).live plan'
      ∧ (¬ s.Carves request → ∀ b ∈ plan'.blocks, b.use = .slab → b ∈ plan.blocks) := by
  cases request with
  | alloc size alignment => exact laidOut_receive i (i.alloc_spec size alignment).1
  | free payload =>
    by_cases hholds : s.Holds payload
    · have hstep : s.step (.free payload) = ⟨s.heap.freePayload payload, without payload s.live⟩ :=
        if_pos hholds
      rw [hstep]
      rcases hholds with rfl | ⟨a, ha, rfl⟩
      · rw [without_null i]
        exact ⟨plan, i, fun _ b hb _ => hb⟩
      · obtain ⟨plan', hfreed, hslabs⟩ := i.freePayload_spec ha
        exact ⟨plan', hfreed, fun _ => hslabs⟩
    · have hstep : s.step (.free payload) = s := if_neg hholds
      rw [hstep]
      exact ⟨plan, i, fun _ b hb _ => hb⟩
  | realloc payload size alignment =>
    by_cases hholds : s.Holds payload
    · have hstep : s.step (.realloc payload size alignment) = s.receive size alignment
          (without payload s.live) (s.heap.realloc payload size alignment) := if_pos hholds
      rw [hstep]
      rcases hholds with rfl | ⟨a, ha, rfl⟩
      · rw [without_null i, realloc_null]
        exact laidOut_receive i (i.alloc_spec size alignment).1
      · have hmoved := laidOut_receive i (i.realloc_spec ha size alignment)
        rw [realloc_fst] at hmoved
        exact hmoved
    · have hstep : s.step (.realloc payload size alignment) = s := if_neg hholds
      rw [hstep]
      exact ⟨plan, i, fun _ b hb _ => hb⟩
  | write address value =>
    by_cases hwrite : ∃ a ∈ s.live, a.payload ≤ address ∧ address < a.payload + a.size
    · have hstep : s.step (.write address value) = { s with
          heap := { s.heap with memory := update s.heap.memory address value } } := if_pos hwrite
      rw [hstep]
      refine ⟨plan, i.scribble fun x hx => ?_, fun _ b hb _ => hb⟩
      obtain ⟨a, ha, hlo, hhi⟩ := hwrite
      have hne : x ≠ address := by
        rintro rfl
        exact hx a ha ⟨hlo, hhi⟩
      exact update_of_ne hne _ _
    · have hstep : s.step (.write address value) = s := if_neg hwrite
      rw [hstep]
      exact ⟨plan, i, fun _ b hb _ => hb⟩

theorem laidOut_run (requests : List Request) :
    ∃ plan', LaidOut start border stop (s.run requests).heap (s.run requests).live plan'
      ∧ (s.NeverCarves requests → ∀ b ∈ plan'.blocks, b.use = .slab → b ∈ plan.blocks) := by
  induction requests generalizing s plan with
  | nil => exact ⟨plan, i, fun _ b hb _ => hb⟩
  | cons request _ ih =>
    obtain ⟨plan1, h1, hslabs1⟩ := laidOut_step i request
    obtain ⟨plan2, h2, hslabs2⟩ := ih h1
    refine ⟨plan2, h2, fun hnever b hb huse => ?_⟩
    exact hslabs1 hnever.1 b (hslabs2 hnever.2 b hb huse) huse

end Steps

/-- What `jihoo_heap_init` may be given. -/
structure Region (start size : Nat) : Prop where
  aligned : 8 ∣ start
  low : 16 ≤ start
  words : 32 ∣ size
  top : start < 2 ^ 64
  fits : start + size ≤ 2 ^ 64

def limit (start size : Nat) : Nat :=
  if HEADER < size - size / 4 * 3 then start + size else start + size / 4 * 3

def firstPlan (start size : Nat) : Plan where
  blocks := if HEADER < size - size / 4 * 3
    then [⟨start + size / 4 * 3, size - size / 4 * 3 - HEADER, .free⟩] else []
  cells := []
  lists := fun _ => []

theorem firstPlan_free (start size : Nat) : ∀ b ∈ (firstPlan start size).blocks, b.use = .free := by
  unfold firstPlan
  split <;> simp

theorem listed_init (hregion : Region start size) (memory : Buffer) :
    Listed (Heap.init start size memory).memory (Heap.init start size memory).large
      (start + size / 4 * 3) (limit start size) (firstPlan start size).blocks := by
  obtain ⟨haligned, hlow, ⟨k, rfl⟩, htop, hfits⟩ := hregion
  have hend : add start (32 * k / 4 * 3) = start + 32 * k / 4 * 3 := add_of_lt (by omega)
  unfold Heap.init limit firstPlan
  dsimp only
  rw [hend]
  by_cases hroom : HEADER < 32 * k - 32 * k / 4 * 3
  · rw [if_pos hroom, if_pos hroom, if_pos hroom]
    have hload : load (setFree (start + 32 * k / 4 * 3) true (setPrev (start + 32 * k / 4 * 3) 0
        (setNext (start + 32 * k / 4 * 3) 0 (setSize (start + 32 * k / 4 * 3)
          (32 * k - 32 * k / 4 * 3 - HEADER) memory)))) (start + 32 * k / 4 * 3)
        = ⟨32 * k - 32 * k / 4 * 3 - HEADER, 0, 0, true⟩ := by
      rw [load_setFree, load_setPrev (by decide), load_setNext (by decide), load_setSize (by omega)]
    constructor
    · omega
    · exact hfits
    · refine ⟨rfl, ?_⟩
      unfold Large.stop Tiles
      dsimp only
      omega
    · refine ⟨?_, ?_, trivial⟩
      · change (load _ (start + 32 * k / 4 * 3)).prev = 0
        rw [hload]
      · change (load _ (start + 32 * k / 4 * 3)).next = 0
        rw [hload]
    · rfl
    · intro b hb
      rw [mem_singleton.mp hb]
      rw [hload]
      exact ⟨rfl, by simp⟩
    · intro b hb
      rw [mem_singleton.mp hb]
      unfold HEADER
      dsimp only
      omega
  · rw [if_neg hroom, if_neg hroom, if_neg hroom]
    constructor
    · omega
    · omega
    · rfl
    · trivial
    · rfl
    all_goals
      intro b hb
      cases hb

theorem laidOut_init (hregion : Region start size) (memory : Buffer) :
    LaidOut start (start + size / 4 * 3) (limit start size) (init start size memory).heap
      (init start size memory).live (firstPlan start size) := by
  have hlisted := listed_init hregion memory
  obtain ⟨haligned, hlow, ⟨k, rfl⟩, htop, hfits⟩ := hregion
  have hend : add start (32 * k / 4 * 3) = start + 32 * k / 4 * 3 := add_of_lt (by omega)
  have harena : (init start (32 * k) memory).heap.arena = start := by
    unfold init Heap.init
    dsimp only
    split <;> rfl
  have hfree : ∀ bucket, (Heap.init start (32 * k) memory).free bucket = 0 := by
    intro bucket
    unfold Heap.init
    dsimp only
    split <;> rfl
  constructor
  · unfold init Heap.init
    dsimp only
    split <;> exact hend
  · refine ⟨?_, ⟨hlow, by omega, by omega⟩, ?_, ?_, ?_, Pairwise.nil⟩
    · rw [harena]
      omega
    · unfold Settled firstPlan
      split
      · exact .singleton _
      · exact .nil
    · nofun
    · nofun
  · exact hlisted
  · intro bucket _
    exact .stop (not_not.mpr (hfree bucket))
  · nofun
  · exact nodup_nil
  · nofun
  · nofun
  · nofun
  · intro b hb p hp
    rw [firstPlan_free _ _ b hb] at hp
    cases hp

end Session

def Apart (p m q n : Nat) : Prop := p + m ≤ q ∨ q + n ≤ p

def OnLarge (h : Heap) (b : Nat) :
    Prop := OnChain (fun a => (load h.memory a).next) (· ≠ 0) h.large b

inductive Uses (h : Heap) (live : List Allocation) : Nat → Nat → Prop
  | tag {a : Allocation} (ha : a ∈ live) (hsmall : a.bucket ≠ none) : Uses h live (a.payload - 8) 8
  | words {a : Allocation} (ha : a ∈ live) (hlarge : a.bucket = none) : Uses h live (a.payload - 16)
      16
  | header {b : Nat} (hb : h.OnLarge b) : Uses h live b HEADER
  | link {bucket b : Nat} (hbucket : bucket < 10)
      (hb : OnChain (fun a => h.memory.get a 8) (· ≠ 0) (h.free bucket) b) : Uses h live b 8
  | arena : Uses h live h.arena (h.arenaEnd - h.arena)

def Identifies (h : Heap) (a : Allocation) : Prop :=
  (∀ bucket, a.bucket = some bucket → h.memory.get (a.payload - 8) 8 = bucket)
  ∧ (a.bucket = none → ∃ b, h.OnLarge b ∧ h.memory.get (a.payload - 8) 8 = b
    ∧ (load h.memory b).free = false ∧ b + HEADER + 16 ≤ a.payload
    ∧ a.payload + a.size ≤ b + HEADER + (load h.memory b).size)

namespace LaidOut

variable {start border stop : Nat} {h : Heap} {live : List Allocation} {plan : Plan}
variable {a a' : Allocation}

variable (i : LaidOut start border stop h live plan)
include i

theorem chain_large :
    Chain (fun b => (load h.memory b).next) (· ≠ 0) h.large (plan.blocks.map Large.address) := by
  rw [i.listed.head]
  apply i.listed.linked.chain
  · intro a ha
    obtain ⟨block, hblock, rfl⟩ := mem_map.mp ha
    exact Nat.ne_of_gt (i.listed.bounds hblock).1
  · exact not_not.mpr rfl

theorem onLarge_iff {b : Nat} : h.OnLarge b ↔ ∃ block ∈ plan.blocks, block.address = b := by
  unfold OnLarge
  rw [← i.chain_large.mem_iff_onChain, mem_map]

theorem apart_live (ha : a ∈ live) (ha' : a' ∈ live) (hne : a ≠ a') :
    Apart a.payload a.size a'.payload a'.size := by
  have hpayload : a.payload ≠ a'.payload := fun heq => hne (i.eq_of_payload ha ha' heq)
  unfold Apart
  rcases i.live_cases ha with ⟨d, hd, _, hstart, hstop⟩ | ⟨b, hb, _, hin⟩
  · rcases i.live_cases ha' with ⟨d', hd', _, hstart', hstop'⟩ | ⟨b', hb', _, hin'⟩
    · have hapart := i.cell_apart hd hd' fun heq => hpayload (by rw [hstart, hstart', heq])
      omega
    have hapart := i.cell_block hd hb' (by rw [hin'.use]; nofun)
    have hstart' := hin'.start
    have hstop' := hin'.stop
    omega
  have hstart := hin.start
  have hstop := hin.stop
  rcases i.live_cases ha' with ⟨d', hd', _, hstart', hstop'⟩ | ⟨b', hb', _, hin'⟩
  · have hapart := i.cell_block hd' hb (by rw [hin.use]; nofun)
    omega
  have hapart := i.listed.apart hb hb' fun heq => hpayload ?_
  · have hstart' := hin'.start
    have hstop' := hin'.stop
    omega
  · exact Use.held.inj (hin.use.symm.trans (heq ▸ hin'.use))

theorem apart_header (ha : a ∈ live) {b : Large} (hb : b ∈ plan.blocks) :
    Apart a.payload a.size b.address HEADER := by
  unfold Apart
  rcases i.live_cases ha with ⟨d, hd, _, hstart, hstop⟩ | ⟨c, hc, _, hin⟩
  · have hapart := i.cell_header hd hb
    omega
  have hstart := hin.start
  have hstop := hin.stop
  by_cases hsame : c = b
  · rw [← hsame]
    omega
  · have hapart := i.listed.apart hc hb hsame
    unfold Large.stop at *
    omega

theorem apart_arena (ha : a ∈ live) : Apart a.payload a.size h.arena (h.arenaEnd - h.arena) := by
  obtain ⟨_, hborder, _⟩ := i.geometry.bounds
  have hend := i.arenaEnd
  unfold Apart
  rcases i.live_cases ha with ⟨d, hd, _, hstart, hstop⟩ | ⟨b, hb, _, hin⟩
  · rcases i.geometry.placed d hd with hplace | ⟨b, hb, _, hlo, _⟩
    · omega
    · have hbounds := i.listed.bounds hb
      omega
  · have hstart := hin.start
    have hbounds := i.listed.bounds hb
    omega

theorem apart_uses (ha : a ∈ live) {address bytes : Nat} (huses : h.Uses live address bytes) :
    Apart a.payload a.size address bytes := by
  cases huses with
  | tag ha' hsmall =>
    rename_i a'
    obtain ⟨bucket, hbucket⟩ := Option.ne_none_iff_exists'.mp hsmall
    obtain ⟨address, hin⟩ := i.small a' ha' bucket hbucket
    have hclear := i.live_cell ha hin.mem
    rw [hin.payload]
    unfold Apart
    omega
  | words ha' hlarge =>
    rename_i a'
    obtain ⟨b, hb, hin⟩ := i.large a' ha' hlarge
    have hclear := i.live_front ha hb hin
    have hstart := hin.start
    unfold Apart
    omega
  | header hb =>
    obtain ⟨block, hblock, rfl⟩ := i.onLarge_iff.mp hb
    exact i.apart_header ha hblock
  | link hbucket hb =>
    rename_i bucket
    have hmem := (i.chains bucket hbucket).mem_iff_onChain.mpr hb
    exact i.live_cell ha (i.spare bucket hbucket address hmem)
  | arena => exact i.apart_arena ha

theorem identifies (ha : a ∈ live) : h.Identifies a := by
  constructor
  · intro bucket hbucket
    obtain ⟨address, hin⟩ := i.small a ha bucket hbucket
    rw [hin.payload]
    exact hin.tag
  intro hlarge
  obtain ⟨b, hb, hin⟩ := i.large a ha hlarge
  obtain ⟨hsize, hfree⟩ := i.listed.stored b hb
  refine ⟨b.address, i.onLarge_iff.mpr ⟨b, hb, rfl⟩, hin.tag, ?_, hin.start, ?_⟩
  · rw [← Bool.not_eq_true, hfree, hin.use]
    nofun
  · rw [hsize]
    exact hin.stop

end LaidOut

/-- **Allocations never overlap.** Whatever is held is aligned, inside the memory of the heap, and
apart from everything else that is held and from all the words of the allocator; the word in front
of it still says where it belongs. -/
theorem allocations_disjoint (start size : Nat) (memory : Buffer)
    (hregion : Session.Region start size) (requests : List Request) :
    let s := (Session.init start size memory).run requests
    (∀ n alignment, (s.heap.alloc n alignment).1 ≠ 0 →
      (s.heap.alloc n alignment).1 % alignment = 0 ∧ start ≤ (s.heap.alloc n alignment).1
      ∧ (s.heap.alloc n alignment).1 + n ≤ start + size)
    ∧ (∀ a ∈ s.live, a.payload ≠ 0 ∧ a.payload % a.alignment = 0 ∧ start ≤ a.payload
      ∧ a.payload + a.size ≤ start + size)
    ∧ s.live.Pairwise (fun a b => Apart a.payload a.size b.payload b.size)
    ∧ (∀ a ∈ s.live, ∀ address bytes, s.heap.Uses s.live address bytes →
      Apart a.payload a.size address bytes)
    ∧ ∀ a ∈ s.live, s.heap.Identifies a := by
  intro s
  obtain ⟨plan, i, _⟩ := Session.laidOut_run (Session.laidOut_init hregion memory) requests
  have hlimit : Session.limit start size ≤ start + size := by
    unfold Session.limit
    split <;> omega
  have hbounds : ∀ {h : Heap} {live : List Allocation} {plan : Plan},
      LaidOut start (start + size / 4 * 3) (Session.limit start size) h live plan → ∀ a ∈ live,
      a.payload ≠ 0 ∧ a.payload % a.alignment = 0 ∧ start ≤ a.payload
      ∧ a.payload + a.size ≤ start + size := by
    intro h live plan i a ha
    have hlive := i.live_bounds ha
    have hlow := hregion.low
    exact ⟨by omega, i.aligned a ha, hlive.1, by omega⟩
  refine ⟨fun n alignment hne => ?_, hbounds i, ?_, fun a ha _ _ huses => i.apart_uses ha huses,
    fun a ha => i.identifies ha⟩
  · rcases (i.alloc_spec n alignment).1 with hnull | ⟨_, plan', i', _⟩
    · rw [hnull] at hne
      exact absurd rfl hne
    · exact (hbounds i' _ mem_cons_self).2
  · have hnodup : s.live.Nodup := i.payloads.of_map
    exact hnodup.imp_of_mem fun ha hb hne => i.apart_live ha hb hne

theorem allocations_disjoint_pair :
    let s := (Session.init 4096 65536 Buffer.zeroed).run [.alloc 24 8, .alloc 5000 64]
    s.live = [⟨53312, 5000, 64⟩, ⟨4104, 24, 8⟩]
    ∧ s.live.Pairwise (fun a b => Apart a.payload a.size b.payload b.size)
    ∧ ∀ a ∈ s.live, s.heap.Identifies a := by
  have hregion : Session.Region 4096 65536 := by
    constructor <;> decide
  have h := allocations_disjoint 4096 65536 Buffer.zeroed hregion [.alloc 24 8, .alloc 5000 64]
  exact ⟨by decide, h.2.2.1, h.2.2.2.2⟩

def Tiled (memory : Buffer) : Nat → List Nat → Nat → Prop
  | lo, [], hi => lo = hi
  | lo, b :: rest, hi => b = lo ∧ Tiled memory (b + HEADER + (load memory b).size) rest hi

variable {memory : Buffer} {lo hi : Nat} {blocks : List Large}

theorem Tiles.tiled (h : Tiles lo blocks hi)
    (hstored : ∀ b ∈ blocks, (load memory b.address).size = b.size) :
    Tiled memory lo (blocks.map Large.address) hi := by
  induction blocks generalizing lo with
  | nil => exact h
  | cons b _ ih =>
    obtain ⟨hlo, hrest⟩ := h
    refine ⟨hlo, ?_⟩
    rw [hstored b mem_cons_self]
    exact ih hrest fun c hc => hstored c (mem_cons_of_mem b hc)

theorem Settled.unfree (h : Settled blocks)
    (hstored : ∀ b ∈ blocks, (load memory b.address).free = true ↔ b.use = .free) :
    ((blocks.map Large.address).map fun b => (load memory b).free).IsChain fun u v =>
      ¬ (u = true ∧ v = true) := by
  have hflags : (blocks.map Large.address).map (fun b => (load memory b).free)
      = (blocks.map Large.use).map fun use => decide (use = .free) := by
    rw [map_map, map_map]
    apply map_congr_left
    intro b hb
    apply Bool.eq_iff_iff.mpr
    exact (hstored b hb).trans decide_eq_true_iff.symm
  rw [hflags, isChain_map]
  exact h.imp fun u v hnot hboth => hnot ⟨of_decide_eq_true hboth.1, of_decide_eq_true hboth.2⟩

theorem Settled.single (h : Settled blocks) (htiles : Tiles lo blocks hi) (hlt : lo < hi)
    (hfree : ∀ b ∈ blocks, b.use = .free) : blocks = [⟨lo, hi - lo - HEADER, .free⟩] := by
  cases blocks with
  | nil =>
    have heq : lo = hi := htiles
    omega
  | cons b blocks =>
    cases blocks with
    | nil =>
      obtain ⟨rfl, hhi⟩ := htiles
      have hstop : b.address + HEADER + b.size = hi := hhi
      have hsize : hi - b.address - HEADER = b.size := by omega
      rw [hsize, ← hfree b mem_cons_self]
    | cons c =>
      have hnot := (isChain_cons_cons.mp h).1
      exact absurd ⟨hfree b (by simp), hfree c (by simp)⟩ hnot

/-- **The large blocks are in order.** They are linked both ways, cover the end of the memory
without gaps and no two neighbours are both free, if there is room for a block at all. Once
everything large has been freed, and if no block became a slab, they are the one block of the
beginning again. -/
theorem large_blocks_in_order (start size : Nat) (memory : Buffer)
    (hregion : Session.Region start size) (requests : List Request) :
    let s := (Session.init start size memory).run requests
    (size ≤ 128 → s.heap.large = 0)
    ∧ (128 < size → ∃ blocks : List Nat,
      Chain (fun b => (load s.heap.memory b).next) (· ≠ 0) s.heap.large blocks
      ∧ Linked (fun b => (load s.heap.memory b).next) (fun b => (load s.heap.memory b).prev) 0
        blocks 0
      ∧ Tiled s.heap.memory s.heap.arenaEnd blocks (start + size)
      ∧ (blocks.map fun b => (load s.heap.memory b).free).IsChain
        (fun u v => ¬ (u = true ∧ v = true))
      ∧ ((Session.init start size memory).NeverCarves requests → (∀ a ∈ s.live, a.bucket ≠ none) →
        blocks = [s.heap.arenaEnd]
        ∧ load s.heap.memory s.heap.arenaEnd = ⟨size - size / 4 * 3 - HEADER, 0, 0, true⟩)) := by
  intro s
  obtain ⟨plan, i, hslabs⟩ := Session.laidOut_run (Session.laidOut_init hregion memory) requests
  obtain ⟨k, hk⟩ := hregion.words
  have hhead := i.listed.head
  constructor
  · intro hsmall
    have hlength := i.listed.tiles.length_le
    unfold Session.limit at hlength
    rw [if_neg (by unfold HEADER; omega)] at hlength
    have hnil : plan.blocks = [] := by
      apply eq_nil_of_length_eq_zero
      unfold HEADER at hlength
      omega
    rw [hhead, hnil]
    rfl
  intro hlarge
  have hlimit : Session.limit start size = start + size :=
    if_pos (by unfold HEADER; omega)
  rw [hlimit] at i
  refine ⟨plan.blocks.map Large.address, ?_, i.listed.linked, ?_, ?_, ?_⟩
  · exact i.chain_large
  · rw [i.arenaEnd]
    exact i.listed.tiles.tiled fun b hb => (i.listed.stored b hb).1
  · exact i.geometry.settled.unfree fun b hb => (i.listed.stored b hb).2
  intro hnever hall
  have hfree : ∀ b ∈ plan.blocks, b.use = .free := by
    intro b hb
    cases huse : b.use with
    | free => rfl
    | slab =>
      rw [Session.firstPlan_free _ _ b (hslabs hnever b hb huse)] at huse
      cases huse
    | held p =>
      obtain ⟨a, ha, hlarge, _⟩ := i.held b hb p huse
      exact absurd hlarge (hall a ha)
  have hsingle := i.geometry.settled.single i.listed.tiles (by omega) hfree
  have hlisted := i.listed
  rw [hsingle] at hlisted
  rw [hsingle, i.arenaEnd]
  refine ⟨rfl, ?_⟩
  obtain ⟨hprev, hnext, _⟩ := hlisted.linked
  obtain ⟨hbytes, hflag⟩ := hlisted.stored _ mem_cons_self
  have hprev : (load s.heap.memory (start + size / 4 * 3)).prev = 0 := hprev
  have hnext : (load s.heap.memory (start + size / 4 * 3)).next = 0 := hnext
  have hbytes : (load s.heap.memory (start + size / 4 * 3)).size
      = start + size - (start + size / 4 * 3) - HEADER := hbytes
  have hflag : (load s.heap.memory (start + size / 4 * 3)).free = true := hflag.mpr rfl
  have hload : load s.heap.memory (start + size / 4 * 3)
      = ⟨(load s.heap.memory (start + size / 4 * 3)).size,
        (load s.heap.memory (start + size / 4 * 3)).next,
        (load s.heap.memory (start + size / 4 * 3)).prev,
        (load s.heap.memory (start + size / 4 * 3)).free⟩ := rfl
  rw [hload, hprev, hnext, hflag, hbytes, Nat.add_sub_add_left]

theorem large_blocks_in_order_again :
    let s := (Session.init 4096 65536 Buffer.zeroed).run [.alloc 5000 64, .free 53312]
    s.live = [] ∧ Chain (fun b => (load s.heap.memory b).next) (· ≠ 0) s.heap.large
      [s.heap.arenaEnd]
    ∧ load s.heap.memory s.heap.arenaEnd = ⟨16352, 0, 0, true⟩ := by
  intro s
  have hregion : Session.Region 4096 65536 := by
    constructor <;> decide
  have hlive : s.live = [] := by decide
  have hnever : (Session.init 4096 65536 Buffer.zeroed).NeverCarves [.alloc 5000 64,
      .free 53312] := by
    refine ⟨fun hcarves => ?_, fun hcarves => hcarves, trivial⟩
    obtain ⟨⟨bucket, hbucket, _⟩, _⟩ := hcarves
    cases hbucket
  obtain ⟨blocks, hchain, _, _, _, hagain⟩ :=
    (large_blocks_in_order 4096 65536 Buffer.zeroed hregion [.alloc 5000 64, .free 53312]).2
    (by decide)
  obtain ⟨rfl, hload⟩ := hagain hnever fun a ha => by
    cases ha
  exact ⟨hlive, hchain, hload⟩

/-- A heap of 32 bytes has no large block, and so nothing covers its last quarter. -/
theorem small_heap_uncovered :
    Session.Region 16 32 ∧ ¬ ∃ blocks : List Nat,
      Chain (fun b => (load (Session.init 16 32 Buffer.zeroed).heap.memory b).next) (· ≠ 0)
        (Session.init 16 32 Buffer.zeroed).heap.large blocks
      ∧ Tiled (Session.init 16 32 Buffer.zeroed).heap.memory
        (Session.init 16 32 Buffer.zeroed).heap.arenaEnd blocks (16 + 32) := by
  refine ⟨by constructor <;> decide, fun ⟨blocks, hchain, htiled⟩ => ?_⟩
  cases hchain with
  | stop =>
    have hend : (40 : Nat) = 48 := htiled
    omega
  | link hlive => exact hlive rfl

end Kaguya.Heap
