import Kaguya.Heap.LargeList

/-!
# The layout of the heap

A plan says what every part of the memory is used for: the large blocks, the small blocks that have
been cut from the arena or from a slab, and the free list of each size class. `LaidOut` says that
the memory is laid out by the plan, and that the allocations a caller holds have their place in it.
-/

namespace Kaguya

open Function List Buffer

structure Allocation where
  payload : Nat
  size : Nat
  alignment : Nat
  deriving DecidableEq

def Allocation.bucket (a : Allocation) : Option Nat := Heap.bucketFor a.size a.alignment

namespace Heap

open Block

theorem classSize_spec {bucket : Nat} (h : bucket < 10) :
    8 ≤ classSize bucket ∧ classSize bucket ≤ 4096 ∧ 8 ∣ classSize bucket := by
  have hall : ∀ b < 10, 8 ≤ classSize b ∧ classSize b ≤ 4096 ∧ 8 ∣ classSize b := by decide
  exact hall bucket h

theorem bucketFor_spec {size alignment bucket : Nat} (h : bucketFor size alignment = some bucket) :
    bucket < 10 ∧ size ≤ classSize bucket ∧ alignment ≤ 8 := by
  unfold bucketFor at h
  split at h
  · rename_i halignment
    obtain ⟨hlt, hle, _⟩ := List.findIdx?_eq_some_iff_getElem.mp h
    refine ⟨hlt, ?_, halignment⟩
    unfold classSize
    rw [getD_eq_getElem CLASSES 0 hlt]
    simpa using hle
  · cases h

structure Cell where
  address : Nat
  bucket : Nat
  deriving DecidableEq

def Cell.stop (c : Cell) : Nat := c.address + (classSize c.bucket + 8)

structure Plan where
  blocks : List Large
  cells : List Cell
  lists : Nat → List Nat

def Plan.setList (bucket : Nat) (list : List Nat) (plan : Plan) : Plan :=
  { plan with lists := update plan.lists bucket list }

@[simp]
theorem Plan.lists_setList (bucket : Nat) (list : List Nat) (plan : Plan) :
    (plan.setList bucket list).lists bucket = list := by
  simp [Plan.setList]

structure InBlock (memory : Buffer) (a : Allocation) (b : Large) : Prop where
  use : b.use = .held a.payload
  start : b.address + HEADER + 16 ≤ a.payload
  stop : a.payload + a.size ≤ b.stop
  inside : a.payload < b.stop
  tag : memory.get (a.payload - 8) 8 = b.address

structure InCell (memory : Buffer) (plan : Plan) (a : Allocation) (c : Cell) : Prop where
  payload : a.payload = c.address + 8
  mem : c ∈ plan.cells
  taken : c.address ∉ plan.lists c.bucket
  tag : memory.get c.address 8 = c.bucket

structure Geometry (start border arena : Nat) (blocks : List Large) (cells : List Cell) : Prop where
  bounds : start ≤ arena ∧ arena ≤ border ∧ 8 ∣ arena
  ends : 16 ≤ start ∧ 8 ∣ border ∧ border < 2 ^ 64
  settled : Settled blocks
  bucket : ∀ c ∈ cells, c.bucket < 10 ∧ 8 ∣ c.address
  placed : ∀ c ∈ cells, (start ≤ c.address ∧ c.stop ≤ arena)
    ∨ ∃ b ∈ blocks, b.use = .slab ∧ b.address + HEADER ≤ c.address ∧ c.stop ≤ b.stop
  apart : cells.Pairwise fun c d => c.stop ≤ d.address ∨ d.stop ≤ c.address

structure LaidOut (start border stop : Nat) (h : Heap) (live : List Allocation) (plan : Plan) :
    Prop where
  arenaEnd : h.arenaEnd = border
  geometry : Geometry start border h.arena plan.blocks plan.cells
  listed : Listed h.memory h.large border stop plan.blocks
  chains : ∀ bucket < 10, Chain (fun a => h.memory.get a 8) (· ≠ 0) (h.free bucket)
    (plan.lists bucket)
  spare : ∀ bucket < 10, ∀ a ∈ plan.lists bucket, ⟨a, bucket⟩ ∈ plan.cells
  payloads : (live.map Allocation.payload).Nodup
  aligned : ∀ a ∈ live, a.payload % a.alignment = 0
  small : ∀ a ∈ live, ∀ bucket, a.bucket = some bucket →
    ∃ address, InCell h.memory plan a ⟨address, bucket⟩
  large : ∀ a ∈ live, a.bucket = none → ∃ b ∈ plan.blocks, InBlock h.memory a b
  held : ∀ b ∈ plan.blocks, ∀ p, b.use = .held p → ∃ a ∈ live, a.bucket = none
    ∧ InBlock h.memory a b

namespace LaidOut

variable {start border stop : Nat} {h : Heap} {live live' : List Allocation} {plan : Plan}
variable {memory memory' : Buffer} {a : Allocation} {b c : Large} {d d' : Cell}
variable (i : LaidOut start border stop h live plan) (hd : d ∈ plan.cells)

section

include i hd

theorem cell_apart (hd' : d' ∈ plan.cells) (hne : d ≠ d') :
    d.stop ≤ d'.address ∨ d'.stop ≤ d.address := by
  have : Std.Symm fun c d : Cell => c.stop ≤ d.address ∨ d.stop ≤ c.address := ⟨fun _ _ => Or.symm⟩
  exact i.geometry.apart.forall hd hd' hne

theorem cell_header (hb : b ∈ plan.blocks) :
    d.stop ≤ b.address ∨ b.address + HEADER ≤ d.address := by
  have hbounds := i.listed.bounds hb
  have harena := i.geometry.bounds
  rcases i.geometry.placed d hd with ⟨_, hstop⟩ | ⟨slab, hslab, _, hstart, hstop⟩
  · left
    omega
  by_cases hsame : b = slab
  · rw [hsame]
    exact .inr hstart
  · have hapart := i.listed.apart hb hslab hsame
    unfold Large.stop at *
    omega

theorem cell_block (hb : b ∈ plan.blocks) (huse : b.use ≠ .slab) :
    d.stop ≤ b.address ∨ b.stop ≤ d.address := by
  have hbounds := i.listed.bounds hb
  have harena := i.geometry.bounds
  rcases i.geometry.placed d hd with ⟨_, hstop⟩ | ⟨slab, hslab, huse', hstart, hstop⟩
  · left
    omega
  have hne : b ≠ slab := by
    rintro rfl
    exact huse huse'
  have hapart := i.listed.apart hb hslab hne
  unfold Large.stop at *
  omega

end

variable {x : Nat} {a' : Allocation}

section

include i hd

theorem outside_of_cell (hlo : d.address ≤ x) (hhi : x < d.stop) : Outside plan.blocks x := by
  intro b hb
  have hclear := i.cell_header hd hb
  omega

theorem cell_eq (hd' : d' ∈ plan.cells) (haddress : d.address = d'.address) : d = d' := by
  by_contra hne
  have hapart := i.cell_apart hd hd' hne
  unfold Cell.stop at hapart
  omega

theorem cell_bounds : 0 < d.address ∧ d.stop ≤ 2 ^ 64 := by
  have harena := i.geometry.bounds
  have hends := i.geometry.ends
  rcases i.geometry.placed d hd with ⟨hlo, hhi⟩ | ⟨b, hb, _, hlo, hhi⟩
  · omega
  · have hbounds := i.listed.bounds hb
    unfold HEADER at hlo
    omega

end

structure OnlyCell (d : Cell) (plan : Plan) (live : List Allocation) (memory memory' : Buffer) :
    Prop where
  headers : ∀ b ∈ plan.blocks, load memory' b.address = load memory b.address
  cells : ∀ d' ∈ plan.cells, d' ≠ d → memory'.get d'.address 8 = memory.get d'.address 8
  tags : ∀ a ∈ live, a.bucket = none → memory'.get (a.payload - 8) 8 = memory.get (a.payload - 8) 8

theorem onlyCell_put (i : LaidOut start border stop h live plan) (hd : d ∈ plan.cells) (v : Nat) :
    OnlyCell d plan live h.memory (h.memory.put d.address v 8) := by
  have hdstop : d.stop = d.address + (classSize d.bucket + 8) := rfl
  constructor
  · intro b hb
    have hclear := i.cell_header hd hb
    exact load_congr fun x hlo hhi => put_of_not_mem (by omega)
  · intro d' hd' hne
    have hstop : d'.stop = d'.address + (classSize d'.bucket + 8) := rfl
    have hapart := i.cell_apart hd hd' hne.symm
    exact get_put_of_disjoint (by omega)
  intro a ha hlarge
  obtain ⟨b, hb, hin⟩ := i.large a ha hlarge
  have hapart := i.cell_block hd hb (by rw [hin.use]; nofun)
  have hstart := hin.start
  have hinside := hin.inside
  exact get_put_of_disjoint (by omega)

def Vacant (d : Cell) (live : List Allocation) : Prop :=
  ∀ a ∈ live, a.bucket.isSome → a.payload ≠ d.address + 8

theorem Vacant.ne (hvacant : Vacant d live) (ha : a ∈ live) {bucket : Nat}
    (hbucket : a.bucket = some bucket) (hin : InCell memory plan a d') : d' ≠ d := by
  rintro rfl
  exact hvacant a ha (by rw [hbucket]; rfl) hin.payload

section

include i

theorem vacant_of_spare (hd : d ∈ plan.cells) (hspare : d.address ∈ plan.lists d.bucket) :
    Vacant d live := by
  intro a ha hsmall hpayload
  obtain ⟨bucket, hbucket⟩ := Option.isSome_iff_exists.mp hsmall
  obtain ⟨address, hin⟩ := i.small a ha bucket hbucket
  have hsame : (⟨address, bucket⟩ : Cell) = d := by
    apply i.cell_eq hin.mem hd
    have haddress := hin.payload.symm.trans hpayload
    omega
  have htaken := hin.taken
  rw [hsame] at htaken
  exact htaken hspare

theorem vacant_of_apart (hapart : ∀ d' ∈ plan.cells, d.stop ≤ d'.address ∨ d'.stop ≤ d.address)
    (hlt : d.bucket < 10) : d.address ∉ plan.lists d.bucket ∧ Vacant d live := by
  have hne : ∀ d' ∈ plan.cells, d'.address ≠ d.address := by
    intro d' hd' heq
    have hclear := hapart d' hd'
    unfold Cell.stop at hclear
    omega
  refine ⟨fun hmem => hne _ (i.spare d.bucket hlt d.address hmem) rfl, ?_⟩
  intro a ha hsmall hpayload
  obtain ⟨bucket, hbucket⟩ := Option.isSome_iff_exists.mp hsmall
  obtain ⟨address, hin⟩ := i.small a ha bucket hbucket
  have haddress := hin.payload.symm.trans hpayload
  apply hne _ hin.mem
  omega

theorem free_lt {bucket : Nat} (hlt : bucket < 10) : h.free bucket < 2 ^ 64 := by
  have hchain := i.chains bucket hlt
  cases hlist : plan.lists bucket with
  | nil =>
    rw [hlist] at hchain
    have hnull : h.free bucket = 0 := by simpa using Chain.nil_iff.mp hchain
    omega
  | cons address =>
    rw [hlist] at hchain
    have hmem := i.spare bucket hlt address (by simp [hlist])
    have hbounds := i.cell_bounds hmem
    have hstop : Cell.stop ⟨address, bucket⟩ = address + (classSize bucket + 8) := rfl
    rw [← (Chain.cons_iff.mp hchain).1]
    omega

end

theorem OnlyCell.chain (honly : OnlyCell d plan live h.memory memory')
    (i : LaidOut start border stop h live plan) {bucket first : Nat} {path : List Nat}
    (hlt : bucket < 10) (hpath : ∀ a ∈ path, a ∈ plan.lists bucket)
    (hfresh : bucket = d.bucket → d.address ∉ path)
    (hchain : Chain (fun a => h.memory.get a 8) (· ≠ 0) first path) :
    Chain (fun a => memory'.get a 8) (· ≠ 0) first path := by
  refine hchain.congr fun a ha => ?_
  refine honly.cells ⟨a, bucket⟩ (i.spare bucket hlt a (hpath a ha)) ?_
  rintro rfl
  exact hfresh rfl ha

theorem OnlyCell.inCell (honly : OnlyCell d plan live memory memory') {plan' : Plan}
    (hin : InCell memory plan a d') (hne : d' ≠ d) (hcells : ∀ c ∈ plan.cells, c ∈ plan'.cells)
    (htaken : d'.address ∉ plan'.lists d'.bucket) : InCell memory' plan' a d' :=
  ⟨hin.payload, hcells d' hin.mem, htaken, (honly.cells d' hin.mem hne).trans hin.tag⟩

theorem OnlyCell.inBlock (honly : OnlyCell d plan live memory memory') (ha : a ∈ live)
    (hlarge : a.bucket = none) (hin : InBlock memory a b) : InBlock memory' a b :=
  ⟨hin.use, hin.start, hin.stop, hin.inside, (honly.tags a ha hlarge).trans hin.tag⟩

section

include i

section

include hd

theorem push (hfresh : d.address ∉ plan.lists d.bucket) (hvacant : Vacant d live) :
    LaidOut start border stop (h.push d.bucket d.address) live
      (plan.setList d.bucket (d.address :: plan.lists d.bucket)) := by
  have honly := i.onlyCell_put hd (h.free d.bucket)
  have hbucket := (i.geometry.bucket d hd).1
  have hword : (h.memory.put d.address (h.free d.bucket) 8).get d.address 8 = h.free d.bucket :=
    get_put (i.free_lt hbucket)
  constructor
  · exact i.arenaEnd
  · exact i.geometry
  · exact i.listed.congr honly.headers
  · intro bucket hlt
    change Chain (fun a => (h.memory.put d.address (h.free d.bucket) 8).get a 8) (· ≠ 0)
      (update h.free d.bucket d.address bucket)
      (update plan.lists d.bucket (d.address :: plan.lists d.bucket) bucket)
    have hkept := honly.chain i hlt (fun _ ha => ha) (fun hsame => hsame ▸ hfresh)
      (i.chains bucket hlt)
    by_cases hsame : bucket = d.bucket
    · rw [hsame] at hkept ⊢
      rw [update_self, update_self]
      refine .link (Nat.ne_of_gt (i.cell_bounds hd).1) ?_
      rw [hword]
      exact hkept
    · rw [update_of_ne hsame, update_of_ne hsame]
      exact hkept
  · intro bucket hlt address haddress
    change address ∈ update plan.lists d.bucket _ bucket at haddress
    by_cases hsame : bucket = d.bucket
    · rw [hsame, update_self] at haddress
      rw [hsame]
      rcases mem_cons.mp haddress with rfl | haddress
      · exact hd
      · exact i.spare d.bucket hbucket address haddress
    · rw [update_of_ne hsame] at haddress
      exact i.spare bucket hlt address haddress
  · exact i.payloads
  · exact i.aligned
  · intro a ha bucket hsome
    obtain ⟨address, hin⟩ := i.small a ha bucket hsome
    have hne := hvacant.ne ha hsome hin
    refine ⟨address, honly.inCell hin hne (fun _ hc => hc) ?_⟩
    change address ∉ update plan.lists d.bucket _ bucket
    by_cases hsame : bucket = d.bucket
    · rw [hsame, update_self, mem_cons, not_or]
      refine ⟨fun heq => hne ?_, hsame ▸ hin.taken⟩
      rw [hsame, heq]
    · rw [update_of_ne hsame]
      exact hin.taken
  · intro a ha hlarge
    obtain ⟨b, hb, hin⟩ := i.large a ha hlarge
    exact ⟨b, hb, honly.inBlock ha hlarge hin⟩
  · intro b hb p hp
    obtain ⟨a, ha, hlarge, hin⟩ := i.held b hb p hp
    exact ⟨a, ha, hlarge, honly.inBlock ha hlarge hin⟩

theorem pop {rest : List Nat} (hlist : plan.lists d.bucket = d.address :: rest) :
    LaidOut start border stop
      { h with free := update h.free d.bucket (h.memory.get d.address 8) } live
      (plan.setList d.bucket rest) := by
  have hbucket := (i.geometry.bucket d hd).1
  have hsub : ∀ bucket, ∀ a ∈ update plan.lists d.bucket rest bucket, a ∈ plan.lists bucket := by
    intro bucket a ha
    by_cases hsame : bucket = d.bucket
    · rw [hsame, update_self] at ha
      rw [hsame, hlist]
      exact mem_cons_of_mem _ ha
    · rw [update_of_ne hsame] at ha
      exact ha
  refine { i with
    chains := fun bucket hlt => ?_
    spare := fun bucket hlt a ha => i.spare bucket hlt a (hsub bucket a ha)
    small := fun a ha bucket hsome => ?_ }
  · change Chain _ _ (update h.free d.bucket _ bucket)
      (update plan.lists d.bucket rest bucket)
    by_cases hsame : bucket = d.bucket
    · have hchain := i.chains d.bucket hbucket
      rw [hlist] at hchain
      obtain ⟨hhead, _, hrest⟩ := Chain.cons_iff.mp hchain
      rw [hsame, update_self, update_self, hhead]
      exact hrest
    · rw [update_of_ne hsame, update_of_ne hsame]
      exact i.chains bucket hlt
  · obtain ⟨address, hin⟩ := i.small a ha bucket hsome
    exact ⟨address, hin.payload, hin.mem, fun hmem => hin.taken (hsub bucket address hmem), hin.tag⟩

theorem payload_ne (hvacant : Vacant d live) (ha : a ∈ live) : a.payload ≠ d.address + 8 := by
  cases hbucket : a.bucket with
  | some => exact hvacant a ha (by rw [hbucket]; rfl)
  | none =>
    obtain ⟨b, hb, hin⟩ := i.large a ha hbucket
    have hapart := i.cell_block hd hb (by rw [hin.use]; nofun)
    have hstart := hin.start
    have hinside := hin.inside
    have hstop : d.stop = d.address + (classSize d.bucket + 8) := rfl
    omega

theorem hold (hfresh : d.address ∉ plan.lists d.bucket) (hvacant : Vacant d live)
    (hbucket : a.bucket = some d.bucket) (hpayload : a.payload = d.address + 8)
    (haligned : a.payload % a.alignment = 0) :
    LaidOut start border stop { h with memory := h.memory.put d.address d.bucket 8 } (a :: live)
      plan := by
  have honly := i.onlyCell_put hd d.bucket
  have hlt := (i.geometry.bucket d hd).1
  constructor
  · exact i.arenaEnd
  · exact i.geometry
  · exact i.listed.congr honly.headers
  · intro bucket hlt
    exact honly.chain i hlt (fun _ ha => ha) (fun hsame => hsame ▸ hfresh) (i.chains bucket hlt)
  · exact i.spare
  · refine nodup_cons.mpr ⟨fun hmem => ?_, i.payloads⟩
    obtain ⟨other, hother, heq⟩ := mem_map.mp hmem
    exact i.payload_ne hd hvacant hother (heq.trans hpayload)
  · intro other hother
    rcases mem_cons.mp hother with rfl | hother
    · exact haligned
    · exact i.aligned other hother
  · intro other hother bucket hsome
    rcases mem_cons.mp hother with rfl | hother
    · rw [hbucket] at hsome
      cases hsome
      exact ⟨d.address, hpayload, hd, hfresh, get_put (by omega)⟩
    · obtain ⟨address, hin⟩ := i.small other hother bucket hsome
      have hne := hvacant.ne hother hsome hin
      exact ⟨address, honly.inCell hin hne (fun _ hc => hc) hin.taken⟩
  · intro other hother hlarge
    rcases mem_cons.mp hother with rfl | hother
    · rw [hbucket] at hlarge
      cases hlarge
    · obtain ⟨b, hb, hin⟩ := i.large other hother hlarge
      exact ⟨b, hb, honly.inBlock hother hlarge hin⟩
  · intro b hb p hp
    obtain ⟨other, hother, hlarge, hin⟩ := i.held b hb p hp
    exact ⟨other, mem_cons_of_mem a hother, hlarge, honly.inBlock hother hlarge hin⟩

end

theorem bump {bucket : Nat} (hlt : bucket < 10)
    (hroom : h.arena + (classSize bucket + 8) ≤ border) :
    LaidOut start border stop { h with arena := h.arena + (classSize bucket + 8) } live
      { plan with cells := ⟨h.arena, bucket⟩ :: plan.cells } := by
  obtain ⟨harena, hborder, hdvd⟩ := i.geometry.bounds
  have hclass := classSize_spec hlt
  refine { i with
    geometry := ?_
    spare := fun b hb a ha => mem_cons_of_mem _ (i.spare b hb a ha)
    small := fun a ha b hsome => ?_ }
  · constructor
    · change start ≤ h.arena + (classSize bucket + 8) ∧ h.arena + (classSize bucket + 8) ≤ border
        ∧ 8 ∣ h.arena + (classSize bucket + 8)
      omega
    · exact i.geometry.ends
    · exact i.geometry.settled
    · intro c hc
      rcases mem_cons.mp hc with rfl | hc
      · exact ⟨hlt, hdvd⟩
      · exact i.geometry.bucket c hc
    · intro c hc
      change (start ≤ c.address ∧ c.stop ≤ h.arena + (classSize bucket + 8)) ∨ _
      rcases mem_cons.mp hc with rfl | hc
      · exact .inl ⟨harena, Nat.le_refl _⟩
      · exact (i.geometry.placed c hc).imp_left fun hin => ⟨hin.1, by omega⟩
    refine Pairwise.cons (fun c hc => ?_) i.geometry.apart
    change h.arena + (classSize bucket + 8) ≤ c.address ∨ c.stop ≤ h.arena
    rcases i.geometry.placed c hc with hin | ⟨b, hb, _, hlo, _⟩
    · exact .inr hin.2
    · have hbounds := i.listed.bounds hb
      left
      omega
  · obtain ⟨address, hin⟩ := i.small a ha b hsome
    exact ⟨address, hin.payload, mem_cons_of_mem _ hin.mem, hin.taken, hin.tag⟩

end

section

include i

variable (ha : a ∈ live)
include ha

theorem eq_of_payload (ha' : a' ∈ live) (hpayload : a.payload = a'.payload) : a = a' :=
  inj_on_of_nodup_map i.payloads ha ha' hpayload

theorem live_cases :
    (∃ d ∈ plan.cells, a.bucket = some d.bucket ∧ a.payload = d.address + 8
      ∧ a.payload + a.size ≤ d.stop)
    ∨ ∃ b ∈ plan.blocks, a.bucket = none ∧ InBlock h.memory a b := by
  cases hbucket : a.bucket with
  | some bucket =>
    obtain ⟨address, hin⟩ := i.small a ha bucket hbucket
    obtain ⟨_, hsize, _⟩ := bucketFor_spec hbucket
    refine .inl ⟨⟨address, bucket⟩, hin.mem, rfl, hin.payload, ?_⟩
    rw [hin.payload]
    unfold Cell.stop
    dsimp only
    omega
  | none =>
    obtain ⟨b, hb, hin⟩ := i.large a ha hbucket
    exact .inr ⟨b, hb, rfl, hin⟩

theorem outside_of_live (hlo : a.payload ≤ x) (hhi : x < a.payload + a.size) :
    Outside plan.blocks x := by
  rcases i.live_cases ha with ⟨d, hd, _, hpayload, hstop⟩ | ⟨b, hb, _, hin⟩
  · exact i.outside_of_cell hd (by omega) (by omega)
  · have hstart := hin.start
    have hstop := hin.stop
    exact i.listed.outside hb (by omega) (by omega)

theorem live_cell (hd : d ∈ plan.cells) :
    a.payload + a.size ≤ d.address ∨ d.address + 8 ≤ a.payload := by
  have hdstop : d.stop = d.address + (classSize d.bucket + 8) := rfl
  rcases i.live_cases ha with ⟨d', hd', _, hpayload, hstop⟩ | ⟨b, hb, _, hin⟩
  · by_cases hsame : d = d'
    · rw [hsame]
      exact .inr (by omega)
    · have hapart := i.cell_apart hd hd' hsame
      omega
  · have hapart := i.cell_block hd hb (by rw [hin.use]; nofun)
    have hstart := hin.start
    have hstop := hin.stop
    omega

end

def Kept (live : List Allocation) (memory memory' : Buffer) : Prop :=
  ∀ a ∈ live, ∀ x, a.payload ≤ x → x < a.payload + a.size → memory' x = memory x

theorem Kept.trans {memory'' : Buffer} (h1 : Kept live memory memory')
    (h2 : Kept live memory' memory'') :
    Kept live memory memory'' := fun a ha x hlo hhi => (h2 a ha x hlo hhi).trans (h1 a ha x hlo hhi)

section

include i

theorem kept_cell (hd : d ∈ plan.cells) (v : Nat) :
    Kept live h.memory (h.memory.put d.address v 8) := by
  intro a ha x hlo hhi
  have hclear := i.live_cell ha hd
  exact put_of_not_mem (by omega)

theorem live_front (ha : a ∈ live) (hb : b ∈ plan.blocks) (hin : InBlock h.memory a' b) :
    a.payload + a.size ≤ b.address ∨ a'.payload ≤ a.payload := by
  have hinside := hin.inside
  rcases i.live_cases ha with ⟨d, hd, _, hpayload, hstop⟩ | ⟨c, hc, _, hin'⟩
  · have hapart := i.cell_block hd hb (by rw [hin.use]; nofun)
    omega
  by_cases hsame : b = c
  · have huse := hin.use
    rw [hsame, hin'.use] at huse
    exact .inr (Nat.le_of_eq (Use.held.inj huse).symm)
  have hapart := i.listed.apart hb hc hsame
  have hstart' := hin'.start
  have hstop' := hin'.stop
  omega

theorem reblock {blocks : List Large} (hlisted : Listed memory h.large border stop blocks)
    (hsettled : Settled blocks) (hslabs : ∀ b ∈ plan.blocks, b.use = .slab → b ∈ blocks)
    (hcells : ∀ d ∈ plan.cells, memory.get d.address 8 = h.memory.get d.address 8)
    (hpayloads : (live'.map Allocation.payload).Nodup)
    (haligned : ∀ a ∈ live', a.payload % a.alignment = 0)
    (hsmall : ∀ a ∈ live', a.bucket.isSome → a ∈ live)
    (hlarge : ∀ a ∈ live', a.bucket = none → ∃ b ∈ blocks, InBlock memory a b)
    (hheld : ∀ b ∈ blocks, ∀ p, b.use = .held p →
      ∃ a ∈ live', a.bucket = none ∧ InBlock memory a b) :
    LaidOut start border stop { h with memory := memory } live' { plan with blocks := blocks } := by
  constructor
  · exact i.arenaEnd
  · refine ⟨i.geometry.bounds, i.geometry.ends, hsettled, i.geometry.bucket, fun d hd => ?_,
      i.geometry.apart⟩
    refine (i.geometry.placed d hd).imp_right fun ⟨b, hb, huse, hin⟩ => ?_
    exact ⟨b, hslabs b hb huse, huse, hin⟩
  · exact hlisted
  · intro bucket hlt
    exact (i.chains bucket hlt).congr fun a ha => hcells ⟨a, bucket⟩ (i.spare bucket hlt a ha)
  · exact i.spare
  · exact hpayloads
  · exact haligned
  · intro a ha bucket hsome
    obtain ⟨address, hin⟩ := i.small a (hsmall a ha (by rw [hsome]; rfl)) bucket hsome
    exact ⟨address, hin.payload, hin.mem, hin.taken, (hcells _ hin.mem).trans hin.tag⟩
  · exact hlarge
  · exact hheld

theorem scribble
    (hbytes : ∀ x, (∀ a ∈ live, ¬ (a.payload ≤ x ∧ x < a.payload + a.size)) →
      memory x = h.memory x) :
    LaidOut start border stop { h with memory := memory } live plan := by
  have hcells : ∀ d ∈ plan.cells, memory.get d.address 8 = h.memory.get d.address 8 := by
    intro d hd
    refine get_congr fun k hk => hbytes _ fun a ha => ?_
    have hclear := i.live_cell ha hd
    omega
  have htags : ∀ a b, b ∈ plan.blocks → InBlock h.memory a b → InBlock memory a b := by
    intro a b hb hin
    refine ⟨hin.use, hin.start, hin.stop, hin.inside, Eq.trans ?_ hin.tag⟩
    have hstart := hin.start
    refine get_congr fun k hk => hbytes _ fun a' ha' => ?_
    have hclear := i.live_front ha' hb hin
    omega
  refine i.reblock (i.listed.of_outside fun x hx => hbytes x fun a ha hmem => ?_) i.geometry.settled
    (fun b hb _ => hb) hcells i.payloads i.aligned (fun a ha _ => ha) ?_ ?_
  · exact hx (i.outside_of_live ha hmem.1 hmem.2)
  · intro a ha hlarge
    obtain ⟨b, hb, hin⟩ := i.large a ha hlarge
    exact ⟨b, hb, htags a b hb hin⟩
  · intro b hb p hp
    obtain ⟨a, ha, hlarge, hin⟩ := i.held b hb p hp
    exact ⟨a, ha, hlarge, htags a b hb hin⟩

end

def without (payload : Nat) (live : List Allocation) : List Allocation :=
  live.filter fun a => a.payload ≠ payload

theorem mem_without {payload : Nat} :
    a ∈ without payload live ↔ a ∈ live ∧ a.payload ≠ payload := by
  simp [without]

section

include i

theorem nodup_without (payload : Nat) : ((without payload live).map Allocation.payload).Nodup :=
  i.payloads.sublist (filter_sublist.map _)

theorem drop (ha : a ∈ live) (hsmall : a.bucket.isSome) :
    LaidOut start border stop h (without a.payload live) plan := by
  refine i.reblock i.listed i.geometry.settled (fun b hb _ => hb) (fun _ _ => rfl)
    (i.nodup_without a.payload) (fun a' ha' => i.aligned a' (mem_without.mp ha').1)
    (fun a' ha' _ => (mem_without.mp ha').1) (fun a' ha' => i.large a' (mem_without.mp ha').1) ?_
  intro b hb p hp
  obtain ⟨a', ha', hlarge, hin⟩ := i.held b hb p hp
  refine ⟨a', mem_without.mpr ⟨ha', fun hpayload => ?_⟩, hlarge, hin⟩
  rw [← i.eq_of_payload ha' ha hpayload, hlarge] at hsmall
  cases hsmall

theorem inBlock_congr (hb : b ∈ plan.blocks) (hin : InBlock h.memory a b)
    (hsame : ∀ x, Outside plan.blocks x → b.address ≤ x → x < b.stop → memory x = h.memory x) :
    InBlock memory a b := by
  have hstart := hin.start
  have hinside := hin.inside
  refine ⟨hin.use, hin.start, hin.stop, hin.inside, Eq.trans ?_ hin.tag⟩
  refine get_congr fun k hk => hsame _ (i.listed.outside hb ?_ ?_) ?_ ?_ <;> omega

theorem word_congr (hd : d ∈ plan.cells)
    (hsame : ∀ x, Outside plan.blocks x → d.address ≤ x → x < d.stop → memory x = h.memory x) :
    memory.get d.address 8 = h.memory.get d.address 8 := by
  have hstop : d.stop = d.address + (classSize d.bucket + 8) := rfl
  refine get_congr fun k hk => hsame _ (i.outside_of_cell hd ?_ ?_) ?_ ?_ <;> omega

end

section Take

include i

variable {front back : List Large} {block : Large} {needed : Nat} {use : Use}

theorem take (hblocks : plan.blocks = front ++ block :: back)
    (hfree : block.use = .free) (hle : needed ≤ block.size) (huse : use ≠ .free)
    (hlisted : Listed memory h.large border stop (front ++ (block.taken needed use ++ back))) :
    ∃ size blocks, Listed memory h.large border stop blocks ∧ Settled blocks
      ∧ ⟨block.address, size, use⟩ ∈ blocks ∧ needed ≤ size ∧ size ≤ block.size
      ∧ (∀ b ∈ plan.blocks, b.use ≠ .free → b ∈ blocks)
      ∧ ∀ b ∈ blocks, b.use ≠ .free → b ∈ plan.blocks ∨ b = ⟨block.address, size, use⟩ := by
  have hsettled := i.geometry.settled
  rw [hblocks] at hsettled ⊢
  obtain ⟨size, rest, htaken, hneeded, hsize, hrest⟩ := taken_eq block hle use
  refine ⟨size, _, hlisted, settled_taken hsettled hfree needed huse, ?_, hneeded, hsize, ?_, ?_⟩
  · rw [htaken]
    simp
  · intro b hb hused
    have hne : b ≠ block := by
      rintro rfl
      exact hused hfree
    simp only [mem_append, mem_cons, hne, false_or] at hb ⊢
    exact hb.imp_right .inr
  intro b hb hused
  rw [htaken] at hb
  have hne : b ∉ rest := fun hmem => hused (hrest b hmem)
  simp only [mem_append, mem_cons, hne, or_false] at hb ⊢
  rcases hb with hb | hb | hb
  · exact .inl (.inl hb)
  · exact .inr hb
  · exact .inl (.inr (.inr hb))

theorem live_free {x : Nat} (hblock : block ∈ plan.blocks) (hfree : block.use = .free)
    (ha : a ∈ live) (hx : x = a.payload ∨ a.payload ≤ x ∧ x < a.payload + a.size) :
    ¬ (block.address ≤ x ∧ x < block.stop) := by
  rcases i.live_cases ha with ⟨d, hd, _, hpayload, hstop⟩ | ⟨b, hb, _, hin⟩
  · have hapart := i.cell_block hd hblock (by rw [hfree]; nofun)
    have hclass := classSize_spec (i.geometry.bucket d hd).1
    unfold Cell.stop at hapart hstop
    omega
  have hne : b ≠ block := by
    rintro rfl
    rw [hin.use] at hfree
    cases hfree
  have hapart := i.listed.apart hb hblock hne
  have hstart := hin.start
  have hstop := hin.stop
  have hinside := hin.inside
  omega

variable (hblock : block ∈ plan.blocks)
variable (hfree : block.use = .free)
variable (hbytes : ∀ x, Outside plan.blocks x → ¬ (block.address ≤ x ∧ x < block.stop) →
  memory x = h.memory x)
include hblock hfree hbytes

theorem cells_of_take (hd : d ∈ plan.cells) :
    memory.get d.address 8 = h.memory.get d.address 8 := by
  have hapart := i.cell_block hd hblock (by rw [hfree]; nofun)
  apply i.word_congr hd
  intro x hx hlo hhi
  exact hbytes x hx (by omega)

theorem inBlock_of_take (hb : b ∈ plan.blocks) (hin : InBlock h.memory a b) :
    InBlock memory a b := by
  have hne : b ≠ block := by
    rintro rfl
    rw [hin.use] at hfree
    cases hfree
  have hapart := i.listed.apart hb hblock hne
  apply i.inBlock_congr hb hin
  intro x hx hlo hhi
  exact hbytes x hx (by omega)

theorem kept_of_take : Kept live h.memory memory := fun _ ha x hlo hhi =>
  hbytes x (i.outside_of_live ha hlo hhi) (i.live_free hblock hfree ha (.inr ⟨hlo, hhi⟩))

end Take

theorem addCells (i : LaidOut start border stop h live plan) (hb : b ∈ plan.blocks)
    (huse : b.use = .slab) {new : List Cell}
    (hnew : ∀ d ∈ new, d.bucket < 10 ∧ 8 ∣ d.address ∧ b.address + HEADER ≤ d.address
      ∧ d.stop ≤ b.stop) (hapart : new.Pairwise fun c d => c.stop ≤ d.address ∨ d.stop ≤ c.address)
    (hold : ∀ d ∈ plan.cells, d.stop ≤ b.address ∨ b.stop ≤ d.address) :
    LaidOut start border stop h live { plan with cells := new ++ plan.cells } := by
  refine { i with
    geometry := ?_
    spare := fun bucket hlt a ha => mem_append_right new (i.spare bucket hlt a ha)
    small := fun a ha bucket hsome => ?_ }
  · refine ⟨i.geometry.bounds, i.geometry.ends, i.geometry.settled, ?_, ?_, ?_⟩
    · intro d hd
      rcases mem_append.mp hd with hd | hd
      · exact ⟨(hnew d hd).1, (hnew d hd).2.1⟩
      · exact i.geometry.bucket d hd
    · intro d hd
      rcases mem_append.mp hd with hd | hd
      · exact .inr ⟨b, hb, huse, (hnew d hd).2.2⟩
      · exact i.geometry.placed d hd
    · refine pairwise_append.mpr ⟨hapart, i.geometry.apart, fun d hd d' hd' => ?_⟩
      have hin := hnew d hd
      have hclear := hold d' hd'
      omega
  · obtain ⟨address, hin⟩ := i.small a ha bucket hsome
    exact ⟨address, hin.payload, mem_append_right new hin.mem, hin.taken, hin.tag⟩

end LaidOut

end Heap

end Kaguya
