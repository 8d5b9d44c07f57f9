import Mathlib.Data.List.Induction
import Kaguya.Paging.Kernel

/-!
# What the tables translate

The way down from the root for one address, as the processor takes it. `jihoo_range_mapped` says
exactly whether there is one for every byte of a range, and `jihoo_page_map` changes the way of one
page and of no other, whether it comes to its end or not.
-/

namespace Kaguya.Paging

open List

/-- The words on the way for an address, if it leads to memory. Each has the present bit. One for a
large page ends the way, but must not stand at the top. -/
def wordsFrom (m : Machine) (address : Nat) : List Nat → Nat → Option (List Nat)
  | [], _ => some []
  | shift :: shifts, table =>
    let word := m.entry table (slot shift address)
    if word.testBit 0 = false then none
    else if shift ≠ 12 ∧ word.testBit 7 = true then if shift = 39 then none else some [word]
    else (wordsFrom m address shifts (word &&& FRAME_MASK)).map (word :: ·)

def words (m : Machine) (root address : Nat) : Option (List Nat) :=
  wordsFrom m address [39, 30, 21, 12] root

def Reaches (m : Machine) (root : Nat) (user : Bool) (address : Nat) : Prop :=
  ∃ way, words m root address = some way ∧ ∀ word ∈ way, user = true → word.testBit 2 = true

/-- Bits 47 to 63 are all clear or all set, and the same in both addresses. -/
def SameHalf (a b : Nat) : Prop :=
  (a / 2 ^ 47 = 0 ∨ a / 2 ^ 47 = 2 ^ 17 - 1) ∧ b / 2 ^ 47 = a / 2 ^ 47

variable {m m' : Machine} {root table address other : Nat}

variable {word : Nat} {user : Bool} {shifts : List Nat}

theorem and_present : word &&& PRESENT = (word.testBit 0).toNat := by
  rw [show PRESENT = 2 ^ 0 from rfl, Nat.and_two_pow, Nat.pow_zero, Nat.mul_one]

theorem and_huge : word &&& HUGE ≠ 0 ↔ word.testBit 7 = true := by
  rw [show HUGE = 2 ^ 7 from rfl, Nat.and_two_pow]
  cases word.testBit 7 <;> decide

theorem and_required :
    word &&& (if user then PRESENT ||| USER else PRESENT) = (if user then PRESENT ||| USER
      else PRESENT)
      ↔ word.testBit 0 = true ∧ (user = true → word.testBit 2 = true) := by
  have huser : word &&& USER = (word.testBit 2).toNat * 4 := Nat.and_two_pow word 2
  cases user with
  | false =>
    simp only [Bool.false_eq_true, if_false, and_present, false_imp_iff, and_true]
    cases word.testBit 0 <;> decide
  | true =>
    simp only [if_true, Nat.and_or_distrib_left, and_present, huser]
    cases word.testBit 0 <;> cases word.testBit 2 <;> decide

theorem presentFrom_iff (h : 12 ∉ shifts) :
    presentFrom m address (if user then PRESENT ||| USER else PRESENT) (shifts ++ [12]) table = true
      ↔ ∃ way, wordsFrom m address (shifts ++ [12]) table = some way ∧ ∀ word ∈ way, user = true →
        word.testBit 2 = true := by
  induction shifts generalizing table with
  | nil =>
    simp only [nil_append, presentFrom, wordsFrom, ne_eq, and_required]
    cases (m.entry table (slot 12 address)).testBit 0 <;> simp
    cases user <;> simp
  | cons shift shifts ih =>
    obtain ⟨hshift, hrest⟩ : 12 ≠ shift ∧ 12 ∉ shifts := by simpa using h
    simp only [cons_append, presentFrom, wordsFrom, ne_eq, and_required, Ne.symm hshift, if_false,
      not_false_eq_true, true_and]
    generalize m.entry table (slot shift address) = word
    have hnext := @ih (word &&& FRAME_MASK) hrest
    by_cases hpresent : word.testBit 0 = true
    · have hset : ¬ word.testBit 0 = false := by rw [hpresent]; decide
      by_cases huser : user = true → word.testBit 2 = true
      · rw [if_neg (not_not.mpr ⟨hpresent, huser⟩), if_neg hset]
        by_cases hhuge : word.testBit 7 = true
        · rw [if_pos (and_huge.mpr hhuge), if_pos hhuge]
          by_cases htop : shift = 39
          · simp [htop]
          · simpa [htop] using huser
        · rw [if_neg (mt and_huge.mp hhuge), if_neg hhuge, hnext]
          simp only [Option.map_eq_some_iff, exists_exists_and_eq_and, forall_mem_cons]
          exact exists_congr fun way => and_congr_right fun _ => (and_iff_right huser).symm
      · rw [if_pos fun hboth => huser hboth.2, if_neg hset]
        split <;> simp [huser]
    · rw [if_pos fun hboth => hpresent hboth.1, if_pos (by simpa using hpresent)]
      simp

theorem pagePresent_iff :
    pagePresent m root address (if user then PRESENT ||| USER else PRESENT) = true
      ↔ Reaches m root user address :=
  @presentFrom_iff m root address user [39, 30, 21] (by decide)

theorem slot_page {shift : Nat} (hshift : 12 ≤ shift) (hpage : address / 4096 = other / 4096) :
    slot shift address = slot shift other := by
  obtain ⟨n, rfl⟩ := Nat.exists_eq_add_of_le hshift
  rw [slot, slot, Nat.shiftRight_eq_div_pow, Nat.shiftRight_eq_div_pow, Nat.pow_add,
    ← Nat.div_div_eq_div_mul, ← Nat.div_div_eq_div_mul, hpage]

theorem wordsFrom_page (hshifts : ∀ shift ∈ shifts, 12 ≤ shift)
    (hpage : address / 4096 = other / 4096) :
    wordsFrom m address shifts table = wordsFrom m other shifts table := by
  induction shifts generalizing table with
  | nil => rfl
  | cons shift shifts ih =>
    have hrest := fun next => @ih next fun s hs => hshifts s (mem_cons_of_mem _ hs)
    rw [wordsFrom, wordsFrom, slot_page (hshifts shift mem_cons_self) hpage]
    simp only [hrest]

theorem reaches_page (hpage : address / 4096 = other / 4096) :
    Reaches m root user address ↔ Reaches m root user other := by
  rw [Reaches, Reaches, words, words, wordsFrom_page (by decide) hpage]

variable {last required pages : Nat}

theorem pagesPresent_iff (hlast : last = address + 4096 * pages) :
    pagesPresent m root last required (pages + 1) address = true
      ↔ ∀ k ≤ pages, pagePresent m root (address + 4096 * k) required = true := by
  induction pages generalizing address with
  | zero =>
    have hnow : address = last := by omega
    rw [pagesPresent, if_pos hnow]
    simp
  | succ _ ih =>
    have hrest := @ih (address + 4096) (by omega)
    have hmore : address ≠ last := by omega
    rw [pagesPresent, if_neg hmore]
    by_cases hfirst : pagePresent m root address required = true
    · rw [if_neg (by simp [hfirst]), hrest]
      constructor
      · intro hall k hk
        cases k with
        | zero => exact hfirst
        | succ k =>
          rw [show address + 4096 * (k + 1) = address + 4096 + 4096 * k by omega]
          exact hall k (by omega)
      · intro hall k hk
        rw [show address + 4096 + 4096 * k = address + 4096 * (k + 1) by omega]
        exact hall (k + 1) (by omega)
    · rw [if_pos (by simpa using hfirst)]
      refine iff_of_false (by decide) fun hall => hfirst ?_
      exact hall 0 (Nat.zero_le _)

/-- The loop of `jihoo_range_mapped` with a bound on its rounds and nothing else: it has no result
if the rounds do not suffice or the next page has no address. -/
def rangeLoop (m : Machine) (root last required : Nat) : Nat → Nat → Option Bool
  | 0, _ => none
  | rounds + 1, address =>
    if pagePresent m root address required = false then some false
    else if address = last then some true
    else if address + 4096 < 2 ^ 64 then rangeLoop m root last required rounds (address + 4096)
    else none

theorem rangeLoop_eq (hlast : last = address + 4096 * pages) (hend : last < 2 ^ 64) (more : Nat) :
    rangeLoop m root last required (pages + 1 + more) address
      = some (pagesPresent m root last required (pages + 1) address) := by
  induction pages generalizing address with
  | zero =>
    have hnow : address = last := by omega
    rw [Nat.add_right_comm, rangeLoop, pagesPresent, if_pos hnow, if_pos hnow]
    split <;> rfl
  | succ pages ih =>
    have hrest := @ih (address + 4096) (by omega)
    have hmore : address ≠ last := by omega
    have hnext : address + 4096 < 2 ^ 64 := by omega
    rw [Nat.add_right_comm, rangeLoop, pagesPresent, if_neg hmore, if_neg hmore, if_pos hnext]
    split
    · rfl
    · exact hrest

def rangeWithin (rounds : Nat) (m : Machine) (root start length : Nat) (user : Bool) :
    Option Bool :=
  if length = 0 then some true
  else if length > 0xffffffffffffffff - start then some false
  else
    let limit := start + length
    let region := start >>> 47
    if region ≠ 0 ∧ region ≠ 0x1ffff then some false
    else if (limit - 1) >>> 47 ≠ region then some false
    else
      let required := if user then PRESENT ||| USER else PRESENT
      rangeLoop m root ((limit - 1) / 4096 * 4096) required rounds (start / 4096 * 4096)

/-- **Checking a range.** `jihoo_range_mapped` comes to an end, and it accepts a range exactly if
the range is empty, or does not reach the end of the address space, lies in one half of it and the
tables lead to memory for each of its bytes. -/
theorem rangeMapped_exact (m : Machine) (root : Nat) (start length : UInt64) (user : Bool) :
    (∃ rounds, ∀ more, rangeWithin (rounds + more) m root start.toNat length.toNat user
        = some (rangeMapped m root start.toNat length.toNat user))
      ∧ (rangeMapped m root start.toNat length.toNat user = true ↔ length.toNat = 0
        ∨ start.toNat + length.toNat < 2 ^ 64
          ∧ SameHalf start.toNat (start.toNat + length.toNat - 1)
          ∧ ∀ address, start.toNat ≤ address → address < start.toNat + length.toNat →
            Reaches m root user address) := by
  have hstart := start.toNat_lt
  generalize start.toNat = start at hstart ⊢
  generalize length.toNat = length
  simp only [rangeMapped, rangeWithin, Nat.shiftRight_eq_div_pow, SameHalf]
  by_cases hempty : length = 0
  · simp [hempty]
  simp only [if_neg hempty]
  by_cases hlong : length > 0xffffffffffffffff - start
  · simp only [if_pos hlong]
    exact ⟨⟨0, fun _ => trivial⟩, iff_of_false (by decide) (by omega)⟩
  simp only [if_neg hlong]
  by_cases hregion : start / 2 ^ 47 ≠ 0 ∧ start / 2 ^ 47 ≠ 0x1ffff
  · simp only [if_pos hregion]
    exact ⟨⟨0, fun _ => trivial⟩, iff_of_false (by decide) (by omega)⟩
  simp only [if_neg hregion]
  by_cases hsame : (start + length - 1) / 2 ^ 47 ≠ start / 2 ^ 47
  · simp only [if_pos hsame]
    exact ⟨⟨0, fun _ => trivial⟩, iff_of_false (by decide) (by omega)⟩
  simp only [if_neg hsame]
  have hlast : (start + length - 1) / 4096 * 4096 = start / 4096 * 4096
      + 4096 * (((start + length - 1) / 4096 * 4096 - start / 4096 * 4096) / 4096) := by omega
  refine ⟨⟨_, fun more => rangeLoop_eq hlast (by omega) more⟩, ?_⟩
  rw [pagesPresent_iff hlast]
  simp only [pagePresent_iff]
  constructor
  · intro hall
    refine .inr ⟨by omega, ⟨by omega, by omega⟩, fun address hlo hhi => ?_⟩
    exact (reaches_page (by omega)).mp (hall (address / 4096 - start / 4096) (by omega))
  intro hrange k hk
  obtain ⟨-, -, hall⟩ := hrange.resolve_left hempty
  -- the first byte of the range that lies in this page
  exact (reaches_page (by omega)).mp (hall (max start (start / 4096 * 4096 + 4096 * k))
    (by omega) (by omega))

/-! ### Mapping a page

The allocator is the caller's. It hands out frames that nobody uses, with anything in them. -/

def Machine.take (m : Machine) : Nat × Machine :=
  let frame := m.supply m.calls
  if Usable frame ∧ frame ∉ m.inUse then
    (frame, { m with
      inUse := frame :: m.inUse
      calls := m.calls + 1
      allocated := frame :: m.allocated })
  else (0, { m with calls := m.calls + 1 })

/-- The tables of a tree are what the paths of up to three slots lead to. -/
def Leads (m : Machine) (root : Nat) (path : List Nat) (table : Nat) : Prop :=
  path.length ≤ 3 ∧ (∀ i ∈ path, i < 512) ∧ Trie.follow tableOf m.entry path root = some table

/-- The tables are a tree in which none is shared, and the allocator will not hand one of them out.
-/
structure Tree (m : Machine) (root : Nat) : Prop where
  aligned : root % 4096 = 0
  unshared : ∀ path path' table, Leads m root path table → Leads m root path' table → path = path'
  inUse : ∀ path table, Leads m root path table → table ∈ m.inUse

section Trees
variable {path : List Nat} {i j : Nat}

theorem leads_nil : Leads m root [] table ↔ root = table := by
  simp [Leads, Trie.follow]

theorem leads_append : Leads m root (path ++ [i]) table ↔ path.length < 3 ∧ i < 512
    ∧ ∃ above, Leads m root path above ∧ tableOf (m.entry above i) = some table := by
  have hfollow : Trie.follow tableOf m.entry (path ++ [i]) root = some table ↔
      ∃ above, Trie.follow tableOf m.entry path root = some above ∧ tableOf (m.entry above i)
      = some table := by
    rw [Trie.follow_append, Option.bind_eq_some_iff]
    simp [Trie.follow]
  simp only [Leads, hfollow, length_append, length_singleton, mem_append, mem_singleton]
  constructor
  · rintro ⟨hlength, hbound, above, habove, htable⟩
    exact ⟨hlength, hbound i (.inr rfl), above, ⟨by omega, fun k hk => hbound k (.inl hk), habove⟩,
      htable⟩
  · rintro ⟨hlength, hi, above, ⟨-, hbound, habove⟩, htable⟩
    exact ⟨hlength, fun k hk => hk.elim (hbound k) fun heq => heq ▸ hi, above, habove, htable⟩

variable {way done shifts : List Nat} {target physical flags : Nat}

/-- The ways go where they went if the tables above the last ones have the same words. -/
theorem leads_congr
    (hsame : ∀ path table, Leads m root path table → path.length < 3 → ∀ j < 512,
      m'.entry table j = m.entry table j) : Leads m' root way target ↔ Leads m root way target := by
  induction way using List.reverseRecOn generalizing target with
  | nil => rw [leads_nil, leads_nil]
  | append_singleton way j ih =>
    simp only [leads_append, ih]
    refine and_congr_right fun hshort => and_congr_right fun hj => exists_congr fun above => ?_
    refine and_congr_right fun habove => ?_
    rw [hsame _ _ habove hshort j hj]

theorem tableOf_eq_some_iff : tableOf word = some table
    ↔ word.testBit 0 = true ∧ word.testBit 7 = false ∧ word &&& FRAME_MASK = table := by
  have hhuge := @and_huge word
  rw [tableOf, and_present]
  by_cases h : (word.testBit 0).toNat = 0 ∨ word &&& HUGE ≠ 0
  · rw [if_pos h]
    refine iff_of_false (by simp) ?_
    rintro ⟨hpresent, hsmall, -⟩
    rw [hhuge, hpresent, hsmall] at h
    simp at h
  · rw [if_neg h]
    cases hpresent : word.testBit 0 <;> simp_all

theorem Tree.aligned_of_leads (h : Tree m root) (hleads : Leads m root path table) :
    table % 4096 = 0 := by
  cases path using List.reverseRecOn with
  | nil => exact leads_nil.mp hleads ▸ h.aligned
  | append_singleton =>
    obtain ⟨-, -, above, -, htable⟩ := leads_append.mp hleads
    rw [← (tableOf_eq_some_iff.mp htable).2.2, show 4096 = 2 ^ 12 from rfl, Nat.and_mod_two_pow]
    exact Nat.and_zero _

theorem entry_setEntry_apart {value : Nat} (htable : table % 4096 = 0) (hother : other % 4096 = 0)
    (hi : i < 512) (hj : j < 512) (hne : ¬ (other = table ∧ j = i)) :
    (m.setEntry table i value).entry other j = m.entry other j :=
  Buffer.get_put_of_disjoint (by omega)

theorem entry_pageZero {frame : Nat} (hframe : frame % 4096 = 0) (hother : other % 4096 = 0)
    (hj : j < 512) :
    (m.pageZero frame).entry other j = if other = frame then 0 else m.entry other j := by
  by_cases heq : other = frame
  · rw [if_pos heq, heq]
    exact Machine.entry_memFill hj
  · rw [if_neg heq]
    exact Buffer.get_congr fun k hk => if_neg (by omega)

/-! A new table that is hung into an empty slot adds one path and no way to memory. -/

variable {slotIndex frame : Nat}

/-- `m'` is `m` with a new and empty table in an empty slot of a table. -/
structure Hung (m m' : Machine) (root : Nat) (path : List Nat) (table i frame : Nat) : Prop where
  leads : Leads m root path table
  short : path.length < 3
  bound : i < 512
  empty : (m.entry table i).testBit 0 = false
  child : tableOf (m'.entry table i) = some frame
  zero : ∀ j < 512, m'.entry frame j = 0
  same : ∀ path other, Leads m root path other → ∀ j < 512, ¬ (other = table ∧ j = i) →
    m'.entry other j = m.entry other j

theorem Hung.leads_iff (hung : Hung m m' root path table i frame) (h : Tree m root) :
    Leads m' root way target ↔ Leads m root way target ∨ (way = path ++ [i] ∧ target = frame) := by
  induction way using List.reverseRecOn generalizing target with
  | nil => simp [leads_nil]
  | append_singleton way j ih =>
    rw [leads_append, leads_append]
    constructor
    · rintro ⟨hlength, hj, above, habove, htarget⟩
      cases ih.mp habove with
      | inl hold =>
        by_cases hhere : above = table ∧ j = i
        · obtain ⟨rfl, rfl⟩ := hhere
          rw [hung.child, Option.some.injEq] at htarget
          exact .inr ⟨by rw [h.unshared _ _ _ hold hung.leads], htarget.symm⟩
        · rw [hung.same _ _ hold j hj hhere] at htarget
          exact .inl ⟨hlength, hj, above, hold, htarget⟩
      | inr hnew =>
        rw [hnew.2, hung.zero j hj] at htarget
        cases htarget
    · rintro (⟨hlength, hj, above, habove, htarget⟩ | ⟨hway, rfl⟩)
      · refine ⟨hlength, hj, above, ih.mpr (.inl habove), ?_⟩
        rw [hung.same _ _ habove j hj]
        · exact htarget
        rintro ⟨rfl, rfl⟩
        have hpresent := (tableOf_eq_some_iff.mp htarget).1
        rw [hung.empty] at hpresent
        cases hpresent
      · obtain ⟨rfl, hj⟩ := append_inj' hway rfl
        obtain rfl : j = i := singleton_inj.mp hj
        exact ⟨hung.short, hung.bound, table, ih.mpr (.inl hung.leads), hung.child⟩

theorem Hung.tree (hung : Hung m m' root path table i frame) (h : Tree m root)
    (hfresh : frame ∉ m.inUse) (hinUse : m'.inUse = frame :: m.inUse) : Tree m' root where
  aligned := h.aligned
  unshared way way' target hway hway' := by
    have hnew : ∀ {way}, ¬ Leads m root way frame := fun hlead => hfresh (h.inUse _ _ hlead)
    rcases (hung.leads_iff h).mp hway with hold | ⟨rfl, rfl⟩
      <;> rcases (hung.leads_iff h).mp hway' with hold' | ⟨rfl, hsame⟩
    · exact h.unshared _ _ _ hold hold'
    · exact absurd (hsame ▸ hold) hnew
    · exact absurd hold' hnew
    · rfl
  inUse way target hway := by
    rw [hinUse]
    rcases (hung.leads_iff h).mp hway with hold | ⟨-, rfl⟩
    · exact mem_cons_of_mem _ (h.inUse _ _ hold)
    · exact mem_cons_self

theorem not_last {rest : List Nat} {shift : Nat} (hsplit : done ++ shift :: rest = [39, 30, 21, 12])
    (hrest : done.length < 3 ∨ rest ≠ []) : done.length < 3 ∧ rest ≠ [] ∧ shift ≠ 12 := by
  have hlength := congrArg List.length hsplit
  simp only [length_append, length_cons, length_nil] at hlength
  have hmore : rest ≠ [] := by
    rintro rfl
    simp at hlength hrest
    omega
  have hpos := length_pos_of_ne_nil hmore
  refine ⟨by omega, hmore, ?_⟩
  rintro rfl
  rcases done with _ | ⟨a, _ | ⟨b, _ | ⟨c, done⟩⟩⟩ <;> simp_all
  omega

/-- The way for an address is the same if each of its words is, or if it ends there before and
after. -/
theorem words_eq_of
    (hstep : ∀ done shift rest target, done ++ shift :: rest = [39, 30, 21, 12] →
      Leads m root (slots other done) target → m'.entry target (slot shift other) = m.entry target
      (slot shift other) ∨ (wordsFrom m' other (shift :: rest) target = none
      ∧ wordsFrom m other (shift :: rest) target = none)) :
    words m' root other = words m root other := by
  have hfrom : ∀ shifts done target, done ++ shifts = [39, 30, 21, 12] →
      (shifts ≠ [] → Leads m root (slots other done) target) →
      wordsFrom m' other shifts target = wordsFrom m other shifts target := by
    intro shifts
    induction shifts with
    | nil => exact fun _ _ _ _ => rfl
    | cons shift shifts ih =>
      intro done target hsplit hleads
      have hlead := hleads (cons_ne_nil _ _)
      rcases hstep done shift shifts target hsplit hlead with hsame | ⟨hnone', hnone⟩
      · rw [wordsFrom, wordsFrom, hsame]
        by_cases hpresent : (m.entry target (slot shift other)).testBit 0 = false
        · rw [if_pos hpresent, if_pos hpresent]
        rw [if_neg hpresent, if_neg hpresent]
        by_cases hhuge : shift ≠ 12 ∧ (m.entry target (slot shift other)).testBit 7 = true
        · rw [if_pos hhuge, if_pos hhuge]
        rw [if_neg hhuge, if_neg hhuge]
        congr 1
        apply ih (done ++ [shift])
        · rw [append_assoc]
          exact hsplit
        intro hrest
        obtain ⟨hshort, -, hshift⟩ := not_last hsplit (.inr hrest)
        have hsmall : (m.entry target (slot shift other)).testBit 7 = false := by
          simpa [hshift] using hhuge
        rw [slots, map_append]
        refine leads_append.mpr ⟨by rwa [length_map], slot_lt _ _, target, hlead, ?_⟩
        exact tableOf_eq_some_iff.mpr ⟨by simpa using hpresent, hsmall, rfl⟩
      · rw [hnone, hnone']
  exact hfrom _ [] root rfl fun _ => leads_nil.mpr rfl

theorem wordsFrom_zero (hzero : ∀ j < 512, m.entry table j = 0) (hshifts : shifts ≠ []) :
    wordsFrom m address shifts table = none := by
  cases shifts with
  | nil => exact absurd rfl hshifts
  | cons =>
    rw [wordsFrom, hzero _ (slot_lt _ _)]
    exact if_pos (Nat.zero_testBit 0)

theorem Hung.words_eq (hung : Hung m m' root path table i frame) (h : Tree m root) :
    words m' root other = words m root other := by
  apply words_eq_of
  intro done shift rest target hsplit hlead
  by_cases hhere : target = table ∧ slot shift other = i
  · obtain ⟨rfl, rfl⟩ := hhere
    right
    have hdone : (slots other done).length = done.length := length_map _
    have hpath := h.unshared _ _ _ hlead hung.leads
    obtain ⟨-, hrest, -⟩ :=
        not_last hsplit (.inl (by have := hung.short; rw [← hpath, hdone] at this; exact this))
    obtain ⟨hpresent, hsmall, hmask⟩ := tableOf_eq_some_iff.mp hung.child
    constructor
    · rw [wordsFrom, if_neg (by rw [hpresent]; decide), if_neg (by rw [hsmall]; simp), hmask,
        wordsFrom_zero hung.zero hrest]
      rfl
    · exact if_pos hung.empty
  · exact .inl (hung.same _ _ hlead _ (slot_lt _ _) hhere)

def Enough : Nat → Machine → Prop
  | 0, _ => True
  | n + 1, m => m.take.1 ≠ 0 ∧ Enough n m.take.2

def missing (m : Machine) (address : Nat) : List Nat → Nat → Nat
  | [], _ => 0
  | shift :: shifts, table =>
    if m.entry table (slot shift address) &&& PRESENT = 0 then shifts.length + 1
    else missing m address shifts (m.entry table (slot shift address) &&& FRAME_MASK)

def blocked (m : Machine) (address : Nat) : List Nat → Nat → Bool
  | [], _ => false
  | shift :: shifts, table =>
    if m.entry table (slot shift address) &&& PRESENT = 0 then false
    else if m.entry table (slot shift address) &&& HUGE ≠ 0 then true
    else blocked m address shifts (m.entry table (slot shift address) &&& FRAME_MASK)

theorem take_memory (memory : Buffer) :
    Machine.take { m with memory := memory } = (m.take.1, { m.take.2 with memory := memory }) := by
  by_cases h : Usable (m.supply m.calls) ∧ m.supply m.calls ∉ m.inUse
  · simp only [Machine.take, if_pos h]
  · simp only [Machine.take, if_neg h]

theorem Enough.memory {n : Nat} (h : Enough n m) (memory : Buffer) :
    Enough n { m with memory := memory } := by
  induction n generalizing m with
  | zero => trivial
  | succ n ih =>
    rw [Enough, take_memory]
    exact ⟨h.1, ih h.2⟩

theorem missing_zero (hzero : ∀ j < 512, m.entry table j = 0) :
    missing m address shifts table = shifts.length ∧ blocked m address shifts table = false := by
  cases shifts with
  | nil => exact ⟨rfl, rfl⟩
  | cons shift =>
    simp only [missing, blocked, hzero _ (slot_lt shift address)]
    exact ⟨rfl, rfl⟩

theorem take_cases : (m.take.1 = 0 ∧ m.take.2 = { m with calls := m.calls + 1 })
    ∨ Usable m.take.1 ∧ m.take.1 ∉ m.inUse ∧ m.take.2 = { m with
        inUse := m.take.1 :: m.inUse
        calls := m.calls + 1
        allocated := m.take.1 :: m.allocated } := by
  by_cases h : Usable (m.supply m.calls) ∧ m.supply m.calls ∉ m.inUse
  · right
    simp only [Machine.take, if_pos h]
    exact ⟨h.1, h.2, trivial⟩
  · left
    simp only [Machine.take, if_neg h]
    exact ⟨trivial, trivial⟩

structure Grown (m m' : Machine) (root : Nat) : Prop where
  tree : Tree m' root
  kept : ∀ path table, Leads m root path table → Leads m' root path table
  words : ∀ other, words m' root other = words m root other

theorem Grown.trans {m'' : Machine} (h : Grown m m' root) (h' : Grown m' m'' root) :
    Grown m m'' root :=
  ⟨h'.tree, fun path table hlead => h'.kept _ _ (h.kept path table hlead),
    fun other => (h'.words other).trans (h.words other)⟩

abbrev linked (m : Machine) (table i : Nat) : Machine :=
  (m.take.2.pageZero m.take.1).setEntry table i (m.take.1 ||| PRESENT ||| USER ||| 2)

theorem hung_linked (h : Tree m root) (hleads : Leads m root path table) (hshort : path.length < 3)
    (hi : i < 512) (hempty : m.entry table i &&& PRESENT = 0) (hgiven : m.take.1 ≠ 0) :
    Hung m (linked m table i) root path table i m.take.1 ∧ Grown m (linked m table i) root := by
  obtain ⟨husable, hfresh, hstate⟩ := take_cases.resolve_left fun hfailed => hgiven hfailed.1
  obtain ⟨hword, hlt, -⟩ := tableOf_tableWord husable
  have htable := h.aligned_of_leads hleads
  have hne : ∀ {way target}, Leads m root way target → target ≠ m.take.1 := fun hlead heq =>
    hfresh (heq ▸ h.inUse _ _ hlead)
  have hmemory : m.take.2.memory = m.memory := by rw [hstate]
  have hung : Hung m (linked m table i) root path table i m.take.1 := {
    leads := hleads
    short := hshort
    bound := hi
    empty := by
      rw [and_present] at hempty
      cases hbit : (m.entry table i).testBit 0 with
      | false => rfl
      | true => rw [hbit] at hempty; cases hempty
    child := by rw [Machine.entry_setEntry_self hlt, hword]
    zero := by
      intro j hj
      rw [entry_setEntry_apart htable husable.aligned hi hj fun heq => hne hleads heq.1.symm,
        entry_pageZero husable.aligned husable.aligned hj, if_pos rfl]
    same := by
      intro way target hlead j hj hother
      have htarget := h.aligned_of_leads hlead
      rw [entry_setEntry_apart htable htarget hi hj hother,
        entry_pageZero husable.aligned htarget hj, if_neg (hne hlead), Machine.entry, hmemory]
      rfl }
  refine ⟨hung, hung.tree h hfresh ?_, fun way target hlead => ?_, fun other => hung.words_eq h⟩
  · change m.take.2.inUse = _
    rw [hstate]
  · exact (hung.leads_iff h).mpr (.inl hlead)

theorem descendWith_spec (h : Tree m root) (hsplit : done ++ shifts = [39, 30, 21])
    (hleads : Leads m root (slots address done) table) :
    Grown m (descendWith Machine.take address shifts table m).2 root
      ∧ (∀ last, (descendWith Machine.take address shifts table m).1 = some last →
        Leads (descendWith Machine.take address shifts table m).2 root (slots address [39, 30, 21])
          last)
      ∧ (blocked m address shifts table = false → Enough (missing m address shifts table) m →
        (descendWith Machine.take address shifts table m).1 ≠ none
          ∧ (descendWith Machine.take address shifts table m).2.calls
            = m.calls + missing m address shifts table) := by
  induction shifts generalizing done table m with
  | nil =>
    rw [append_nil] at hsplit
    refine ⟨⟨h, fun _ _ hlead => hlead, fun _ => rfl⟩, fun last hlast => ?_, fun _ _ => ?_⟩
    · cases hlast
      rw [← hsplit]
      exact hleads
    · exact ⟨Option.some_ne_none _, rfl⟩
  | cons shift shifts ih =>
    have hsplit' : (done ++ [shift]) ++ shifts = [39, 30, 21] := by
      rw [append_assoc]
      exact hsplit
    have hshort : (slots address done).length < 3 := by
      have hcount := congrArg List.length hsplit
      rw [slots, length_map]
      simp only [length_append, length_cons, length_nil] at hcount
      omega
    -- one level further down the way is one slot longer
    have hstep : ∀ {m : Machine} {next : Nat}, Leads m root (slots address done) table →
        tableOf (m.entry table (slot shift address)) = some next →
        Leads m root (slots address (done ++ [shift])) next := by
      intro m next hway hnext
      rw [slots, map_append]
      exact leads_append.mpr ⟨hshort, slot_lt _ _, table, hway, hnext⟩
    simp only [descendWith, missing, blocked]
    by_cases hempty : m.entry table (slot shift address) &&& PRESENT = 0
    · simp only [if_pos hempty]
      by_cases hfailed : m.take.1 = 0
      · rw [if_pos hfailed]
        have hstate := take_cases.resolve_right fun hgiven => hgiven.1.ne_zero hfailed
        refine ⟨?_, fun _ hlast => (nomatch hlast), fun _ henough => absurd hfailed henough.1⟩
        rw [hstate.2]
        exact ⟨⟨h.aligned, h.unshared, h.inUse⟩, fun _ _ hlead => hlead, fun _ => rfl⟩
      obtain ⟨hung, hgrown⟩ := hung_linked h hleads hshort (slot_lt shift address) hempty hfailed
      have hmask := (tableOf_eq_some_iff.mp hung.child).2.2
      obtain ⟨hmissing, hopen⟩ := @missing_zero _ m.take.1 address shifts hung.zero
      rw [if_neg hfailed, hmask]
      obtain ⟨hrest, hlast, hserved⟩ :=
        ih hgrown.tree hsplit' (hstep (hgrown.kept _ _ hleads) hung.child)
      refine ⟨hgrown.trans hrest, hlast, fun _ henough => ?_⟩
      rw [hmissing] at hserved
      obtain ⟨hsome, hcalls⟩ := hserved hopen (henough.2.memory _)
      have hone : (linked m table (slot shift address)).calls = m.calls + 1 := by
        rcases take_cases with hno | ⟨-, -, hstate⟩
        · exact absurd hno.1 hfailed
        · change m.take.2.calls = _
          rw [hstate]
      exact ⟨hsome, by rw [hcalls, hone]; omega⟩
    · simp only [if_neg hempty]
      by_cases hhuge : m.entry table (slot shift address) &&& HUGE ≠ 0
      · simp only [if_pos hhuge]
        exact ⟨⟨h, fun _ _ hlead => hlead, fun _ => rfl⟩, fun _ hlast => (nomatch hlast),
          fun hopen => (nomatch hopen)⟩
      · simp only [if_neg hhuge]
        exact ih h hsplit' (hstep hleads (tableOf_eq_some hempty (not_not.mp hhuge)))

/-- The tables of the tree have the same words, and the allocator will not hand one of them out. -/
def SameTree (root : Nat) (m m' : Machine) : Prop :=
  ∀ path table, Leads m root path table →
    table ∈ m'.inUse ∧ ∀ j < 512, m'.entry table j = m.entry table j

theorem SameTree.leads_iff (h : SameTree root m m') :
    Leads m' root way target ↔ Leads m root way target :=
  leads_congr fun _ _ hlead _ => (h _ _ hlead).2

theorem SameTree.tree (h : SameTree root m m') (htree : Tree m root) : Tree m' root where
  aligned := htree.aligned
  unshared _ _ _ hway hway' := htree.unshared _ _ _ (h.leads_iff.mp hway) (h.leads_iff.mp hway')
  inUse _ _ hway := (h _ _ (h.leads_iff.mp hway)).1

theorem SameTree.missing_eq (h : SameTree root m m') (hsplit : done ++ shifts = [39, 30, 21])
    (hleads : Leads m root (slots address done) table)
    (hopen : blocked m' address shifts table = false) :
    missing m' address shifts table = missing m address shifts table := by
  induction shifts generalizing done table with
  | nil => rfl
  | cons shift shifts ih =>
    have hword := (h _ _ hleads).2 _ (slot_lt shift address)
    rw [missing, missing, hword]
    rw [blocked, hword] at hopen
    by_cases hempty : m.entry table (slot shift address) &&& PRESENT = 0
    · rw [if_pos hempty, if_pos hempty]
    rw [if_neg hempty] at hopen ⊢
    rw [if_neg hempty]
    by_cases hhuge : m.entry table (slot shift address) &&& HUGE ≠ 0
    · rw [if_pos hhuge] at hopen
      cases hopen
    rw [if_neg hhuge] at hopen
    have hsplit' : (done ++ [shift]) ++ shifts = [39, 30, 21] := by
      rw [append_assoc]
      exact hsplit
    refine ih hsplit' ?_ hopen
    have hcount := congrArg List.length hsplit
    simp only [length_append, length_cons, length_nil] at hcount
    rw [slots, map_append]
    refine leads_append.mpr ⟨by rw [length_map]; omega, slot_lt _ _, table, hleads, ?_⟩
    exact tableOf_eq_some hempty (not_not.mp hhuge)

variable {allocate : Machine → Nat × Machine}

theorem pageMapWith_none (h : (descendWith allocate address [39, 30, 21] root m).1 = none) :
    pageMapWith allocate root address physical flags m
      = (false, (descendWith allocate address [39, 30, 21] root m).2) := by
  unfold pageMapWith
  dsimp only
  rw [h]

theorem pageMapWith_some (h : (descendWith allocate address [39, 30, 21] root m).1 = some table) :
    pageMapWith allocate root address physical flags m
      = (true, (descendWith allocate address [39, 30, 21] root m).2.setEntry table (slot 12 address)
        (physical ||| flags ||| PRESENT)) := by
  unfold pageMapWith
  dsimp only
  rw [h]

theorem pageMapWith_retry (h : Tree m root) (hopen : blocked m address [39, 30, 21] root = false)
    (henough : Enough (missing m address [39, 30, 21] root) m) :
    (pageMapWith Machine.take root address physical flags m).1 = true
      ∧ (pageMapWith Machine.take root address physical flags m).2.calls = m.calls + missing m
        address [39, 30, 21] root := by
  obtain ⟨-, -, hserved⟩ := descendWith_spec h (nil_append _) (leads_nil.mpr rfl)
  obtain ⟨hsome, hcalls⟩ := hserved hopen henough
  obtain ⟨last, hlast⟩ := Option.ne_none_iff_exists'.mp hsome
  rw [pageMapWith_some hlast]
  exact ⟨rfl, hcalls⟩

variable {value : Nat}

theorem slots_page (h : slots other [39, 30, 21, 12] = slots address [39, 30, 21, 12]) :
    other / 4096 % 2 ^ 36 = address / 4096 % 2 ^ 36 := by
  have hslot : ∀ shift address, slot shift address = address / 2 ^ shift % 512 :=
    fun shift address => by
    rw [slot, Nat.shiftRight_eq_div_pow]
    exact Nat.and_two_pow_sub_one_eq_mod _ 9
  simp only [slots, map_cons, map_nil, hslot, List.cons.injEq, and_true] at h
  omega

theorem Tree.leads_setEntry (h : Tree m root) (hleads : Leads m root path table)
    (hlength : path.length = 3) (hi : i < 512) :
    Leads (m.setEntry table i value) root way target ↔ Leads m root way target := by
  apply leads_congr
  intro above _ habove hshort j hj
  apply entry_setEntry_apart (h.aligned_of_leads hleads) (h.aligned_of_leads habove) hi hj
  rintro ⟨rfl, -⟩
  rw [h.unshared _ _ _ habove hleads, hlength] at hshort
  exact absurd hshort (by decide)

theorem words_setEntry (h : Tree m root) (hleads : Leads m root (slots address [39, 30, 21]) table)
    (hother : other / 4096 % 2 ^ 36 ≠ address / 4096 % 2 ^ 36) :
    words (m.setEntry table (slot 12 address) value) root other = words m root other := by
  apply words_eq_of
  intro done shift rest target hsplit hlead
  left
  apply entry_setEntry_apart (h.aligned_of_leads hleads) (h.aligned_of_leads hlead) (slot_lt _ _)
    (slot_lt _ _)
  rintro ⟨rfl, hslot⟩
  have hpath := h.unshared _ _ _ hlead hleads
  have hcount := congrArg List.length hpath
  rw [slots, slots, length_map, length_map] at hcount
  have hends : done ++ shift :: rest = [39, 30, 21] ++ [12] := hsplit
  obtain ⟨rfl, hlast⟩ := append_inj hends hcount
  obtain ⟨rfl, -⟩ := List.cons.inj hlast
  apply hother
  apply slots_page
  rw [show [39, 30, 21, 12] = [39, 30, 21] ++ [12] from rfl, slots, slots, map_append, map_append]
  exact congrArg₂ _ hpath (congrArg (fun j => [j]) hslot)

theorem words_of_leads (hleads : Leads m root (slots address [39, 30, 21]) table)
    (hvalue : (m.entry table (slot 12 address)).testBit 0 = true) :
    ∃ above, above.length = 3
      ∧ words m root address = some (above ++ [m.entry table (slot 12 address)]) := by
  obtain ⟨-, -, hfollow⟩ := hleads
  simp only [slots, map_cons, map_nil, Trie.follow, Option.bind_eq_some_iff,
    Option.some.injEq, tableOf_eq_some_iff] at hfollow
  obtain ⟨t1, ⟨hp1, hs1, h1⟩, t2, ⟨hp2, hs2, h2⟩, t3, ⟨hp3, hs3, h3⟩, rfl⟩ := hfollow
  refine ⟨[m.entry root (slot 39 address), m.entry t1 (slot 30 address),
    m.entry t2 (slot 21 address)], rfl, ?_⟩
  simp only [words, wordsFrom, hp1, hs1, h1, hp2, hs2, h2, hp3, hs3, h3, hvalue]
  rfl

/-- **Mapping a page.** If `jihoo_page_map` succeeds, the way for the page ends in the new entry and
no other page has another way than before. If it fails, no page has, and when the allocator has
frames for the tables that are still missing it succeeds, with the tables it has linked, unless
there is a large page in the way. -/
theorem pageMap_exact {m m' : Machine} {root : Nat} (h : Tree m root) (address : Nat)
    (physical flags : UInt64) {mapped : Bool}
    (hcall : pageMapWith Machine.take root address physical.toNat flags.toNat m = (mapped, m')) :
    (mapped = true → (∃ above, above.length = 3 ∧ words m' root address
          = some (above ++ [physical.toNat ||| flags.toNat ||| PRESENT]))
        ∧ ∀ other, other / 4096 % 2 ^ 36 ≠ address / 4096 % 2 ^ 36 →
          words m' root other = words m root other)
      ∧ (mapped = false → (∀ other, words m' root other = words m root other)
        ∧ ∀ later, SameTree root m' later → blocked later address [39, 30, 21] root = false →
          Enough (missing m' address [39, 30, 21] root) later →
          ∃ last, pageMapWith Machine.take root address physical.toNat flags.toNat later
            = (true, last)
            ∧ last.calls = later.calls + missing m' address [39, 30, 21] root
            ∧ ∀ path table, Leads m' root path table → Leads last root path table) := by
  have hkept : ∀ {m}, Tree m root → ∀ path table, Leads m root path table → Leads
      (pageMapWith Machine.take root address physical.toNat flags.toNat m).2 root path table := by
    intro m h path table hlead
    obtain ⟨hgrown, hlast, -⟩ := descendWith_spec h (nil_append _) (leads_nil.mpr rfl)
    cases hwalked : (descendWith Machine.take address [39, 30, 21] root m).1 with
    | none =>
      rw [pageMapWith_none hwalked]
      exact hgrown.kept _ _ hlead
    | some last =>
      rw [pageMapWith_some hwalked]
      exact (hgrown.tree.leads_setEntry (hlast last hwalked) rfl (slot_lt _ _)).mpr
        (hgrown.kept _ _ hlead)
  have hkeep := hkept h
  obtain ⟨hgrown, hlast, -⟩ := descendWith_spec h (nil_append _) (leads_nil.mpr rfl)
  have hword : physical.toNat ||| flags.toNat ||| PRESENT < 2 ^ 64 :=
    Nat.or_lt_two_pow (Nat.or_lt_two_pow physical.toNat_lt flags.toNat_lt) (by decide)
  cases hwalked : (descendWith Machine.take address [39, 30, 21] root m).1 with
  | none =>
    rw [pageMapWith_none hwalked] at hcall
    obtain ⟨rfl, rfl⟩ := Prod.mk.inj hcall
    refine ⟨fun hno => (nomatch hno), fun _ => ⟨hgrown.words, fun later hsame hopen henough => ?_⟩⟩
    have hmissing := hsame.missing_eq (nil_append _) (leads_nil.mpr rfl) hopen
    rw [← hmissing] at henough ⊢
    obtain ⟨htrue, hcalls⟩ := @pageMapWith_retry _ _ address physical.toNat flags.toNat
      (hsame.tree hgrown.tree) hopen henough
    refine ⟨_, Prod.ext htrue rfl, hcalls, fun path table hlead => ?_⟩
    exact hkept (hsame.tree hgrown.tree) _ _ (hsame.leads_iff.mpr hlead)
  | some table =>
    rw [pageMapWith_some hwalked] at hcall
    obtain ⟨rfl, rfl⟩ := Prod.mk.inj hcall
    have hleads := hlast table hwalked
    have hread := @Machine.entry_setEntry_self
      (descendWith Machine.take address [39, 30, 21] root m).2 table (slot 12 address) _ hword
    refine ⟨fun _ => ⟨?_, fun other hother => ?_⟩, fun hno => (nomatch hno)⟩
    · have hway := @words_of_leads _ _ _ address
        ((hgrown.tree.leads_setEntry hleads rfl (slot_lt 12 address)).mpr hleads)
        (by rw [hread]; simp [PRESENT])
      rwa [hread] at hway
    · exact (words_setEntry hgrown.tree hleads hother).trans (hgrown.words other)

end Trees

def oneTable : Machine where
  memory := Buffer.zeroed
  inUse := [4096]
  supply n := if n < 3 then 8192 + 4096 * n else 0
  links _ := 0
  calls := 0
  allocated := []
  freed := []

theorem tree_oneTable : Tree oneTable 4096 := by
  have hnil : ∀ {path table}, Leads oneTable 4096 path table → path = [] ∧ 4096 = table := by
    intro path table hleads
    cases path using List.reverseRecOn with
    | nil => exact ⟨rfl, leads_nil.mp hleads⟩
    | append_singleton path i =>
      obtain ⟨-, -, above, -, htable⟩ := leads_append.mp hleads
      rw [show oneTable.entry above i = 0 from Buffer.get_zeroed _ _] at htable
      cases htable
  refine ⟨rfl, fun _ _ _ hleads hleads' => ?_, fun _ _ hleads => ?_⟩
  · rw [(hnil hleads).1, (hnil hleads').1]
  · rw [← (hnil hleads).2]
    exact mem_singleton_self _

theorem pageMap_exact_oneTable :
    let after := (pageMapWith Machine.take 4096 0x400000 0x5000 6 oneTable).2
    (∃ above, above.length = 3 ∧ words after 4096 0x400000 = some (above ++ [0x5007]))
      ∧ words after 4096 0 = words oneTable 4096 0 := by
  have hopen : blocked oneTable 0x400000 [39, 30, 21] 4096 = false := by decide
  have henough : Enough (missing oneTable 0x400000 [39, 30, 21] 4096) oneTable :=
    show Enough 3 oneTable by simp [Enough, Machine.take, oneTable]; decide
  have hserved := @pageMapWith_retry _ _ 0x400000 0x5000 6 tree_oneTable hopen henough
  obtain ⟨hway, hothers⟩ :=
    (pageMap_exact tree_oneTable 0x400000 0x5000 6 (Prod.ext hserved.1 rfl)).1 rfl
  exact ⟨hway, hothers 0 (by decide)⟩

end Kaguya.Paging
