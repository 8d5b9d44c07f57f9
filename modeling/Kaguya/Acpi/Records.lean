import Kaguya.Acpi.Safety

/-!
# What the MADT says

`madt` goes over the records of its table once. It keeps the first processors, each once, the first
I/O APIC, and the last override of each interrupt and of the local APIC's address. The records that
it has gone over determine what it has collected, and a table that is not made of records is
refused.
-/

namespace Kaguya.Acpi

open Trapping Logged List

section Rules
variable (m : Machine) (table : Nat)

def isEnabled (offset : Nat) : Bool :=
  m.part table offset 1 = 0 && m.part table (offset + 4) 4 &&& 1 ≠ 0

def apicId (offset : Nat) : UInt8 := UInt8.ofNat (m.part table (offset + 3) 1)

def isIoapic (offset : Nat) : Bool :=
  m.part table offset 1 = 1 && m.part table (offset + 4) 4 ≠ 0

def isOverride (source offset : Nat) : Bool :=
  m.part table offset 1 = 2 && m.part table (offset + 2) 1 = 0 && m.part table (offset + 3) 1
  = source

def isAddress (offset : Nat) : Bool := m.part table offset 1 = 5

def latest {α : Type} (p : Nat → Bool) (value : Nat → α) (default : α) (offsets : List Nat) : α :=
  ((offsets.filter p).getLast?.map value).getD default

structure Madt.Describes (info : Madt) (offsets : List Nat) : Prop extends info.Shaped where
  processors : info.cpus.take info.count
    = ((offsets.filter (isEnabled m table)).map (apicId m table)).eraseDups.take 64
  gsi : ∀ source < 16, info.irqGsi[source]? = some (latest (isOverride m table source)
    (fun offset => UInt32.ofNat (m.part table (offset + 4) 4)) (UInt32.ofNat source) offsets)
  flags : ∀ source < 16, info.irqFlags[source]? = some (latest (isOverride m table source)
    (fun offset => UInt16.ofNat (m.part table (offset + 8) 2)) 0 offsets)
  address : info.lapic = latest (isAddress m table) (fun offset => m.part table (offset + 4) 8)
    (m.part table 36 4) offsets
  ioapic_some : ∀ offset, offsets.find? (isIoapic m table) = some offset →
    info.ioapic = m.part table (offset + 4) 4
      ∧ info.gsiBase = UInt32.ofNat (m.part table (offset + 8) 4)
  ioapic_none : offsets.find? (isIoapic m table) = none → info.ioapic = 0

end Rules

variable {m : Machine} {table offset : Nat} {info : Madt} {offsets : List Nat}

theorem latest_concat {α : Type} {p : Nat → Bool} {value : Nat → α} {default : α} :
    latest p value default (offsets ++ [offset]) = if p offset then value offset
      else latest p value default offsets := by
  cases h : p offset <;> simp [latest, filter_append, h]

theorem eraseDups_concat {ids : List UInt8} {id : UInt8} :
    (ids ++ [id]).eraseDups = if id ∈ ids then ids.eraseDups else ids.eraseDups ++ [id] := by
  rw [eraseDups_append]
  by_cases h : id ∈ ids <;> simp [List.removeAll, h, eraseDups_cons]

theorem describes_start : (Madt.start (m.part table 36 4)).Describes m table [] where
  toShaped := Madt.shaped_start _
  processors := by simp [Madt.start]
  gsi := by
    intro source hsource
    simp [Madt.start, latest, hsource]
  flags := by
    intro source hsource
    rw [Madt.start, List.getElem?_replicate, if_pos hsource]
    rfl
  address := rfl
  ioapic_some := by simp
  ioapic_none := fun _ => rfl

theorem withCpu_take (hcount : info.count < info.cpus.length) (id : UInt8) :
    (info.withCpu id).cpus.take (info.withCpu id).count = if id ∈ info.cpus.take info.count
        then info.cpus.take info.count
        else info.cpus.take info.count ++ [id] := by
  unfold Madt.withCpu
  split_ifs
  · rfl
  · rw [take_add_one, take_set_of_le (Nat.le_refl _), List.getElem?_set_self hcount]
    rfl

theorem cpus_noted : (info.noted m table offset).cpus.take (info.noted m table offset).count
    = if isEnabled m table offset ∧ info.count < 64 then
        (info.withCpu (apicId m table offset)).cpus.take
          (info.withCpu (apicId m table offset)).count
      else info.cpus.take info.count := by
  unfold Madt.noted isEnabled apicId
  split_ifs <;> simp_all

theorem processors_noted (h : info.Describes m table offsets) :
    (info.noted m table offset).cpus.take (info.noted m table offset).count
      = (((offsets ++ [offset]).filter (isEnabled m table)).map (apicId m table)).eraseDups.take
        64 := by
  have hcpus := h.cpus
  have hcount := h.count
  have hold := h.processors
  rw [cpus_noted, filter_append, map_append]
  cases henabled : isEnabled m table offset with
  | false => simpa [henabled] using hold
  | true =>
    simp only [filter_cons, henabled, if_true, filter_nil, map_cons, map_nil, true_and,
      eraseDups_concat]
    generalize (offsets.filter (isEnabled m table)).map (apicId m table) = ids at hold ⊢
    have hlength : info.count = min 64 ids.eraseDups.length := by
      rw [← length_take, ← hold, length_take]
      omega
    by_cases hroom : info.count < 64
    · -- all of the ids so far are there
      have hall : ids.eraseDups.take 64 = ids.eraseDups := take_of_length_le (by omega)
      rw [hall] at hold
      rw [if_pos hroom, withCpu_take (by omega), hold]
      simp only [mem_eraseDups]
      split_ifs
      · exact hall.symm
      · rw [take_of_length_le (by rw [length_append, length_singleton]; omega)]
    · rw [if_neg hroom, hold]
      split_ifs
      · rfl
      · rw [take_append_of_le_length (by omega)]

theorem irqGsi_noted (h : info.Shaped) {source : Nat} (hsource : source < 16) :
    (info.noted m table offset).irqGsi[source]?
      = if isOverride m table source offset then some (UInt32.ofNat (m.part table (offset + 4) 4))
        else info.irqGsi[source]? := by
  have hlength := h.irqGsi
  unfold Madt.noted Madt.withCpu isOverride
  split_ifs <;> simp_all
  omega

theorem irqFlags_noted (h : info.Shaped) {source : Nat} (hsource : source < 16) :
    (info.noted m table offset).irqFlags[source]?
      = if isOverride m table source offset then some (UInt16.ofNat (m.part table (offset + 8) 2))
        else info.irqFlags[source]? := by
  have hlength := h.irqFlags
  unfold Madt.noted Madt.withCpu isOverride
  split_ifs <;> simp_all
  omega

theorem lapic_noted : (info.noted m table offset).lapic
    = if isAddress m table offset then m.part table (offset + 4) 8 else info.lapic := by
  unfold Madt.noted Madt.withCpu isAddress
  split_ifs <;> simp_all

theorem ioapic_noted : (info.noted m table offset).ioapic
      = (if info.ioapic = 0 ∧ m.part table offset 1 = 1 then m.part table (offset + 4) 4
        else info.ioapic)
    ∧ (info.noted m table offset).gsiBase = (if info.ioapic = 0 ∧ m.part table offset 1 = 1 then
          UInt32.ofNat (m.part table (offset + 8) 4)
        else info.gsiBase) := by
  unfold Madt.noted Madt.withCpu
  split_ifs <;> simp_all

theorem Madt.Describes.noted (h : info.Describes m table offsets) :
    (info.noted m table offset).Describes m table (offsets ++ [offset]) where
  toShaped := h.toShaped.noted
  processors := processors_noted h
  gsi := by
    intro source hsource
    rw [irqGsi_noted h.toShaped hsource, latest_concat, h.gsi source hsource]
    split_ifs <;> rfl
  flags := by
    intro source hsource
    rw [irqFlags_noted h.toShaped hsource, latest_concat, h.flags source hsource]
    split_ifs <;> rfl
  address := by rw [lapic_noted, latest_concat, h.address]
  ioapic_some := by
    intro first hfirst
    rw [List.find?_append] at hfirst
    rw [ioapic_noted.1, ioapic_noted.2]
    cases hbefore : offsets.find? (isIoapic m table) with
    | some before =>
      rw [hbefore, Option.some_or, Option.some.injEq] at hfirst
      obtain ⟨hioapic, hgsiBase⟩ := h.ioapic_some before hbefore
      have hnonzero := List.find?_some hbefore
      simp only [isIoapic, Bool.and_eq_true, decide_eq_true_eq] at hnonzero
      rw [if_neg (by omega), if_neg (by omega), ← hfirst]
      exact ⟨hioapic, hgsiBase⟩
    | none =>
      rw [hbefore, Option.none_or, List.find?_singleton] at hfirst
      split_ifs at hfirst with hthis
      obtain rfl := Option.some.inj hfirst
      simp only [isIoapic, Bool.and_eq_true, decide_eq_true_eq] at hthis
      have hnew : info.ioapic = 0 ∧ m.part table offset 1 = 1 := ⟨h.ioapic_none hbefore, hthis.1⟩
      rw [if_pos hnew, if_pos hnew]
      exact ⟨rfl, rfl⟩
  ioapic_none := by
    intro hnone
    rw [List.find?_append, Option.or_eq_none_iff] at hnone
    rw [ioapic_noted.1, h.ioapic_none hnone.1]
    have hthis : isIoapic m table offset = false := by simpa using hnone.2
    by_cases hkind : m.part table offset 1 = 1
    · simpa [isIoapic, hkind] using hthis
    · simp [hkind]

theorem Madt.Describes.foldl (h : info.Describes m table offsets) (rest : List Nat) :
    (rest.foldl (Madt.noted m table) info).Describes m table (offsets ++ rest) := by
  induction rest generalizing info offsets with
  | nil => simpa using h
  | cons _ rest ih =>
    rw [append_cons]
    exact ih h.noted

/-- **The MADT is parsed exactly.** Nothing is returned if the table does not pass the tests of its
length, is shorter than its header, has another signature or does not consist of records. Otherwise
the records say what is returned. -/
theorem madt_exact (m : Machine) (address : Nat) (log : List Event) :
    ∃ length log1 result log2, tableLength m address log = .ok (length, log1)
      ∧ madt m address log = .ok (result, log2)
      ∧ (result = none ↔ length < 44 ∨ ¬ m.Signed address SIGNATURE_APIC
        ∨ ∀ offsets, ¬ Splits m address length 44 offsets)
      ∧ ∀ info, result = some info → ∃ offsets, Splits m address length 44 offsets
        ∧ info.Describes m address offsets := by
  obtain ⟨length, log1, hlength, -, -, rfl, -⟩ := @tableLength_spec m log address
  obtain ⟨result, log2, hresult, -, -, hrefused, hparsed⟩ := @madt_spec m log address
  refine ⟨_, log1, result, log2, hlength, hresult, ?_, ?_⟩
  · cases result with
    | none =>
      refine iff_of_true rfl ?_
      by_contra hnot
      rw [not_or, not_or, not_not, Nat.not_lt] at hnot
      exact hnot.2.2 (hparsed ⟨hnot.1, hnot.2.1⟩)
    | some =>
      refine iff_of_false (by simp) ?_
      have hgood := not_not.mp (mt hrefused (by simp))
      obtain ⟨offsets, hsplits, -⟩ := hparsed hgood
      rintro (hshort | hother | hnone)
      · omega
      · exact hother hgood.2
      · exact hnone offsets hsplits
  · rintro info rfl
    obtain ⟨offsets, hsplits, rfl⟩ := hparsed (not_not.mp (mt hrefused (by simp)))
    exact ⟨offsets, hsplits, describes_start.foldl offsets⟩

end Kaguya.Acpi
