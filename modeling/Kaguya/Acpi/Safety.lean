import Kaguya.Acpi.Tables

/-!
# Firmware tables are read where they were validated

Every byte that `acpi.jh` loads lies in a range that `kaguya_firmware_range` has granted earlier in
the same call, every field belongs to a table that has passed the tests of its length and its
checksum, no arithmetic overflows and every loop comes to an end.
-/

namespace Kaguya.Acpi

open Trapping Logged List

namespace Machine

variable (m : Machine)

def grants (base bytes : Nat) : Bool :=
  if bytes = 0 ∨ base > 0x7fffffffffff then false
  else if bytes > 0x800000000000 - base then false
  else m.firmwareRange base bytes

def Signed (base : Nat) (text : List UInt8) : Prop :=
  ∀ i < text.length, m.memory (base + i) = text.getD i 0

def sum (base length : Nat) : UInt8 :=
  (range length).foldl (fun sum i => sum + m.memory (base + i)) 0

/-- A table that has passed the tests of its length and of its checksum. -/
structure Passed (table length : Nat) : Prop where
  length_eq : m.memory.get (table + 4) 4 = length
  atLeast : 36 ≤ length
  atMost : length ≤ 1048576
  granted : m.grants table length = true
  checksum : m.sum table length = 0

def lengthOf (base : Nat) : Nat :=
  if base = 0 then 0
  else if m.grants base 36 = false then 0
  else if m.memory.get (base + 4) 4 < 36 ∨ m.memory.get (base + 4) 4 > 1048576 then 0
  else if m.grants base (m.memory.get (base + 4) 4) = false then 0
  else if (m.sum base (m.memory.get (base + 4) 4) == 0) = false then 0
  else m.memory.get (base + 4) 4

variable {m} {base bytes table length : Nat}

theorem add_le_of_grants (h : m.grants base bytes = true) : base + bytes ≤ 0x800000000000 := by
  unfold grants at h
  split at h
  · cases h
  · split at h
    · cases h
    · omega

theorem passed_of_lengthOf (h : m.lengthOf table ≠ 0) : m.Passed table (m.lengthOf table) := by
  unfold lengthOf at h ⊢
  split_ifs at h ⊢ with hnull hheader hlength hgranted hsum
  · exact absurd rfl h
  · exact absurd rfl h
  · exact absurd rfl h
  · exact absurd rfl h
  · exact absurd rfl h
  · refine ⟨rfl, by omega, by omega, ?_, ?_⟩
    · exact Bool.not_eq_false _ ▸ hgranted
    · simpa using hsum

end Machine

def Within (log : List Event) (first count : Nat) : Prop :=
  ∃ base bytes, Event.asked base bytes true ∈ log ∧ base ≤ first ∧ first + count ≤ base + bytes

def Justified (m : Machine) : Event → List Event → Prop
  | .asked _ _ _, _ => True
  | .loaded address, log => Within log address 1
  | .used table offset bytes, log =>
    ∃ length, m.Passed table length ∧ Within log table length ∧ offset + bytes ≤ length

variable {m : Machine} {log log' : List Event} {base offset bytes first count table length : Nat}

theorem Within.later (h : Within log first count) (hsub : log ⊆ log') :
    Within log' first count := by
  obtain ⟨base, bytes, hmem, hwithin⟩ := h
  exact ⟨base, bytes, hsub hmem, hwithin⟩

variable {start rsdp atLeast : Nat} {tables : Tables} {f : Function}

theorem Within.part {n : Nat} (h : Within log first count) (hlo : first ≤ start)
    (hhi : start + n ≤ first + count) : Within log start n := by
  obtain ⟨base, bytes, hmem, hbase, hend⟩ := h
  exact ⟨base, bytes, hmem, by omega, by omega⟩

theorem mapped_spec : Meets (Justified m) (mapped m base bytes) log fun ok log' =>
    ok = m.grants base bytes ∧ (ok = true → Within log' base bytes) := by
  unfold mapped Machine.grants
  apply meets_ite
  · intro hnone
    rw [if_pos hnone]
    exact meets_pure ⟨rfl, nofun⟩
  intro hsome
  rw [if_neg hsome]
  apply meets_lift_bind (minus_eq (by omega))
  apply meets_ite
  · intro hlong
    rw [if_pos hlong]
    exact meets_pure ⟨rfl, nofun⟩
  intro hfits
  rw [if_neg hfits]
  unfold firmwareRange
  apply (meets_emit (Q := fun _ log' => Event.asked base bytes (m.firmwareRange base bytes) ∈ log')
    trivial mem_cons_self).bind
  intro _ log' _ hmem
  apply meets_pure
  refine ⟨rfl, fun hok => ?_⟩
  rw [hok] at hmem
  exact ⟨base, bytes, hmem, Nat.le_refl _, Nat.le_refl _⟩

variable {address : Nat} {text : List UInt8}

theorem load_spec (h : Within log address 1) :
    Meets (Justified m) (load m address) log fun byte _ => byte = m.memory address :=
  (meets_emit (Q := fun _ _ => True) h trivial).bind fun _ _ _ _ => meets_pure rfl

theorem read_spec (hwithin : Within log (base + offset) bytes) (hoffset : offset + bytes ≤ 2 ^ 63) :
    Meets (Justified m) (read m base offset bytes) log fun value _ =>
      value = m.memory.get (base + offset) bytes := by
  apply meets_foldlM (fun log => Within log (base + offset) bytes) fun _ _ hsub h => h.later hsub
  · intro value log hlog i hi
    have hi := mem_range.mp hi
    apply meets_lift_bind (plus_eq (by omega))
    apply (load_spec (hlog.part (by omega) (by omega))).bind
    rintro byte _ _ rfl
    apply meets_pure
    rw [Nat.add_assoc]
  · exact hwithin

theorem checksum_spec (hwithin : Within log base length) :
    Meets (Justified m) (checksum m base length) log fun ok _ => ok = (m.sum base length == 0) := by
  unfold checksum
  have hsum : Meets (Justified m) ((range length).foldlM (fun sum i => do
      let byte ← load m (base + i)
      return sum + byte) (0 : UInt8)) log fun sum _ => sum = m.sum base length := by
    apply meets_foldlM (fun log => Within log base length) fun _ _ hsub h => h.later hsub
    · intro sum log hlog i hi
      have hi := mem_range.mp hi
      apply (load_spec (hlog.part (by omega) (by omega))).bind
      rintro byte _ _ rfl
      exact meets_pure rfl
    · exact hwithin
  apply hsum.bind
  rintro sum _ _ rfl
  exact meets_pure rfl

theorem signature_spec (hwithin : Within log base text.length) :
    Meets (Justified m) (signature m base text) log fun same _ =>
      same = true ↔ m.Signed base text := by
  induction text generalizing base log with
  | nil => exact meets_pure (by simp [Machine.Signed])
  | cons _ rest ih =>
    rw [length_cons] at hwithin
    apply (load_spec (hwithin.part (Nat.le_refl _) (by omega))).bind
    rintro byte log' hsub rfl
    apply meets_ite
    · intro hother
      exact meets_pure ⟨fun h => (nomatch h), fun h => absurd (h 0 (by simp)) hother⟩
    intro hfirst
    apply (ih ((hwithin.later hsub).part (by omega) (by omega))).mono
    intro same _ _ hsame
    rw [hsame, Machine.Signed, Machine.Signed, length_cons, Nat.forall_lt_succ_left']
    simp only [getD_cons_succ, getD_cons_zero, Nat.add_zero, not_not.mp hfirst, true_and,
      Nat.add_assoc, Nat.add_comm 1]

/-- A table that has passed its tests, in a range that was granted. -/
structure Ready (m : Machine) (log : List Event) (table length : Nat) : Prop where
  passed : m.Passed table length
  within : Within log table length

theorem Ready.later (h : Ready m log table length) (hsub : log ⊆ log') :
    Ready m log' table length :=
  ⟨h.passed, h.within.later hsub⟩

theorem field_spec (h : Ready m log table length) (hinside : offset + bytes ≤ length) :
    Meets (Justified m) (field m table offset bytes) log fun value log' =>
      value = m.memory.get (table + offset) bytes ∧ Ready m log' table length := by
  have hmost := h.passed.atMost
  apply (meets_emit (Q := fun _ _ => True) ⟨length, h.passed, h.within, hinside⟩ trivial).bind
  intro _ log' hsub _
  apply (read_spec ((h.within.later hsub).part (by omega) (by omega)) (by omega)).mono
  intro value _ hsub' hvalue
  exact ⟨hvalue, (h.later hsub).later hsub'⟩

theorem field_behind {α : Type} {k : Nat} {f : Nat → Logged Event α} {R : α → List Event → Prop}
    (h : Ready m log table length) (hinside : offset + k + bytes ≤ length)
    (hf : ∀ log', Ready m log' table length →
      Meets (Justified m) (f (m.memory.get (table + (offset + k)) bytes)) log' R) :
    Meets (Justified m) (do f (← field m table (← plus 64 offset k) bytes)) log R := by
  have hmost := h.passed.atMost
  apply meets_lift_bind (plus_eq (by omega))
  apply (field_spec h hinside).bind
  rintro _ log' _ ⟨rfl, hready⟩
  exact hf log' hready

theorem named_spec (h : Ready m log table length) (htext : text.length ≤ 36) :
    Meets (Justified m) (named m table text) log fun same log' =>
      (same = true ↔ m.Signed table text) ∧ Ready m log' table length := by
  have hleast := h.passed.atLeast
  apply (meets_emit (Q := fun _ _ => True) ⟨length, h.passed, h.within, by omega⟩ trivial).bind
  intro _ log' hsub _
  apply (signature_spec ((h.within.later hsub).part (Nat.le_refl _) (by omega))).mono
  intro same _ hsub' hsame
  exact ⟨hsame, (h.later hsub).later hsub'⟩

theorem tableLength_spec : Meets (Justified m) (tableLength m base) log fun length log' =>
    length = m.lengthOf base ∧ (length ≠ 0 → Ready m log' base length) := by
  unfold tableLength
  apply meets_ite
  · intro hnull
    apply meets_pure
    unfold Machine.lengthOf
    rw [if_pos hnull]
    exact ⟨rfl, fun h => absurd rfl h⟩
  intro hnull
  apply mapped_spec.bind
  rintro header log1 _ ⟨rfl, hheader⟩
  apply meets_ite
  · intro hrefused
    apply meets_pure
    unfold Machine.lengthOf
    rw [if_neg hnull, if_pos hrefused]
    exact ⟨rfl, fun h => absurd rfl h⟩
  intro hgranted
  apply (read_spec ((hheader (by simpa using hgranted)).part (by omega) (by omega))
    (by decide)).bind
  rintro length log2 _ rfl
  apply meets_ite
  · intro hlength
    apply meets_pure
    unfold Machine.lengthOf
    rw [if_neg hnull, if_neg hgranted, if_pos hlength]
    exact ⟨rfl, fun h => absurd rfl h⟩
  intro hlength
  apply mapped_spec.bind
  rintro whole log3 _ ⟨rfl, hwhole⟩
  apply meets_ite
  · intro hrefused
    apply meets_pure
    unfold Machine.lengthOf
    rw [if_neg hnull, if_neg hgranted, if_neg hlength, if_pos hrefused]
    exact ⟨rfl, fun h => absurd rfl h⟩
  intro hall
  have hwithin := hwhole (by simpa using hall)
  apply (checksum_spec hwithin).bind
  rintro ok log4 hsub rfl
  have heq : m.lengthOf base
      = if (m.sum base (m.memory.get (base + 4) 4) == 0) = false then 0 else m.memory.get (base + 4)
      4 := by
    rw [Machine.lengthOf, if_neg hnull, if_neg hgranted, if_neg hlength, if_neg hall]
  apply meets_ite
  · intro hsum
    apply meets_pure
    rw [heq, if_pos hsum]
    exact ⟨rfl, fun h => absurd rfl h⟩
  intro hsum
  apply meets_pure
  rw [if_neg hsum] at heq
  refine ⟨heq.symm, fun hne => ⟨?_, hwithin.later hsub⟩⟩
  rw [← heq] at hne ⊢
  exact Machine.passed_of_lengthOf hne

structure Rsdp (m : Machine) (log : List Event) (address : Nat) : Prop where
  within : Within log address 20
  extended : 2 ≤ m.memory.get (address + 15) 1 → Within log address 36

theorem Rsdp.later (h : Rsdp m log address) (hsub : log ⊆ log') : Rsdp m log' address :=
  ⟨h.within.later hsub, fun hrevision => (h.extended hrevision).later hsub⟩

theorem validExtension_spec : Meets (Justified m) (validExtension m address) log fun ok log' =>
      ok = true → Within log' address 36 := by
  unfold validExtension
  apply mapped_spec.bind
  rintro header log1 _ ⟨rfl, hheader⟩
  apply meets_ite
  · intro _
    exact meets_pure nofun
  intro hgranted
  have hwithin := hheader (by simpa using hgranted)
  apply (read_spec (hwithin.part (by omega) (by omega)) (by decide)).bind
  rintro length log2 hsub2 rfl
  apply meets_ite
  · intro _
    exact meets_pure nofun
  intro _
  apply mapped_spec.bind
  rintro whole log3 hsub3 ⟨rfl, hwhole⟩
  apply meets_ite
  · intro _
    exact meets_pure nofun
  intro hall
  apply (checksum_spec (hwhole (by simpa using hall))).bind
  rintro ok log4 hsub4 rfl
  apply meets_ite
  · intro _
    exact meets_pure nofun
  intro _
  exact meets_pure fun _ => ((hwithin.later hsub2).later hsub3).later hsub4

theorem validRsdp_spec :
    Meets (Justified m) (validRsdp m address) log fun ok log' =>
      ok = true → Rsdp m log' address := by
  unfold validRsdp
  apply meets_ite
  · intro _
    exact meets_pure nofun
  intro _
  apply mapped_spec.bind
  rintro granted log1 _ ⟨rfl, hgranted⟩
  apply meets_ite
  · intro _
    exact meets_pure nofun
  intro hall
  have hwithin := hgranted (by simpa using hall)
  apply (signature_spec (hwithin.part (Nat.le_refl _) (by simp [SIGNATURE_RSDP]))).bind
  intro name log2 hsub2 _
  apply meets_ite
  · intro _
    exact meets_pure nofun
  intro _
  have hwithin := hwithin.later hsub2
  apply (checksum_spec hwithin).bind
  rintro sum log3 hsub3 rfl
  apply meets_ite
  · intro _
    exact meets_pure nofun
  intro _
  have hwithin := hwithin.later hsub3
  apply (read_spec (hwithin.part (by omega) (by omega)) (by decide)).bind
  rintro revision log4 hsub4 rfl
  have hwithin := hwithin.later hsub4
  apply meets_ite
  · intro _
    apply validExtension_spec.mono
    intro ok log5 hsub5 hextended hok
    exact ⟨hwithin.later hsub5, fun _ => hextended hok⟩
  · intro hrevision
    exact meets_pure fun _ => ⟨hwithin, fun h => absurd h hrevision⟩

theorem scan_spec :
    Meets (Justified m) (scan m start length) log fun address log' =>
      address ≠ 0 → Rsdp m log' address := by
  unfold scan
  apply mapped_spec.bind
  rintro granted log1 _ ⟨rfl, _⟩
  apply meets_ite
  · intro _
    exact meets_pure fun h => absurd rfl h
  intro hall
  have hend := Machine.add_le_of_grants (Bool.not_eq_false _ ▸ hall : m.grants start length = true)
  apply meets_loop (fun offset _ => offset ≤ length) fun offset => length - offset
  · intro offset log hoffset
    unfold scanRound
    apply meets_lift_bind (plus_eq (by omega))
    apply meets_ite
    · intro hmore
      apply meets_lift_bind (plus_eq (by omega))
      apply validRsdp_spec.bind
      intro ok log2 _ hok
      apply meets_ite
      · intro hvalid
        exact meets_pure fun _ => hok hvalid
      · intro _
        apply meets_lift_bind (plus_eq (by omega))
        exact meets_pure ⟨by omega, by omega⟩
    · intro _
      exact meets_pure fun h => absurd rfl h
  · exact Nat.zero_le _
  · omega

theorem scanEbda_spec :
    Meets (Justified m) (scanEbda m) log fun address log' => address ≠ 0 → Rsdp m log' address := by
  unfold scanEbda
  apply mapped_spec.bind
  rintro granted log1 _ ⟨rfl, hgranted⟩
  apply meets_ite
  · intro _
    exact meets_pure fun h => absurd rfl h
  intro hall
  apply (read_spec ((hgranted (by simpa using hall)).part (by omega) (by omega)) (by decide)).bind
  intro ebda log2 _ _
  apply meets_ite
  · intro _
    exact meets_pure fun h => absurd rfl h
  · intro _
    exact scan_spec

theorem findRsdp_spec {supplied : Nat} :
    Meets (Justified m) (findRsdp m supplied) log fun address log' =>
      address ≠ 0 → Rsdp m log' address := by
  unfold findRsdp
  apply validRsdp_spec.bind
  intro ok log1 _ hok
  apply meets_ite
  · intro hvalid
    exact meets_pure fun _ => hok hvalid
  intro _
  apply scanEbda_spec.bind
  intro address log2 _ haddress
  apply meets_ite
  · intro hfound
    exact meets_pure fun _ => haddress hfound
  · intro _
    exact scan_spec

theorem isTable_spec (htext : text.length ≤ 36) :
    Meets (Justified m) (isTable m base text) log fun ok _ => ok = true → m.lengthOf base ≠ 0 := by
  unfold isTable
  apply tableLength_spec.bind
  rintro length log1 _ ⟨rfl, hready⟩
  apply meets_ite
  · intro _
    exact meets_pure nofun
  · intro hlength
    exact (named_spec (hready hlength) htext).mono fun _ _ _ _ _ => hlength

structure Root.Usable (m : Machine) (root : Root) : Prop where
  stride : root.stride = 4 ∨ root.stride = 8
  length_ne_zero : m.lengthOf root.address ≠ 0

theorem extendedRoot_spec (h : Rsdp m log rsdp) :
    Meets (Justified m) (extendedRoot m rsdp) log fun result _ =>
      ∀ root ∈ result, Root.Usable m root := by
  unfold extendedRoot
  apply (read_spec (h.within.part (by omega) (by omega)) (by decide)).bind
  rintro revision log1 hsub1 rfl
  have h := h.later hsub1
  apply meets_ite
  · intro hrevision
    apply (read_spec ((h.extended hrevision).part (by omega) (by omega)) (by decide)).bind
    intro candidate log2 _ _
    apply (isTable_spec (by decide)).bind
    intro ok log3 _ hok
    apply meets_ite
    · intro htable
      apply meets_pure
      intro root hroot
      rw [← Option.mem_some.mp hroot]
      exact ⟨.inr rfl, hok htable⟩
    · intro _
      exact meets_pure fun _ hnone => nomatch hnone
  · intro _
    exact meets_pure fun _ hnone => nomatch hnone

theorem findRoot_spec (h : Rsdp m log rsdp) :
    Meets (Justified m) (findRoot m rsdp) log fun result _ =>
      ∀ root ∈ result, Root.Usable m root := by
  unfold findRoot
  apply (extendedRoot_spec h).bind
  intro result log1 hsub1 hresult
  cases result with
  | some => exact meets_pure hresult
  | none =>
    have h := h.later hsub1
    apply (read_spec (h.within.part (by omega) (by omega)) (by decide)).bind
    intro candidate log2 _ _
    apply (isTable_spec (by decide)).bind
    intro ok log3 _ hok
    apply meets_ite
    · intro htable
      apply meets_pure
      intro root hroot
      rw [← Option.mem_some.mp hroot]
      exact ⟨.inl rfl, hok htable⟩
    · intro _
      exact meets_pure fun _ hnone => nomatch hnone

theorem place_spec {child : Nat} :
    Meets (Justified m) (place m tables child) log fun _ _ => True := by
  unfold place
  apply tableLength_spec.bind
  rintro length log1 _ ⟨_, hready⟩
  apply meets_ite
  · intro _
    exact meets_pure trivial
  intro hlength
  have hready := hready hlength
  apply (named_spec hready (by decide)).bind
  rintro apic log2 _ ⟨-, hready⟩
  apply meets_ite (fun _ => meets_pure trivial)
  intro _
  apply (named_spec hready (by decide)).bind
  rintro facp log3 _ ⟨-, hready⟩
  apply meets_ite (fun _ => meets_pure trivial)
  intro _
  apply (named_spec hready (by decide)).bind
  rintro hpet log4 _ ⟨-, hready⟩
  apply meets_ite (fun _ => meets_pure trivial)
  intro _
  apply (named_spec hready (by decide)).bind
  intro mcfg log5 _ _
  exact meets_ite (fun _ => meets_pure trivial) fun _ => meets_pure trivial

theorem children_spec {root : Root} (hstride : root.stride = 4 ∨ root.stride = 8)
    (hready : Ready m log root.address length) (hentries : (length - 36) % root.stride = 0) :
    Meets (Justified m) (Logged.loop (childRound m root length) (length + 1) (36, tables)) log fun _
      _ => True := by
  have hleast := hready.passed.atLeast
  have hmost := hready.passed.atMost
  apply meets_loop (fun state log => state.1 ≤ length ∧ (length - state.1) % root.stride = 0
    ∧ Ready m log root.address length) fun state => length - state.1
  · rintro ⟨offset, tables⟩ log ⟨hoffset, hrest, hready⟩
    unfold childRound
    apply meets_ite
    · intro hmore
      -- what is left is a positive multiple of the stride
      have hentry : offset + root.stride ≤ length ∧ (length - (offset + root.stride)) % root.stride
          = 0 := by
        rcases hstride with hfour | height
        · rw [hfour] at hrest ⊢
          omega
        · rw [height] at hrest ⊢
          omega
      apply (field_spec hready hentry.1).bind
      rintro child log1 _ ⟨-, hready⟩
      apply place_spec.bind
      intro tables' log2 hsub2 _
      apply meets_lift_bind (plus_eq (by dsimp only; omega))
      exact meets_pure ⟨⟨hentry.1, hentry.2, hready.later hsub2⟩, by dsimp only at hmore ⊢; omega⟩
    · intro _
      exact meets_pure trivial
  · exact ⟨hleast, hentries, hready⟩
  · omega

theorem discover_spec (supplied : Nat) :
    Meets (Justified m) (discover m supplied) log fun _ _ => True := by
  unfold discover
  apply findRsdp_spec.bind
  intro rsdp log1 _ hrsdp
  apply meets_ite (fun _ => meets_pure trivial)
  intro hfound
  apply (findRoot_spec (hrsdp hfound)).bind
  intro result log2 _ hresult
  cases result with
  | none => exact meets_pure trivial
  | some root =>
    obtain ⟨hstride, hlength⟩ := hresult root rfl
    apply tableLength_spec.bind
    rintro length log3 _ ⟨rfl, hready⟩
    have hready := hready hlength
    have hleast := hready.passed.atLeast
    apply meets_lift_bind (minus_eq hleast)
    apply meets_lift_bind (remainder_eq (by omega))
    apply meets_ite (fun _ => meets_pure trivial)
    intro hentries
    exact children_spec hstride hready (by omega)

def Machine.part (m : Machine) (table offset bytes : Nat) :
    Nat := m.memory.get (table + offset) bytes

def shortest (kind : Nat) : Nat :=
  if kind = 0 then 8 else if kind = 1 then 12 else if kind = 2 then 10 else if kind = 5 then 12
    else 2

/-- The table from this offset on consists of records, which start at these offsets. -/
def Splits (m : Machine) (table length : Nat) : Nat → List Nat → Prop
  | offset, [] => offset = length
  | offset, first :: rest => first = offset
      ∧ shortest (m.part table offset 1) ≤ m.part table (offset + 1) 1
      ∧ offset + m.part table (offset + 1) 1 ≤ length
      ∧ Splits m table length (offset + m.part table (offset + 1) 1) rest

def Madt.withCpu (info : Madt) (id : UInt8) : Madt :=
  if id ∈ info.cpus.take info.count then info
  else { info with cpus := info.cpus.set info.count id, count := info.count + 1 }

def Madt.noted (m : Machine) (table : Nat) (info : Madt) (offset : Nat) : Madt :=
  if m.part table offset 1 = 0 then
    if m.part table (offset + 4) 4 &&& 1 ≠ 0 ∧ info.count < 64 then
      info.withCpu (UInt8.ofNat (m.part table (offset + 3) 1))
    else info
  else if m.part table offset 1 = 1 then
    if info.ioapic = 0 then
      { info with
        ioapic := m.part table (offset + 4) 4
        gsiBase := UInt32.ofNat (m.part table (offset + 8) 4) }
    else info
  else if m.part table offset 1 = 2 then
    if m.part table (offset + 2) 1 = 0 ∧ m.part table (offset + 3) 1 < 16 then
      { info with
        irqGsi := info.irqGsi.set (m.part table (offset + 3) 1)
          (UInt32.ofNat (m.part table (offset + 4) 4))
        irqFlags := info.irqFlags.set (m.part table (offset + 3) 1)
          (UInt16.ofNat (m.part table (offset + 8) 2)) }
    else info
  else if m.part table offset 1 = 5 then { info with lapic := m.part table (offset + 4) 8 }
  else info

def Parsed (m : Machine) (table length : Nat) (state : Nat × Madt) : Option Madt → Prop
  | none => ∀ offsets, ¬ Splits m table length state.1 offsets
  | some info => ∃ offsets, Splits m table length state.1 offsets
      ∧ info = offsets.foldl (Madt.noted m table) state.2

structure Madt.Shaped (info : Madt) : Prop where
  cpus : info.cpus.length = 64
  count : info.count ≤ 64
  irqGsi : info.irqGsi.length = 16
  irqFlags : info.irqFlags.length = 16

theorem Madt.shaped_start (lapic : Nat) : (Madt.start lapic).Shaped :=
  ⟨length_replicate, Nat.zero_le _, length_map _, length_replicate⟩

variable {info : Madt}

theorem Madt.Shaped.noted (h : info.Shaped) : (info.noted m table offset).Shaped := by
  unfold Madt.noted Madt.withCpu
  split_ifs with _ hnew
  · exact h
  · exact ⟨by rw [length_set, h.cpus], hnew.2, h.irqGsi, h.irqFlags⟩
  · exact h
  · exact ⟨h.cpus, h.count, h.irqGsi, h.irqFlags⟩
  · exact h
  · exact ⟨h.cpus, h.count, by rw [length_set, h.irqGsi], by rw [length_set, h.irqFlags]⟩
  · exact h
  · exact ⟨h.cpus, h.count, h.irqGsi, h.irqFlags⟩
  · exact h

theorem two_le_shortest (kind : Nat) : 2 ≤ shortest kind := by
  unfold shortest
  split_ifs <;> decide

theorem not_splits (hmore : offset < length)
    (hbad : m.part table (offset + 1) 1 < shortest (m.part table offset 1)
      ∨ length < offset + m.part table (offset + 1) 1) (offsets : List Nat) :
    ¬ Splits m table length offset offsets := by
  cases offsets with
  | nil => exact fun h => absurd h (by rw [Splits]; omega)
  | cons =>
    rintro ⟨-, hleast, hfits, -⟩
    omega

theorem Parsed.noted {result : Option Madt}
    (hleast : shortest (m.part table offset 1) ≤ m.part table (offset + 1) 1)
    (hfits : offset + m.part table (offset + 1) 1 ≤ length) (hmore : offset < length)
    (h : Parsed m table length (offset + m.part table (offset + 1) 1, info.noted m table offset)
      result) : Parsed m table length (offset, info) result := by
  cases result with
  | none =>
    intro offsets hsplits
    cases offsets with
    | nil => exact absurd hsplits (by dsimp only [Splits]; omega)
    | cons _ rest => exact h rest hsplits.2.2.2
  | some =>
    obtain ⟨offsets, hsplits, rfl⟩ := h
    exact ⟨offset :: offsets, ⟨rfl, hleast, hfits, hsplits⟩, rfl⟩

theorem hasCpu_eq {id : UInt8} {cpus : List UInt8} (hcount : count ≤ cpus.length) :
    (range count).foldlM (fun duplicate i => do
      if (← index cpus i) = id then return true
      return duplicate) false = .ok (decide (id ∈ cpus.take count)) := by
  induction count with
  | zero => simp; rfl
  | succ count ih =>
    have hmem : id ∈ cpus.take (count + 1) ↔ id ∈ cpus.take count ∨ cpus[count] = id := by
      rw [take_add_one, List.getElem?_eq_getElem (by omega), mem_append]
      simp [eq_comm]
    rw [range_succ, foldlM_append, ih (by omega), ok_bind, foldlM_cons, index_eq (by omega),
      ok_bind]
    by_cases hsame : cpus[count] = id
    · rw [if_pos hsame]
      exact congrArg Except.ok (by simp only [hmem, hsame, or_true, decide_true])
    · rw [if_neg hsame]
      exact congrArg Except.ok (by simp only [hmem, hsame, or_false])

theorem addCpu_eq (h : info.Shaped) (hcount : info.count < 64) (id : UInt8) :
    info.addCpu id = .ok (info.withCpu id) := by
  have hcpus := h.cpus
  unfold Madt.addCpu Madt.withCpu Madt.hasCpu
  rw [hasCpu_eq (by omega), ok_bind]
  by_cases hmem : id ∈ info.cpus.take info.count
  · rw [if_pos hmem, if_pos (decide_eq_true hmem)]
    rfl
  · rw [if_neg hmem, if_neg (by simpa using hmem), store_eq (by omega), ok_bind, plus_eq (by omega),
      ok_bind]
    rfl

theorem redirect_eq {source : Nat} (h : info.Shaped) (hsource : source < 16) (gsi : UInt32)
    (flags : UInt16) : info.redirect source gsi flags
      = .ok { info with
        irqGsi := info.irqGsi.set source gsi
        irqFlags := info.irqFlags.set source flags } := by
  unfold Madt.redirect
  rw [store_eq (by rw [h.irqGsi]; exact hsource), ok_bind,
    store_eq (by rw [h.irqFlags]; exact hsource), ok_bind]
  rfl

section Entries
variable {size : Nat} (hready : Ready m log table length) (hinside : offset + size ≤ length)
include hready hinside

theorem lapicEntry_spec (h : info.Shaped) (hkind : m.part table offset 1 = 0) :
    Meets (Justified m) (lapicEntry m table offset size info) log fun result log' =>
      result = (if size < 8 then none else some (info.noted m table offset))
        ∧ Ready m log' table length := by
  unfold lapicEntry
  apply meets_ite (fun hshort => meets_pure ⟨(if_pos hshort).symm, hready⟩)
  intro hsize
  simp only [if_neg hsize, Madt.noted, if_pos hkind]
  apply field_behind hready (by omega)
  intro log1 hready
  apply meets_ite
  · intro hnew
    apply field_behind hready (by omega)
    intro log2 hready
    apply meets_lift_bind (addCpu_eq h hnew.2 _)
    exact meets_pure ⟨congrArg some (if_pos hnew).symm, hready⟩
  · intro hold
    exact meets_pure ⟨congrArg some (if_neg hold).symm, hready⟩

theorem ioapicEntry_spec (hkind : m.part table offset 1 = 1) :
    Meets (Justified m) (ioapicEntry m table offset size info) log fun result log' =>
      result = (if size < 12 then none else some (info.noted m table offset))
        ∧ Ready m log' table length := by
  unfold ioapicEntry
  apply meets_ite (fun hshort => meets_pure ⟨(if_pos hshort).symm, hready⟩)
  intro hsize
  simp only [if_neg hsize, Madt.noted, hkind, Nat.one_ne_zero, if_false, if_true]
  apply meets_ite
  · intro hnew
    apply field_behind hready (by omega)
    intro log1 hready
    apply field_behind hready (by omega)
    intro log2 hready
    exact meets_pure ⟨congrArg some (if_pos hnew).symm, hready⟩
  · intro hold
    exact meets_pure ⟨congrArg some (if_neg hold).symm, hready⟩

theorem overrideEntry_spec (h : info.Shaped) (hkind : m.part table offset 1 = 2) :
    Meets (Justified m) (overrideEntry m table offset size info) log fun result log' =>
      result = (if size < 10 then none else some (info.noted m table offset))
        ∧ Ready m log' table length := by
  unfold overrideEntry
  apply meets_ite (fun hshort => meets_pure ⟨(if_pos hshort).symm, hready⟩)
  intro hsize
  simp only [if_neg hsize, Madt.noted, hkind, OfNat.ofNat_ne_zero, OfNat.ofNat_ne_one, if_false,
    if_true]
  apply field_behind hready (by omega)
  intro log1 hready
  apply field_behind hready (by omega)
  intro log2 hready
  apply meets_ite
  · intro hisa
    apply field_behind hready (by omega)
    intro log3 hready
    apply field_behind hready (by omega)
    intro log4 hready
    apply meets_lift_bind (redirect_eq h hisa.2 _ _)
    exact meets_pure ⟨congrArg some (if_pos hisa).symm, hready⟩
  · intro hother
    exact meets_pure ⟨congrArg some (if_neg hother).symm, hready⟩

theorem addressEntry_spec (hkind : m.part table offset 1 = 5) :
    Meets (Justified m) (addressEntry m table offset size info) log fun result log' =>
      result = (if size < 12 then none else some (info.noted m table offset))
        ∧ Ready m log' table length := by
  unfold addressEntry
  apply meets_ite (fun hshort => meets_pure ⟨(if_pos hshort).symm, hready⟩)
  intro hsize
  simp only [if_neg hsize, Madt.noted, hkind]
  apply field_behind hready (by omega)
  intro log1 hready
  exact meets_pure ⟨rfl, hready⟩

theorem madtEntry_spec (h : info.Shaped) (hsize : 2 ≤ size) : Meets (Justified m)
    (madtEntry m table offset (m.part table offset 1) size info) log fun result log' =>
      result = (if size < shortest (m.part table offset 1) then none
        else some (info.noted m table offset)) ∧ Ready m log' table length := by
  unfold madtEntry
  apply meets_ite
  · intro hlapic
    simpa only [shortest, if_pos hlapic] using lapicEntry_spec hready hinside h hlapic
  intro hlapic
  apply meets_ite
  · intro hioapic
    simpa only [shortest, if_neg hlapic, if_pos hioapic] using ioapicEntry_spec hready hinside
      hioapic
  intro hioapic
  apply meets_ite
  · intro hoverride
    simpa only [shortest, if_neg hlapic, if_neg hioapic, if_pos hoverride] using overrideEntry_spec
      hready hinside h hoverride
  intro hoverride
  apply meets_ite
  · intro haddress
    simpa only [shortest, if_neg hlapic, if_neg hioapic, if_neg hoverride, if_pos haddress]
      using addressEntry_spec hready hinside haddress
  intro haddress
  refine meets_pure ⟨?_, hready⟩
  simp only [shortest, Madt.noted, if_neg hlapic, if_neg hioapic, if_neg hoverride, if_neg haddress,
    if_neg (Nat.not_lt.mpr hsize)]

end Entries

theorem madtRound_spec {state : Nat × Madt} (hoffset : state.1 ≤ length)
    (hready : Ready m log table length) (h : state.2.Shaped) :
    Meets (Justified m) (madtRound m table length state) log fun round log' =>
      round.Meets (fun state' => (state'.1 ≤ length ∧ Ready m log' table length ∧ state'.2.Shaped
          ∧ ∀ result, Parsed m table length state' result → Parsed m table length state result)
        ∧ length - state'.1 < length - state.1) (Parsed m table length state) := by
  have hmost := hready.passed.atMost
  have hleast := two_le_shortest (m.part table state.1 1)
  unfold madtRound
  apply meets_ite
  · intro hmore
    apply meets_lift_bind (minus_eq hoffset)
    apply meets_ite (fun hend => meets_pure (not_splits hmore (by omega)))
    intro hheader
    apply (field_spec hready (by omega)).bind
    rintro kind log1 _ ⟨rfl, hready⟩
    apply meets_lift_bind (plus_eq (by omega))
    apply (field_spec hready (by omega)).bind
    rintro size log2 _ ⟨hsize, hready⟩
    obtain rfl : size = m.part table (state.1 + 1) 1 := hsize
    apply meets_ite (fun hshort => meets_pure (not_splits hmore (by omega)))
    intro hsize
    apply meets_lift_bind (minus_eq hoffset)
    apply meets_ite (fun hlong => meets_pure (not_splits hmore (by omega)))
    intro hfits
    apply (madtEntry_spec hready (by omega) h (by omega)).bind
    rintro result log3 _ ⟨rfl, hready⟩
    by_cases hlong : m.part table (state.1 + 1) 1 < shortest (m.part table state.1 1)
    · rw [if_pos hlong]
      exact meets_pure (not_splits hmore (.inl hlong))
    rw [if_neg hlong]
    apply meets_lift_bind (plus_eq (by omega))
    refine meets_pure ⟨⟨?_, hready, h.noted, fun result hresult => ?_⟩, ?_⟩
    · omega
    · exact hresult.noted (by omega) (by omega) hmore
    · omega
  · intro hend
    exact meets_pure ⟨[], Nat.le_antisymm hoffset (Nat.le_of_not_lt hend), rfl⟩

/-- A table that is too short or not called so is refused; otherwise its records are parsed. -/
theorem madt_spec (address : Nat) : Meets (Justified m) (madt m address) log fun result _ =>
    (¬ (44 ≤ m.lengthOf address ∧ m.Signed address SIGNATURE_APIC) → result = none)
      ∧ (44 ≤ m.lengthOf address ∧ m.Signed address SIGNATURE_APIC →
        Parsed m address (m.lengthOf address) (44, Madt.start (m.part address 36 4)) result) := by
  unfold madt
  apply tableLength_spec.bind
  rintro length log1 _ ⟨hlength, hready⟩
  rw [← hlength]
  apply meets_ite
  · intro hshort
    exact meets_pure ⟨fun _ => rfl, fun h => absurd h.1 (by omega)⟩
  intro hlong
  apply (named_spec (hready (by omega)) (by decide)).bind
  rintro name log2 _ ⟨hname, hready⟩
  apply meets_ite
  · intro hother
    refine meets_pure ⟨fun _ => rfl, fun h => ?_⟩
    rw [hname.mpr h.2] at hother
    cases hother
  intro hsame
  have hnamed : 44 ≤ length ∧ m.Signed address SIGNATURE_APIC :=
    ⟨by omega, hname.mp (by simpa using hsame)⟩
  simp only [hnamed, and_self, not_true, false_implies, true_and, true_implies]
  apply (field_spec hready (by omega)).bind
  rintro lapic log3 _ ⟨rfl, hready⟩
  apply meets_loop (fun state log => state.1 ≤ length ∧ Ready m log address length ∧ state.2.Shaped
    ∧ ∀ result, Parsed m address length state result →
    Parsed m address length (44, Madt.start (m.part address 36 4)) result) fun state => length
    - state.1
  · rintro state log ⟨hoffset, hready, hshaped, hparsed⟩
    apply (madtRound_spec hoffset hready hshaped).mono
    rintro (state' | result) log' _ hround
    · exact ⟨⟨hround.1.1, hround.1.2.1, hround.1.2.2.1, fun result h =>
        hparsed result (hround.1.2.2.2 result h)⟩, hround.2⟩
    · exact hparsed result hround
  · exact ⟨by dsimp only; omega, hready, Madt.shaped_start _, fun _ h => h⟩
  · omega

theorem shortField_spec (hready : length ≠ 0 → Ready m log table length)
    (hinside : offset + 4 ≤ atLeast) :
    Meets (Justified m) (shortField m table length atLeast offset) log fun _ _ => True := by
  unfold shortField
  apply meets_ite
  · intro hlength
    exact (field_spec (hready (by omega)) (by omega)).mono fun _ _ _ _ => trivial
  · intro _
    exact meets_pure trivial

theorem dsdt_spec (fadt : Nat) : Meets (Justified m) (dsdt m fadt) log fun _ _ => True := by
  unfold dsdt
  apply tableLength_spec.bind
  rintro length log1 _ ⟨_, hready⟩
  apply meets_ite
  · intro hlength
    have hlong := hready (by omega)
    apply (field_spec hlong (by omega)).bind
    intro value log2 hsub2 _
    apply meets_ite (fun _ => meets_pure trivial)
    intro _
    exact shortField_spec (fun _ => hlong.later hsub2) (by decide)
  · intro _
    exact shortField_spec hready (by decide)

theorem port_spec {extended space newer older : Nat} (hspace : space + 1 ≤ extended)
    (hnewer : newer + 8 ≤ extended) (holder : older + 4 ≤ atLeast) (fadt : Nat) :
    Meets (Justified m) (port m fadt extended space newer atLeast older) log fun _ _ => True := by
  unfold port
  apply tableLength_spec.bind
  rintro length log1 _ ⟨_, hready⟩
  apply meets_ite
  · intro hlength
    have hlong := hready (by omega)
    apply (field_spec hlong (by omega)).bind
    intro kind log2 hsub2 _
    have hlong := hlong.later hsub2
    apply meets_ite
    · intro _
      apply (field_spec hlong (by omega)).bind
      intro value log3 hsub3 _
      apply meets_ite (fun _ => meets_pure trivial)
      intro _
      apply (shortField_spec (fun _ => hlong.later hsub3) holder).bind
      intro _ _ _ _
      exact meets_pure trivial
    · intro _
      apply (shortField_spec (fun _ => hlong) holder).bind
      intro _ _ _ _
      exact meets_pure trivial
  · intro _
    apply (shortField_spec hready holder).bind
    intro _ _ _ _
    exact meets_pure trivial

theorem pmControl_spec (fadt : Nat) : Meets (Justified m) (pmControl m fadt) log fun _ _ => True :=
  port_spec (by decide) (by decide) (by decide) fadt

theorem pmTimer_spec (fadt : Nat) : Meets (Justified m) (pmTimer m fadt) log fun _ _ => True :=
  port_spec (by decide) (by decide) (by decide) fadt

theorem hpetBase_spec (table : Nat) :
    Meets (Justified m) (hpetBase m table) log fun _ _ => True := by
  unfold hpetBase
  apply tableLength_spec.bind
  rintro length log1 _ ⟨_, hready⟩
  apply meets_ite
  · intro hlength
    have hready := hready (by omega)
    apply (field_spec hready (by omega)).bind
    intro kind log2 hsub2 _
    apply meets_ite
    · intro _
      exact (field_spec (hready.later hsub2) (by omega)).mono fun _ _ _ _ => trivial
    · intro _
      exact meets_pure trivial
  · intro _
    exact meets_pure trivial

theorem returns_delta (hfirst : first ≤ f.bus.toNat) :
    Returns (f.delta first) fun delta => delta < 2 ^ 32 := by
  have hbus := f.bus.toNat_lt
  have hdevice := f.device.toNat_lt
  have hfunction := f.function.toNat_lt
  have hregister := f.register.toNat_lt
  unfold Function.delta
  rw [minus_eq hfirst, ok_bind]
  apply returns_pure.mpr
  simp only [Nat.shiftLeft_eq]
  apply Nat.or_lt_two_pow
  · apply Nat.or_lt_two_pow
    · apply Nat.or_lt_two_pow
      · omega
      · omega
    · omega
  · omega

theorem ecamRound_spec (hrest : (length - offset) % 16 = 0) (hready : Ready m log table length) :
    Meets (Justified m) (ecamRound m table length f offset) log fun round log' =>
      round.Meets (fun offset' => (offset' ≤ length ∧ (length - offset') % 16 = 0
        ∧ Ready m log' table length) ∧ length - offset' < length - offset) fun _ => True := by
  have hmost := hready.passed.atMost
  unfold ecamRound
  apply meets_ite
  · intro hmore
    apply meets_lift_bind (plus_eq (by omega))
    apply (field_spec hready (by omega)).bind
    intro firstBus log1 hsub1 _
    have hready := hready.later hsub1
    apply meets_lift_bind (plus_eq (by omega))
    apply (field_spec hready (by omega)).bind
    intro lastBus log2 hsub2 _
    have hready := hready.later hsub2
    apply meets_lift_bind (plus_eq (by omega))
    apply (field_spec hready (by omega)).bind
    intro segment log3 hsub3 _
    have hready := hready.later hsub3
    apply meets_ite
    · intro hfound
      have haddress : Meets (Justified m) (ecamAddress m table offset firstBus f) log3 fun _ _ =>
        True := by
        unfold ecamAddress
        apply meets_returns_bind (returns_delta hfound.2.1)
        intro delta hdelta
        apply (field_spec hready (by omega)).bind
        intro address log4 _ _
        apply meets_lift_bind (minus_eq (by omega))
        apply meets_ite (fun _ => meets_pure trivial)
        intro hsum
        exact meets_lift (plus_eq (by omega)) trivial
      apply haddress.bind
      intro _ _ _ _
      exact meets_pure trivial
    · intro _
      apply meets_lift_bind (plus_eq (by omega))
      exact meets_pure ⟨⟨by omega, by omega, hready⟩, by omega⟩
  · intro _
    exact meets_pure trivial

theorem ecam_spec (table : Nat) (f : Function) :
    Meets (Justified m) (ecam m table f) log fun _ _ => True := by
  unfold ecam
  apply tableLength_spec.bind
  rintro length log1 _ ⟨_, hready⟩
  apply meets_ite (fun _ => meets_pure trivial)
  intro hlength
  have hready := hready (by omega)
  apply (named_spec hready (by decide)).bind
  intro name log2 hsub2 _
  apply meets_ite (fun _ => meets_pure trivial)
  intro _
  apply meets_lift_bind (minus_eq (by omega))
  apply meets_ite (fun _ => meets_pure trivial)
  intro hentries
  apply meets_loop (fun offset log => offset ≤ length ∧ (length - offset) % 16 = 0
    ∧ Ready m log table length) fun offset => length - offset
  · rintro offset log ⟨_, hrest, hready⟩
    exact ecamRound_spec hrest hready
  · exact ⟨by omega, by omega, hready.later hsub2⟩
  · omega

inductive Call where
  | discover (supplied : Nat)
  | madt (address : Nat)
  | dsdt (fadt : Nat)
  | pmControl (fadt : Nat)
  | pmTimer (fadt : Nat)
  | hpetBase (table : Nat)
  | ecam (table : Nat) (f : Function)

inductive Answer where
  | tables (result : Option Tables)
  | madt (result : Option Madt)
  | number (result : Nat)
  | port (result : UInt16)

def Call.run (m : Machine) : Call → Logged Event Answer
  | .discover supplied => do return .tables (← Acpi.discover m supplied)
  | .madt address => do return .madt (← Acpi.madt m address)
  | .dsdt fadt => do return .number (← Acpi.dsdt m fadt)
  | .pmControl fadt => do return .port (← Acpi.pmControl m fadt)
  | .pmTimer fadt => do return .port (← Acpi.pmTimer m fadt)
  | .hpetBase table => do return .number (← Acpi.hpetBase m table)
  | .ecam table f => do return .number (← Acpi.ecam m table f)

theorem Call.run_spec (call : Call) : Meets (Justified m) (call.run m) log fun _ _ => True := by
  cases call with
  | discover supplied => exact (discover_spec supplied).bind fun _ _ _ _ => meets_pure trivial
  | madt address => exact (madt_spec address).bind fun _ _ _ _ => meets_pure trivial
  | dsdt fadt => exact (dsdt_spec fadt).bind fun _ _ _ _ => meets_pure trivial
  | pmControl fadt => exact (pmControl_spec fadt).bind fun _ _ _ _ => meets_pure trivial
  | pmTimer fadt => exact (pmTimer_spec fadt).bind fun _ _ _ _ => meets_pure trivial
  | hpetBase table => exact (hpetBase_spec table).bind fun _ _ _ _ => meets_pure trivial
  | ecam table f => exact (ecam_spec table f).bind fun _ _ _ _ => meets_pure trivial

/-- **Firmware tables are read where they were validated.** Every call returns, and all that it has
loaded and used is justified by what came before. -/
theorem calls_read_validated (m : Machine) (call : Call) :
    ∃ answer log, call.run m [] = .ok (answer, log) ∧ Sound (Justified m) log := by
  obtain ⟨answer, log, hrun, _, hsound, _⟩ := @Call.run_spec m [] call
  exact ⟨answer, log, hrun, hsound trivial⟩

end Kaguya.Acpi
