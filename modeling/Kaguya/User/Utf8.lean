import Kaguya.FileSystem.Volume

/-!
# Two decoders of UTF-8

`valid_utf8` of `wget.jh` rejects what `lossy_name` of `filesystem.jh` replaces.
-/

namespace Kaguya.User

open List FileSystem

def sequenceLength (lead : UInt8) : Option Nat :=
  if lead ≥ 0xc2 ∧ lead ≤ 0xdf then some 2
  else if lead ≥ 0xe0 ∧ lead ≤ 0xef then some 3
  else if lead ≥ 0xf0 ∧ lead ≤ 0xf4 then some 4
  else none

/-- A second byte that makes the sequence overlong, a surrogate or too large. -/
def Misplaced (lead second : UInt8) : Prop :=
  (lead = 0xe0 ∧ second < 0xa0) ∨ (lead = 0xed ∧ second > 0x9f)
    ∨ (lead = 0xf0 ∧ second < 0x90) ∨ (lead = 0xf4 ∧ second > 0x8f)

instance (lead second : UInt8) : Decidable (Misplaced lead second) :=
    inferInstanceAs (Decidable (_ ∨ _))

def Continuation (byte : UInt8) : Prop := ¬ (byte < 0x80 ∨ byte > 0xbf)

instance (byte : UInt8) : Decidable (Continuation byte) := inferInstanceAs (Decidable (¬ _))

/-- The bytes `rest` go on with a sequence of `count` bytes that starts with `lead`. -/
def Completes (lead : UInt8) (count : Nat) (rest : List UInt8) : Prop :=
  count ≤ rest.length + 1 ∧ ¬ Misplaced lead (rest.headD 0) ∧ ∀ byte ∈ rest.take (count - 1),
  Continuation byte

instance (lead : UInt8) (count : Nat) (rest : List UInt8) : Decidable (Completes lead count rest) :=
  have := List.decidableBAll Continuation (rest.take (count - 1))
  inferInstanceAs (Decidable (_ ∧ _))

def validUtf8 : List UInt8 → Bool
  | [] => true
  | lead :: rest =>
    if lead < 128 then validUtf8 rest
    else
      match sequenceLength lead with
      | none => false
      | some count => if Completes lead count rest then validUtf8 (rest.drop (count - 1)) else false
termination_by text => text.length
decreasing_by
  all_goals simp only [length_cons, length_drop]
  all_goals omega

variable {lead b : UInt8} {rest text : List UInt8} {count width : Nat}

theorem sequenceLength_eq_some :
    sequenceLength lead = some count ↔ lossyWidth lead = count ∧ 1 < count := by
  unfold sequenceLength lossyWidth
  split_ifs <;> constructor <;> intro h <;> simp_all <;> omega

theorem lossyCount_eq_width (hcount : 1 < count) (hle : count ≤ width) :
    lossyCount lead width count rest = width
      ↔ width - count ≤ rest.length ∧ ∀ byte ∈ rest.take (width - count), Continuation byte := by
  induction rest generalizing count with
  | nil =>
    simp only [lossyCount, length_nil, take_nil, not_mem_nil]
    grind
  | cons next rest ih =>
    rw [lossyCount]
    by_cases hmore : count < width
    · obtain ⟨left, hleft⟩ : ∃ left, width - count = left + 1 := ⟨width - count - 1, by omega⟩
      have hnext : width - (count + 1) = left := by omega
      rw [if_pos hmore, hleft, take_succ_cons, length_cons, forall_mem_cons]
      by_cases hcontinues : Continuation next
      · rw [if_neg hcontinues, if_neg (by omega), ih (by omega) hmore, hnext]
        simp [hcontinues]
      · rw [if_pos (not_not.mp hcontinues)]
        simp [hcontinues]
        omega
    · obtain rfl : count = width := by omega
      simp

theorem lossyCount_iff_completes (hwidth : 1 < width) :
    lossyCount lead width 1 rest = width ↔ Completes lead width rest := by
  obtain ⟨left, rfl⟩ : ∃ left, width = left + 2 := ⟨width - 2, by omega⟩
  cases rest with
  | nil => simp [lossyCount, Completes]
  | cons next =>
    rw [lossyCount, if_pos hwidth]
    by_cases hcontinues : Continuation next
    · rw [if_neg hcontinues]
      by_cases hmisplaced : Misplaced lead next
      · rw [if_pos ⟨rfl, hmisplaced⟩]
        simp [Completes, hmisplaced]
      · rw [if_neg fun h => hmisplaced h.2, lossyCount_eq_width (by decide) hwidth]
        simp [Completes, hmisplaced, hcontinues]
    · rw [if_pos (not_not.mp hcontinues)]
      simp [Completes, hcontinues]

theorem validUtf8_cons (hlead : ¬ lead < 128) : validUtf8 (lead :: rest) = true
    ↔ ∃ count, sequenceLength lead = some count ∧ Completes lead count rest
      ∧ validUtf8 (rest.drop (count - 1)) = true := by
  rw [validUtf8, if_neg hlead]
  cases sequenceLength lead with
  | none => simp
  | some count => by_cases hcompletes : Completes lead count rest <;> simp [hcompletes]

theorem validUtf8_take_append (hlead : ¬ lead < 128) (hlength : sequenceLength lead = some count)
    (hcompletes : Completes lead count rest) (htext : validUtf8 text = true) :
    validUtf8 ((lead :: rest).take count ++ text) = true := by
  obtain ⟨hle, hmisplaced, hcontinues⟩ := hcompletes
  obtain ⟨left, rfl⟩ : ∃ left, count = left + 2 :=
      ⟨count - 2, by have := (sequenceLength_eq_some.mp hlength).2; omega⟩
  obtain ⟨second, rest, rfl⟩ := exists_cons_of_length_pos (l := rest) (by omega)
  rw [take_succ_cons, cons_append, validUtf8_cons hlead]
  simp only [length_cons] at hle
  refine ⟨_, hlength, ⟨?_, hmisplaced, ?_⟩, ?_⟩
  · rw [length_append, length_take, length_cons]
    omega
  · rwa [show left + 2 - 1 = ((second :: rest).take (left + 1)).length by simp; omega, take_left]
  · rwa [show left + 2 - 1 = ((second :: rest).take (left + 1)).length by simp; omega, drop_left]

theorem lossyName_cons (hlead : ¬ lead < 128) : ∃ after, after.length ≤ rest.length
    ∧ ((∃ count, sequenceLength lead = some count ∧ Completes lead count rest
      ∧ after = rest.drop (count - 1)
        ∧ lossyName (lead :: rest) = (lead :: rest).take count ++ lossyName after)
      ∨ (∀ count, sequenceLength lead = some count → ¬ Completes lead count rest)
        ∧ lossyName (lead :: rest) = [0xef, 0xbf, 0xbd] ++ lossyName after) := by
  refine ⟨rest.drop (lossyCount lead (lossyWidth lead) 1 rest - 1), by simp, ?_⟩
  rw [lossyName, if_neg hlead]
  by_cases hwhole : lossyWidth lead > 1 ∧ lossyCount lead (lossyWidth lead) 1 rest = lossyWidth lead
  · refine .inl ⟨_, sequenceLength_eq_some.mpr ⟨rfl, hwhole.1⟩,
      (lossyCount_iff_completes hwhole.1).mp hwhole.2, by rw [hwhole.2], ?_⟩
    rw [if_pos hwhole, hwhole.2]
  · refine .inr ⟨fun count hlength hcompletes => hwhole ?_, if_neg hwhole⟩
    obtain ⟨rfl, hwidth⟩ := sequenceLength_eq_some.mp hlength
    exact ⟨hwidth, (lossyCount_iff_completes hwidth).mpr hcompletes⟩

theorem validUtf8_lossyName (bytes : List UInt8) : validUtf8 (lossyName bytes) = true := by
  -- every round of `lossy_name` takes at least one byte
  induction hn : bytes.length using Nat.strong_induction_on generalizing bytes with
  | _ n ih =>
    cases bytes with
    | nil => simp [lossyName, validUtf8]
    | cons lead rest =>
      simp only [length_cons] at hn
      by_cases hlead : lead < 128
      · rw [lossyName, if_pos hlead, validUtf8, if_pos hlead]
        exact ih rest.length (by omega) rest rfl
      obtain ⟨after, hafter, ⟨count, hlength, hcompletes, -, hname⟩ | ⟨-, hname⟩⟩ :=
        @lossyName_cons _ rest hlead
      · rw [hname]
        exact validUtf8_take_append hlead hlength hcompletes (ih after.length (by omega) after rfl)
      · rw [hname, show ([0xef, 0xbf, 0xbd] : List UInt8) = take 3 [0xef, 0xbf, 0xbd] from rfl]
        have hwhole : Completes 0xef 3 [0xbf, 0xbd] := by simp [Completes, Misplaced, Continuation]
        exact validUtf8_take_append (by decide) rfl hwhole (ih after.length (by omega) after rfl)

theorem lossyName_of_validUtf8 (hvalid : validUtf8 text = true) : lossyName text = text := by
  induction hn : text.length using Nat.strong_induction_on generalizing text with
  | _ n ih =>
    cases text with
    | nil => simp [lossyName]
    | cons lead rest =>
      simp only [length_cons] at hn
      by_cases hlead : lead < 128
      · rw [validUtf8, if_pos hlead] at hvalid
        rw [lossyName, if_pos hlead, ih rest.length (by omega) hvalid rfl]
      obtain ⟨count, hlength, hcompletes, hrest⟩ := (validUtf8_cons hlead).mp hvalid
      obtain ⟨after, hafter, ⟨count', hlength', -, rfl, hname⟩ | ⟨hbroken, -⟩⟩ :=
        @lossyName_cons _ rest hlead
      · obtain rfl : count = count' := Option.some.inj (hlength.symm.trans hlength')
        have hcount := (sequenceLength_eq_some.mp hlength).2
        rw [hname, ih _ (by omega) hrest rfl]
        obtain ⟨left, rfl⟩ : ∃ left, count = left + 1 := ⟨count - 1, by omega⟩
        rw [take_succ_cons, cons_append, Nat.add_sub_cancel, take_append_drop]
      · exact absurd hcompletes (hbroken count hlength)

/-- **The decoders agree**: `lossy_name` returns valid text, and changes exactly what is not. -/
theorem lossyName_agrees (bytes : List UInt8) :
    validUtf8 (lossyName bytes) = true ∧ (lossyName bytes = bytes ↔ validUtf8 bytes = true) := by
  refine ⟨validUtf8_lossyName bytes, fun hsame => ?_, lossyName_of_validUtf8⟩
  rw [← hsame]
  exact validUtf8_lossyName bytes

end Kaguya.User
