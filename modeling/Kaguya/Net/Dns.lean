import Kaguya.Net.Base

/-!
# Answers of the name server

The receiving half of `net_dns.jh`. An answer is walked over with nothing but the lengths it gives
itself; the first address in it is kept for the task that has asked.
-/

namespace Kaguya.Net.Dns

open Trapping List

def PORT : UInt16 := 49152
def KEY : Nat := 0xfffffffffffffffe

variable (data : List UInt8)

def skipRound (p : Nat) : Trapping (Round Nat (Option Nat)) := do
  if p < data.length then
    let length := (← index data p).toNat
    if length &&& 0xc0 = 0xc0 then
      if (← plus 63 p 1) < data.length then return .leave (some (← plus 63 p 2))
      else return .leave none
    if length &&& 0xc0 ≠ 0 then return .leave none
    let p ← plus 63 p 1
    if length = 0 then return .leave (some p)
    if length > (← minus data.length p) then return .leave none
    return .again (← plus 63 p length)
  else return .leave none

def skipName (position : Nat) : Trapping (Option Nat) :=
  loop (skipRound data) (data.length + 1) position

structure Walk where
  left : Nat
  position : Nat

def questionRound (w : Walk) : Trapping (Round Walk (Option Nat)) := do
  if w.left = 0 then return .leave (some w.position)
  match ← skipName data w.position with
  | none => return .leave none
  | some p =>
    if (← plus 63 p 4) > data.length then return .leave none
    return .again ⟨w.left - 1, ← plus 63 p 4⟩

def answerRound (w : Walk) : Trapping (Round Walk (Option UInt32)) := do
  if w.left = 0 then return .leave none
  match ← skipName data w.position with
  | none => return .leave none
  | some p =>
    if (← plus 63 p 10) > data.length then return .leave none
    let kind ← get16 data p
    let class' ← get16 data (← plus 63 p 2)
    let length := (← get16 data (← plus 63 p 8)).toNat
    let p ← plus 63 p 10
    if length > (← minus data.length p) then return .leave none
    if kind = 1 ∧ class' = 1 ∧ length = 4 then return .leave (some (← ip data p))
    return .again ⟨w.left - 1, ← plus 63 p length⟩

def answer (src : UInt32) (segment : List UInt8) : Trapping (Option UInt32) := do
  if src ≠ DNS ∨ segment.length < 20 then return none
  if (← get16 segment 0) ≠ 53 then return none
  if (← get16 segment 2) ≠ PORT then return none
  let data ← slice segment 8 segment.length
  if (← get16 data 0) ≠ 0x4b47 then return none
  if (← index data 2) &&& 0x80 = 0 then return none
  if (← index data 3) &&& 15 ≠ 0 then return none
  let questions := (← get16 data 4).toNat
  let answers := (← get16 data 6).toNat
  match ← loop (questionRound data) (questions + 1) ⟨questions, 12⟩ with
  | none => return none
  | some p => loop (answerRound data) (answers + 1) ⟨answers, p⟩

/-! ### What an answer is

A name is a row of labels, each behind its length, that ends with a zero byte or with a pointer. The
relations below say where the parts of a message end. -/

inductive Name (data : List UInt8) : Nat → Nat → Prop
  | last {p : Nat} (hp : p < data.length) (hbyte : data[p].toNat = 0) : Name data p (p + 1)
  | pointer {p : Nat} (hp : p < data.length) (hbyte : 192 ≤ data[p].toNat)
      (hmore : p + 1 < data.length) : Name data p (p + 2)
  | label {p q : Nat} (hp : p < data.length) (hbyte : 1 ≤ data[p].toNat ∧ data[p].toNat ≤ 63)
      (hinside : p + 1 + data[p].toNat ≤ data.length) (rest : Name data (p + 1 + data[p].toNat) q) :
      Name data p q

def number (p : Nat) : Nat := (data.getD p 0).toNat * 256 + (data.getD (p + 1) 0).toNat

def Questions (data : List UInt8) : Nat → Nat → Nat → Prop
  | 0, p, q => p = q
  | n + 1, p, q => ∃ e, Name data p e ∧ e + 4 ≤ data.length ∧ Questions data n (e + 4) q

def IsAddress (e : Nat) : Prop :=
  number data e = 1 ∧ number data (e + 2) = 1 ∧ number data (e + 8) = 4

/-- The first record for an address, among this many from a position on, has its data at `q`. It and
the records before it lie in the message. -/
def First (data : List UInt8) : Nat → Nat → Nat → Prop
  | 0, _, _ => False
  | n + 1, p, q => ∃ e, Name data p e ∧ e + 10 + number data (e + 8) ≤ data.length
      ∧ (IsAddress data e ∧ q = e + 10
        ∨ ¬ IsAddress data e ∧ First data n (e + 10 + number data (e + 8)) q)

def Response (q : Nat) : Prop :=
  12 ≤ data.length ∧ number data 0 = 0x4b47 ∧ (data.getD 2 0).toNat.testBit 7
    ∧ (data.getD 3 0).toNat % 16 = 0 ∧ ∃ p, Questions data (number data 4) 12 p
    ∧ First data (number data 6) p q

def fourBytes (q : Nat) : UInt32 :=
  (data.getD q 0).toUInt32 ||| (data.getD (q + 1) 0).toUInt32 <<< 8
    ||| (data.getD (q + 2) 0).toUInt32 <<< 16 ||| (data.getD (q + 3) 0).toUInt32 <<< 24

variable {data} {p q : Nat}

theorem Name.le (h : Name data p q) : p < q ∧ q ≤ data.length := by
  induction h with
  | last | pointer | label => omega

variable {q' n : Nat}

theorem Name.unique (h : Name data p q) (h' : Name data p q') : q = q' := by
  induction h with
  | last => cases h' <;> omega
  | pointer => cases h' <;> omega
  | label _ _ _ _ ih =>
    cases h' with
    | last | pointer => omega
    | label _ _ _ rest => exact ih rest

theorem Questions.unique (h : Questions data n p q) (h' : Questions data n p q') : q = q' := by
  induction n generalizing p with
  | zero => exact h.symm.trans h'
  | succ n ih =>
    obtain ⟨e, hname, -, hrest⟩ := h
    obtain ⟨e', hname', -, hrest'⟩ := h'
    obtain rfl := hname.unique hname'
    exact ih hrest hrest'

theorem First.unique (h : First data n p q) (h' : First data n p q') : q = q' := by
  induction n generalizing p with
  | zero => exact h.elim
  | succ n ih =>
    obtain ⟨e, hname, -, hrest⟩ := h
    obtain ⟨e', hname', -, hrest'⟩ := h'
    obtain rfl := hname.unique hname'
    rcases hrest with ⟨his, rfl⟩ | ⟨hnot, hrest⟩ <;> rcases hrest' with ⟨his', rfl⟩ | ⟨hnot',
      hrest'⟩
    · rfl
    · exact absurd his hnot'
    · exact absurd his' hnot
    · exact ih hrest hrest'

theorem Response.unique (h : Response data q) (h' : Response data q') : q = q' := by
  obtain ⟨-, -, -, -, p, hquestions, hfirst⟩ := h
  obtain ⟨-, -, -, -, p', hquestions', hfirst'⟩ := h'
  obtain rfl := hquestions.unique hquestions'
  exact hfirst.unique hfirst'

/-! A message that is cut off says what the whole one says, as far as it goes. -/

section Cut
variable {k n : Nat}

theorem getD_take (h : p < (data.take k).length) : (data.take k).getD p 0 = data.getD p 0 := by
  rw [length_take] at h
  rw [getD_eq_getElem?_getD, getD_eq_getElem?_getD, List.getElem?_take_of_lt (by omega)]

theorem number_take (h : p + 1 < (data.take k).length) :
    number (data.take k) p = number data p := by
  rw [number, number, getD_take (by omega), getD_take h]

theorem Name.of_take (h : Name (data.take k) p q) : Name data p q := by
  have hlength : (data.take k).length ≤ data.length := length_take_le' ..
  induction h with
  | last hp hbyte => exact .last (by omega) (by simpa using hbyte)
  | pointer hp hbyte => exact .pointer (by omega) (by simpa using hbyte) (by omega)
  | label hp hbyte hinside _ ih =>
    simp only [getElem_take] at hbyte hinside ih
    exact .label (by omega) hbyte (by omega) ih

theorem Questions.of_take (h : Questions (data.take k) n p q) : Questions data n p q := by
  have hlength : (data.take k).length ≤ data.length := length_take_le' ..
  induction n generalizing p with
  | zero => exact h
  | succ n ih =>
    obtain ⟨e, hname, hfits, hrest⟩ := h
    exact ⟨e, hname.of_take, by omega, ih hrest⟩

theorem First.of_take (h : First (data.take k) n p q) :
    First data n p q ∧ q + 4 ≤ (data.take k).length := by
  have hlength : (data.take k).length ≤ data.length := length_take_le' ..
  induction n generalizing p with
  | zero => exact h.elim
  | succ n ih =>
    obtain ⟨e, hname, hfits, hrest⟩ := h
    have hsame : IsAddress (data.take k) e ↔ IsAddress data e := by
      rw [IsAddress, IsAddress, number_take (by omega), number_take (by omega),
        number_take (by omega)]
    rw [hsame, number_take (by omega)] at hrest
    rw [number_take (by omega)] at hfits
    rcases hrest with ⟨his, rfl⟩ | ⟨hnot, hrest⟩
    · exact ⟨⟨e, hname.of_take, by omega, .inl ⟨his, rfl⟩⟩, by have := his.2.2; omega⟩
    · exact ⟨⟨e, hname.of_take, by omega, .inr ⟨hnot, (ih hrest).1⟩⟩, (ih hrest).2⟩

theorem Response.of_take (h : Response (data.take k) q) :
    Response data q ∧ q + 4 ≤ (data.take k).length := by
  obtain ⟨hlong, hid, hbit, hcode, p, hquestions, hfirst⟩ := h
  obtain ⟨hwhole, hend⟩ := hfirst.of_take
  have hlength : (data.take k).length ≤ data.length := length_take_le' ..
  rw [number_take (by omega)] at hid hquestions hwhole
  rw [getD_take (by omega)] at hbit hcode
  exact ⟨⟨by omega, hid, hbit, hcode, p, hquestions.of_take, hwhole⟩, hend⟩

end Cut

theorem name_iff (hp : p < data.length) : Name data p q ↔ data[p].toNat = 0 ∧ q = p + 1
    ∨ 192 ≤ data[p].toNat ∧ p + 1 < data.length ∧ q = p + 2
    ∨ (1 ≤ data[p].toNat ∧ data[p].toNat ≤ 63) ∧ p + 1 + data[p].toNat ≤ data.length
      ∧ Name data (p + 1 + data[p].toNat) q := by
  constructor
  · intro h
    cases h with
    | last _ hbyte => exact .inl ⟨hbyte, rfl⟩
    | pointer _ hbyte hmore => exact .inr (.inl ⟨hbyte, hmore, rfl⟩)
    | label _ hbyte hinside rest => exact .inr (.inr ⟨hbyte, hinside, rest⟩)
  · rintro (⟨hbyte, rfl⟩ | ⟨hbyte, hmore, rfl⟩ | ⟨hbyte, hinside, rest⟩)
    · exact .last hp hbyte
    · exact .pointer hp hbyte hmore
    · exact .label hp hbyte hinside rest

theorem and_top (byte : UInt8) : (byte.toNat &&& 0xc0 = 0xc0 ↔ 192 ≤ byte.toNat)
    ∧ (byte.toNat &&& 0xc0 = 0 ↔ byte.toNat ≤ 63) :=
  (show ∀ n < 256, (n &&& 0xc0 = 0xc0 ↔ 192 ≤ n) ∧ (n &&& 0xc0 = 0 ↔ n ≤ 63) by decide +kernel) _
    byte.toNat_lt

theorem returns_skipName (hlength : data.length ≤ 65535) (position : Nat) :
    Returns (skipName data position) fun result => ∀ q, result = some q ↔ Name data position q := by
  apply returns_loop (fun p => ∀ q, Name data p q ↔ Name data position q) (fun p => data.length - p)
  · intro p hinv
    unfold skipRound
    refine Returns.ite (fun hp => ?_) fun hp => ?_
    · have hname := fun q => (hinv q).symm.trans (name_iff hp)
      obtain ⟨hpointer, hlabel⟩ := and_top data[p]
      rw [index_eq hp, ok_bind]
      refine Returns.ite (fun htop => ?_) fun htop => ?_
      · have htop := hpointer.mp htop
        rw [plus_eq (by omega), ok_bind]
        refine Returns.ite (fun hmore => ?_) fun hmore => ?_
        · rw [plus_eq (by omega), ok_bind]
          exact returns_pure.mpr fun q => by rw [hname, Option.some.injEq]; omega
        · exact returns_pure.mpr fun q => by rw [hname]; simp; omega
      refine Returns.ite (fun hbad => returns_pure.mpr fun q => ?_) fun hsmall => ?_
      · rw [hname]; simp; omega
      have hsmall := hlabel.mp (not_not.mp hsmall)
      rw [plus_eq (by omega), ok_bind]
      refine Returns.ite (fun hzero => returns_pure.mpr fun q => ?_) fun hzero => ?_
      · rw [hname, Option.some.injEq]; omega
      rw [minus_eq (by omega), ok_bind]
      refine Returns.ite (fun hlong => returns_pure.mpr fun q => ?_) fun hfits => ?_
      · rw [hname]; simp; omega
      rw [plus_eq (by omega), ok_bind]
      refine returns_pure.mpr ⟨fun q => ?_, by omega⟩
      rw [hname]
      constructor
      · intro h
        exact .inr (.inr ⟨⟨by omega, hsmall⟩, by omega, h⟩)
      rintro (h | h | ⟨-, -, h⟩)
      · omega
      · omega
      · exact h
    · refine returns_pure.mpr fun q => ?_
      rw [← hinv]
      refine iff_of_false (by simp) fun h => hp ?_
      have := h.le
      omega
  · exact fun q => Iff.rfl
  · omega

theorem number_eq (hp : p + 2 ≤ data.length) :
    (word data[p] data[p + 1]).toNat = number data p := by
  rw [toNat_word, number, getD_eq_getElem _ _ (by omega), getD_eq_getElem _ _ hp]

theorem word_eq_iff (hp : p + 2 ≤ data.length) (value : UInt16) :
    word data[p] data[p + 1] = value ↔ number data p = value.toNat := by
  rw [← UInt16.toNat_inj, number_eq hp]

theorem flags_iff (byte : UInt8) : (byte &&& 0x80 = 0 ↔ byte.toNat.testBit 7 = false)
    ∧ (byte &&& 15 = 0 ↔ byte.toNat % 16 = 0) := by
  rw [← UInt8.toNat_inj, ← UInt8.toNat_inj, UInt8.toNat_and, UInt8.toNat_and]
  exact (show ∀ n < 256, (n &&& 128 = 0 ↔ n.testBit 7 = false) ∧ (n &&& 15 = 0 ↔ n % 16 = 0) by
    decide +kernel) _ byte.toNat_lt

theorem ip_eq (hp : p + 3 < data.length) (hlength : data.length ≤ 65535) :
    ip data p = .ok (fourBytes data p) := by
  unfold ip fourBytes
  rw [index_eq (by omega), ok_bind, plus_eq (by omega), ok_bind, index_eq (by omega), ok_bind,
    plus_eq (by omega), ok_bind, index_eq (by omega), ok_bind, plus_eq (by omega), ok_bind,
    index_eq hp, ok_bind, getD_eq_getElem _ _ (by omega), getD_eq_getElem _ _ (by omega),
    getD_eq_getElem _ _ (by omega), getD_eq_getElem _ _ hp]
  rfl

theorem returns_questions (hlength : data.length ≤ 65535) (questions : Nat) :
    Returns (loop (questionRound data) (questions + 1) ⟨questions, 12⟩) fun result =>
      ∀ q, result = some q ↔ Questions data questions 12 q := by
  apply returns_loop (fun w => ∀ q, Questions data w.left w.position q
    ↔ Questions data questions 12 q) Walk.left
  · rintro ⟨left, position⟩ hinv
    unfold questionRound
    refine Returns.ite (fun hzero => ?_) fun hleft => ?_
    · subst hzero
      exact returns_pure.mpr fun q => by rw [← hinv, Option.some.injEq]; exact Iff.rfl
    obtain ⟨left, rfl⟩ := Nat.exists_eq_succ_of_ne_zero hleft
    refine (returns_skipName hlength position).bind fun result hresult => ?_
    have hquestion : ∀ q, Questions data questions 12 q ↔ ∃ e, result = some e
        ∧ e + 4 ≤ data.length ∧ Questions data left (e + 4) q :=
      fun q => (hinv q).symm.trans (exists_congr fun e => by rw [hresult])
    cases result with
    | none => exact returns_pure.mpr fun q => by rw [hquestion]; simp
    | some e =>
      have hend := ((hresult e).mp rfl).le
      dsimp only
      rw [plus_eq (by omega), ok_bind]
      refine Returns.ite (fun hlong => returns_pure.mpr fun q => ?_) fun hfits => ?_
      · rw [hquestion]; simp; omega
      · refine returns_pure.mpr ⟨fun q => ?_, Nat.lt_succ_self _⟩
        rw [hquestion]; simp; omega
  · exact fun q => Iff.rfl
  · exact Nat.lt_succ_self _

theorem returns_answers (hlength : data.length ≤ 65535) (answers position : Nat) :
    Returns (loop (answerRound data) (answers + 1) ⟨answers, position⟩) fun result =>
      ∀ value, result = some value ↔ ∃ q, First data answers position q
        ∧ value = fourBytes data q := by
  apply returns_loop (fun w => ∀ q, First data w.left w.position q ↔ First data answers position q)
    Walk.left
  · rintro ⟨left, p⟩ hinv
    unfold answerRound
    refine Returns.ite (fun hzero => ?_) fun hleft => ?_
    · subst hzero
      exact returns_pure.mpr fun value => by simp [← hinv, First]
    obtain ⟨left, rfl⟩ := Nat.exists_eq_succ_of_ne_zero hleft
    refine (returns_skipName hlength p).bind fun result hresult => ?_
    have hfirst : ∀ q, First data answers position q ↔ ∃ e, result = some e
        ∧ e + 10 + number data (e + 8) ≤ data.length ∧ (IsAddress data e ∧ q = e + 10
          ∨ ¬ IsAddress data e ∧ First data left (e + 10 + number data (e + 8)) q) :=
      fun q => (hinv q).symm.trans (exists_congr fun e => by rw [hresult])
    cases result with
    | none => exact returns_pure.mpr fun value => by simp [hfirst]
    | some e =>
      have hend := ((hresult e).mp rfl).le
      simp only [Option.some.injEq, exists_eq_left'] at hfirst
      have hout : data.length < e + 10 + number data (e + 8) → ∀ value : UInt32, none = some value
          ↔ ∃ q, First data answers position q ∧ value = fourBytes data q := by
        intro hlong value
        refine iff_of_false (by simp) ?_
        rintro ⟨q, h, -⟩
        have := ((hfirst q).mp h).1
        omega
      dsimp only
      rw [plus_eq (by omega), ok_bind]
      refine Returns.ite (fun hlong => returns_pure.mpr (hout (by omega))) fun hfits => ?_
      rw [get16_eq (by omega) (by omega), ok_bind, plus_eq (by omega), ok_bind,
        get16_eq (by omega) (by omega), ok_bind, plus_eq (by omega), ok_bind,
        get16_eq (by omega) (by omega), ok_bind, ok_bind, minus_eq (by omega), ok_bind,
        number_eq (by omega)]
      refine Returns.ite (fun hlong => returns_pure.mpr (hout (by omega))) fun hrecord => ?_
      have his : (word data[e] data[e + 1] = 1 ∧ word data[e + 2] data[e + 2 + 1] = 1
          ∧ number data (e + 8) = 4) ↔ IsAddress data e := by
        rw [word_eq_iff, word_eq_iff]
        rfl
      refine Returns.ite (fun haddress => ?_) fun hother => ?_
      · rw [ip_eq (by omega) hlength, ok_bind]
        refine returns_pure.mpr fun value => ?_
        have hq : ∀ q, First data answers position q ↔ q = e + 10 := fun q => by
          rw [hfirst]
          simp only [his.mp haddress, not_true, true_and, false_and, or_false]
          omega
        simp only [hq, exists_eq_left, Option.some.injEq, eq_comm]
      · rw [plus_eq (by omega), ok_bind]
        refine returns_pure.mpr ⟨fun q => ?_, Nat.lt_succ_self _⟩
        rw [hfirst]
        simp only [mt his.mpr hother, not_false_eq_true, true_and, false_and, false_or,
          Nat.succ_sub_one]
        exact ⟨fun h => ⟨by omega, h⟩, fun h => h.2⟩
  · exact fun q => Iff.rfl
  · exact Nat.lt_succ_self _

theorem returns_answer (src : UInt32) {segment : List UInt8} (hlength : segment.length ≤ 65535) :
    Returns (answer src segment) fun result => ∀ value, result = some value ↔
      src = DNS ∧ number segment 0 = 53 ∧ number segment 2 = 49152
        ∧ ∃ q, Response (segment.drop 8) q ∧ value = fourBytes (segment.drop 8) q := by
  have hnone : ∀ {P : UInt32 → Prop}, (∀ value, ¬ P value) → Returns
      (pure none : Trapping (Option UInt32)) fun result => ∀ value, result = some value ↔ P value :=
    fun h => returns_pure.mpr fun value => iff_of_false (by simp) (h value)
  unfold answer
  refine Returns.ite (fun hshort => hnone ?_) fun hlong => ?_
  · rintro value ⟨rfl, -, -, q, hresponse, -⟩
    have := hresponse.1
    rw [length_drop] at this
    simp at hshort
    omega
  rw [not_or, not_not] at hlong
  obtain ⟨rfl, hlong⟩ := hlong
  rw [get16_eq (by omega) (by omega), ok_bind]
  refine Returns.ite (fun hport => hnone ?_) fun hport => ?_
  · rintro value ⟨-, hsource, -⟩
    exact hport ((word_eq_iff (by omega) 53).mpr hsource)
  rw [get16_eq (by omega) (by omega), ok_bind]
  refine Returns.ite (fun hport' => hnone ?_) fun hport' => ?_
  · rintro value ⟨-, -, hsource, -⟩
    exact hport' ((word_eq_iff (by omega) PORT).mpr hsource)
  have hports := (word_eq_iff (by omega) 53).mp (not_not.mp hport)
  have hports' := (word_eq_iff (by omega) PORT).mp (not_not.mp hport')
  rw [slice_eq (by omega) le_rfl, ok_bind, take_length]
  have hdata : (segment.drop 8).length = segment.length - 8 := length_drop ..
  generalize segment.drop 8 = data at hdata ⊢
  obtain ⟨hbit, -⟩ := flags_iff (data.getD 2 0)
  obtain ⟨-, hcode⟩ := flags_iff (data.getD 3 0)
  rw [get16_eq (by omega) (by omega), ok_bind]
  refine Returns.ite (fun hid => hnone ?_) fun hid => ?_
  · rintro value ⟨-, -, -, q, ⟨-, h, -⟩, -⟩
    exact hid ((word_eq_iff (by omega) 0x4b47).mpr h)
  rw [index_eq (by omega), ok_bind]
  refine Returns.ite (fun hclear => hnone ?_) fun hclear => ?_
  · rintro value ⟨-, -, -, q, ⟨-, -, h, -⟩, -⟩
    rw [getD_eq_getElem _ _ (by omega)] at hbit h
    rw [hbit.mp hclear] at h
    cases h
  rw [index_eq (by omega), ok_bind]
  refine Returns.ite (fun herror => hnone ?_) fun herror => ?_
  · rintro value ⟨-, -, -, q, ⟨-, -, -, h, -⟩, -⟩
    rw [getD_eq_getElem _ _ (by omega)] at hcode h
    exact herror (hcode.mpr h)
  rw [getD_eq_getElem _ _ (by omega)] at hbit hcode
  rw [get16_eq (by omega) (by omega), ok_bind, get16_eq (by omega) (by omega), ok_bind,
    number_eq (by omega), number_eq (by omega)]
  have hresponse : ∀ q, Response data q ↔ ∃ p, Questions data (number data 4) 12 p
      ∧ First data (number data 6) p q := by
    intro q
    rw [Response, getD_eq_getElem _ _ (by omega), getD_eq_getElem _ _ (by omega)]
    refine ⟨fun h => h.2.2.2.2, fun h => ⟨by omega, ?_, ?_, hcode.mp (not_not.mp herror), h⟩⟩
    · exact (word_eq_iff (by omega) 0x4b47).mp (not_not.mp hid)
    · simpa using mt hbit.mpr hclear
  refine (returns_questions (by omega) (number data 4)).bind fun position hposition => ?_
  cases position with
  | none =>
    refine hnone ?_
    rintro value ⟨-, -, -, q, h, -⟩
    obtain ⟨p, hquestions, -⟩ := (hresponse q).mp h
    cases (hposition p).mpr hquestions
  | some p =>
    refine (returns_answers (by omega) (number data 6) p).mono fun result hresult value => ?_
    rw [hresult]
    constructor
    · rintro ⟨q, hfirst, hvalue⟩
      exact ⟨rfl, hports, hports', q, (hresponse q).mpr ⟨p, (hposition p).mp rfl, hfirst⟩, hvalue⟩
    rintro ⟨-, -, -, q, h, hvalue⟩
    obtain ⟨p', hquestions, hfirst⟩ := (hresponse q).mp h
    obtain rfl := Option.some.inj ((hposition p').mpr hquestions)
    exact ⟨q, hfirst, hvalue⟩

/-- **Answers are read exactly.** From a datagram of the name server for the resolver's port an
address is stored exactly if it holds a response with one, all parts before it being well formed,
and it is the four bytes of the first record for an address. A datagram cut off before the end of
that record stores nothing. -/
theorem answer_exact {segment : List UInt8} (hlength : segment.length ≤ 65535)
    (hports : number segment 0 = 53 ∧ number segment 2 = 49152) :
    (∀ value, answer DNS segment = .ok (some value) ↔
        ∃ q, Response (segment.drop 8) q ∧ value = fourBytes (segment.drop 8) q)
      ∧ ∀ q, Response (segment.drop 8) q → ∀ n < 8 + q + 4,
        answer DNS (segment.take n) = .ok none := by
  constructor
  · intro value
    obtain ⟨result, hanswer, hresult⟩ := returns_answer DNS hlength
    rw [hanswer, Except.ok.injEq, hresult]
    exact ⟨fun h => h.2.2.2, fun h => ⟨rfl, hports.1, hports.2, h⟩⟩
  intro q hresponse n hn
  obtain ⟨result, hanswer, hresult⟩ := @returns_answer DNS (segment.take n)
    (Nat.le_trans (length_take_le' ..) hlength)
  rw [hanswer]
  cases result with
  | none => rfl
  | some value =>
    obtain ⟨-, -, -, q', hcut, -⟩ := (hresult value).mp rfl
    rw [drop_take] at hcut
    obtain ⟨hwhole, hend⟩ := hcut.of_take
    obtain rfl := hwhole.unique hresponse
    rw [length_take] at hend
    omega

def oneAnswer : List UInt8 :=
  [0, 53, 192, 0, 0, 36, 0, 0, 0x4b, 0x47, 0x81, 0x80, 0, 0, 0, 1, 0, 0, 0, 0,
    0xc0, 12, 0, 1, 0, 1, 0, 0, 0, 0, 0, 4, 10, 0, 2, 2]

theorem answer_exact_oneAnswer : answer DNS (oneAnswer.take 35) = .ok none := by
  apply (@answer_exact oneAnswer (by decide) (by decide)).2 24
  · refine ⟨by decide, by decide, by decide, by decide, 12, rfl, 14, ?_, by decide, .inl ⟨?_, rfl⟩⟩
    · exact .pointer (by decide) (by decide) (by decide)
    · exact ⟨by decide, by decide, by decide⟩
  · decide

end Kaguya.Net.Dns
