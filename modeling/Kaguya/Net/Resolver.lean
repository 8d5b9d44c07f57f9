import Kaguya.Lib.Runs
import Kaguya.Net.Dns
import Kaguya.Net.Fields

/-!
# Asking the name server

`resolve` of `net_dns.jh`, by any number of tasks at once. A lookup empties the cell for the answer,
sends its question, and takes what is in the cell: once at once and once after it has waited. All
lookups share the cell, the port and the number of the question, and `incoming` looks at none of the
names. The cell holds an address; here it also holds the datagram that brought it, which no step
reads.
-/

namespace Kaguya.Net.Dns

open Function Trapping List

structure Question where
  packet : List UInt8
  p : Nat
  start : Nat
  deriving DecidableEq

variable (name : List UInt8)

def inLabel (position : Nat) : Trapping Bool :=
  if position ≠ name.length then (fun c => decide (c ≠ 46)) <$> index name position else pure false

def letterRound (p start : Nat) (packet : List UInt8) (i : Nat) :
    Trapping (List UInt8) := do
  store packet (← plus 63 p i) (← index name (← plus 63 start i))

def label (q : Question) (position : Nat) : Trapping (Option Question) := do
  let length ← minus position q.start
  if length = 0 ∨ length > 63 ∨ (← plus 63 (← plus 63 q.p length) 6) > 264 then return none
  let packet ← store q.packet q.p (UInt8.ofNat length)
  let p ← plus 63 q.p 1
  let packet ← (range length).foldlM (letterRound name p q.start) packet
  return some ⟨packet, ← plus 63 p length, ← plus 63 position 1⟩

/-- The loop of `query`: the question so far, and the next position of the name. -/
def labelRound (s : Question × Nat) :
    Trapping (Round (Question × Nat) (Option Question)) := do
  if s.2 ≥ name.length + 1 then return .leave (some s.1)
  if ← inLabel name s.2 then return .again (s.1, s.2 + 1)
  match ← label name s.1 s.2 with
  | none => return .leave none
  | some q => return .again (q, s.2 + 1)

def query : Trapping (Option (List UInt8)) := do
  if name.length = 0 ∨ name.length > 253 then return none
  let packet ← put16 (replicate 264 0) 0 PORT
  let packet ← put16 packet 2 53
  let packet ← put16 packet 8 0x4b47
  let packet ← put16 packet 10 0x100
  let packet ← put16 packet 12 1
  match ← loop (labelRound name) (name.length + 2) (⟨packet, 20, 0⟩, 0) with
  | none => return none
  | some q =>
    let packet ← store q.packet q.p 0
    let p ← plus 63 q.p 1
    let packet ← put16 packet p 1
    let packet ← put16 packet (← plus 63 p 2) 1
    let p ← plus 63 p 4
    let packet ← put16 packet 4 (UInt16.ofNat p)
    some <$> slice packet 0 p

def Asks (name segment : List UInt8) : Prop :=
  match query name with
  | .ok (some request) => request.drop 20 <+: segment.drop 20
  | .ok none | .error _ => False

instance (name segment : List UInt8) : Decidable (Asks name segment) := by
  unfold Asks
  split <;> infer_instance

/-! ### What a question says

Each label of the name stands behind its length. What is written so far is the header and the labels
that have ended, and these are the name up to where the next label starts. -/

def encoded (labels : List (List UInt8)) : List UInt8 :=
  labels.flatMap fun label => UInt8.ofNat label.length :: label

/-- The labels at the front of these bytes, and what stands behind the zero byte that ends them. -/
def readLabels : Nat → List UInt8 → Option (List (List UInt8) × List UInt8)
  | 0, _ | _, [] => none
  | fuel + 1, length :: bytes =>
    if length = 0 then some ([], bytes)
    else if bytes.length < length.toNat then none
    else (readLabels fuel (bytes.drop length.toNat)).map fun (labels, rest) =>
      (bytes.take length.toNat :: labels, rest)

def front : List UInt8 := [0xc0, 0, 0, 53, 0, 0, 0, 0, 0x4b, 0x47, 1, 0, 0, 1, 0, 0, 0, 0, 0, 0]

def question (labels : List (List UInt8)) : List UInt8 :=
  front.take 4 ++ (be16 (UInt16.ofNat ((encoded labels).length + 25))
    ++ (front.drop 6 ++ (encoded labels ++ [0, 0, 1, 0, 1])))

def IsLabel (label : List UInt8) : Prop := (1 ≤ label.length ∧ label.length ≤ 63) ∧ 46 ∉ label

variable {name} {labels : List (List UInt8)}

theorem length_encoded :
    (encoded labels).length = (labels.flatMap fun label => label ++ [46]).length := by
  simp [encoded, length_flatMap]

theorem length_question : (question labels).length = (encoded labels).length + 25 := by
  simp [question, front]
  omega

theorem encoded_cons (label : List UInt8) :
    encoded (label :: labels) = UInt8.ofNat label.length :: (label ++ encoded labels) :=
  flatMap_cons ..

theorem encoded_concat (label : List UInt8) :
    encoded (labels ++ [label]) = encoded labels ++ UInt8.ofNat label.length :: label := by
  rw [encoded, flatMap_append, flatMap_singleton, encoded]

theorem flatMap_dots (hlabels : labels ≠ []) :
    (labels.flatMap fun label => label ++ [46]) = [46].intercalate labels ++ [46] := by
  induction labels with
  | nil => exact absurd rfl hlabels
  | cons label labels ih =>
    cases labels with
    | nil => simp
    | cons =>
      rw [flatMap_cons, ih (cons_ne_nil _ _)]
      simp

theorem IsLabel.toNat_length {label : List UInt8} (h : IsLabel label) :
    (UInt8.ofNat label.length).toNat = label.length := by
  rw [UInt8.toNat_ofNat']
  exact Nat.mod_eq_of_lt (by have := h.1.2; omega)

theorem readLabels_encoded (hlabels : ∀ label ∈ labels, IsLabel label) {rest : List UInt8}
    {fuel : Nat} (hfuel : (encoded labels).length < fuel) :
    readLabels fuel (encoded labels ++ 0 :: rest) = some (labels, rest) := by
  induction labels generalizing fuel with
  | nil =>
    obtain ⟨fuel, rfl⟩ := Nat.exists_eq_succ_of_ne_zero (Nat.ne_zero_of_lt hfuel)
    simp [encoded, readLabels]
  | cons label _ ih =>
    obtain ⟨fuel, rfl⟩ := Nat.exists_eq_succ_of_ne_zero (Nat.ne_zero_of_lt hfuel)
    have hlabel := hlabels label mem_cons_self
    have hlength := hlabel.toNat_length
    have hzero : UInt8.ofNat label.length ≠ 0 := by
      intro hzero
      rw [hzero] at hlength
      have := hlabel.1.1
      simp at hlength
      omega
    rw [encoded_cons] at hfuel ⊢
    simp only [length_cons, length_append] at hfuel
    rw [cons_append, append_assoc, readLabels, if_neg hzero, hlength, if_neg (by simp), drop_left,
      take_left, ih (fun l hl => hlabels l (mem_cons_of_mem _ hl)) (by omega)]
    rfl

theorem name_encoded (hlabels : ∀ label ∈ labels, IsLabel label) (before rest : List UInt8) :
    Name (before ++ (encoded labels ++ 0 :: rest)) before.length
      (before.length + (encoded labels).length + 1) := by
  induction labels generalizing before with
  | nil => exact .last (by simp [encoded]) (by simp [encoded])
  | cons label labels ih =>
    have hlabel := hlabels label mem_cons_self
    have hrest := ih (fun l hl => hlabels l (mem_cons_of_mem _ hl))
      (before ++ (UInt8.ofNat label.length :: label))
    have hdata : before ++ (encoded (label :: labels) ++ 0 :: rest)
        = before ++ (UInt8.ofNat label.length :: label) ++ (encoded labels ++ 0 :: rest) := by
      rw [encoded_cons]
      simp
    have hlong : before.length < (before ++ (UInt8.ofNat label.length :: label)
        ++ (encoded labels ++ 0 :: rest)).length := by
      simp only [length_append, length_cons]
      omega
    have hbyte : (before ++ (UInt8.ofNat label.length :: label)
        ++ (encoded labels ++ 0 :: rest))[before.length].toNat = label.length := by
      simpa using hlabel.toNat_length
    rw [hdata, encoded_cons]
    refine .label hlong (by rw [hbyte]; exact hlabel.1) ?_ ?_
    · rw [hbyte]
      simp only [length_append, length_cons]
      omega
    · rw [hbyte]
      convert hrest using 1 <;> simp only [length_append, length_cons] <;> omega

theorem letters_eq {written : List UInt8} {p start length n : Nat} (hname : name.length ≤ 253)
    (hwritten : written.length = p) (hp : p ≤ 264) (hstart : start + length ≤ name.length) :
    (range length).foldlM (letterRound name p start) (written ++ replicate (n + length) 0)
      = .ok (written ++ (name.drop start).take length ++ replicate n 0) := by
  induction length generalizing n with
  | zero => exact congrArg Except.ok (by simp)
  | succ length ih =>
    have hlength : (written ++ (name.drop start).take length).length = p + length := by
      rw [length_append, hwritten, length_take, length_drop]
      omega
    rw [range_succ, foldlM_append, show n + (length + 1) = n + 1 + length by omega,
      ih (by omega), ok_bind, foldlM_cons, letterRound, plus_eq (by omega), ok_bind,
      plus_eq (by omega), ok_bind, index_eq (by omega), ok_bind, store_next hlength, ok_bind,
      foldlM_nil, take_add_one, List.getElem?_drop, List.getElem?_eq_getElem (by omega)]
    exact congrArg Except.ok (by simp)

structure Question.Says (name : List UInt8) (s : Question × Nat) (labels : List (List UInt8)) :
    Prop where
  packet : s.1.packet = front ++ encoded labels ++ replicate (264 - s.1.p) 0
  p_eq : s.1.p = s.1.start + 20
  p_le : s.1.p + 5 ≤ 264
  start_le : s.1.start ≤ s.2
  position_le : s.2 ≤ name.length + 1
  spelled : (labels.flatMap fun label => label ++ [46]) = (name ++ [46]).take s.1.start
  good : ∀ label ∈ labels, IsLabel label
  inside : 46 ∉ (name.drop s.1.start).take (s.2 - s.1.start)
  ended : s.2 = name.length + 1 → s.1.start = s.2

theorem splitOn_dot (word rest : List UInt8) :
    (word ++ 46 :: rest).splitOn 46 = word.splitOn 46 ++ rest.splitOn 46 :=
  splitOnP_append_cons word rest (beq_self_eq_true _)

theorem splitOn_spelled (hlabels : ∀ label ∈ labels, 46 ∉ label) (rest : List UInt8) :
    ((labels.flatMap fun label => label ++ [46]) ++ rest).splitOn 46 = labels ++ rest.splitOn
      46 := by
  induction labels with
  | nil => rfl
  | cons label _ ih =>
    rw [flatMap_cons, append_assoc, append_assoc, cons_append, nil_append,
      splitOn_dot, splitOn_eq_singleton (hlabels label mem_cons_self),
      ih fun l hl => hlabels l (mem_cons_of_mem _ hl)]
    rfl

variable {q : Question} {position task' : Nat}

theorem Question.Says.mem_splitOn (hq : Question.Says name (q, position) labels)
    (hposition : position ≤ name.length) (hend : (name ++ [46])[position]? = some 46) :
    (name.drop q.start).take (position - q.start) ∈ name.splitOn 46 := by
  have hstart : q.start ≤ position := hq.start_le
  have hword : (name.drop q.start).take (position - q.start) = ((name ++ [46]).take position).drop
      q.start := by
    rw [take_append_of_le_length hposition, drop_take]
  have hrest : (name ++ [46]).drop position = 46 :: (name ++ [46]).drop (position + 1) := by
    obtain ⟨hlt, hdot⟩ := List.getElem?_eq_some_iff.mp hend
    rw [drop_eq_getElem_cons hlt, hdot]
  have hname : name ++ [46] = (labels.flatMap fun label => label ++ [46])
      ++ ((name.drop q.start).take (position - q.start) ++ 46 :: (name ++ [46]).drop
      (position + 1)) := by
    have htake : (name ++ [46]).take q.start = ((name ++ [46]).take position).take q.start := by
      rw [take_take, Nat.min_eq_left hstart]
    rw [hq.spelled, hword, ← hrest, ← append_assoc, htake, take_append_drop, take_append_drop]
  have hsplit := congrArg (fun bytes : List UInt8 => (bytes.splitOn 46).dropLast) hname
  rw [splitOn_spelled fun label hlabel => (hq.good label hlabel).2, splitOn_dot, splitOn_dot,
    splitOn_eq_singleton hq.inside, dropLast_append_of_ne_nil (splitOn_ne_nil _ _),
    ← append_assoc, dropLast_append_of_ne_nil (splitOn_ne_nil _ _)] at hsplit
  simp at hsplit
  rw [hsplit]
  simp

def Askable (name : List UInt8) : Prop :=
  (∀ label ∈ name.splitOn 46, 1 ≤ label.length ∧ label.length ≤ 63) ∧ name.length ≤ 238

theorem returns_label (hname : name.length ≤ 253) (hq : Question.Says name (q, position) labels)
    (hposition : position ≤ name.length) (hend : (name ++ [46])[position]? = some 46) :
    Returns (label name q position)
      fun result => (∀ q' ∈ result, ∃ labels', Question.Says name (q', position + 1) labels')
        ∧ (result = none → ¬ Askable name) := by
  have hmem := hq.mem_splitOn hposition hend
  obtain ⟨hpacket, hpeq, hp, hstart, -, hlabels, hgood, hinside, -⟩ := hq
  dsimp only at hpacket hpeq hp hstart hlabels hinside
  have hencoded : (front ++ encoded labels).length = q.p := by
    rw [length_append, length_encoded, hlabels, length_take, length_append]
    simp [front]
    omega
  have hword : ((name.drop q.start).take (position - q.start)).length = position - q.start := by
    rw [length_take, length_drop]
    omega
  unfold label
  rw [minus_eq hstart, ok_bind, plus_eq (by omega), ok_bind, plus_eq (by omega), ok_bind]
  refine Returns.ite (fun hbad => returns_pure.mpr ⟨by simp, fun _ hname => ?_⟩) fun hfits => ?_
  · have hlabel := hname.1 _ hmem
    have hlength := hname.2
    omega
  rw [hpacket, show 264 - q.p = 263 - q.p - (position - q.start) + (position - q.start)
    + 1 by omega,
    store_next hencoded, ok_bind, plus_eq (by omega), ok_bind,
    letters_eq hname (by rw [length_append, hencoded]; rfl) (by omega) (by omega), ok_bind,
    plus_eq (by omega), ok_bind, plus_eq (by omega), ok_bind]
  refine returns_pure.mpr ⟨fun q' hq' => ?_, nofun⟩
  rw [← Option.mem_some.mp hq']
  refine ⟨labels ++ [(name.drop q.start).take (position - q.start)], ?_, ?_, ?_, ?_, ?_, ?_, ?_, ?_,
    ?_⟩ <;> try dsimp only
  · rw [encoded_concat, hword]
    simp only [append_assoc, cons_append, nil_append]
    rw [show 264 - (q.p + 1 + (position - q.start)) = 263 - q.p - (position - q.start) by omega]
  · omega
  · omega
  · exact le_rfl
  · omega
  · rw [flatMap_append, flatMap_singleton, hlabels, take_add_one, hend,
      take_append_of_le_length hposition, take_append_of_le_length (by omega),
      ← append_assoc, ← take_add, Nat.add_sub_of_le hstart]
    rfl
  · intro word hmem
    rcases mem_append.mp hmem with hold | hnew
    · exact hgood word hold
    · rw [mem_singleton.mp hnew]
      exact ⟨by omega, hinside⟩
  · simp
  · exact fun _ => rfl

theorem returns_labels (hname : name.length ≤ 253) :
    Returns (loop (labelRound name) (name.length + 2) (⟨front ++ replicate 244 0, 20, 0⟩, 0))
      fun result => (∀ q ∈ result, ∃ labels, Question.Says name (q, name.length + 1) labels)
        ∧ (result = none → ¬ Askable name) := by
  apply returns_loop (fun s => ∃ labels, Question.Says name s labels)
    (fun s => name.length + 1 - s.2)
  · rintro ⟨q, position⟩ ⟨labels, hq⟩
    have hposition := hq.position_le
    unfold labelRound
    refine Returns.ite (fun hdone => returns_pure.mpr ?_) fun hmore => ?_
    · refine ⟨fun q' hq' => ?_, nofun⟩
      rw [← Option.mem_some.mp hq', show name.length + 1 = position by omega]
      exact ⟨labels, hq⟩
    have hinside : Returns (inLabel name position) fun inside =>
        inside = true ↔ ∃ c, name[position]? = some c ∧ c ≠ 46 := by
      unfold inLabel
      refine Returns.ite (fun hend => ?_) fun hend => returns_pure.mpr ?_
      · rw [index_eq (by omega)]
        refine returns_pure.mpr ?_
        simp [List.getElem?_eq_getElem (show position < name.length by omega)]
      · rw [not_not.mp hend]
        simp
    refine hinside.bind fun inside hinside => ?_
    refine Returns.ite (fun htrue => returns_pure.mpr ⟨⟨labels, ?_⟩, by dsimp only; omega⟩)
      fun hfalse => ?_
    · obtain ⟨c, hc, hdot⟩ := hinside.mp htrue
      obtain ⟨hlt, -⟩ := List.getElem?_eq_some_iff.mp hc
      have hstart := hq.start_le
      dsimp only at hstart
      refine ⟨hq.packet, hq.p_eq, hq.p_le, by dsimp only; omega, by dsimp only; omega, hq.spelled,
        hq.good, ?_, by dsimp only; omega⟩
      rw [show position + 1 - q.start = position - q.start + 1 by omega, take_add_one,
        List.getElem?_drop, show q.start + (position - q.start) = position by omega, hc]
      simpa using ⟨hq.inside, Ne.symm hdot⟩
    · have hend : (name ++ [46])[position]? = some 46 := by
        rw [hinside] at hfalse
        rcases Nat.lt_or_eq_of_le (show position ≤ name.length by omega) with hlt | heq
        · rw [List.getElem?_append_left hlt]
          simpa only [List.getElem?_eq_getElem hlt, Option.some.injEq, exists_eq_left',
            not_not] using hfalse
        · simp [heq]
      refine (returns_label hname hq (by omega) hend).bind fun result hresult => ?_
      cases result with
      | none => exact returns_pure.mpr ⟨nofun, hresult.2⟩
      | some q' => exact returns_pure.mpr ⟨hresult.1 q' rfl, by dsimp only; omega⟩
  · exact ⟨[], rfl, rfl, by simp, le_rfl, Nat.zero_le _, rfl, by simp, by simp, by simp⟩
  · exact Nat.lt_succ_self _

theorem returns_query (name : List UInt8) : Returns (query name) fun result => (∀ packet ∈ result,
    ∃ labels, packet = question labels ∧ labels ≠ [] ∧ (∀ label ∈ labels, IsLabel label)
      ∧ name = [46].intercalate labels ∧ 1 ≤ name.length ∧ name.length ≤ 238)
        ∧ (result = none → ¬ Askable name) := by
  unfold query
  refine Returns.ite (fun hbad => returns_pure.mpr ⟨by simp, fun _ hname => ?_⟩) fun hname => ?_
  · rcases hbad with hempty | hlong
    · rw [length_eq_zero_iff.mp hempty] at hname
      exact absurd (hname.1 [] (by simp)).1 (by decide)
    · exact absurd hname.2 (by omega)
  rw [show put16 (replicate 264 0) 0 PORT = .ok (front.take 2 ++ replicate 262 0) from
      @put16_next [] 262 0 PORT rfl (by omega), ok_bind,
    show put16 (front.take 2 ++ replicate 262 0) 2 53 = .ok (front.take 4 ++ replicate 260 0)
      from @put16_next (front.take 2) 260 2 53 rfl (by omega), ok_bind,
    show front.take 4 ++ replicate 260 0 = front.take 8 ++ replicate 256 0 from skip_next 4,
    show put16 (front.take 8 ++ replicate 256 0) 8 0x4b47 = .ok (front.take 10 ++ replicate 254 0)
      from @put16_next (front.take 8) 254 8 0x4b47 rfl (by omega), ok_bind,
    show put16 (front.take 10 ++ replicate 254 0) 10 0x100 = .ok (front.take 12 ++ replicate 252 0)
      from @put16_next (front.take 10) 252 10 0x100 rfl (by omega), ok_bind,
    show put16 (front.take 12 ++ replicate 252 0) 12 1 = .ok (front.take 14 ++ replicate 250 0)
      from @put16_next (front.take 12) 250 12 1 rfl (by omega), ok_bind,
    show front.take 14 ++ replicate 250 0 = front ++ replicate 244 0 from skip_next 6]
  refine (returns_labels (by omega)).bind fun result hresult => ?_
  cases result with
  | none => exact returns_pure.mpr ⟨nofun, fun _ => hresult.2 rfl⟩
  | some q =>
    obtain ⟨labels, hpacket, hpeq, hp, -, -, hlabels, hgood, -, hended⟩ := hresult.1 q rfl
    have hended := hended rfl
    dsimp only at hpacket hpeq hp hlabels hended ⊢
    rw [hended, take_of_length_le (by simp)] at hlabels
    have hne : labels ≠ [] := by
      rintro rfl
      simp at hlabels
    have hencoded : (encoded labels).length = name.length + 1 := by
      rw [length_encoded, hlabels, length_append]
      rfl
    rw [flatMap_dots hne] at hlabels
    have hlength : (front ++ encoded labels).length = q.p := by
      rw [length_append, hencoded]
      simp [front]
      omega
    rw [hpacket, show 264 - q.p = 259 - q.p + 2 + 2 + 1 by omega, store_next hlength, ok_bind,
      plus_eq (by omega), ok_bind, put16_next (by rw [length_append, hlength]; rfl) (by omega),
      ok_bind, plus_eq (by omega), ok_bind,
      put16_next (by rw [length_append, length_append, hlength]; rfl) (by omega), ok_bind,
      plus_eq (by omega), ok_bind,
      show front = front.take 4 ++ 0 :: 0 :: front.drop 6 from rfl]
    simp only [append_assoc, cons_append]
    rw [@put16_at (front.take 4) _ 4 0 0 _ rfl, ok_bind]
    · have hwhole : front.take 4 ++ (be16 (UInt16.ofNat (q.p + 1 + 4)) ++ (front.drop 6
          ++ (encoded labels ++ 0 :: ([] ++ (be16 1 ++ (be16 1 ++ replicate (259 - q.p) 0))))))
          = question labels ++ replicate (259 - q.p) 0 := by
        rw [question, show q.p + 1 + 4 = (encoded labels).length + 25 by omega]
        simp only [append_assoc]
        rfl
      rw [hwhole, slice_written (by rw [length_question]; omega)]
      exact ⟨_, rfl, fun packet hpacket => ⟨labels, (Option.mem_some.mp hpacket).symm, hne, hgood,
        (append_cancel_right hlabels).symm, by omega, by omega⟩, nofun⟩
    · simp [front, be16]
      omega

/-- **Questions encode their names.** A datagram is as long as it says and at most as long as the
buffer. Its question is the name, label by label, and the walk over an answer's name ends where the
two words behind it are. A name that is empty, too long or has such a label is not asked for. -/
theorem query_exact (name : List UInt8) : ∃ result, query name = .ok result
    ∧ (∀ packet, result = some packet → packet.length ≤ 264 ∧ number packet 4 = packet.length
      ∧ (∃ labels, readLabels packet.length (packet.drop 20) = some (labels, [0, 1, 0, 1])
        ∧ (∀ label ∈ labels, 1 ≤ label.length ∧ label.length ≤ 63) ∧ [46].intercalate labels = name)
      ∧ skipName (packet.drop 8) 12 = .ok (some (packet.length - 12))
      ∧ packet.drop (packet.length - 4) = [0, 1, 0, 1])
    ∧ (name = [] ∨ 253 < name.length ∨ (∃ label ∈ name.splitOn 46, label = [] ∨ 63 < label.length) →
      result = none) := by
  obtain ⟨result, hquery, hresult, -⟩ := returns_query name
  refine ⟨result, hquery, fun packet hpacket => ?_, fun hbad => ?_⟩
  · obtain ⟨labels, rfl, hne, hlabels, hname, -, hshort⟩ := hresult packet hpacket
    have hlength : (encoded labels).length = name.length + 1 := by
      rw [length_encoded, flatMap_dots hne, hname, length_append]
      rfl
    refine ⟨by rw [length_question]; omega, ?_,
      ⟨labels, ?_, fun l hl => (hlabels l hl).1, hname.symm⟩, ?_, ?_⟩
    · rw [show number (question labels) 4
          = (word (UInt16.ofNat ((encoded labels).length + 25) >>> 8).toUInt8
            (UInt16.ofNat ((encoded labels).length + 25)).toUInt8).toNat by rw [toNat_word]; rfl,
        word_be16, UInt16.toNat_ofNat', length_question]
      exact Nat.mod_eq_of_lt (by omega)
    · rw [length_question, show (question labels).drop 20 = encoded labels ++ 0 :: [0, 1, 0, 1] by
        simp [question, front, be16]]
      exact readLabels_encoded hlabels (by omega)
    · have hdata : (question labels).drop 8
          = (front.drop 8) ++ (encoded labels ++ 0 :: [0, 1, 0, 1]) := by
        simp [question, front, be16]
      obtain ⟨position, hskip, hposition⟩ := @returns_skipName ((question labels).drop 8)
        (by rw [length_drop, length_question]; omega) 12
      rw [hskip, (hposition _).mpr]
      rw [hdata, length_question,
        show (encoded labels).length + 25 - 12 = 12 + (encoded labels).length + 1 by omega]
      exact name_encoded hlabels (front.drop 8) [0, 1, 0, 1]
    · have hlast : question labels = front.take 4
            ++ (be16 (UInt16.ofNat ((encoded labels).length + 25))
            ++ (front.drop 6 ++ (encoded labels ++ [0]))) ++ [0, 1, 0, 1] := by
        simp [question]
      rw [length_question, hlast]
      exact drop_left' (by simp [front]; omega)
  · cases result with
    | none => rfl
    | some packet =>
      obtain ⟨labels, -, hne, hlabels, hname, hpos, hshort⟩ := hresult packet rfl
      rcases hbad with hempty | hlong | ⟨label, hmem, hlength⟩
      · rw [hempty] at hpos
        exact absurd hpos (by decide)
      · omega
      rw [hname, splitOn_intercalate 46 (fun l hl => (hlabels l hl).2) hne] at hmem
      have hlabel := (hlabels label hmem).1
      rcases hlength with rfl | hlength
      · exact absurd hlabel.1 (by decide)
      · omega

/-- **Which names are asked for.** If its labels have 1 to 63 bytes, the whole question for a name
is sent just when it has at most 238 bytes. -/
theorem query_asks (hlabels : ∀ label ∈ name.splitOn 46, 1 ≤ label.length ∧ label.length ≤ 63) :
    query name = .ok (some (question (name.splitOn 46))) ↔ name.length ≤ 238 := by
  obtain ⟨result, hquery, hresult, hnone⟩ := returns_query name
  rw [hquery]
  cases result with
  | none => exact iff_of_false (by simp) fun hlength => hnone rfl ⟨hlabels, hlength⟩
  | some packet =>
    obtain ⟨labels, rfl, hne, hgood, hname, -, hshort⟩ := hresult packet rfl
    refine iff_of_true ?_ hshort
    rw [hname, splitOn_intercalate 46 (fun l hl => (hgood l hl).2) hne]

/-- `a.b` -/
theorem query_asks_pair : query [97, 46, 98] = .ok (some (question ([97, 46, 98].splitOn 46))) :=
  (query_asks (by decide)).mpr (by decide)

def longName : List UInt8 :=
  [46].intercalate [.replicate 63 97, .replicate 63 97, .replicate 63 97, .replicate 47 97]

theorem query_rejects_longName : longName.length = 239
    ∧ (∀ label ∈ longName.splitOn 46, 1 ≤ label.length ∧ label.length ≤ 63)
    ∧ query longName = .ok none := by
  decide +kernel

inductive Phase where
  | idle
  | clearing (name : List UInt8)
  | sending (name : List UInt8)
  | observing (name : List UInt8)
  | looking (name : List UInt8) (generation : Nat)
  | checking (name : List UInt8) (generation : Nat)
  | waiting (name : List UInt8)
  | woken (name : List UInt8)
  deriving DecidableEq

def Phase.lookup : Phase → Option (List UInt8)
  | .idle | .clearing _ => none
  | .sending name | .observing name | .looking name _ | .checking name _ | .waiting name
  | .woken name => some name

structure Answer where
  segment : List UInt8
  address : UInt32
  deriving DecidableEq

structure State where
  phase : Nat → Phase
  result : Option Answer
  /-- the generation of the event `KEY` -/
  generation : Nat
  /-- answers that are stored and whose waiters are still to be woken -/
  wakes : Nat
  /-- what the lookups have returned for which names, 0 if there was no answer -/
  returned : List (List UInt8 × Option Answer)

namespace State

def start : State := ⟨fun _ => .idle, none, 0, 0, []⟩

variable (s : State) (task : Nat)

def enter (phase : Phase) : State :=
  { s with phase := update s.phase task phase }

theorem enter_phase_self {s : State} {task : Nat} {phase : Phase} :
    (s.enter task phase).phase task = phase := update_self ..

theorem enter_phase_of_ne {s : State} {task task' : Nat} {phase : Phase} (h : task' ≠ task) :
    (s.enter task phase).phase task' = s.phase task' := update_of_ne h ..

def finish (name : List UInt8) (answer : Option Answer) : State :=
  { s.enter task .idle with returned := (name, answer) :: s.returned }

/-- The call of `resolve`, up to the `take` in `query`. -/
def call (name : List UInt8) : State :=
  match s.phase task with
  | .idle =>
    match query name with
    | .ok (some _) => s.enter task (.clearing name)
    | .ok none => s.finish task name none
    | .error _ => s
  | _ => s

/-- The next step of a lookup. `sent` is what `transmit` returns, after it has waited for the
address of the name server as long as it likes. -/
def proceed (sent : Bool) : State :=
  match s.phase task with
  | .idle => s
  | .clearing name => { s.enter task (.sending name) with result := none }
  | .sending name => if sent then s.enter task (.observing name) else s.finish task name none
  | .observing name => s.enter task (.looking name s.generation)
  | .looking name generation =>
    match s.result with
    | some answer => { s.finish task name (some answer) with result := none }
    | none => s.enter task (.checking name generation)
  | .checking name generation =>
    if s.generation ≠ generation then s.enter task (.woken name) else s.enter task (.waiting name)
  | .waiting _ => s
  | .woken name =>
    match s.result with
    | some answer => { s.finish task name (some answer) with result := none }
    | none => s.finish task name none

/-- `incoming`, up to the end of its critical section. -/
def receive (src : UInt32) (segment : List UInt8) : State :=
  match answer src segment with
  | .ok (some address) => { s with result := some ⟨segment, address⟩, wakes := s.wakes + 1 }
  | _ => s

def wakePhase : Phase → Phase
  | .waiting name => .woken name
  | phase => phase

def wake : State :=
  if s.wakes = 0 then s
  else { s with
    wakes := s.wakes - 1
    generation := (s.generation + 1) % 2 ^ 64
    phase := fun task => wakePhase (s.phase task) }

def expire : State := s.enter task (wakePhase (s.phase task))

end State

inductive Action where
  | call (task : Nat) (name : List UInt8)
  | proceed (task : Nat) (sent : Bool)
  | receive (src : UInt32) (segment : List UInt8)
  | wake
  | expire (task : Nat)
  deriving DecidableEq

def State.step (s : State) : Action → State
  | .call task name => s.call task name
  | .proceed task sent => s.proceed task sent
  | .receive src segment => s.receive src segment
  | .wake => s.wake
  | .expire task => s.expire task

abbrev State.run (s : State) (actions : List Action) : State := runAll State.step s actions

/-- The datagram, if it is an answer at all, answers every lookup in progress. -/
def Matches (s : State) : Action → Prop
  | .receive src segment => ∀ address, answer src segment = .ok (some address) →
      ∀ task name, (s.phase task).lookup = some name → Asks name segment
  | _ => True

def Brought (actions : List Action) (a : Answer) : Prop :=
  ∃ src, .receive src a.segment ∈ actions ∧ answer src a.segment = .ok (some a.address)

/-- What is in the cell answers every lookup in progress, and so does what was returned. -/
structure Own (actions : List Action) (s : State) : Prop where
  brought : ∀ a, s.result = some a → Brought actions a
  cell : ∀ a, s.result = some a → ∀ task name, (s.phase task).lookup = some name →
    Asks name a.segment
  returned : ∀ r ∈ s.returned, ∀ a, r.2 = some a → Brought actions a ∧ Asks r.1 a.segment

variable {actions : List Action} {s : State} {task : Nat}

theorem Own.start : Own actions State.start where
  brought := fun _ h => nomatch h
  cell := fun _ h => nomatch h
  returned := fun _ h => nomatch h

section
variable (h : Own actions s)
include h

theorem Own.enter {phase : Phase}
    (hphase : ∀ name, phase.lookup = some name → (s.phase task).lookup = some name) :
    Own actions (s.enter task phase) where
  brought := h.brought
  cell := by
    intro a ha task' name hname
    by_cases htask : task' = task
    · subst htask
      rw [State.enter_phase_self] at hname
      exact h.cell a ha task' name (hphase name hname)
    · rw [State.enter_phase_of_ne htask] at hname
      exact h.cell a ha task' name hname
  returned := h.returned

theorem Own.emptied (phase : Nat → Phase) :
    Own actions { s with phase := phase, result := none } where
  brought := fun _ ha => nomatch ha
  cell := fun _ ha => nomatch ha
  returned := h.returned

theorem Own.finish {result : Option Answer}
    (hown : ∀ a, result = some a → Brought actions a ∧ Asks name a.segment) :
    Own actions (s.finish task name result) := by
  have henter : Own actions (s.enter task .idle) := h.enter fun _ hname => nomatch hname
  refine ⟨henter.brought, henter.cell, ?_⟩
  intro r hr
  rcases mem_cons.mp hr with heq | hmem
  · rw [heq]
    exact hown
  · exact h.returned r hmem

theorem Own.finish_none : Own actions (s.finish task name none) := h.finish fun _ ha => nomatch ha

theorem Own.take {a : Answer} (hresult : s.result = some a)
    (hphase : (s.phase task).lookup = some name) :
    Own actions { s.finish task name (some a) with result := none } := by
  have hfinish : Own actions (s.finish task name (some a)) := by
    refine h.finish fun a' ha => ?_
    rw [← Option.some.inj ha]
    exact ⟨h.brought a hresult, h.cell a hresult task name hphase⟩
  exact hfinish.emptied _

theorem Own.call (task : Nat) (name : List UInt8) : Own actions (s.call task name) := by
  unfold State.call
  split
  · split
    · exact h.enter fun _ hname => nomatch hname
    · exact h.finish_none
    · exact h
  · exact h

theorem Own.proceed (task : Nat) (sent : Bool) : Own actions (s.proceed task sent) := by
  have hkeep : ∀ {phase phase' : Phase}, s.phase task = phase → phase'.lookup = phase.lookup →
      Own actions (s.enter task phase') := by
    intro phase phase' hphase hlookup
    apply h.enter
    intro name hname
    rw [hphase, ← hlookup, hname]
  unfold State.proceed
  split
  · exact h
  · exact h.emptied _
  · rename_i hphase
    split
    · exact hkeep hphase rfl
    · exact h.finish_none
  · rename_i hphase
    exact hkeep hphase rfl
  · rename_i hphase
    split
    · rename_i hresult
      exact h.take hresult (by rw [hphase]; rfl)
    · exact hkeep hphase rfl
  · rename_i hphase
    split <;> exact hkeep hphase rfl
  · exact h
  rename_i hphase
  split
  · rename_i hresult
    exact h.take hresult (by rw [hphase]; rfl)
  · exact h.finish_none

theorem Own.receive {src : UInt32} {segment : List UInt8} (hmem : .receive src segment ∈ actions)
    (hmatches : Matches s (.receive src segment)) : Own actions (s.receive src segment) := by
  unfold State.receive
  split
  · rename_i address hanswer
    refine ⟨?_, ?_, h.returned⟩
    · intro a ha
      obtain rfl := Option.some.inj ha
      exact ⟨src, hmem, hanswer⟩
    · intro a ha
      obtain rfl := Option.some.inj ha
      exact hmatches address hanswer
  · exact h

end

theorem lookup_wakePhase (phase : Phase) : (State.wakePhase phase).lookup = phase.lookup := by
  cases phase <;> rfl

theorem Own.step {action : Action} (h : Own actions s) (hmem : action ∈ actions)
    (hmatches : Matches s action) : Own actions (s.step action) := by
  cases action with
  | call task name => exact h.call task name
  | proceed task sent => exact h.proceed task sent
  | receive => exact h.receive hmem hmatches
  | wake =>
    rw [State.step, State.wake]
    split
    · exact h
    refine ⟨h.brought, ?_, h.returned⟩
    intro a ha task name hname
    rw [lookup_wakePhase] at hname
    exact h.cell a ha task name hname
  | expire =>
    apply h.enter
    intro name hname
    rwa [lookup_wakePhase] at hname

/-- **A lookup returns its own answer**, if no datagram that answers another name arrives while it
is in progress: the datagram from which it has the address asks for its name. -/
theorem resolve_returns_own_answer (hmatches : Along State.step Matches State.start actions)
    {a : Answer} (hreturned : (name, some a) ∈ (State.start.run actions).returned) :
    (∃ src, .receive src a.segment ∈ actions ∧ answer src a.segment = .ok (some a.address))
      ∧ Asks name a.segment := by
  have hown : Own actions (State.start.run actions) :=
    hmatches.invariant Own.start fun _ _ hmem h hmatch => h.step hmem hmatch
  exact hown.returned _ hreturned a rfl

def replyFor (letter last : UInt8) : List UInt8 :=
  [0, 53, 0xc0, 0, 0, 0, 0, 0, 0x4b, 0x47, 0x81, 0x80, 0, 1, 0, 1, 0, 0, 0, 0,
    1, letter, 0, 0, 1, 0, 1, 0xc0, 12, 0, 1, 0, 1, 0, 0, 0, 60, 0, 4, 10, 0, 0, last]

def oneLookup : List Action :=
  [.call 0 [97], .proceed 0 true, .proceed 0 true, .receive DNS (replyFor 97 2), .wake,
    .proceed 0 true, .proceed 0 true]

theorem phase_call_of_ne (h : task' ≠ task) (name : List UInt8) :
    (s.call task name).phase task' = s.phase task' := by
  unfold State.call
  split
  · split
    · exact State.enter_phase_of_ne h
    · exact State.enter_phase_of_ne h
    · rfl
  · rfl

theorem phase_proceed_of_ne (h : task' ≠ task) (sent : Bool) :
    (s.proceed task sent).phase task' = s.phase task' := by
  unfold State.proceed
  split
  · rfl
  · exact State.enter_phase_of_ne h
  · split <;> exact State.enter_phase_of_ne h
  · exact State.enter_phase_of_ne h
  · split <;> exact State.enter_phase_of_ne h
  · split
    · exact State.enter_phase_of_ne h
    · exact State.enter_phase_of_ne h
  · rfl
  · split <;> exact State.enter_phase_of_ne h

theorem resolve_returns_own_answer_once : (∃ src, .receive src (replyFor 97 2) ∈ oneLookup
    ∧ answer src (replyFor 97 2) = .ok (some 0x0200000a)) ∧ Asks [97] (replyFor 97 2) := by
  have hmatches : Along State.step Matches State.start oneLookup := by
    unfold oneLookup
    refine ⟨trivial, trivial, trivial, ?_, trivial, trivial, trivial, trivial⟩
    intro address _ task name hname
    by_cases htask : task = 0
    · rw [htask, show (((State.start.step (.call 0 [97])).step (.proceed 0 true)).step
        (.proceed 0 true)).phase 0 = .observing [97] by decide +kernel] at hname
      obtain rfl := Option.some.inj hname
      decide +kernel
    · simp only [State.step, phase_proceed_of_ne htask, phase_call_of_ne htask] at hname
      cases hname
  exact @resolve_returns_own_answer _ _ hmatches ⟨replyFor 97 2, 0x0200000a⟩ (by decide +kernel)

/-- Lookups of the names `a` and `b`, of which only the second is answered. -/
def twoLookups : List Action :=
  [.call 0 [97], .call 1 [98], .proceed 0 true, .proceed 1 true, .proceed 0 true, .proceed 1 true,
    .receive DNS (replyFor 98 2), .wake, .proceed 0 true, .proceed 0 true]

/-- The lookup of `a` returns the address of `b`. -/
theorem resolve_returns_other_answer :
    ([97], some ⟨replyFor 98 2, 0x0200000a⟩) ∈ (State.start.run twoLookups).returned
      ∧ ∀ action ∈ twoLookups, ∀ src segment, action = .receive src segment →
          Asks [98] segment ∧ ¬ Asks [97] segment := by
  refine ⟨by decide +kernel, ?_⟩
  have hreply : Asks [98] (replyFor 98 2) ∧ ¬ Asks [97] (replyFor 98 2) := by decide +kernel
  intro action haction src segment hreceive
  have hone : action = .receive DNS (replyFor 98 2) := by
    subst hreceive
    simpa [twoLookups] using haction
  obtain ⟨_, rfl⟩ := Action.receive.inj (hreceive.symm.trans hone)
  exact hreply

end Kaguya.Net.Dns
