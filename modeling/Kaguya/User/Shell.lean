import Kaguya.Lib.Trapping

/-!
# Command lines

The parser of `init.jh`. A line is cut at its bars, each stage into words, and the words behind the
program's name are joined again for its arguments. A position in a text is what follows it.
-/

namespace Kaguya.User

open List Trapping

def ascii (text : String) : List UInt8 := text.toList.map fun c => UInt8.ofNat c.toNat

structure Stage where
  words : List (List UInt8)
  input : Option (List UInt8)
  output : Option (List UInt8)
  append : Bool
deriving DecidableEq

def whitespace (byte : UInt8) : Bool :=
  byte = 32 || byte = 9 || byte = 13 || byte = 10 || byte = 12

def token (text : List UInt8) : List UInt8 × List UInt8 :=
  let text := text.dropWhile whitespace
  (text.takeWhile (!whitespace ·), text.dropWhile (!whitespace ·))

def redirection (word : List UInt8) : Option (Char × Nat) :=
  if word.take 2 = ascii ">>" then some ('a', 2)
  else if word.take 1 = ascii ">" then some ('>', 1)
  else if word.take 1 = ascii "<" then some ('<', 1)
  else none

def Stage.redirect (stage : Stage) (kind : Char) (file : List UInt8) : Stage :=
  if kind = '<' then { stage with input := some file }
  else { stage with output := some file, append := kind = 'a' }

@[simp]
theorem Stage.words_redirect (stage : Stage) (kind : Char) (file : List UInt8) :
    (stage.redirect kind file).words = stage.words := by
  unfold redirect
  split <;> rfl

theorem length_token (text : List UInt8) :
    (token text).1.length + (token text).2.length = (text.dropWhile whitespace).length := by
  rw [← length_append, token, takeWhile_append_dropWhile]

theorem length_token_lt {text : List UInt8} (hword : (token text).1 ≠ []) :
    (token text).2.length < text.length := by
  have hlength := length_token text
  have hle := (@dropWhile_sublist _ text whitespace).length_le
  have hpos := length_pos_iff.mpr hword
  omega

def parseFrom (text : List UInt8) (stage : Stage) : Except String Stage :=
  if _ : (token text).1 = [] then
    if stage.words.length = 0 then .error "missing command" else .ok stage
  else
    let word := (token text).1
    let rest := (token text).2
    match redirection word with
    | none =>
      if stage.words.length = 16 then .error "too many arguments"
      else parseFrom rest { stage with words := stage.words ++ [word] }
    | some (kind, offset) =>
      if word.drop offset ≠ [] then parseFrom rest (stage.redirect kind (word.drop offset))
      else if _ : (token rest).1 = [] then .error "missing file name after redirection"
      else parseFrom (token rest).2 (stage.redirect kind (token rest).1)
termination_by text.length
decreasing_by
  · exact length_token_lt ‹_›
  · exact length_token_lt ‹_›
  · exact Nat.lt_trans (length_token_lt ‹_›) (length_token_lt ‹_›)

def parseStage (text : List UInt8) : Except String Stage := parseFrom text ⟨[], none, none, false⟩

def pushByte (state : List UInt8 × Nat) (byte : UInt8) : Trapping (List UInt8 × Nat) := do
  return (← store state.1 state.2 byte, state.2 + 1)

def joinWord (first : Nat) (state : List UInt8 × Nat) (entry : List UInt8 × Nat) :
    Trapping (List UInt8 × Nat) := do
  let state ← if entry.2 > first then pushByte state 32 else pure state
  entry.1.foldlM pushByte state

def joinArgs (stage : Stage) (first : Nat) : Trapping (List UInt8) := do
  let (buffer, length) ← ((stage.words.drop first).zipIdx first).foldlM (joinWord first)
    (replicate 128 0, 0)
  return buffer.take length

def Joined (bytes : List UInt8) (state : List UInt8 × Nat) : Prop :=
  state.1.length = 128 ∧ state.2 = bytes.length ∧ state.1.take state.2 = bytes

variable {bytes more text : List UInt8} {state : List UInt8 × Nat} {words : List (List UInt8)}
  {stage result : Stage} {first i : Nat}

theorem Joined.push (h : Joined bytes state) (hroom : bytes.length < 128) (byte : UInt8) :
    Returns (pushByte state byte) (Joined (bytes ++ [byte])) := by
  obtain ⟨hlength, hposition, htake⟩ := h
  rw [pushByte, store_eq (by omega), ok_bind, returns_pure]
  refine ⟨by simpa using hlength, by simp [hposition], ?_⟩
  rw [take_add_one, take_set_of_le (Nat.le_refl _), htake, getElem?_set_self (by omega)]
  rfl

theorem Joined.pushAll (h : Joined bytes state) (hroom : bytes.length + more.length ≤ 128) :
    Returns (more.foldlM pushByte state) (Joined (bytes ++ more)) := by
  induction more generalizing bytes state with
  | nil => simpa [returns_pure] using h
  | cons byte more ih =>
    rw [length_cons] at hroom
    rw [foldlM_cons, append_cons]
    apply (h.push (by omega) byte).bind
    intro state hstate
    exact ih hstate (by simp; omega)

theorem Joined.pushWords (h : Joined bytes state) (hi : first < i)
    (hroom : bytes.length + (words.flatMap (32 :: ·)).length ≤ 128) :
    Returns ((words.zipIdx i).foldlM (joinWord first) state)
      (Joined (bytes ++ words.flatMap (32 :: ·))) := by
  induction words generalizing bytes state i with
  | nil => simpa [returns_pure] using h
  | cons word _ ih =>
    simp only [flatMap_cons, length_append, length_cons] at hroom
    rw [zipIdx_cons, foldlM_cons, joinWord, if_pos hi, flatMap_cons, ← append_assoc, bind_assoc]
    apply (h.push (by omega) 32).bind
    intro state hstate
    apply (hstate.pushAll (by simp; omega)).bind
    intro state hstate
    rw [append_assoc] at hstate
    exact ih hstate (by omega) (by rw [length_append, length_cons]; omega)

theorem intercalate_cons (sep : UInt8) (word : List UInt8) (words : List (List UInt8)) :
    [sep].intercalate (word :: words) = word ++ words.flatMap (sep :: ·) := by
  induction words generalizing word with
  | nil => simp
  | cons next _ ih => simp [ih]

theorem joinArgs_eq (hroom : ([32].intercalate (stage.words.drop first)).length ≤ 128) :
    joinArgs stage first = .ok ([32].intercalate (stage.words.drop first)) := by
  have hnew : Joined [] (replicate 128 0, 0) := ⟨by simp, rfl, rfl⟩
  have hjoined : Returns (((stage.words.drop first).zipIdx first).foldlM (joinWord first)
    (replicate 128 0, 0))
      (Joined ([32].intercalate (stage.words.drop first))) := by
    cases hwords : stage.words.drop first with
    | nil => exact returns_pure.mpr hnew
    | cons word =>
      rw [hwords, intercalate_cons, length_append] at hroom
      rw [intercalate_cons, zipIdx_cons, foldlM_cons, joinWord, if_neg (Nat.lt_irrefl first)]
      apply (@Joined.pushAll _ word _ hnew (by simp; omega)).bind
      intro state hstate
      exact hstate.pushWords (Nat.lt_succ_self first) hroom
  obtain ⟨state, hstate, -, -, htake⟩ := hjoined
  rw [joinArgs, hstate, ok_bind]
  exact congrArg Except.ok htake

def weight (words : List (List UInt8)) : Nat := (words.flatMap (32 :: ·)).length

/-- What words can be made of: the text without the blanks in front, and one blank more. -/
def room (text : List UInt8) : Nat :=
  if text.dropWhile whitespace = [] then 0 else (text.dropWhile whitespace).length + 1

theorem room_token (text : List UInt8) : room (token text).2 ≤ (token text).2.length := by
  unfold room
  cases hrest : (token text).2 with
  | nil => simp
  | cons byte rest =>
    -- a word ends at a blank
    have hblank : whitespace byte = true := by
      have hhead := head?_dropWhile_not (!whitespace ·) (text.dropWhile whitespace)
      rw [show (text.dropWhile whitespace).dropWhile (!whitespace ·) = byte :: rest from
        hrest] at hhead
      simpa using hhead
    have hle := (@dropWhile_sublist _ rest whitespace).length_le
    rw [dropWhile_cons_of_pos hblank]
    split
    · exact Nat.zero_le _
    · simpa using hle

theorem room_of_token (hword : (token text).1 ≠ []) :
    (token text).1.length + 1 + room (token text).2 ≤ room text := by
  have hlength := length_token text
  have hpos := length_pos_iff.mpr hword
  have hrest := room_token text
  have hsome : text.dropWhile whitespace ≠ [] := length_pos_iff.mp (by omega)
  have hroom : room text = _ := if_neg hsome
  omega

theorem weight_parseFrom (h : parseFrom text stage = .ok result) :
    weight result.words ≤ weight stage.words + room text := by
  fun_induction parseFrom text stage with
  | case1 => cases h
  | case2 text stage hword hsome =>
    cases h
    exact Nat.le_add_right ..
  | case3 => cases h
  | case4 text stage hword word rest hnone hfew ih =>
    have hroom : word.length + 1 + room rest ≤ room text := room_of_token hword
    have hle := ih h
    simp only [weight, flatMap_append, flatMap_singleton, length_append, length_cons] at hle ⊢
    omega
  | case5 text stage hword word rest kind offset hsome hfile ih =>
    have hroom : word.length + 1 + room rest ≤ room text := room_of_token hword
    have hle := ih h
    rw [Stage.words_redirect] at hle
    omega
  | case6 => cases h
  | case7 text stage hword word rest kind offset hsome hfile hnext ih =>
    have hroom : word.length + 1 + room rest ≤ room text := room_of_token hword
    have hafter := room_of_token hnext
    have hle := ih h
    rw [Stage.words_redirect] at hle
    omega

theorem length_le_of_mem_splitOn {line : List UInt8} (htext : text ∈ line.splitOn 124) :
    text.length ≤ line.length := by
  have hline : [124].intercalate (line.splitOn 124) = line := intercalate_splitOn 124
  cases hparts : line.splitOn 124 with
  | nil => simp [hparts] at htext
  | cons =>
    rw [hparts, intercalate_cons] at hline
    rw [hparts, mem_cons] at htext
    rw [← hline, length_append]
    rcases htext with rfl | htext
    · exact Nat.le_add_right ..
    · have hinfix := (infix_of_mem_flatten (mem_map_of_mem (f := (124 :: ·)) htext)).length_le
      rw [← flatMap_def, length_cons] at hinfix
      omega

/-- **Joining cannot overflow.** For every line of at most 127 bytes the words of a stage, from any
of them on, are joined by single blanks inside the buffer. -/
theorem joinArgs_fits {line text : List UInt8} {stage : Stage} (hline : line.length ≤ 127)
    (htext : text ∈ line.splitOn 124) (hparse : parseStage text = .ok stage) (first : Nat) :
    joinArgs stage first = .ok ([32].intercalate (stage.words.drop first)) := by
  have hle := Nat.le_trans (length_le_of_mem_splitOn htext) hline
  have hweight := weight_parseFrom hparse
  have hroom : room text ≤ 128 := by
    have hdrop := (@dropWhile_sublist _ text whitespace).length_le
    unfold room
    split <;> omega
  apply joinArgs_eq
  cases hwords : stage.words.drop first with
  | nil => simp
  | cons word words =>
    have hsplit : weight stage.words = weight (stage.words.take first) + weight
        (word :: words) := by
      rw [← hwords, weight, weight, weight, ← length_append, ← flatMap_append, take_append_drop]
    rw [intercalate_cons]
    simp only [weight, flatMap_nil, flatMap_cons, length_append, length_cons, length_nil]
      at hsplit hweight ⊢
    omega

theorem joinArgs_fits_cat : joinArgs ⟨[ascii "cat", ascii "a", ascii "b"], none, none, false⟩ 1
    = .ok (ascii "a b") :=
  @joinArgs_fits (ascii "ls|cat a  b") (ascii "cat a  b") _ (by decide) (by decide)
    (by decide +kernel) 1

end Kaguya.User
