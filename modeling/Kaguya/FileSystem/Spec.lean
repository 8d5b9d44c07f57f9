import Kaguya.FileSystem.Volume
import Mathlib.Data.List.Nodup

/-!
# What a file system is for

The abstract file system is a map from names to contents. `Meets` says of each call what a
successful reply means for that map, with open files known by the names they stand for. Nothing here
mentions sectors, clusters or slots.
-/

namespace Kaguya.FileSystem

open Function List

abbrev Files := List UInt8 → Option (List UInt8)

/-- `data` laid over `old` at `offset`, with zeros in a gap between them. -/
def overlay (old : List UInt8) (offset : Nat) (data : List UInt8) : List UInt8 :=
  old.take offset ++ replicate (offset - old.length) 0 ++ data ++ old.drop (offset + data.length)

theorem length_overlay (old : List UInt8) (offset : Nat) (data : List UInt8) :
    (overlay old offset data).length = max old.length (offset + data.length) := by
  simp only [overlay, length_append, length_take, length_replicate, length_drop]
  omega

variable {old data : List UInt8} {offset : Nat}

theorem getElem_overlay {x : Nat} (hx : x < (overlay old offset data).length) :
    (overlay old offset data)[x] = if offset ≤ x ∧ x < offset + data.length
      then data.getD (x - offset) 0 else old.getD x 0 := by
  rw [length_overlay] at hx
  have hfront : (old.take offset ++ replicate (offset - old.length) 0).length = offset := by
    simp only [length_append, length_take, length_replicate]
    omega
  have hmiddle : (old.take offset ++ replicate (offset - old.length) 0 ++ data).length = offset
      + data.length := by
    rw [length_append, hfront]
  by_cases hbefore : x < offset
  · -- in front of the data, old bytes and then zeros
    rw [if_neg (by omega)]
    simp only [overlay]
    rw [getElem_append_left (by omega), getElem_append_left (by omega)]
    by_cases hold : x < old.length
    · rw [getElem_append_left (by rw [length_take]; omega), getElem_take, getD_eq_getElem _ _ hold]
    · rw [getElem_append_right (by rw [length_take]; omega), getElem_replicate,
        getD_eq_default _ _ (by omega)]
  by_cases hdata : x < offset + data.length
  · rw [if_pos ⟨by omega, hdata⟩]
    simp only [overlay]
    rw [getElem_append_left (by omega), getElem_append_right (by omega)]
    simp only [hfront]
    rw [getD_eq_getElem _ _ (by omega)]
  rw [if_neg (by omega)]
  simp only [overlay]
  rw [getElem_append_right (by omega), getElem_drop]
  rw [getD_eq_getElem _ _ (by omega)]
  congr 1
  omega

theorem map_range_eq_overlay {n : Nat} {f : Nat → UInt8}
    (hn : n = max old.length (offset + data.length))
    (hf : ∀ x < n, f x = if offset ≤ x ∧ x < offset + data.length then data.getD (x - offset) 0
      else old.getD x 0) : (range n).map f = overlay old offset data := by
  refine ext_getElem ?_ ?_
  · rw [length_map, length_range, length_overlay, hn]
  · intro x hx hx'
    rw [length_map, length_range] at hx
    rw [getElem_map, getElem_range, getElem_overlay, hf x hx]

/-- What a successful call does. `resolve` and `resolve'` give the names of open files before and
after it. -/
def Meets (files : Files) (resolve : FileId → Option (List UInt8)) (files' : Files)
    (resolve' : FileId → Option (List UInt8)) : Volume.Op → Volume.Reply → Prop
  | .check, .done => files' = files
  | .format, .done => files' = fun _ => none
  | .create name input, .done => files' = update files name (some input)
  | .delete name, .done => files name ≠ none ∧ files' = update files name none
  | .openFile name create truncate, .handle id =>
    resolve' id = some name ∧ (files name = none → create = true)
      ∧ files' = if files name = none ∨ truncate = true
          then update files name (some []) else files
  | .size id, .size bytes =>
    ∃ name contents, resolve id = some name ∧ files name = some contents
      ∧ bytes = contents.length ∧ files' = files
  | .readAt id offset length, .bytes output =>
    ∃ name contents, resolve id = some name ∧ files name = some contents
      ∧ output = (contents.drop offset).take length ∧ files' = files
  | .readFile name, .bytes output => files name = some output ∧ files' = files
  | .writeAt id requested input, .written offset count =>
    ∃ name old, resolve id = some name ∧ files name = some old
      ∧ offset = requested.getD old.length ∧ count ≤ input.length ∧ (input ≠ [] → 0 < count)
      ∧ files' = if count = 0 then files
          else update files name (some (overlay old offset (input.take count)))
  | .list, .entries listed =>
    files' = files ∧ ∃ names : List (List UInt8), names.Nodup
      ∧ (∀ name, name ∈ names ↔ files name ≠ none)
      ∧ listed.map (fun entry => (entry.name, entry.size))
        = names.map fun name => (lossyName name, ((files name).getD []).length)
  | _, _ => False

def subject (resolve : FileId → Option (List UInt8)) : Volume.Op → Option (List UInt8)
  | .create name _ | .delete name | .openFile name _ _ | .readFile name => some name
  | .size id | .readAt id _ _ | .writeAt id _ _ => resolve id
  | .check | .format | .list => none

theorem Meets.frame {files files' : Files} {resolve resolve' : FileId → Option (List UInt8)}
    {op : Volume.Op} {reply : Volume.Reply} {name : List UInt8}
    (h : Meets files resolve files' resolve' op reply) (hop : op ≠ .format)
    (hname : subject resolve op ≠ some name) : files' name = files name := by
  have hupdate : ∀ target contents, some target ≠ some name → update files target contents name
      = files name := by
    intro target contents hne
    exact update_of_ne (fun heq => hne (congrArg some heq.symm)) ..
  cases op <;> cases reply <;> try exact h.elim
  case check.done => exact congrFun h name
  case format.done => exact absurd rfl hop
  case create.done => exact (congrFun h name).trans (hupdate _ _ hname)
  case delete.done => exact (congrFun h.2 name).trans (hupdate _ _ hname)
  case openFile.handle =>
      obtain ⟨_, _, rfl⟩ := h
      split
      · exact hupdate _ _ hname
      · rfl
  case size.size =>
      obtain ⟨_, _, _, _, _, rfl⟩ := h
      rfl
  case readAt.bytes =>
      obtain ⟨_, _, _, _, _, rfl⟩ := h
      rfl
  case readFile.bytes => exact congrFun h.2 name
  case writeAt.written =>
      obtain ⟨target, _, hresolve, _, _, _, _, rfl⟩ := h
      split
      · rfl
      · rw [subject, hresolve] at hname
        exact hupdate _ _ hname
  case list.entries => exact congrFun h.1 name

end Kaguya.FileSystem
