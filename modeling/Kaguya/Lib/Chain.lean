import Mathlib.Data.List.Nodup
import Mathlib.Data.List.Basic
import Mathlib.Logic.Function.Iterate

/-!
# Chains of a successor function

`next` links every cell to a successor and `live` says which cells are links; a chain follows `next`
from a cell until it meets one that is not. `Chain` carries the list of cells visited, so its
existence is the statement that the walk ends, and `OnChain` is plain reachability, which also
speaks about walks that never end.
-/

namespace Kaguya

open List

variable {α : Type}

/-- The walk from a cell visits exactly these cells and then stops. -/
inductive Chain (next : α → α) (live : α → Prop) : α → List α → Prop
  | stop {c : α} : ¬ live c → Chain next live c []
  | link {c : α} {path : List α} : live c → Chain next live (next c) path →
      Chain next live c (c :: path)

inductive OnChain (next : α → α) (live : α → Prop) : α → α → Prop
  | here {c : α} : live c → OnChain next live c c
  | later {c d : α} : live c → OnChain next live (next c) d → OnChain next live c d

def follow (next : α → α) (live : α → Prop) [DecidablePred live] : Nat → α → List α
  | 0, _ => []
  | n + 1, c => if live c then c :: follow next live n (next c) else []

namespace Chain

variable {next next' : α → α} {live : α → Prop} {a c : α} {path path' : List α}

theorem nil_iff : Chain next live a [] ↔ ¬ live a := by
  constructor
  · rintro ⟨h⟩
    assumption
  · exact .stop

theorem cons_iff :
    Chain next live a (c :: path) ↔ c = a ∧ live a ∧ Chain next live (next a) path := by
  constructor
  · rintro (_ | ⟨hlive, hrest⟩)
    exact ⟨rfl, hlive, hrest⟩
  · rintro ⟨rfl, hlive, hrest⟩
    exact .link hlive hrest

variable (h : Chain next live a path)
include h

theorem unique (h' : Chain next live a path') : path = path' := by
  induction h generalizing path' with
  | stop hdead =>
    cases h' with
    | stop => rfl
    | link hlive => exact absurd hlive hdead
  | link hlive _ ih =>
    cases h' with
    | stop hdead => exact absurd hlive hdead
    | link _ hrest => rw [ih hrest]

theorem live_of_mem (hc : c ∈ path) : live c := by
  induction h with
  | stop => simp at hc
  | link hlive _ ih =>
    rcases mem_cons.mp hc with rfl | hmem
    · exact hlive
    · exact ih hmem

theorem mem_iff_onChain : c ∈ path ↔ OnChain next live a c := by
  induction h with
  | stop hdead =>
    simp only [not_mem_nil, false_iff]
    rintro (hlive | ⟨hlive, _⟩) <;> exact hdead hlive
  | @link d rest hlive _ ih =>
    rw [mem_cons]
    constructor
    · rintro (rfl | hmem)
      · exact .here hlive
      · exact .later hlive (ih.mp hmem)
    · rintro (_ | ⟨_, hlater⟩)
      · exact .inl rfl
      · exact .inr (ih.mpr hlater)

theorem getElem_eq {k : Nat} (hk : k < path.length) : path[k] = next^[k] a := by
  induction h generalizing k with
  | stop => simp at hk
  | @link d rest _ _ ih =>
    cases k with
    | zero => rfl
    | succ =>
      rw [getElem_cons_succ, ih (by simpa using hk), Function.iterate_succ_apply]

theorem iterate_mem {k : Nat} (hk : k < path.length) :
    next^[k] a ∈ path := h.getElem_eq hk ▸ getElem_mem hk

theorem live_iterate {k : Nat} (hk : k < path.length) :
    live (next^[k] a) := h.live_of_mem (h.iterate_mem hk)

theorem not_live_end : ¬ live (next^[path.length] a) := by
  induction h with
  | stop hdead => exact hdead
  | link => rwa [length_cons, Function.iterate_succ_apply]

theorem of_mem (hc : c ∈ path) :
    ∃ front rest, path = front ++ c :: rest ∧ Chain next live c (c :: rest) := by
  induction h with
  | stop => simp at hc
  | @link d tail hlive hrest ih =>
    rcases mem_cons.mp hc with rfl | hmem
    · exact ⟨[], tail, rfl, .link hlive hrest⟩
    · obtain ⟨front, rest, rfl, hchain⟩ := ih hmem
      exact ⟨d :: front, rest, rfl, hchain⟩

theorem nodup : path.Nodup := by
  induction h with
  | stop => exact nodup_nil
  | @link d rest hlive hrest ih =>
    refine nodup_cons.mpr ⟨fun hmem => ?_, ih⟩
    obtain ⟨front, tail, heq, hagain⟩ := hrest.of_mem hmem
    have hsame := hagain.unique (.link hlive hrest)
    have hlength := congrArg List.length heq
    rw [List.cons.inj hsame |>.2, length_append, length_cons] at hlength
    omega

theorem congr (hsame : ∀ c ∈ path, next' c = next c) : Chain next' live a path := by
  induction h with
  | stop hdead => exact .stop hdead
  | @link d rest hlive _ ih =>
    refine .link hlive ?_
    rw [hsame d mem_cons_self]
    exact ih fun c hc => hsame c (mem_cons_of_mem d hc)

theorem extend (hne : path ≠ []) (hlive : live c) (hlink : next' (path.getLast hne) = c)
    (hend : ¬ live (next' c)) (hsame : ∀ d ∈ path, d ≠ path.getLast hne → next' d = next d) :
    Chain next' live a (path ++ [c]) := by
  induction h with
  | stop => exact absurd rfl hne
  | @link d rest hd hrest ih =>
    refine .link hd ?_
    rcases eq_nil_or_concat rest with rfl | ⟨front, last, hrestEq⟩
    · rw [getLast_singleton] at hlink
      rw [hlink]
      exact .link hlive (.stop hend)
    have hrestNe : rest ≠ [] := by simp [hrestEq]
    have hlast : (d :: rest).getLast hne = rest.getLast hrestNe := getLast_cons hrestNe
    have hdne : d ≠ rest.getLast hrestNe := by
      intro heq
      have hnodup := (Chain.link hd hrest).nodup
      exact (nodup_cons.mp hnodup).1 (heq ▸ getLast_mem hrestNe)
    rw [hsame d mem_cons_self (hlast ▸ hdne)]
    refine ih hrestNe (hlast ▸ hlink) fun e he hene => ?_
    exact hsame e (mem_cons_of_mem d he) (hlast ▸ hene)

theorem getLast_eq (hne : path ≠ []) : path.getLast hne = next^[path.length - 1] a := by
  rw [getLast_eq_getElem, h.getElem_eq]

theorem follow_eq [DecidablePred live] {n : Nat} (hn : path.length ≤ n) :
    follow next live n a = path := by
  induction h generalizing n with
  | stop hdead => cases n <;> simp [follow, hdead]
  | @link d rest hlive _ ih =>
    cases n with
    | zero => simp at hn
    | succ =>
      rw [follow, if_pos hlive, ih (by simpa using hn)]

end Chain

end Kaguya
