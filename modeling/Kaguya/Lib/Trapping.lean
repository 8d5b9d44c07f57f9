import Mathlib.Algebra.Group.Nat.Defs
import Mathlib.Data.List.Basic

/-!
# Code that traps

Machine code stops when it leaves an array or when a sum or a difference does not fit its type, and
a loop may never come to an end. A computation here returns a value or says which of these happened.
Numbers are natural numbers, and every operation that can trap is written as one that does.

`Returns m Q` says that `m` returns and that its value meets `Q`.
-/

namespace Kaguya

open List

inductive Trap where
  | bounds
  | overflow
  | endless
  deriving DecidableEq, Repr

abbrev Trapping (α : Type) : Type := Except Trap α

namespace Trapping

variable {α β σ : Type}

def plus (width a b : Nat) : Trapping Nat :=
  if a + b < 2 ^ width then .ok (a + b) else .error .overflow

def times (width a b : Nat) : Trapping Nat :=
  if a * b < 2 ^ width then .ok (a * b) else .error .overflow

def minus (a b : Nat) : Trapping Nat := if b ≤ a then .ok (a - b) else .error .overflow

def quotient (a b : Nat) : Trapping Nat := if b ≠ 0 then .ok (a / b) else .error .overflow

def remainder (a b : Nat) : Trapping Nat := if b ≠ 0 then .ok (a % b) else .error .overflow

def index (data : List α) (i : Nat) : Trapping α :=
  match data[i]? with
  | some a => .ok a
  | none => .error .bounds

def store (data : List α) (i : Nat) (a : α) : Trapping (List α) :=
  if i < data.length then .ok (data.set i a) else .error .bounds

def slice (data : List α) (first last : Nat) : Trapping (List α) :=
  if first ≤ last ∧ last ≤ data.length then .ok ((data.take last).drop first) else .error .bounds

def fill (data : List α) (first : Nat) (source : List α) : Trapping (List α) :=
  if first + source.length ≤ data.length then
    .ok (data.take first ++ source ++ data.drop (first + source.length))
  else .error .bounds

/-- What a round of a loop does: it goes on, or it leaves the loop with a result. -/
inductive Round (σ β : Type) where
  | again (state : σ)
  | leave (result : β)

def loop (body : σ → Trapping (Round σ β)) : Nat → σ → Trapping β
  | 0, _ => .error .endless
  | fuel + 1, state => do
      match ← body state with
      | .again state' => loop body fuel state'
      | .leave result => pure result

def Returns (m : Trapping α) (Q : α → Prop) : Prop := ∃ a, m = .ok a ∧ Q a

variable {m : Trapping α} {Q Q' : α → Prop} {a b width : Nat} {data : List α} {i first last : Nat}

variable {value : α} {f : α → Trapping β}

theorem returns_ok : Returns (.ok value) Q ↔ Q value := by
  simp [Returns]

theorem returns_pure : Returns (pure value) Q ↔ Q value := returns_ok

theorem Returns.mono (h : Returns m Q) (hQ : ∀ value, Q value → Q' value) : Returns m Q' := by
  obtain ⟨value, hm, hvalue⟩ := h
  exact ⟨value, hm, hQ value hvalue⟩

theorem Returns.bind {R : β → Prop} (h : Returns m Q)
    (hf : ∀ value, Q value → Returns (f value) R) : Returns (m >>= f) R := by
  obtain ⟨value, hm, hvalue⟩ := h
  rw [hm]
  exact hf value hvalue

theorem Returns.ite {p : Prop} [Decidable p] {m' : Trapping α} (h : p → Returns m Q)
    (h' : ¬ p → Returns m' Q) : Returns (if p then m else m') Q := by
  by_cases hp : p
  · rw [if_pos hp]
    exact h hp
  · rw [if_neg hp]
    exact h' hp

@[simp]
theorem ok_bind : (Except.ok value >>= f : Trapping β) = f value := rfl

theorem bind_eq_ok {b : β} : m >>= f = .ok b ↔ ∃ a, m = .ok a ∧ f a = .ok b := by
  cases m with
  | error trap => exact iff_of_false (nofun) fun ⟨_, h, _⟩ => nomatch h
  | ok a => exact ⟨fun h => ⟨a, rfl, h⟩, fun ⟨_, ha, h⟩ => Except.ok.inj ha ▸ h⟩

theorem plus_eq (h : a + b < 2 ^ width) : plus width a b = .ok (a + b) := if_pos h

theorem times_eq (h : a * b < 2 ^ width) : times width a b = .ok (a * b) := if_pos h

theorem minus_eq (h : b ≤ a) : minus a b = .ok (a - b) := if_pos h

theorem quotient_eq (h : 0 < b) : quotient a b = .ok (a / b) := if_pos (Nat.pos_iff_ne_zero.mp h)

theorem remainder_eq (h : 0 < b) : remainder a b = .ok (a % b) := if_pos (Nat.pos_iff_ne_zero.mp h)

theorem index_eq (h : i < data.length) : index data i = .ok data[i] := by
  unfold index
  rw [List.getElem?_eq_getElem h]

theorem store_eq (h : i < data.length) : store data i value = .ok (data.set i value) := if_pos h

theorem slice_eq (h : first ≤ last) (h' : last ≤ data.length) :
    slice data first last = .ok ((data.take last).drop first) := if_pos ⟨h, h'⟩

theorem fill_eq {source : List α} (h : first + source.length ≤ data.length) :
    fill data first source = .ok (data.take first ++ source ++ data.drop (first + source.length)) :=
  if_pos h

/-- What a round leaves: the invariant and a smaller measure, or the loop's postcondition. -/
def Round.Meets (inv : σ → Prop) (Q : β → Prop) : Round σ β → Prop
  | .again state => inv state
  | .leave result => Q result

/-- A loop returns if every round keeps an invariant and makes a measure smaller that starts below
the number of rounds it may take. -/
theorem returns_loop {body : σ → Trapping (Round σ β)} {R : β → Prop} (inv : σ → Prop)
    (measure : σ → Nat) (hbody : ∀ state, inv state → Returns (body state)
      (Round.Meets (fun state' => inv state' ∧ measure state' < measure state) R)) :
    ∀ fuel state, inv state → measure state < fuel → Returns (loop body fuel state) R := by
  intro fuel
  induction fuel with
  | zero =>
    intro state _ hfuel
    omega
  | succ fuel ih =>
    intro state hinv hfuel
    apply (hbody state hinv).bind
    intro round hround
    cases round with
    | again state' => exact ih state' hround.1 (by have := hround.2; omega)
    | leave => exact returns_pure.mpr hround

theorem returns_foldlM {f : σ → α → Trapping σ} {inv : σ → Prop} {items : List α} {state : σ}
    (hround : ∀ state, inv state → ∀ item ∈ items, Returns (f state item) inv)
    (hstate : inv state) : Returns (items.foldlM f state) inv := by
  induction items generalizing state with
  | nil => exact returns_pure.mpr hstate
  | cons item _ ih =>
    rw [foldlM_cons]
    apply (hround state hstate item mem_cons_self).bind
    intro state' hstate'
    exact ih (fun s hs i hi => hround s hs i (mem_cons_of_mem _ hi)) hstate'

theorem mapM_index {n : Nat} (h : first + n ≤ data.length) :
    (range' first n).mapM (index data) = .ok ((data.drop first).take n) := by
  induction n generalizing first with
  | zero => rfl
  | succ n ih =>
    have hrest := @ih (first + 1) (by omega)
    have hfirst : data.drop first = data[first] :: data.drop (first + 1) :=
      drop_eq_getElem_cons (by omega)
    rw [range'_succ, mapM_cons, index_eq (by omega), ok_bind, hrest, ok_bind, hfirst,
      take_succ_cons]
    rfl

end Trapping

end Kaguya
