import Mathlib.Logic.Basic

/-!
# Programs that check ranges before they use them

A program may ask whether it is allowed to use a range, use a range, and ask the world around it.
`Valid` is the weakest precondition that every use is covered by a range that was granted before,
whatever the world answers; `exec_covered` says what this means for the events of a run.
-/

namespace Kaguya

open List

/-- A program over answers `ρ` that returns an `α`, or does not return. -/
inductive Checked (ρ α : Type) : Type where
  | done (value : α)
  | halted
  | check (start length : Nat) (next : Bool → Checked ρ α)
  | use (start length : Nat) (next : Checked ρ α)
  | ask (next : ρ → Checked ρ α)

namespace Checked

variable {ρ α β : Type}

protected def bind : Checked ρ α → (α → Checked ρ β) → Checked ρ β
  | done value, f => f value
  | halted, _ => halted
  | check start length next, f => check start length fun granted => (next granted).bind f
  | use start length next, f => use start length (next.bind f)
  | ask next, f => ask fun answer => (next answer).bind f

instance : Monad (Checked ρ) where
  pure := done
  bind := Checked.bind

def mayUse (start length : Nat) : Checked ρ Bool := check start length done

def touch (start length : Nat) : Checked ρ Unit := use start length (done ())

def answer : Checked ρ ρ := ask done

def halt : Checked ρ α := halted

def Covered (start length : Nat) (granted : List (Nat × Nat)) : Prop :=
  length = 0 ∨ ∃ range ∈ granted, range.1 ≤ start ∧ start + length ≤ range.1 + range.2

def Valid (post : α → List (Nat × Nat) → Prop) : Checked ρ α → List (Nat × Nat) → Prop
  | done value, granted => post value granted
  | halted, _ => True
  | check start length next, granted =>
    (next true).Valid post ((start, length) :: granted) ∧ (next false).Valid post granted
  | use start length next, granted => Covered start length granted ∧ next.Valid post granted
  | ask next, granted => ∀ answer, (next answer).Valid post granted

variable {post post' : α → List (Nat × Nat) → Prop} {program : Checked ρ α}
  {granted : List (Nat × Nat)} {start length : Nat}

theorem covered_of_mem (h : (start, length) ∈ granted) : Covered start length granted :=
  .inr ⟨_, h, Nat.le_refl _, Nat.le_refl _⟩

theorem Covered.later (h : Covered start length granted) (range : Nat × Nat) :
    Covered start length (range :: granted) :=
  h.imp_right fun ⟨other, hmem, hwithin⟩ => ⟨other, mem_cons_of_mem _ hmem, hwithin⟩

theorem covered_empty : Covered start 0 granted := .inl rfl

theorem Covered.part {first count : Nat} (h : Covered start length granted) (hlo : start ≤ first)
    (hhi : first + count ≤ start + length) : Covered first count granted := by
  cases h with
  | inl => exact .inl (by omega)
  | inr hwithin =>
    obtain ⟨range, hmem, hstart, hend⟩ := hwithin
    exact .inr ⟨range, hmem, by omega, by omega⟩

theorem valid_bind {f : α → Checked ρ β} {post : β → List (Nat × Nat) → Prop} :
    Valid post (program >>= f) granted ↔ Valid (fun value granted => Valid post (f value) granted)
      program granted := by
  induction program generalizing granted with
  | done => exact Iff.rfl
  | halted => exact Iff.rfl
  | check _ _ next ih => exact and_congr (ih true) (ih false)
  | use _ _ next ih => exact and_congr Iff.rfl ih
  | ask next ih => exact forall_congr' fun answer => ih answer

theorem valid_mayUse {post : Bool → List (Nat × Nat) → Prop} :
    Valid post (mayUse start length : Checked ρ Bool) granted
      ↔ post true ((start, length) :: granted) ∧ post false granted := Iff.rfl

theorem valid_touch {post : Unit → List (Nat × Nat) → Prop} :
    Valid post (touch start length : Checked ρ Unit) granted ↔ Covered start length granted
      ∧ post () granted := Iff.rfl

theorem valid_answer {post : ρ → List (Nat × Nat) → Prop} :
    Valid post (answer : Checked ρ ρ) granted ↔ ∀ reply, post reply granted := Iff.rfl

theorem valid_ite {p : Prop} [Decidable p] {other : Checked ρ α} :
    Valid post (if p then program else other) granted
      ↔ (p → Valid post program granted) ∧ (¬ p → Valid post other granted) := by
  split <;> simp_all

theorem Valid.mono (h : Valid post program granted)
    (hpost : ∀ value granted, post value granted → post' value granted) :
    Valid post' program granted := by
  induction program generalizing granted with
  | done value => exact hpost value granted h
  | halted => trivial
  | check _ _ next ih => exact ⟨ih true h.1, ih false h.2⟩
  | use _ _ next ih => exact ⟨h.1, ih h.2⟩
  | ask next ih => exact fun answer => ih answer (h answer)

def Safe (program : Checked ρ α) (granted : List (Nat × Nat)) : Prop :=
  Valid (fun _ _ => True) program granted

section Safe
variable {f : β → Checked ρ α} {value : α} {rest : Checked ρ α} {p : Prop} [Decidable p]

theorem safe_pure : Safe (pure value : Checked ρ α) granted := trivial

theorem safe_bind {first : Checked ρ β} {post : β → List (Nat × Nat) → Prop}
    (h : Valid post first granted)
    (hrest : ∀ value granted, post value granted → Safe (f value) granted) :
    Safe (first >>= f) granted := valid_bind.mpr (h.mono hrest)

theorem safe_answer {f : ρ → Checked ρ α} (h : ∀ reply, Safe (f reply) granted) :
    Safe (answer >>= f) granted := valid_bind.mpr (valid_answer.mpr h)

theorem safe_touch {f : Unit → Checked ρ α} (hcovered : Covered start length granted)
    (h : Safe (f ()) granted) :
    Safe (touch start length >>= f) granted := valid_bind.mpr (valid_touch.mpr ⟨hcovered, h⟩)

theorem safe_branch {other : Checked ρ α} (h : p → Safe rest granted)
    (hother : ¬ p → Safe other granted) :
    Safe (if p then rest else other) granted := valid_ite.mpr ⟨h, hother⟩

theorem safe_guard (h : ¬ p → Safe rest granted) : Safe (if p then pure value else rest) granted :=
  valid_ite.mpr ⟨fun _ => trivial, h⟩

theorem safe_check (h : Safe rest ((start, length) :: granted)) :
    Safe (mayUse start length >>= fun allowed => if allowed = false then pure value else rest)
      granted := by
  refine valid_bind.mpr (valid_mayUse.mpr ⟨?_, ?_⟩)
  · exact safe_guard fun _ => h
  · exact valid_ite.mpr ⟨fun _ => trivial, fun hne => absurd rfl hne⟩

end Safe

inductive Event where
  | checked (start length : Nat) (granted : Bool)
  | used (start length : Nat)
  deriving DecidableEq

/-- The events of a run, with what the checks and the world answer at each moment. -/
def exec (grants : Nat → Nat → Nat → Bool) (answers : Nat → ρ) : Nat → Checked ρ α → List Event
  | _, done _ => []
  | _, halted => []
  | moment, check start length next =>
    .checked start length (grants moment start length)
      :: exec grants answers (moment + 1) (next (grants moment start length))
  | moment, use start length next => .used start length :: exec grants answers (moment + 1) next
  | moment, ask next => exec grants answers (moment + 1) (next (answers moment))

/-- **Uses are granted.** In a run of a valid program every range that is used is empty, or within a
range that was granted before. -/
theorem exec_covered {grants : Nat → Nat → Nat → Bool} {answers : Nat → ρ} {moment : Nat}
    {before after : List Event} (h : Valid post program granted)
    (hrun : exec grants answers moment program = before ++ .used start length :: after) :
    Covered start length granted ∨ ∃ first count, .checked first count true ∈ before ∧ first ≤ start
        ∧ start + length ≤ first + count := by
  induction program generalizing granted moment before with
  | done => exact absurd hrun (by simp [exec])
  | halted => exact absurd hrun (by simp [exec])
  | check first count next ih =>
    cases before with
    | nil => exact absurd hrun (by simp [exec])
    | cons =>
      rw [exec, cons_append, List.cons.injEq] at hrun
      obtain ⟨rfl, hrest⟩ := hrun
      cases hgrant : grants moment first count with
      | true =>
        rw [hgrant] at hrest
        cases ih true h.1 hrest with
        | inl hcovered =>
          cases hcovered with
          | inl hempty => exact .inl (.inl hempty)
          | inr hwithin =>
            obtain ⟨range, hmem, hlo, hhi⟩ := hwithin
            cases mem_cons.mp hmem with
            | inl hnew =>
              rw [hnew] at hlo hhi
              exact .inr ⟨first, count, mem_cons_self, hlo, hhi⟩
            | inr hold => exact .inl (.inr ⟨range, hold, hlo, hhi⟩)
        | inr hearlier =>
          obtain ⟨other, size, hmem, hwithin⟩ := hearlier
          exact .inr ⟨other, size, mem_cons_of_mem _ hmem, hwithin⟩
      | false =>
        rw [hgrant] at hrest
        apply (ih false h.2 hrest).imp_right
        rintro ⟨other, size, hmem, hwithin⟩
        exact ⟨other, size, mem_cons_of_mem _ hmem, hwithin⟩
  | use _ _ next ih =>
    cases before with
    | nil =>
      obtain ⟨⟨rfl, rfl⟩, -⟩ := hrun
      exact .inl h.1
    | cons =>
      rw [exec, cons_append, List.cons.injEq] at hrun
      apply (ih h.2 hrun.2).imp_right
      rintro ⟨other, size, hmem, hwithin⟩
      exact ⟨other, size, mem_cons_of_mem _ hmem, hwithin⟩
  | ask next ih => exact ih _ (h _) hrun

end Checked

end Kaguya
