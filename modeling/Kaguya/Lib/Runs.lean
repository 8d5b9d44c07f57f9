import Mathlib.Logic.Basic

/-!
# Runs

A system is a function that says what one action does to a state. A run is a list of actions, taken
one after the other. `Along` says that every action of a run meets a condition in the state in which
it is taken, and `Along.invariant` is the induction over runs: what every such action keeps holds at
the end.
-/

namespace Kaguya

universe u w

variable {σ : Type u} {α : Type w}

def runAll (step : σ → α → σ) (s : σ) (actions : List α) : σ := actions.foldl step s

def Along (step : σ → α → σ) (condition : σ → α → Prop) : σ → List α → Prop
  | _, [] => True
  | s, action :: rest => condition s action ∧ Along step condition (step s action) rest

variable {step : σ → α → σ} {condition : σ → α → Prop} {s : σ} {actions : List α}

@[simp] theorem runAll_nil : runAll step s [] = s := rfl

@[simp] theorem runAll_cons {action : α} :
    runAll step s (action :: actions) = runAll step (step s action) actions := rfl

theorem along_append {more : List α} : Along step condition s (actions ++ more)
    ↔ Along step condition s actions ∧ Along step condition (runAll step s actions) more := by
  induction actions generalizing s with
  | nil => exact (and_iff_right trivial).symm
  | cons _ rest ih =>
    rw [List.cons_append, Along, Along, ih, and_assoc]
    rfl

theorem Along.invariant {P : σ → Prop} (h : Along step condition s actions) (hs : P s)
    (hstep : ∀ t action, action ∈ actions → P t → condition t action → P (step t action)) :
    P (runAll step s actions) := by
  induction actions generalizing s with
  | nil => exact hs
  | cons action rest ih =>
    apply ih h.2
    · exact hstep s action List.mem_cons_self hs h.1
    · intro t action' hmem
      exact hstep t action' (List.mem_cons_of_mem action hmem)

theorem along_of_forall (h : ∀ t action, action ∈ actions → condition t action) :
    Along step condition s actions := by
  induction actions generalizing s with
  | nil => trivial
  | cons action rest ih =>
    refine ⟨h s action List.mem_cons_self, ih ?_⟩
    intro t action' hmem
    exact h t action' (List.mem_cons_of_mem action hmem)

theorem runAll_invariant {P : σ → Prop} (hs : P s)
    (hstep : ∀ t action, action ∈ actions → P t → P (step t action)) : P (runAll step s actions) :=
  (along_of_forall fun _ _ _ => trivial : Along step (fun _ _ => True) s actions).invariant hs
    fun t action hmem ht _ => hstep t action hmem ht

instance Along.instDecidable [∀ s action, Decidable (condition s action)] :
    ∀ (s : σ) (actions : List α), Decidable (Along step condition s actions)
  | _, [] => isTrue trivial
  | s, action :: rest =>
    have := instDecidable (step s action) rest
    inferInstanceAs (Decidable (_ ∧ _))

end Kaguya
