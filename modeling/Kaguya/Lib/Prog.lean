import Mathlib.Logic.Basic
import Mathlib.Order.Defs.Unbundled

/-!
# Calls that report a status code

A call over a state `σ` returns a value or a status code. Its effects on the state stay in both
cases: a call that fails half way leaves what it has already done, out-parameters included.
-/

namespace Kaguya

/-- A call over `σ` that returns an `α` or a status code. -/
def Prog (σ α : Type) : Type := σ → Except Int α × σ

namespace Prog

variable {σ τ α β : Type}

instance : Monad (Prog σ) where
  pure a := fun s => (.ok a, s)
  bind m f := fun s =>
    match m s with
    | (.ok a, s') => f a s'
    | (.error code, s') => (.error code, s')

def fail (code : Int) : Prog σ α := fun s => (.error code, s)

def modify (f : σ → σ) : Prog σ Unit := fun s => (.ok (), f s)

def state : Prog σ σ := fun s => (.ok s, s)

def when (p : Prop) [Decidable p] (m : Prog σ Unit) : Prog σ Unit := if p then m else pure ()

/-- Run a call on the part of the state that `view` reads and `put` writes back. -/
def zoom (view : τ → σ) (put : τ → σ → τ) (m : Prog σ α) : Prog τ α := fun t =>
  ((m (view t)).1, put t (m (view t)).2)

/-- From `s` the call `m` ends in `Q` when it returns and in `E` when it fails. -/
def wp (m : Prog σ α) (Q : α → σ → Prop) (E : Int → σ → Prop) (s : σ) : Prop :=
  match m s with
  | (.ok a, s') => Q a s'
  | (.error code, s') => E code s'

variable {m : Prog σ α} {Q Q' : α → σ → Prop} {E E' : Int → σ → Prop} {s : σ}

variable {a : α} {code : Int} {p : Prop} {s' : σ}

theorem wp_pure : wp (pure a : Prog σ α) Q E s ↔ Q a s := Iff.rfl

theorem wp_fail : wp (fail code : Prog σ α) Q E s ↔ E code s := Iff.rfl

theorem wp_modify {f : σ → σ} {Q : Unit → σ → Prop} : wp (modify f) Q E s ↔ Q () (f s) := Iff.rfl

theorem wp_state {Q : σ → σ → Prop} : wp state Q E s ↔ Q s s := Iff.rfl

theorem wp_bind {f : α → Prog σ β} {R : β → σ → Prop} :
    wp (m >>= f) R E s ↔ wp m (fun a => wp (f a) R E) E s := by
  have hbind : (m >>= f) s = match m s with
      | (.ok a, s') => f a s'
      | (.error code, s') => (.error code, s') := rfl
  unfold wp
  rw [hbind]
  rcases m s with ⟨_ | _, _⟩ <;> rfl

theorem wp_ite [Decidable p] {m' : Prog σ α} :
    wp (if p then m else m') Q E s ↔ (p → wp m Q E s) ∧ (¬ p → wp m' Q E s) := by
  by_cases hp : p <;> simp [hp]

theorem wp_when [Decidable p] {m : Prog σ Unit} {Q : Unit → σ → Prop} :
    wp (when p m) Q E s ↔ (p → wp m Q E s) ∧ (¬ p → Q () s) := wp_ite

theorem wp_zoom {view : τ → σ} {put : τ → σ → τ} {t : τ} {R : α → τ → Prop} {F : Int → τ → Prop} :
    wp (zoom view put m) R F t ↔ wp m (fun a s' => R a (put t s'))
      (fun code s' => F code (put t s')) (view t) := by
  unfold wp zoom
  rcases m (view t) with ⟨_ | _, _⟩ <;> rfl

theorem wp_mono (h : wp m Q E s) (hQ : ∀ a s', Q a s' → Q' a s')
    (hE : ∀ code s', E code s' → E' code s') : wp m Q' E' s := by
  unfold wp at h ⊢
  rcases hm : m s with ⟨_ | _, _⟩ <;> rw [hm] at h
  · exact hE _ _ h
  · exact hQ _ _ h

theorem wp_seq {f : α → Prog σ β} {R : β → σ → Prop} (h : wp m Q E s)
    (hQ : ∀ a s', Q a s' → wp (f a) R E' s') (hE : ∀ code s', E code s' → E' code s') :
    wp (m >>= f) R E' s :=
  wp_bind.mpr (wp_mono h hQ hE)

theorem wp_and (h : wp m Q E s) (h' : wp m Q' E' s) :
    wp m (fun a s' => Q a s' ∧ Q' a s') (fun code s' => E code s' ∧ E' code s') s := by
  unfold wp at h h' ⊢
  rcases hm : m s with ⟨_ | _, _⟩ <;> rw [hm] at h h' <;> exact ⟨h, h'⟩

theorem wp_ok (h : wp m Q E s) (hrun : m s = (.ok a, s')) : Q a s' := by
  unfold wp at h
  rwa [hrun] at h

theorem wp_error (h : wp m Q E s) (hrun : m s = (.error code, s')) : E code s' := by
  unfold wp at h
  rwa [hrun] at h

theorem wp_returns (h : wp m Q (fun _ _ => False) s) : ∃ a s', m s = (.ok a, s') ∧ Q a s' := by
  unfold wp at h
  rcases hm : m s with ⟨_ | a, s'⟩ <;> rw [hm] at h
  · exact h.elim
  · exact ⟨a, s', rfl, h⟩

theorem wp_self :
    wp m (fun a s' => m s = (.ok a, s')) (fun code s' => m s = (.error code, s')) s := by
  unfold wp
  rcases m s with ⟨_ | _, _⟩ <;> rfl

theorem wp_final {R : σ → Prop} (h : wp m (fun _ => R) (fun _ => R) s) : R (m s).2 := by
  unfold wp at h
  rcases hm : m s with ⟨_ | _, _⟩ <;> rw [hm] at h <;> exact h

theorem bind_congr_of_wp {f g : α → Prog σ β} (h : wp m Q E s)
    (hfg : ∀ a s', Q a s' → f a s' = g a s') : (m >>= f) s = (m >>= g) s := by
  dsimp only [bind]
  rcases hm : m s with ⟨_ | a, s'⟩
  · rfl
  · exact hfg a s' (wp_ok h hm)

/-- Wherever the call starts and however it ends, `R` relates the two states. -/
def Keeps (R : σ → σ → Prop) (m : Prog σ α) : Prop := ∀ s, R s (m s).2

def Avoids (code : Int) (m : Prog σ α) : Prop := ∀ s, (m s).1 ≠ .error code

section Keeps
variable {R : σ → σ → Prop} {f : α → Prog σ β}

theorem Keeps.wp (h : Keeps R m) : m.wp (fun _ => R s) (fun _ => R s) s := by
  have hs := h s
  unfold Prog.wp
  rcases hm : m s with ⟨_ | _, _⟩ <;> rw [hm] at hs <;> exact hs

theorem keeps_of_wp (h : ∀ s, m.wp (fun _ => R s) (fun _ => R s) s) : Keeps R m := fun s =>
  wp_final (h s)

theorem keeps_pure [Std.Refl R] (a : α) : Keeps R (pure a : Prog σ α) := fun s => Std.Refl.refl s

theorem keeps_fail [Std.Refl R] (code : Int) : Keeps R (fail code : Prog σ α) := fun s =>
  Std.Refl.refl s

theorem Keeps.bind [IsTrans σ R] (hm : Keeps R m) (hf : ∀ a, Keeps R (f a)) :
    Keeps R (m >>= f) := by
  apply keeps_of_wp
  intro s
  rw [wp_bind]
  refine wp_mono hm.wp ?_ fun _ _ h => h
  intro a s' hs'
  exact wp_mono (hf a).wp (fun _ _ h => IsTrans.trans _ _ _ hs' h)
    fun _ _ h => IsTrans.trans _ _ _ hs' h

theorem Keeps.ite {p : Prop} [Decidable p] {m' : Prog σ α} (h : Keeps R m) (h' : Keeps R m') :
    Keeps R (if p then m else m') := by
  split
  · exact h
  · exact h'

theorem Keeps.when [Std.Refl R] {p : Prop} [Decidable p] {m : Prog σ Unit} (h : Keeps R m) :
    Keeps R (when p m) := h.ite (keeps_pure ())

theorem Keeps.zoom {view : τ → σ} {put : τ → σ → τ} {R' : τ → τ → Prop} (h : Keeps R m)
    (hput : ∀ t s', R (view t) s' → R' t (put t s')) : Keeps R' (zoom view put m) := fun t =>
  hput t _ (h (view t))

theorem Keeps.mono {R' : σ → σ → Prop} (h : Keeps R m) (hR : ∀ s s', R s s' → R' s s') :
    Keeps R' m := fun s => hR s _ (h s)

end Keeps

section Avoids
variable {code : Int} {f : α → Prog σ β}

theorem ne_error_of_wp (h : m.wp (fun _ _ => True) (fun code' _ => code' ≠ code) s) :
    (m s).1 ≠ .error code := by
  intro hs
  unfold Prog.wp at h
  rcases hrun : m s with ⟨_ | _, _⟩ <;> rw [hrun] at h hs
  · exact h (Except.error.inj hs)
  · cases hs

theorem Avoids.wp (h : Avoids code m) : m.wp (fun _ _ => True) (fun code' _ => code' ≠ code) s := by
  have hs := h s
  unfold Prog.wp
  rcases hm : m s with ⟨code' | _, _⟩ <;> rw [hm] at hs
  · exact fun heq => hs (congrArg Except.error heq)
  · trivial

theorem avoids_pure (a : α) : Avoids code (pure a : Prog σ α) := fun _ hs => by cases hs

theorem avoids_fail {code' : Int} (h : code' ≠ code) : Avoids code (fail code' : Prog σ α) :=
  fun _ hs => h (Except.error.inj hs)

theorem Avoids.bind (hm : Avoids code m) (hf : ∀ a, Avoids code (f a)) : Avoids code (m >>= f) := by
  intro s
  apply ne_error_of_wp
  rw [wp_bind]
  exact wp_mono hm.wp (fun a s' _ => (hf a).wp) fun _ _ h => h

theorem Avoids.ite {p : Prop} [Decidable p] {m' : Prog σ α} (h : Avoids code m)
    (h' : Avoids code m') : Avoids code (if p then m else m') := by
  split
  · exact h
  · exact h'

theorem avoids_modify (g : σ → σ) : Avoids code (modify g) := fun _ hs => by cases hs

theorem Avoids.zoom {view : τ → σ} {put : τ → σ → τ} (h : Avoids code m) :
    Avoids code (zoom view put m) := fun t => h (view t)

end Avoids

end Prog

end Kaguya
