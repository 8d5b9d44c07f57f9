import Kaguya.Lib.Trapping

/-!
# Programs with a log

A computation that may trap and that writes a log, the newest entry first. Whether an entry is
justified depends on the entries before it. `Meets` says that a computation returns, that it only
adds entries, that all of them are justified, and that value and log meet a postcondition.
-/

namespace Kaguya

open Trapping

abbrev Logged (ε α : Type) : Type := StateT (List ε) Trapping α

namespace Logged

variable {ε α β σ : Type}

def emit (entry : ε) : Logged ε Unit := modify (entry :: ·)

def Sound (justified : ε → List ε → Prop) : List ε → Prop
  | [] => True
  | entry :: log => justified entry log ∧ Sound justified log

def Meets (justified : ε → List ε → Prop) (m : Logged ε α) (log : List ε)
    (Q : α → List ε → Prop) : Prop :=
  ∃ value log', m log = .ok (value, log') ∧ log ⊆ log'
    ∧ (Sound justified log → Sound justified log') ∧ Q value log'

def loop (body : σ → Logged ε (Round σ β)) : Nat → σ → Logged ε β
  | 0, _ => throw .endless
  | fuel + 1, state => do
      match ← body state with
      | .again state' => loop body fuel state'
      | .leave result => pure result

variable {justified : ε → List ε → Prop} {m : Logged ε α} {log : List ε}
  {Q Q' : α → List ε → Prop} {R : β → List ε → Prop} {f : α → Logged ε β}

variable {value : α} {step : Trapping α}

theorem meets_pure (h : Q value log) :
    Meets justified (pure value) log Q := ⟨value, log, rfl, List.Subset.refl _, id, h⟩

theorem Meets.mono (h : Meets justified m log Q)
    (hQ : ∀ value log', log ⊆ log' → Q value log' → Q' value log') : Meets justified m log Q' := by
  obtain ⟨value, log', hm, hsub, hsound, hvalue⟩ := h
  exact ⟨value, log', hm, hsub, hsound, hQ value log' hsub hvalue⟩

theorem bind_eq {log' : List ε} (hm : m log = .ok (value, log')) :
    (m >>= f) log = f value log' := by
  change StateT.bind m f log = _
  unfold StateT.bind
  rw [hm]
  rfl

theorem Meets.bind (h : Meets justified m log Q)
    (hf : ∀ value log', log ⊆ log' → Q value log' → Meets justified (f value) log' R) :
    Meets justified (m >>= f) log R := by
  obtain ⟨value, log', hm, hsub, hsound, hvalue⟩ := h
  obtain ⟨result, log'', hresult, hsub', hsound', hpost⟩ := hf value log' hsub hvalue
  exact ⟨result, log'', (bind_eq hm).trans hresult, List.Subset.trans hsub hsub',
    fun hlog => hsound' (hsound hlog), hpost⟩

theorem meets_lift (h : step = .ok value) (hQ : Q value log) :
    Meets justified (liftM step : Logged ε α) log Q := by
  rw [h]
  exact ⟨value, log, rfl, List.Subset.refl _, id, hQ⟩

theorem meets_lift_bind (h : step = .ok value) (hf : Meets justified (f value) log R) :
    Meets justified (liftM step >>= f) log R := by
  rw [h]
  exact hf

theorem meets_returns_bind {P : α → Prop} (h : Returns step P)
    (hf : ∀ value, P value → Meets justified (f value) log R) :
    Meets justified (liftM step >>= f) log R := by
  obtain ⟨value, hstep, hvalue⟩ := h
  exact meets_lift_bind hstep (hf value hvalue)

theorem meets_emit {entry : ε} {Q : Unit → List ε → Prop} (hentry : justified entry log)
    (hQ : Q () (entry :: log)) : Meets justified (emit entry) log Q :=
  ⟨(), entry :: log, rfl, List.subset_cons_self _ _, fun hlog => ⟨hentry, hlog⟩, hQ⟩

theorem meets_ite {p : Prop} [Decidable p] {m' : Logged ε α}
    (h : p → Meets justified m log Q) (h' : ¬ p → Meets justified m' log Q) :
    Meets justified (if p then m else m') log Q := by
  by_cases hp : p
  · rw [if_pos hp]
    exact h hp
  · rw [if_neg hp]
    exact h' hp

theorem meets_loop {body : σ → Logged ε (Round σ β)} (I : σ → List ε → Prop) (measure : σ → Nat)
    (hbody : ∀ state log, I state log → Meets justified (body state) log fun round log' =>
      round.Meets (fun state' => I state' log' ∧ measure state' < measure state) fun result =>
      R result log') :
    ∀ fuel state log, I state log → measure state < fuel → Meets justified (loop body fuel state)
      log R := by
  intro fuel
  induction fuel with
  | zero =>
    intro state log _ hfuel
    exact absurd hfuel (Nat.not_lt_zero _)
  | succ fuel ih =>
    intro state log hinv hfuel
    apply (hbody state log hinv).bind
    intro round log' _ hround
    cases round with
    | again state' => exact ih state' log' hround.1 (by have := hround.2; omega)
    | leave => exact meets_pure hround

theorem meets_foldlM {round : σ → α → Logged ε σ} {g : σ → α → σ} {items : List α}
    (G : List ε → Prop) (hlater : ∀ log log', log ⊆ log' → G log → G log')
    (hround : ∀ state log, G log → ∀ item ∈ items, Meets justified (round state item) log fun state'
      _ => state' = g state item) :
    ∀ state log, G log → Meets justified (items.foldlM round state) log fun state' _ =>
      state' = items.foldl g state := by
  induction items with
  | nil =>
    intro state log _
    exact meets_pure rfl
  | cons item _ ih =>
    intro state log hlog
    rw [List.foldlM_cons]
    apply (hround state log hlog item List.mem_cons_self).bind
    rintro state' log' hsub rfl
    apply ih _ _ log' (hlater log log' hsub hlog)
    intro state log hlog item' hmem
    exact hround state log hlog item' (List.mem_cons_of_mem item hmem)

end Logged

end Kaguya
