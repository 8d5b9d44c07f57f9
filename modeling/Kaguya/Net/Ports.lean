import Mathlib.Data.List.Basic

/-!
# Ephemeral ports

`bind_port` of `net_udp.jh` and `connect` of `net_tcp.jh` look for a free port in the same way: from
a cursor that all calls share, 15536 times, with the cursor going round the ports from 50000 to
65535.
-/

namespace Kaguya.Net.Ports

def FIRST : Nat := 50000
def COUNT : Nat := 15536

def following (candidate : UInt16) : UInt16 := if candidate = 65535 then 50000 else candidate + 1

def select (used : UInt16 → Bool) : Nat → UInt16 → UInt16 × UInt16
  | 0, next => (0, next)
  | n + 1, next => if used next then select used n (following next) else (next, following next)

def Ephemeral (port : UInt16) : Prop := 50000 ≤ port.toNat

instance (port : UInt16) : Decidable (Ephemeral port) := inferInstanceAs (Decidable (_ ≤ _))

variable {used : UInt16 → Bool} {next port : UInt16} {n : Nat}

theorem toNat_following (h : Ephemeral next) :
    (following next).toNat = FIRST + (next.toNat - FIRST + 1) % COUNT := by
  have hnext : next.toNat < 65536 := next.toNat_lt
  have hephemeral : 50000 ≤ next.toNat := h
  unfold following FIRST COUNT
  by_cases hlast : next = 65535
  · subst hlast
    rfl
  have hne : next.toNat ≠ 65535 := fun heq => hlast (UInt16.toNat_inj.1 heq)
  rw [if_neg hlast, UInt16.toNat_add]
  change (next.toNat + 1) % 65536 = _
  omega

theorem Ephemeral.following (h : Ephemeral next) : Ephemeral (following next) := by
  unfold Ephemeral
  rw [toNat_following h]
  exact Nat.le_add_right _ _

theorem select_cursor (h : Ephemeral next) : Ephemeral (select used n next).2 := by
  induction n generalizing next with
  | zero => exact h
  | succ n ih =>
    unfold select
    split
    · exact ih h.following
    · exact h.following

theorem select_free (h : Ephemeral next) (hselected : (select used n next).1 ≠ 0) :
    Ephemeral (select used n next).1 ∧ used (select used n next).1 = false := by
  induction n generalizing next with
  | zero => exact absurd rfl hselected
  | succ n ih =>
    unfold select at hselected ⊢
    split at hselected
    case isTrue hused =>
      rw [if_pos hused]
      exact ih h.following hselected
    case isFalse hused =>
      rw [if_neg hused]
      exact ⟨h, Bool.eq_false_iff.2 hused⟩

theorem used_of_select (h : Ephemeral next) (hnone : (select used n next).1 = 0) {k : Nat}
    (hk : k < n) (hport : port.toNat = FIRST + (next.toNat - FIRST + k) % COUNT) :
    used port = true := by
  have hephemeral : 50000 ≤ next.toNat := h
  induction n generalizing next k with
  | zero => exact absurd hk k.not_lt_zero
  | succ n ih =>
    have hnext := next.toNat_lt
    unfold select at hnone
    split at hnone
    case isTrue hused =>
      cases k with
      | zero =>
        unfold FIRST COUNT at hport
        rwa [show port = next from UInt16.toNat_inj.mp (by omega)]
      | succ =>
        refine ih h.following hnone (Nat.lt_of_succ_lt_succ hk) ?_ h.following
        rw [hport, toNat_following h]
        unfold FIRST COUNT
        omega
    case isFalse =>
      subst hnone
      exact absurd h (by decide)

/-- The search goes once round all ports, so it finds one if there is one. -/
theorem select_eq_zero_iff (h : Ephemeral next) :
    (select used COUNT next).1 = 0 ↔ ∀ port, Ephemeral port → used port = true := by
  refine ⟨fun hnone port hport => ?_, fun hused => ?_⟩
  · have hlt := port.toNat_lt
    have hnext : 50000 ≤ next.toNat ∧ next.toNat < 65536 := ⟨h, next.toNat_lt⟩
    have hephemeral : 50000 ≤ port.toNat := hport
    refine used_of_select h hnone (k := (port.toNat + COUNT - next.toNat) % COUNT)
      (Nat.mod_lt _ (by decide)) ?_
    unfold FIRST COUNT
    omega
  · by_contra hsome
    obtain ⟨hephemeral, hfree⟩ := select_free h hsome
    simp [hused _ hephemeral] at hfree

end Kaguya.Net.Ports
