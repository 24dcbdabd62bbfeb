import Mathlib

/-!
# Signed machine integers

A signed integer of `w` bits as a mathematical integer: `wrap w` brings the exact
result of an operation into the range of the type, modulo `2 ^ w`.

A result that is representable is itself, and a result that leaves the range by
less than a period comes back on the other side.  `tmod` is the remainder of C,
which takes the sign of the dividend: it is an index below the divisor exactly for
a dividend that is not negative or that the divisor divides.
-/

namespace MipsOs.Lib.MachineInt

variable {w : Nat} {x : Int}

/-- `x` is a value of the signed type of `w` bits. -/
def Representable (w : Nat) (x : Int) : Prop := -2 ^ w ≤ 2 * x ∧ 2 * x < 2 ^ w

instance : Decidable (Representable w x) := inferInstanceAs (Decidable (_ ∧ _))

/-- The value that the machine computes for the exact result `x`. -/
def wrap (w : Nat) (x : Int) : Int := x.bmod (2 ^ w)

theorem wrap_of_representable (h : Representable w x) : wrap w x = x := by
  have hcast : ((2 ^ w : Nat) : Int) = 2 ^ w := by push_cast; rfl
  apply Int.bmod_eq_of_le_mul_two
  · rw [hcast, mul_comm]
    exact h.1
  · rw [hcast, mul_comm]
    exact h.2

theorem representable_wrap (hw : 0 < w) (x : Int) : Representable w (wrap w x) := by
  obtain ⟨w, rfl⟩ : ∃ v, w = v + 1 := ⟨w - 1, by omega⟩
  have hcast : ((2 ^ (w + 1) : Nat) : Int) = 2 ^ (w + 1) := by push_cast; rfl
  have hpos : 0 < 2 ^ (w + 1) := Nat.two_pow_pos _
  have heven : (2 : Int) ^ (w + 1) = 2 * 2 ^ w := pow_succ' 2 w
  have hlo := Int.le_bmod (x := x) hpos
  have hhi := Int.bmod_lt (x := x) hpos
  rw [hcast] at hlo hhi
  unfold Representable wrap
  omega

/-- The machine computes modulo `2 ^ w`. -/
theorem wrap_emod (w : Nat) (x : Int) : wrap w x % 2 ^ w = x % 2 ^ w := by
  have hcast : ((2 ^ w : Nat) : Int) = 2 ^ w := by push_cast; rfl
  rw [wrap, ← hcast]
  exact Int.bmod_emod

/-- A result above the range. -/
theorem wrap_of_over (hlo : 2 ^ w ≤ 2 * x) (hhi : 2 * x < 3 * 2 ^ w) :
    wrap w x = x - 2 ^ w := by
  have hcast : ((2 ^ w : Nat) : Int) = 2 ^ w := by push_cast; rfl
  have hsub : wrap w (x - 2 ^ w) = wrap w x := by
    rw [wrap, wrap, ← hcast, Int.sub_bmod_right]
  rw [← hsub]
  apply wrap_of_representable
  constructor <;> linarith

/-- The remainder of C is an index below the divisor. -/
theorem tmod_index_iff {n : Int} (hn : 0 < n) :
    0 ≤ x.tmod n ∧ x.tmod n < n ↔ 0 ≤ x ∨ n ∣ x := by
  have hlt := Int.tmod_lt_of_pos x hn
  constructor
  · intro hindex
    rcases le_or_gt 0 x with hx | hx
    · exact Or.inl hx
    · right
      have hneg : 0 ≤ (-x).tmod n := Int.tmod_nonneg n (by omega)
      rw [Int.neg_tmod] at hneg
      exact Int.dvd_of_tmod_eq_zero (by omega)
  · rintro (hx | hdvd)
    · exact ⟨Int.tmod_nonneg n hx, hlt⟩
    · rw [Int.tmod_eq_zero_of_dvd hdvd]
      exact ⟨le_rfl, hn⟩

end MipsOs.Lib.MachineInt
