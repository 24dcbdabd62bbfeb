import Mathlib.Data.List.Basic

/-!
# Ranges that follow on each other

A range of numbers is its start and its length.  A list of ranges tiles an
interval if the first range begins where the interval begins, every other range
begins where the one in front of it ends, and the last one ends where the
interval ends.  Then every number of the interval lies in one of the ranges and
in no other.
-/

namespace MipsOs.Lib

/-- `x` lies in the range. -/
def InRange (r : Nat × Nat) (x : Nat) : Prop := r.1 ≤ x ∧ x < r.1 + r.2

/-- The ranges follow on each other from `a` to `b`. -/
def Tiles : Nat → List (Nat × Nat) → Nat → Prop
  | a, [], b => a = b
  | a, r :: rest, b => r.1 = a ∧ Tiles (a + r.2) rest b

variable {a b x : Nat} {rs : List (Nat × Nat)}

theorem Tiles.le (h : Tiles a rs b) : a ≤ b := by
  induction rs generalizing a with
  | nil => exact Nat.le_of_eq h
  | cons r rest ih =>
    have hrest := ih h.2
    omega

/-- What a tiling covers lies in the interval. -/
theorem Tiles.bounds (h : Tiles a rs b) {r : Nat × Nat} (hr : r ∈ rs) (hx : InRange r x) :
    a ≤ x ∧ x < b := by
  induction rs generalizing a with
  | nil => cases hr
  | cons s rest ih =>
    obtain ⟨hstart, hrest⟩ := h
    obtain ⟨hlo, hhi⟩ := hx
    rcases List.mem_cons.mp hr with rfl | hmem
    · have hend := hrest.le
      omega
    · have hin := ih hrest hmem
      omega

/-- Every number of the interval lies in one range. -/
theorem Tiles.existsUnique (h : Tiles a rs b) (hlo : a ≤ x) (hhi : x < b) :
    ∃! r, r ∈ rs ∧ InRange r x := by
  induction rs generalizing a with
  | nil =>
    have hempty : a = b := h
    omega
  | cons s rest ih =>
    obtain ⟨hstart, hrest⟩ := h
    by_cases hfirst : x < a + s.2
    · refine ⟨s, ⟨List.mem_cons_self, by omega, by omega⟩, fun r hr => ?_⟩
      rcases List.mem_cons.mp hr.1 with heq | hmem
      · exact heq
      · have hin := hrest.bounds hmem hr.2
        omega
    · obtain ⟨r, ⟨hmem, hin⟩, huniq⟩ := ih hrest (by omega)
      refine ⟨r, ⟨List.mem_cons_of_mem _ hmem, hin⟩, fun q hq => ?_⟩
      rcases List.mem_cons.mp hq.1 with heq | hq'
      · have hbelow := hq.2.2
        rw [heq] at hbelow
        omega
      · exact huniq q ⟨hq', hq.2⟩

end MipsOs.Lib
