import Mathlib

/-!
# A ring buffer

A ring of `n` cells is a function from indices to cells of which only the
indices below `n` are used.  `window` reads a run of cells and wraps around
at the end; `fill` writes a list the same way.

`window_fill` is the rule of a ring: what is written behind a window extends
the window, as long as both fit into the ring.
-/

namespace MipsOs.Lib.Ring

variable {α : Type} {n : Int} {buff : Int → α} {start : Int}

/-- The `k` cells from `start` on. -/
def window (n : Int) (buff : Int → α) (start : Int) (k : Nat) : List α :=
  (List.range k).map fun i : Nat => buff ((start + i) % n)

/-- Write a list into the cells from `pos` on. -/
def fill (n : Int) : List α → Int → (Int → α) → Int → α
  | [], _, buff => buff
  | b :: rest, pos, buff => fill n rest (pos + 1) (Function.update buff (pos % n) b)

@[simp] theorem window_zero : window n buff start 0 = [] := rfl

@[simp] theorem window_length (k : Nat) : (window n buff start k).length = k := by
  simp [window]

/-- A window is a shorter window and what follows it. -/
theorem window_add (j k : Nat) :
    window n buff start (j + k) = window n buff start j ++ window n buff (start + j) k := by
  simp only [window, List.range_add, List.map_append, List.map_map]
  congr 1
  refine List.map_congr_left fun i _ => ?_
  simp [add_assoc]

/-- The start of a window counts modulo the size of the ring. -/
theorem window_emod (k : Nat) : window n buff (start % n) k = window n buff start k := by
  refine List.map_congr_left fun i _ => ?_
  rw [Int.emod_add_emod]

/-- Two cells of one turn of the ring are different. -/
theorem emod_ne {i k : Nat} (hi : i < k) (hk : (k : Int) < n) :
    (start + i) % n ≠ (start + k) % n := by
  intro heq
  have hdvd : n ∣ start + k - (start + i) :=
    Int.dvd_of_emod_eq_zero (Int.emod_eq_emod_iff_emod_sub_eq_zero.mp heq.symm)
  have hle := Int.le_of_dvd (by omega) hdvd
  omega

/-- One cell behind a window extends the window. -/
theorem window_update {k : Nat} (hk : (k : Int) < n) (b : α) :
    window n (Function.update buff ((start + k) % n) b) start (k + 1) =
      window n buff start k ++ [b] := by
  simp only [window, List.range_succ, List.map_append, List.map_cons, List.map_nil,
    Function.update_self]
  congr 1
  refine List.map_congr_left fun i hi => ?_
  exact Function.update_of_ne (emod_ne (List.mem_range.mp hi) hk) _ _

/-- A list behind a window extends the window. -/
theorem window_fill (msg : List α) {k : Nat} (hk : (k : Int) + msg.length ≤ n) :
    window n (fill n msg (start + k) buff) start (k + msg.length) =
      window n buff start k ++ msg := by
  induction msg generalizing k buff with
  | nil => simp [fill]
  | cons b rest ih =>
    have hlen : ((b :: rest).length : Int) = rest.length + 1 := by simp
    rw [hlen] at hk
    have hnext : ((k + 1 : Nat) : Int) + rest.length ≤ n := by
      push_cast
      omega
    have hpos : start + (k : Int) + 1 = start + ((k + 1 : Nat) : Int) := by
      push_cast
      ring
    rw [fill, hpos, List.length_cons, ← Nat.add_assoc, Nat.add_right_comm, ih hnext,
      window_update (by omega), List.append_assoc, List.singleton_append]

/-- Where the list starts counts modulo the size of the ring. -/
theorem fill_emod (msg : List α) (pos : Int) : fill n msg (pos % n) buff = fill n msg pos buff := by
  induction msg generalizing pos buff with
  | nil => rfl
  | cons b rest ih =>
    rw [fill, fill, Int.emod_emod_of_dvd _ dvd_rfl, ← ih, Int.emod_add_emod, ih]

end MipsOs.Lib.Ring
