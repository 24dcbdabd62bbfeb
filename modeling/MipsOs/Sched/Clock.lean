import MipsOs.Sched.Agreement

/-!
# The elapsed time

`update_time_elapsed` adds up the differences between the readings of the count
register, which has 32 bits.  A reading that is not above the last one is taken
for a wrap, and the branch adds `0xffffffff` for the period of 2^32.  So a wrap
costs one tick, and a reading that repeats the last one adds 2^32 - 1 ticks.

`Sampled` is a sequence of true counts that the register can follow.
`sampled_drift` says how far `time_elapsed` is from the true count after any
number of calls, and `time_elapsed_exact_iff` when it is there at every call.
-/

namespace MipsOs.Sched

open MipsOs.Lib

/-- The true counts at the first `n` calls: `t i` at call `i`, and `t 0` at the
start.  Between two calls the register does not pass a whole period. -/
structure Sampled (t : Nat → Nat) (n : Nat) : Prop where
  start : t 0 = 0
  mono : ∀ i < n, t i ≤ t (i + 1)
  close : ∀ i < n, t (i + 1) < t i + 2 ^ 32

/-- The calls that find the count of the call before. -/
def repeats (t : Nat → Nat) : Nat → Nat
  | 0 => 0
  | n + 1 => if t (n + 1) = t n then repeats t n + 1 else repeats t n

section Readings

variable {t t' : Nat}

/-- A reading above the last one: the counts differ by as much. -/
theorem reading_above (hclose : t' < t + 2 ^ 32) (hmono : t ≤ t')
    (h : t % 2 ^ 32 < t' % 2 ^ 32) :
    t < t' ∧ t' / 2 ^ 32 = t / 2 ^ 32 ∧ t' % 2 ^ 32 - t % 2 ^ 32 = t' - t := by
  omega

/-- A reading below the last one: the register has wrapped once. -/
theorem reading_below (hclose : t' < t + 2 ^ 32) (hmono : t ≤ t')
    (h : t' % 2 ^ 32 < t % 2 ^ 32) :
    t < t' ∧ t' / 2 ^ 32 = t / 2 ^ 32 + 1 ∧
      t' + t % 2 ^ 32 = t + 2 ^ 32 + t' % 2 ^ 32 := by
  omega

/-- The same reading: no time has passed. -/
theorem reading_same (hclose : t' < t + 2 ^ 32) (hmono : t ≤ t')
    (h : t' % 2 ^ 32 = t % 2 ^ 32) : t' = t := by
  omega

end Readings

variable {H : Type}

namespace Kernel

/-- The kernel after the first `n` calls of `update_time_elapsed`. -/
def sampled (k : Kernel H) (t : Nat → Nat) : Nat → Kernel H
  | 0 => k
  | n + 1 => (sampled k t n).updateTimeElapsed (t (n + 1) % 2 ^ 32)

variable {k : Kernel H} {t t' e : Nat}

/-- What one call adds: the difference, one tick less at a wrap, and 2^32 - 1 at
a repeated reading. -/
theorem updateTimeElapsed_eq (hlast : k.lastCp0Count = t % 2 ^ 32)
    (hmono : t ≤ t') (hclose : t' < t + 2 ^ 32) :
    (k.updateTimeElapsed (t' % 2 ^ 32)).timeElapsed =
      if t' = t then (k.timeElapsed + (2 ^ 32 - 1)) % 2 ^ 64
      else (k.timeElapsed + (t' - t) - (t' / 2 ^ 32 - t / 2 ^ 32)) % 2 ^ 64 := by
  simp only [updateTimeElapsed, hlast]
  rcases Nat.lt_trichotomy (t % 2 ^ 32) (t' % 2 ^ 32) with hlt | heq | hgt
  · obtain ⟨hlt', hperiod, hdiff⟩ := reading_above hclose hmono hlt
    rw [if_pos hlt, if_neg (by omega), hperiod, Nat.sub_self, Nat.sub_zero]
    congr 1
    omega
  · obtain rfl := reading_same hclose hmono heq.symm
    rw [if_neg (by omega), if_pos rfl]
    congr 1
    omega
  · obtain ⟨hlt', hperiod, hdiff⟩ := reading_below hclose hmono hgt
    rw [if_neg (by omega), if_neg (by omega), hperiod]
    congr 1
    omega

/-- A call keeps `time_elapsed` at the true count exactly when the reading is
above the last one. -/
theorem updateTimeElapsed_exact_iff (hlast : k.lastCp0Count = t % 2 ^ 32)
    (hexact : k.timeElapsed = t) (hmono : t ≤ t') (hclose : t' < t + 2 ^ 32)
    (hbound : t' < 2 ^ 64) :
    (k.updateTimeElapsed (t' % 2 ^ 32)).timeElapsed = t' ↔
      t < t' ∧ t' / 2 ^ 32 = t / 2 ^ 32 := by
  rw [updateTimeElapsed_eq hlast hmono hclose, hexact]
  split
  · rename_i hsame
    subst hsame
    omega
  · rename_i hne
    omega

end Kernel

section Runs

variable {t : Nat → Nat} {n i : Nat}

theorem Sampled.of_le (h : Sampled t n) (hi : i ≤ n) : Sampled t i where
  start := h.start
  mono j hj := h.mono j (by omega)
  close j hj := h.close j (by omega)

theorem Sampled.le (h : Sampled t n) (hi : i ≤ n) : t i ≤ t n := by
  induction n with
  | zero =>
    obtain rfl : i = 0 := by omega
    exact le_rfl
  | succ n ih =>
    rcases Nat.lt_or_ge n i with hlt | hge
    · obtain rfl : i = n + 1 := by omega
      exact le_rfl
    · exact (ih (h.of_le (by omega)) hge).trans (h.mono n (by omega))

/-- The register holds the last reading. -/
theorem sampled_last {k : Kernel H} (hstart : k.lastCp0Count = 0) (h : Sampled t n) :
    (k.sampled t n).lastCp0Count = t n % 2 ^ 32 := by
  cases n with
  | zero => rw [h.start]; exact hstart
  | succ n => rfl

/-- After `n` calls `time_elapsed` has lost a tick for every wrap and won
2^32 - 1 ticks for every repeated reading. -/
theorem sampled_drift {k : Kernel H} (hzero : k.timeElapsed = 0) (hstart : k.lastCp0Count = 0)
    (h : Sampled t n) :
    ((k.sampled t n).timeElapsed + t n / 2 ^ 32) % 2 ^ 64 =
      (t n + (2 ^ 32 - 1) * repeats t n) % 2 ^ 64 := by
  induction n with
  | zero =>
    show (k.timeElapsed + t 0 / 2 ^ 32) % 2 ^ 64 = _
    simp [hzero, h.start, repeats]
  | succ n ih =>
    have hbefore := ih (h.of_le (by omega))
    have hmono := h.mono n (by omega)
    have hclose := h.close n (by omega)
    have hlast := sampled_last hstart (h.of_le (Nat.le_succ n))
    have hstep := Kernel.updateTimeElapsed_eq hlast hmono hclose
    show (((k.sampled t n).updateTimeElapsed _).timeElapsed + _) % _ = _
    rw [hstep, repeats]
    split
    · rename_i hsame
      rw [hsame, Nat.mul_succ]
      omega
    · rename_i hne
      omega

/-- `time_elapsed` is the true count after each of the first `n` calls exactly
when every reading is new and the register has not wrapped. -/
theorem time_elapsed_exact_iff (barrier : BarrierId → Barrier) (tables : Nat → Nat → Nat)
    (h : Sampled t n) (hbound : t n < 2 ^ 64) :
    (∀ i ≤ n, ((bootKernel barrier tables).sampled t i).timeElapsed = t i) ↔
      ∀ i < n, t i < t (i + 1) ∧ t (i + 1) < 2 ^ 32 := by
  have hstep : ∀ i < n, ((bootKernel barrier tables).sampled t i).timeElapsed = t i →
      (((bootKernel barrier tables).sampled t (i + 1)).timeElapsed = t (i + 1) ↔
        t i < t (i + 1) ∧ t (i + 1) / 2 ^ 32 = t i / 2 ^ 32) := by
    intro i hi hexact
    have hle := h.le (show i + 1 ≤ n by omega)
    exact Kernel.updateTimeElapsed_exact_iff (sampled_last rfl (h.of_le (by omega))) hexact
      (h.mono i hi) (h.close i hi) (by omega)
  constructor
  · intro hexact
    have hfirst : ∀ i ≤ n, t i < 2 ^ 32 := by
      intro i hi
      induction i with
      | zero =>
        have := h.start
        omega
      | succ i ih =>
        have := ih (by omega)
        have hnew := ((hstep i (by omega) (hexact i (by omega))).mp (hexact (i + 1) hi)).2
        omega
    intro i hi
    have hnew := (hstep i hi (hexact i (by omega))).mp (hexact (i + 1) (by omega))
    exact ⟨hnew.1, hfirst (i + 1) (by omega)⟩
  · intro hnew i hi
    induction i with
    | zero => exact h.start.symm
    | succ i ih =>
      obtain ⟨hlt, hfirst⟩ := hnew i (by omega)
      rw [hstep i (by omega) (ih (by omega))]
      omega

/-- Three readings in the first period. -/
theorem first_period_exact :
    (blankKernel.sampled (fun i => 1000 * i) 3).timeElapsed = 1000 * 3 := by
  have h : Sampled (fun i => 1000 * i) 3 := ⟨rfl, fun i _ => by omega,
    fun i _ => by omega⟩
  exact (time_elapsed_exact_iff _ _ h (by decide)).mpr (fun i hi => by omega) 3 (le_refl 3)

/-- The register wraps between the first call and the second, and a tick is
lost. -/
theorem wrap_loses_tick :
    ¬ ∀ (t : Nat → Nat) (n : Nat), Sampled t n → t n < 2 ^ 64 →
      ∀ i ≤ n, (blankKernel.sampled t i).timeElapsed = t i := by
  intro hall
  have h : Sampled (fun i => (2 ^ 32 - 1) * i) 2 := ⟨rfl, fun i _ => by omega,
    fun i _ => by omega⟩
  have := hall _ 2 h (by decide) 2 (le_refl 2)
  revert this
  decide

end Runs

end MipsOs.Sched
