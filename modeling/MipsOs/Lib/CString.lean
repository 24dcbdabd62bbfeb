import Mathlib

/-!
# C strings

A C string is the bytes in front of the terminating zero.  The functions are
those of a C library that works on `char *`, where `char` is signed.

`strcmp_eq_zero_iff` says that `strcmp` finds out whether two strings are
equal.
-/

namespace MipsOs.Lib

/-- A string without a zero byte. -/
structure CString where
  bytes : List UInt8
  nonzero : 0 ∉ bytes
  deriving DecidableEq

namespace CString

/-- The value of a `char`. -/
def charValue (b : UInt8) : Int := b.toInt8.toInt

/-- `s[i]`, for an index up to the terminating zero. -/
def charAt (s : CString) (i : Nat) : UInt8 := s.bytes.getD i 0

/-- `strlen` -/
def strlen (s : CString) : Nat := s.bytes.length

/-- The loop of `strcmp` from index `i` on, with `n` indices to go. -/
def strcmpLoop (s t : CString) (i : Nat) : Nat → Int
  | 0 => 0
  | n + 1 =>
    if charValue (s.charAt i) > charValue (t.charAt i) then 1
    else if charValue (s.charAt i) < charValue (t.charAt i) then -1
    else strcmpLoop s t (i + 1) n

/-- `strcmp` -/
def strcmp (s t : CString) : Int := strcmpLoop s t 0 (max s.strlen t.strlen)

variable {s t : CString}

theorem charValue_injective : Function.Injective charValue := by
  intro a b h
  exact congrArg Int8.toUInt8 (Int8.toInt_inj.mp h)

/-- An ASCII character is its code. -/
theorem charValue_of_lt {b : UInt8} (hb : b < 128) : charValue b = b.toNat := by
  have hlt : b.toNat < 128 := UInt8.lt_iff_toNat_lt.mp hb
  show b.toBitVec.toInt = b.toNat
  exact BitVec.toInt_eq_toNat_of_lt (show 2 * b.toNat < 2 ^ 8 by omega)

/-- The loop answers zero when all the characters it reads are equal. -/
theorem strcmpLoop_eq_zero_iff (s t : CString) (i n : Nat) :
    strcmpLoop s t i n = 0 ↔ ∀ j, i ≤ j → j < i + n → s.charAt j = t.charAt j := by
  induction n generalizing i with
  | zero =>
    refine iff_of_true rfl fun j hle hlt => ?_
    omega
  | succ n ih =>
    rw [strcmpLoop]
    split
    · rename_i hgt
      refine iff_of_false (by decide) fun h => ?_
      rw [h i le_rfl (by omega)] at hgt
      exact lt_irrefl _ hgt
    · split
      · rename_i hlt
        refine iff_of_false (by decide) fun h => ?_
        rw [h i le_rfl (by omega)] at hlt
        exact lt_irrefl _ hlt
      · have hhead : s.charAt i = t.charAt i := charValue_injective (by omega)
        rw [ih]
        constructor
        · intro h j hle hlt
          by_cases hj : j = i
          · rw [hj]
            exact hhead
          · exact h j (by omega) (by omega)
        · intro h j hle hlt
          exact h j (by omega) (by omega)

/-- A string is zero at its length and nowhere before it. -/
theorem charAt_eq_zero_iff (s : CString) (i : Nat) : s.charAt i = 0 ↔ s.strlen ≤ i := by
  by_cases hi : i < s.bytes.length
  · refine iff_of_false (fun hz => ?_) (by simpa [strlen] using hi)
    rw [charAt, List.getD_eq_getElem _ _ hi] at hz
    exact s.nonzero (hz ▸ List.getElem_mem hi)
  · refine iff_of_true ?_ (by simpa [strlen] using hi)
    rw [charAt, List.getD_eq_default _ _ (by omega)]

theorem ext_bytes (h : s.bytes = t.bytes) : s = t := by
  obtain ⟨bytes, hs⟩ := s
  obtain ⟨bytes', ht⟩ := t
  obtain rfl : bytes = bytes' := h
  rfl

theorem ext_charAt (h : ∀ i, s.charAt i = t.charAt i) : s = t := by
  have hlen : s.strlen = t.strlen := by
    refine le_antisymm ?_ ?_
    · rw [← charAt_eq_zero_iff, h, charAt_eq_zero_iff]
    · rw [← charAt_eq_zero_iff, ← h, charAt_eq_zero_iff]
  apply ext_bytes
  refine List.ext_getElem hlen fun i hs ht => ?_
  have hi := h i
  rw [charAt, charAt, List.getD_eq_getElem _ _ hs, List.getD_eq_getElem _ _ ht] at hi
  exact hi

theorem strcmp_eq_zero_iff : strcmp s t = 0 ↔ s = t := by
  rw [strcmp, strcmpLoop_eq_zero_iff]
  constructor
  · intro h
    refine ext_charAt fun i => ?_
    by_cases hi : i < max s.strlen t.strlen
    · exact h i (Nat.zero_le i) (by omega)
    · rw [(charAt_eq_zero_iff s i).mpr (by omega), (charAt_eq_zero_iff t i).mpr (by omega)]
  · rintro rfl j _ _
    rfl

end CString

end MipsOs.Lib
