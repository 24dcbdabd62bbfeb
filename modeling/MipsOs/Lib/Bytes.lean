import Mathlib

/-!
# Pages of bytes

A page is an array of `n` bytes.  It is read and written as little-endian
32-bit words at aligned offsets, as bits of such words, and as byte ranges.

A word is a natural number.  `word_setWord_same` and `word_setWord_of_ne`
say what a write of one word does to the words; `testBit_bitSet` and
`testBit_bitClear` say what the two bit operations do to the bits.
-/

namespace MipsOs.Lib

/-- A page of `n` bytes. -/
abbrev Bytes (n : Nat) := Fin n → UInt8

namespace Bytes

variable {n : Nat}

/-- One byte; `0` outside the page. -/
def get (b : Bytes n) (i : Nat) : UInt8 := if h : i < n then b ⟨i, h⟩ else 0

theorem get_eq (b : Bytes n) {i : Nat} (h : i < n) : b.get i = b ⟨i, h⟩ := dif_pos h

/-- The word `k`, little endian. -/
def word (b : Bytes n) (k : Nat) : Nat :=
  (b.get (4 * k)).toNat + 2 ^ 8 * (b.get (4 * k + 1)).toNat +
    2 ^ 16 * (b.get (4 * k + 2)).toNat + 2 ^ 24 * (b.get (4 * k + 3)).toNat

/-- Write the word `k`. -/
def setWord (b : Bytes n) (k : Nat) (v : Nat) : Bytes n := fun j =>
  if (j : Nat) / 4 = k then UInt8.ofNat (v / 2 ^ (8 * ((j : Nat) % 4))) else b j

/-- Write a list of bytes from `off` on. -/
def paste (b : Bytes n) (off : Nat) (src : List UInt8) : Bytes n := fun j =>
  if off ≤ j ∧ (j : Nat) < off + src.length then src.getD (j - off) 0 else b j

/-! ## Words -/

theorem word_lt (b : Bytes n) (k : Nat) : b.word k < 2 ^ 32 := by
  have h0 := (b.get (4 * k)).toNat_lt
  have h1 := (b.get (4 * k + 1)).toNat_lt
  have h2 := (b.get (4 * k + 2)).toNat_lt
  have h3 := (b.get (4 * k + 3)).toNat_lt
  unfold word
  omega

/-- A word depends on its four bytes only. -/
theorem word_congr {b b' : Bytes n} {k : Nat}
    (h : ∀ i, 4 * k ≤ i → i < 4 * k + 4 → b'.get i = b.get i) :
    b'.word k = b.word k := by
  unfold word
  rw [h (4 * k) (by omega) (by omega), h (4 * k + 1) (by omega) (by omega),
    h (4 * k + 2) (by omega) (by omega), h (4 * k + 3) (by omega) (by omega)]

theorem get_setWord (b : Bytes n) (k v i : Nat) :
    (b.setWord k v).get i =
      if i < n ∧ i / 4 = k then UInt8.ofNat (v / 2 ^ (8 * (i % 4))) else b.get i := by
  by_cases hi : i < n
  · rw [get_eq _ hi, get_eq _ hi, setWord]
    simp only [hi, true_and]
  · simp [get, hi]

theorem word_setWord_of_ne (b : Bytes n) {k l : Nat} (h : l ≠ k) (v : Nat) :
    (b.setWord k v).word l = b.word l := by
  refine word_congr fun i hlo hhi => ?_
  rw [get_setWord, if_neg]
  omega

theorem word_setWord_same (b : Bytes n) {k : Nat} (hk : 4 * k + 3 < n) {v : Nat}
    (hv : v < 2 ^ 32) : (b.setWord k v).word k = v := by
  unfold word
  rw [get_setWord, get_setWord, get_setWord, get_setWord,
    if_pos ⟨by omega, by omega⟩, if_pos ⟨by omega, by omega⟩, if_pos ⟨by omega, by omega⟩,
    if_pos ⟨by omega, by omega⟩,
    show 8 * (4 * k % 4) = 0 by omega, show 8 * ((4 * k + 1) % 4) = 8 by omega,
    show 8 * ((4 * k + 2) % 4) = 16 by omega, show 8 * ((4 * k + 3) % 4) = 24 by omega]
  simp only [UInt8.toNat_ofNat']
  omega

/-- Reading back a written word, wherever it is. -/
theorem word_setWord (b : Bytes n) {k l : Nat} (hk : 4 * k + 3 < n) {v : Nat}
    (hv : v < 2 ^ 32) : (b.setWord k v).word l = if l = k then v else b.word l := by
  split
  · rename_i h
    rw [h, word_setWord_same b hk hv]
  · rename_i h
    exact word_setWord_of_ne b h v

/-- Words that are written in a row from `c + i` on leave those in front of
them. -/
theorem word_putWords_of_lt (ws : List Nat) {c i l : Nat} (hl : l < c + i) (b : Bytes n) :
    ((ws.zipIdx i).foldl (fun b (v, a) => setWord b (c + a) v) b).word l = b.word l := by
  induction ws generalizing i b with
  | nil => rfl
  | cons w ws ih =>
    rw [List.zipIdx_cons, List.foldl_cons, ih (by omega)]
    exact word_setWord_of_ne _ (by omega) _

/-- And those behind them. -/
theorem word_putWords_of_ge (ws : List Nat) {c i l : Nat} (hl : c + i + ws.length ≤ l)
    (b : Bytes n) :
    ((ws.zipIdx i).foldl (fun b (v, a) => setWord b (c + a) v) b).word l = b.word l := by
  induction ws generalizing i b with
  | nil => rfl
  | cons w ws ih =>
    rw [List.length_cons] at hl
    rw [List.zipIdx_cons, List.foldl_cons, ih (by omega)]
    exact word_setWord_of_ne _ (by omega) _

/-- Each of the words lands in its place. -/
theorem word_putWords (ws : List Nat) {c i j v : Nat} (hv : v < 2 ^ 32)
    (hfits : 4 * (c + i + ws.length) ≤ n) (hget : ws[j]? = some v) (b : Bytes n) :
    ((ws.zipIdx i).foldl (fun b (v, a) => setWord b (c + a) v) b).word (c + (i + j)) = v := by
  induction ws generalizing i j b with
  | nil => cases hget
  | cons w ws ih =>
    rw [List.length_cons] at hfits
    rw [List.zipIdx_cons, List.foldl_cons]
    cases j with
    | zero =>
      obtain rfl : w = v := Option.some.inj hget
      rw [word_putWords_of_lt ws (by omega)]
      exact word_setWord_same _ (by omega) hv
    | succ j =>
      have hnext := ih (i := i + 1) (j := j) (by omega) hget (setWord b (c + i) w)
      rwa [show i + 1 + j = i + (j + 1) by omega] at hnext

/-- The bytes of a word. -/
theorem toNat_get_word (b : Bytes n) (k : Nat) {i : Nat} (hi : i < 4) :
    (b.get (4 * k + i)).toNat = b.word k / 2 ^ (8 * i) % 2 ^ 8 := by
  have h0 := (b.get (4 * k)).toNat_lt
  have h1 := (b.get (4 * k + 1)).toNat_lt
  have h2 := (b.get (4 * k + 2)).toNat_lt
  have h3 := (b.get (4 * k + 3)).toNat_lt
  unfold word
  interval_cases i
  · rw [Nat.add_zero]
    omega
  · omega
  · omega
  · omega

theorem setWord_setWord (b : Bytes n) (k v w : Nat) :
    (b.setWord k v).setWord k w = b.setWord k w := by
  funext j
  unfold setWord
  split
  · rfl
  · rfl

/-- Writing the word that is there changes nothing. -/
theorem setWord_word (b : Bytes n) (k : Nat) : b.setWord k (b.word k) = b := by
  funext j
  unfold setWord
  split
  · rename_i hj
    have hplace : (j : Nat) = 4 * k + j % 4 := by omega
    have hbyte := toNat_get_word b k (Nat.mod_lt (j : Nat) (show 0 < 4 by decide))
    rw [← hplace, get_eq b j.isLt] at hbyte
    apply UInt8.toNat_inj.mp
    rw [UInt8.toNat_ofNat', ← hbyte]
  · rfl

/-- Writing the words that are there changes nothing. -/
theorem putWords_word (ws : List Nat) {c i : Nat} (b : Bytes n)
    (h : ∀ j v, ws[j]? = some v → v = b.word (c + (i + j))) :
    (ws.zipIdx i).foldl (fun b (v, a) => setWord b (c + a) v) b = b := by
  induction ws generalizing i with
  | nil => rfl
  | cons w ws ih =>
    have hfirst : w = b.word (c + i) := h 0 w rfl
    rw [List.zipIdx_cons, List.foldl_cons]
    show (ws.zipIdx (i + 1)).foldl _ (setWord b (c + i) w) = b
    rw [hfirst, setWord_word]
    apply ih
    intro j v hget
    rw [h (j + 1) v hget, Nat.add_assoc i, Nat.add_comm 1]

/-! ## Byte ranges -/

theorem get_paste (b : Bytes n) (off : Nat) (src : List UInt8) (i : Nat) :
    (b.paste off src).get i =
      if i < n ∧ off ≤ i ∧ i < off + src.length then src.getD (i - off) 0
      else b.get i := by
  by_cases hi : i < n
  · rw [get_eq _ hi, get_eq _ hi, paste]
    simp only [hi, true_and]
  · simp [get, hi]

/-! ## Copies inside of a page

The offsets are integers, and may lie outside of the page: a byte there reads as
`0`, and a write there is lost. -/

/-- One byte. -/
def getAt (b : Bytes n) (i : Int) : UInt8 := if i < 0 then 0 else b.get i.toNat

/-- Write one byte. -/
def putAt (b : Bytes n) (i : Int) (v : UInt8) : Bytes n := fun j => if (j : Int) = i then v else b j

/-- Copy `len` bytes from `src` on to `dst`, one after the other. -/
def memcpy (b : Bytes n) (dst src : Int) : Nat → Bytes n
  | 0 => b
  | len + 1 => (b.putAt dst (b.getAt src)).memcpy (dst + 1) (src + 1) len

/-- Write `v` to the `len` bytes from `off` on. -/
def memset (b : Bytes n) (off : Int) (v : UInt8) (len : Nat) : Bytes n := fun j =>
  if off ≤ j ∧ (j : Int) < off + len then v else b j

theorem getAt_natCast (b : Bytes n) (i : Nat) : b.getAt i = b.get i := by
  rw [getAt, if_neg (by omega), Int.toNat_natCast]

theorem get_putAt (b : Bytes n) {i : Nat} (hi : i < n) (v : UInt8) (k : Nat) :
    (b.putAt i v).get k = if k = i then v else b.get k := by
  by_cases hk : k < n
  · rw [get_eq _ hk, get_eq _ hk, putAt]
    simp only [Nat.cast_inj]
  · rw [if_neg (by omega), get, get, dif_neg hk, dif_neg hk]

theorem get_memset (b : Bytes n) (off len : Nat) (v : UInt8) (k : Nat) :
    (b.memset off v len).get k = if k < n ∧ off ≤ k ∧ k < off + len then v else b.get k := by
  by_cases hk : k < n
  · rw [get_eq _ hk, get_eq _ hk, memset]
    have hiff : ((off : Int) ≤ k ∧ (k : Int) < (off : Int) + len) ↔
        k < n ∧ off ≤ k ∧ k < off + len := by omega
    simp only [hiff]
  · simp [get, hk]

/-- A copy to a lower offset moves the bytes, also when the ranges overlap. -/
theorem get_memcpy (b : Bytes n) {dst src len : Nat} (hlt : dst < src) (hfits : src + len ≤ n)
    (k : Nat) :
    (b.memcpy dst src len).get k =
      if dst ≤ k ∧ k < dst + len then b.get (k + (src - dst)) else b.get k := by
  induction len generalizing b dst src with
  | zero => rw [memcpy, if_neg (by omega)]
  | succ len ih =>
    have hnext : (b.memcpy dst src (len + 1)) =
        (b.putAt dst (b.get src)).memcpy (dst + 1 : Nat) (src + 1 : Nat) len := by
      rw [memcpy, getAt_natCast]
      push_cast
      rfl
    rw [hnext, ih _ (by omega) (by omega), get_putAt _ (by omega), get_putAt _ (by omega),
      show src + 1 - (dst + 1) = src - dst by omega]
    by_cases hrest : dst + 1 ≤ k ∧ k < dst + 1 + len
    · rw [if_pos hrest, if_neg (by omega), if_pos (by omega)]
    · rw [if_neg hrest]
      by_cases hfirst : k = dst
      · rw [if_pos hfirst, if_pos (by omega), hfirst, show dst + (src - dst) = src by omega]
      · rw [if_neg hfirst, if_neg (by omega)]

end Bytes

/-! ## Bits of a word -/

/-- `x | (1 << o)` on 32-bit words -/
def bitSet (x o : Nat) : Nat := x ||| 2 ^ o

/-- `x & ~(1 << o)` on 32-bit words -/
def bitClear (x o : Nat) : Nat := x &&& (2 ^ 32 - (2 ^ o + 1))

theorem bitSet_lt {x o : Nat} (hx : x < 2 ^ 32) (ho : o < 32) : bitSet x o < 2 ^ 32 :=
  Nat.or_lt_two_pow hx (Nat.pow_lt_pow_right (by decide) ho)

theorem bitClear_lt {x : Nat} (hx : x < 2 ^ 32) (o : Nat) : bitClear x o < 2 ^ 32 :=
  lt_of_le_of_lt Nat.and_le_left hx

theorem testBit_bitSet (x o j : Nat) :
    (bitSet x o).testBit j = (x.testBit j || decide (o = j)) := by
  rw [bitSet, Nat.testBit_or, Nat.testBit_two_pow]

theorem testBit_bitClear {x o j : Nat} (ho : o < 32) (hj : j < 32) :
    (bitClear x o).testBit j = (x.testBit j && decide (o ≠ j)) := by
  have hpow : 2 ^ o < 2 ^ 32 := Nat.pow_lt_pow_right (by decide) ho
  rw [bitClear, Nat.testBit_and, Nat.testBit_two_pow_sub_succ hpow, Nat.testBit_two_pow]
  simp [hj]

/-- Clearing a bit that was set anew gives the word back. -/
theorem bitClear_bitSet {x o : Nat} (hx : x < 2 ^ 32) (ho : o < 32) (hbit : x.testBit o = false) :
    bitClear (bitSet x o) o = x := by
  apply Nat.eq_of_testBit_eq
  intro j
  by_cases hj : j < 32
  · rw [testBit_bitClear ho hj, testBit_bitSet]
    by_cases heq : o = j
    · rw [← heq, hbit]
      simp
    · simp [heq]
  · have hbig : ∀ y < 2 ^ 32, y.testBit j = false := fun y hy =>
      Nat.testBit_lt_two_pow (lt_of_lt_of_le hy (Nat.pow_le_pow_right (by decide) (by omega)))
    rw [hbig _ (bitClear_lt (bitSet_lt hx ho) o), hbig x hx]

end MipsOs.Lib
