import Mathlib

/-!
# A memory of bytes and the stores to it

A memory gives every address a byte.  What a program does to it is a list of
stores, each of some bytes from an address on: the memory afterwards is what the last
store to each address has left, and a statement about the stores themselves says
where the program writes.

`holdsBytes_storeAll` reads back a store that nothing behind it covers.  Words are little
endian, and `HoldsString` is a C string; a memory holds at most one at an address.
-/

namespace MipsOs.Lib

/-- A memory of bytes. -/
abbrev ByteMem := Nat → UInt8

/-- A store of some bytes from an address on. -/
structure Store where
  addr : Nat
  bytes : List UInt8
  deriving DecidableEq, Repr

namespace Store

/-- The address is one that the store writes to. -/
def Covers (s : Store) (a : Nat) : Prop := s.addr ≤ a ∧ a < s.addr + s.bytes.length

instance (s : Store) (a : Nat) : Decidable (s.Covers a) := inferInstanceAs (Decidable (_ ∧ _))

/-- The store writes to addresses of the range only. -/
def Within (s : Store) (lo hi : Nat) : Prop := lo ≤ s.addr ∧ s.addr + s.bytes.length ≤ hi

instance (s : Store) (lo hi : Nat) : Decidable (s.Within lo hi) :=
  inferInstanceAs (Decidable (_ ∧ _))

/-- The memory after the store. -/
def apply (s : Store) (m : ByteMem) : ByteMem := fun a =>
  if s.Covers a then s.bytes.getD (a - s.addr) 0 else m a

theorem Within.not_covers {s : Store} {lo hi a : Nat} (h : s.Within lo hi) (ha : a < lo ∨ hi ≤ a) :
    ¬ s.Covers a := by
  unfold Within at h
  unfold Covers
  omega

theorem Within.mono {s : Store} {lo hi lo' hi' : Nat} (h : s.Within lo hi) (hlo : lo' ≤ lo)
    (hhi : hi ≤ hi') : s.Within lo' hi' :=
  ⟨le_trans hlo h.1, le_trans h.2 hhi⟩

end Store

variable {m : ByteMem} {a : Nat} {l l' : List UInt8} {xs ys : List Store} {s : Store}

/-- The memory after the stores. -/
def storeAll (m : ByteMem) (l : List Store) : ByteMem := l.foldl (fun m s => s.apply m) m

@[simp] theorem storeAll_nil (m : ByteMem) : storeAll m [] = m := rfl

theorem storeAll_append (m : ByteMem) (xs ys : List Store) :
    storeAll m (xs ++ ys) = storeAll (storeAll m xs) ys :=
  List.foldl_append

/-- What no store covers stays. -/
theorem storeAll_of_not_covers (h : ∀ s ∈ xs, ¬ s.Covers a) : storeAll m xs a = m a := by
  induction xs generalizing m with
  | nil => rfl
  | cons s xs ih =>
    show storeAll (s.apply m) xs a = m a
    rw [ih fun t ht => h t (List.mem_cons_of_mem _ ht)]
    exact if_neg (h s List.mem_cons_self)

/-- The last store to an address decides. -/
theorem storeAll_last (hs : s.Covers a) (hys : ∀ t ∈ ys, ¬ t.Covers a) :
    storeAll m (xs ++ s :: ys) a = s.bytes.getD (a - s.addr) 0 := by
  rw [storeAll_append]
  show storeAll (s.apply (storeAll m xs)) ys a = _
  rw [storeAll_of_not_covers hys]
  exact if_pos hs

/-! ## Bytes in a row -/

/-- The memory holds the bytes from the address on. -/
def HoldsBytes (m : ByteMem) (a : Nat) (l : List UInt8) : Prop :=
  ∀ k < l.length, m (a + k) = l.getD k 0

theorem holdsBytes_append :
    HoldsBytes m a (l ++ l') ↔ HoldsBytes m a l ∧ HoldsBytes m (a + l.length) l' := by
  constructor
  · intro h
    refine ⟨fun k hk => ?_, fun k hk => ?_⟩
    · have hbyte := h k (by rw [List.length_append]; omega)
      rwa [List.getD_append _ _ _ _ hk] at hbyte
    · have hbyte := h (l.length + k) (by rw [List.length_append]; omega)
      rwa [List.getD_append_right _ _ _ _ (Nat.le_add_right _ _), Nat.add_sub_cancel_left,
        ← Nat.add_assoc] at hbyte
  · rintro ⟨hfirst, hsecond⟩ k hk
    rcases Nat.lt_or_ge k l.length with hlt | hge
    · rw [List.getD_append _ _ _ _ hlt]
      exact hfirst k hlt
    · rw [List.length_append] at hk
      rw [List.getD_append_right _ _ _ _ hge, ← hsecond (k - l.length) (by omega)]
      congr 1
      omega

theorem holdsBytes_cons {b : UInt8} :
    HoldsBytes m a (b :: l) ↔ m a = b ∧ HoldsBytes m (a + 1) l := by
  rw [← List.singleton_append, holdsBytes_append]
  apply and_congr_left'
  constructor
  · intro h
    exact h 0 Nat.one_pos
  · intro h k hk
    obtain rfl : k = 0 := by
      rw [List.length_singleton] at hk
      omega
    exact h

/-- The first `n` bytes of a store are read back when nothing behind it covers them. -/
theorem holdsBytes_storeAll (xs : List Store) {n : Nat}
    (hys : ∀ t ∈ ys, ∀ b, s.addr ≤ b → b < s.addr + n → ¬ t.Covers b) :
    HoldsBytes (storeAll m (xs ++ s :: ys)) s.addr (s.bytes.take n) := by
  intro k hk
  rw [List.length_take] at hk
  have hcovers : s.Covers (s.addr + k) := by
    unfold Store.Covers
    omega
  rw [storeAll_last hcovers fun t ht => hys t ht _ (by omega) (by omega), Nat.add_sub_cancel_left,
    List.getD_eq_getElem _ _ (show k < s.bytes.length by omega),
    List.getD_eq_getElem _ _ (show k < (s.bytes.take n).length by rw [List.length_take]; exact hk),
    List.getElem_take]

/-! ## Words -/

/-- The `n` bytes of a number, little endian. -/
def leBytes : Nat → Nat → List UInt8
  | 0, _ => []
  | n + 1, v => UInt8.ofNat v :: leBytes n (v / 2 ^ 8)

/-- The number in `n` bytes, little endian. -/
def loadLe (m : ByteMem) : Nat → Nat → Nat
  | _, 0 => 0
  | a, n + 1 => (m a).toNat + 2 ^ 8 * loadLe m (a + 1) n

@[simp] theorem length_leBytes (n v : Nat) : (leBytes n v).length = n := by
  induction n generalizing v with
  | zero => rfl
  | succ n ih => rw [leBytes, List.length_cons, ih]

/-- A number that was stored is loaded, modulo the size of the word. -/
theorem loadLe_of_holdsBytes {n v : Nat} (h : HoldsBytes m a (leBytes n v)) :
    loadLe m a n = v % 2 ^ (8 * n) := by
  induction n generalizing a v with
  | zero => rw [loadLe, Nat.mul_zero, Nat.pow_zero, Nat.mod_one]
  | succ n ih =>
    obtain ⟨hfirst, hrest⟩ := holdsBytes_cons.mp h
    rw [loadLe, ih hrest, hfirst, UInt8.toNat_ofNat', Nat.mul_succ, Nat.pow_add,
      Nat.mul_comm (2 ^ (8 * n)), Nat.mod_mul]

/-- `uint64_t` -/
def loadWord (m : ByteMem) (a : Nat) : Nat := loadLe m a 8

/-- The bytes of a `uint64_t`. -/
def wordBytes (v : Nat) : List UInt8 := leBytes 8 v

@[simp] theorem length_wordBytes (v : Nat) : (wordBytes v).length = 8 := length_leBytes 8 v

theorem loadWord_of_holdsBytes {v : Nat} (h : HoldsBytes m a (wordBytes v)) (hv : v < 2 ^ 64) :
    loadWord m a = v := by
  rw [loadWord, loadLe_of_holdsBytes h]
  exact Nat.mod_eq_of_lt hv

/-- A word that was stored and not covered since is loaded. -/
theorem loadWord_storeAll (xs : List Store) {v : Nat} (hs : s.bytes = wordBytes v) (hv : v < 2 ^ 64)
    (hys : ∀ t ∈ ys, ∀ b, s.addr ≤ b → b < s.addr + 8 → ¬ t.Covers b) :
    loadWord (storeAll m (xs ++ s :: ys)) s.addr = v := by
  have hholds := holdsBytes_storeAll (m := m) xs hys
  rw [hs, List.take_of_length_le (length_wordBytes v).le] at hholds
  exact loadWord_of_holdsBytes hholds hv

/-- A word that no store covers stays. -/
theorem loadWord_of_not_covers (h : ∀ t ∈ xs, ∀ b, a ≤ b → b < a + 8 → ¬ t.Covers b) :
    loadWord (storeAll m xs) a = loadWord m a := by
  have hbyte : ∀ k < 8, storeAll m xs (a + k) = m (a + k) := fun k hk =>
    storeAll_of_not_covers fun t ht => h t ht _ (by omega) (by omega)
  unfold loadWord
  simp only [loadLe, Nat.add_assoc]
  rw [← Nat.add_zero a, hbyte 0 (by omega), hbyte 1 (by omega), hbyte 2 (by omega),
    hbyte 3 (by omega), hbyte 4 (by omega), hbyte 5 (by omega), hbyte 6 (by omega),
    hbyte 7 (by omega)]

/-- The second byte of a word. -/
theorem loadWord_secondByte (m : ByteMem) (a : Nat) :
    loadWord m a / 2 ^ 8 % 2 ^ 8 = (m (a + 1)).toNat := by
  have hfirst := (m a).toNat_lt
  have hsecond := (m (a + 1)).toNat_lt
  unfold loadWord
  rw [loadLe, loadLe]
  omega

/-! ## Strings -/

/-- The memory holds the string and its terminating zero. -/
def HoldsString (m : ByteMem) (a : Nat) (l : List UInt8) : Prop := HoldsBytes m a (l ++ [0]) ∧ 0 ∉ l

theorem holdsString_nil : HoldsString m a [] ↔ m a = 0 := by
  unfold HoldsString
  rw [List.nil_append, holdsBytes_cons]
  exact ⟨fun h => h.1.1, fun h => ⟨⟨h, fun k hk => absurd hk (Nat.not_lt_zero _)⟩,
    List.not_mem_nil⟩⟩

theorem holdsString_cons {b : UInt8} :
    HoldsString m a (b :: l) ↔ (m a = b ∧ b ≠ 0) ∧ HoldsString m (a + 1) l := by
  unfold HoldsString
  rw [List.cons_append, holdsBytes_cons, List.mem_cons, not_or]
  constructor
  · rintro ⟨⟨hfirst, hrest⟩, hne, hnot⟩
    exact ⟨⟨hfirst, Ne.symm hne⟩, hrest, hnot⟩
  · rintro ⟨⟨hfirst, hne⟩, hrest, hnot⟩
    exact ⟨⟨hfirst, hrest⟩, hne.symm, hnot⟩

/-- There is one string at an address. -/
theorem HoldsString.unique (h : HoldsString m a l) (h' : HoldsString m a l') : l = l' := by
  induction l generalizing a l' with
  | nil =>
    cases l' with
    | nil => rfl
    | cons b l' =>
      obtain ⟨⟨hfirst, hne⟩, _⟩ := holdsString_cons.mp h'
      exact absurd (hfirst.symm.trans (holdsString_nil.mp h)) hne
  | cons b l ih =>
    obtain ⟨⟨hfirst, hne⟩, hrest⟩ := holdsString_cons.mp h
    cases l' with
    | nil => exact absurd (hfirst.symm.trans (holdsString_nil.mp h')) hne
    | cons b' l' =>
      obtain ⟨⟨hfirst', _⟩, hrest'⟩ := holdsString_cons.mp h'
      rw [← hfirst, hfirst', ih hrest hrest']

/-- The end of a string is a string. -/
theorem HoldsString.drop (h : HoldsString m a (l ++ l')) : HoldsString m (a + l.length) l' := by
  obtain ⟨hholds, hnot⟩ := h
  rw [List.append_assoc] at hholds
  exact ⟨(holdsBytes_append.mp hholds).2, fun hmem => hnot (List.mem_append_right _ hmem)⟩

/-- Read the string at an address; `none` when it is not shorter than `fuel`. -/
def readString (m : ByteMem) : Nat → Nat → Option (List UInt8)
  | 0, _ => none
  | fuel + 1, a => if m a = 0 then some [] else (readString m fuel (a + 1)).map (m a :: ·)

theorem readString_eq_some {fuel : Nat} :
    readString m fuel a = some l ↔ HoldsString m a l ∧ l.length < fuel := by
  induction fuel generalizing a l with
  | zero => exact iff_of_false (fun h => by cases h) fun h => absurd h.2 (Nat.not_lt_zero _)
  | succ fuel ih =>
    rw [readString]
    split
    · rename_i hzero
      constructor
      · intro h
        obtain rfl : [] = l := Option.some.inj h
        exact ⟨holdsString_nil.mpr hzero, Nat.succ_pos _⟩
      · rintro ⟨h, _⟩
        rw [h.unique (holdsString_nil.mpr hzero)]
    · rename_i hne
      rw [Option.map_eq_some_iff]
      constructor
      · rintro ⟨l, hl, rfl⟩
        obtain ⟨hrest, hlt⟩ := ih.mp hl
        exact ⟨holdsString_cons.mpr ⟨⟨rfl, hne⟩, hrest⟩, Nat.succ_lt_succ hlt⟩
      · rintro ⟨h, hlt⟩
        cases l with
        | nil => exact absurd (holdsString_nil.mp h) hne
        | cons b l =>
          obtain ⟨⟨hfirst, _⟩, hrest⟩ := holdsString_cons.mp h
          exact ⟨l, ih.mpr ⟨hrest, Nat.lt_of_succ_lt_succ hlt⟩, by rw [hfirst]⟩

end MipsOs.Lib
