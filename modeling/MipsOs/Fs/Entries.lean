import MipsOs.Fs.Calls

/-!
# Directory blocks and inode blocks

What the writes of `do_mkdir` and `do_touch` do to a directory block and to a
block of inodes.

`Entries dir n` says that the first `n` entries of a directory block are used,
under names of their own, and the others are empty.  The searches of the source
are then searches among these names, and `setEntry` adds one more.
-/

namespace MipsOs.Fs

open MipsOs.Lib

/-! ## Strings in a block -/

section Strings

variable {b b' : Block} {off : Nat} {name : CString}

/-- The string at `off`, when its bytes and the zero behind them are known. -/
theorem stringAt_eq (hfits : off + name.strlen < blockSize)
    (hbytes : ∀ k ≤ name.strlen, Bytes.get b (off + k) = name.charAt k) :
    stringAt b off = name := by
  have hname : (List.range' off name.strlen).map (Bytes.get b) = name.bytes := by
    apply List.ext_getElem
    · simp [CString.strlen]
    · intro k hk hk'
      rw [List.length_map, List.length_range'] at hk
      rw [List.getElem_map, List.getElem_range', Nat.one_mul, hbytes k (by omega),
        CString.charAt, List.getD_eq_getElem]
  have hzero : Bytes.get b (off + name.strlen) = 0 := by
    rw [hbytes _ le_rfl, CString.charAt_eq_zero_iff]
  have hsplit : blockSize - off =
      name.strlen + (1 + (blockSize - (off + name.strlen + 1))) := by omega
  have htake : ((List.range' off (blockSize - off)).map (Bytes.get b)).takeWhile (· ≠ 0) =
      name.bytes := by
    rw [hsplit, ← List.range'_append_1, List.map_append, hname, ← List.range'_append_1,
      List.map_append, List.range'_one, List.map_singleton, hzero, List.takeWhile_append_of_pos]
    · simp
    · intro c hc
      have hne : c ≠ 0 := fun heq => name.nonzero (heq ▸ hc)
      simpa using hne
  exact CString.ext_bytes htake

/-- The bytes of a string that ends in the block, and the zero behind them. -/
theorem charAt_stringAt (hfits : off + (stringAt b off).strlen < blockSize) {k : Nat}
    (hk : k ≤ (stringAt b off).strlen) : (stringAt b off).charAt k = Bytes.get b (off + k) := by
  have hget : ∀ j, (h : j < ((List.range' off (blockSize - off)).map (Bytes.get b)).length) →
      ((List.range' off (blockSize - off)).map (Bytes.get b))[j] = Bytes.get b (off + j) := by
    intro j hj
    rw [List.getElem_map, List.getElem_range', Nat.one_mul]
  have hlen : ((List.range' off (blockSize - off)).map (Bytes.get b)).length =
      blockSize - off := by simp
  have hbytes : (stringAt b off).bytes =
      ((List.range' off (blockSize - off)).map (Bytes.get b)).takeWhile (· ≠ 0) := rfl
  rw [CString.strlen] at hk hfits
  rw [CString.charAt]
  by_cases hlt : k < (stringAt b off).bytes.length
  · rw [List.getD_eq_getElem _ _ hlt, ← hget k (by omega)]
    exact (List.takeWhile_prefix _).getElem hlt
  · rw [List.getD_eq_default _ _ (by omega)]
    obtain rfl : k = (stringAt b off).bytes.length := by omega
    rw [hbytes] at hfits ⊢
    generalize (List.range' off (blockSize - off)).map (Bytes.get b) = l at hget hlen hfits ⊢
    have happend := List.takeWhile_append_dropWhile (p := (· ≠ (0 : UInt8))) (l := l)
    cases hrest : l.dropWhile (· ≠ 0) with
    | nil =>
      rw [hrest, List.append_nil] at happend
      rw [happend] at hfits
      omega
    | cons c rest =>
      have hc : c = 0 := by
        have hnot := List.head?_dropWhile_not (fun x : UInt8 => decide (x ≠ 0)) l
        rw [hrest] at hnot
        simpa using hnot
      rw [← hget _ (by omega)]
      rw [hrest] at happend
      have hat : (l.takeWhile (· ≠ 0) ++ c :: rest)[(l.takeWhile (· ≠ 0)).length]? = some c := by
        rw [List.getElem?_append_right le_rfl, Nat.sub_self]
        rfl
      rw [happend] at hat
      obtain ⟨_, hat⟩ := List.getElem?_eq_some_iff.mp hat
      rw [hat, hc]

/-- A string is what its bytes are. -/
theorem stringAt_congr (hfits : off + (stringAt b off).strlen < blockSize)
    (hsame : ∀ j, off ≤ j → j ≤ off + (stringAt b off).strlen → Bytes.get b' j = Bytes.get b j) :
    stringAt b' off = stringAt b off := by
  apply stringAt_eq hfits
  intro k hk
  rw [hsame _ (by omega) (by omega), charAt_stringAt hfits hk]

end Strings

/-! ## One entry -/

/-- The length of `dir_entry_t.name`. -/
def maxName : Nat := 60

section Entry

variable {b b' : Block} {name : CString} {i j n inodeId : Nat}

/-- The bytes outside of the entry stay. -/
theorem get_setEntry_of_ne (hname : name.strlen < maxName) {k : Nat} (hk : k / 64 ≠ i) :
    Bytes.get (setEntry b i name.bytes inodeId) k = Bytes.get b k := by
  rw [maxName, CString.strlen] at hname
  rw [setEntry, Bytes.get_setWord, if_neg (by omega), Bytes.get_paste, if_neg]
  rw [List.length_append, List.length_singleton]
  omega

/-- The bytes of the name. -/
theorem get_setEntry_name (hi : i < dentryPerBlock) (hname : name.strlen < maxName) {k : Nat}
    (hk : k ≤ name.strlen) :
    Bytes.get (setEntry b i name.bytes inodeId) (64 * i + k) = name.charAt k := by
  rw [maxName] at hname
  rw [dentryPerBlock] at hi
  have hlen : (name.bytes ++ [0]).length = name.strlen + 1 := by
    rw [List.length_append]
    rfl
  have hsize : blockSize = 4096 := rfl
  rw [setEntry, Bytes.get_setWord, if_neg (by omega), Bytes.get_paste, if_pos (by omega),
    Nat.add_sub_cancel_left, CString.charAt]
  by_cases hlt : k < name.bytes.length
  · rw [List.getD_append _ _ _ _ hlt]
  · rw [List.getD_append_right _ _ _ _ (by omega), List.getD_eq_default name.bytes _ (by omega)]
    rw [CString.strlen] at hk
    obtain rfl : k = name.bytes.length := by omega
    rw [Nat.sub_self]
    rfl

theorem entryInodeId_setEntry_of_ne (hname : name.strlen < maxName) (hj : j ≠ i) :
    entryInodeId (setEntry b i name.bytes inodeId) j = entryInodeId b j := by
  apply Bytes.word_congr
  intro k hlo hhi
  exact get_setEntry_of_ne hname (by omega)

theorem entryInodeId_setEntry (hi : i < dentryPerBlock) (hid : inodeId < 2 ^ 32) :
    entryInodeId (setEntry b i name.bytes inodeId) i = inodeId := by
  apply Bytes.word_setWord_same _ _ hid
  rw [dentryPerBlock] at hi
  omega

theorem entryName_setEntry (hi : i < dentryPerBlock) (hname : name.strlen < maxName) :
    entryName (setEntry b i name.bytes inodeId) i = name := by
  apply stringAt_eq
  · rw [maxName] at hname
    rw [dentryPerBlock] at hi
    have hsize : blockSize = 4096 := rfl
    omega
  · intro k hk
    exact get_setEntry_name hi hname hk

theorem entryName_setEntry_of_ne (hname : name.strlen < maxName) (hj : j ≠ i)
    (hjn : j < dentryPerBlock) (hshort : (entryName b j).strlen < maxName) :
    entryName (setEntry b i name.bytes inodeId) j = entryName b j := by
  rw [maxName] at hshort
  rw [dentryPerBlock] at hjn
  have hsize : blockSize = 4096 := rfl
  apply stringAt_congr
  · rw [entryName] at hshort
    omega
  · intro k hlo hhi
    rw [entryName] at hshort
    exact get_setEntry_of_ne hname (by omega)

theorem entryEmpty_setEntry_of_ne (hname : name.strlen < maxName) (hj : j ≠ i) :
    entryEmpty (setEntry b i name.bytes inodeId) j = entryEmpty b j := by
  unfold entryEmpty
  rw [get_setEntry_of_ne hname (by omega)]

theorem entryEmpty_setEntry (hi : i < dentryPerBlock) (hname : name.strlen < maxName)
    (hne : name.bytes ≠ []) : entryEmpty (setEntry b i name.bytes inodeId) i = false := by
  have hget : Bytes.get (setEntry b i name.bytes inodeId) (64 * i) = name.charAt 0 :=
    get_setEntry_name hi hname (Nat.zero_le _)
  have hpos : 0 < name.strlen := List.length_pos_iff.mpr hne
  unfold entryEmpty
  rw [hget, decide_eq_false_iff_not, CString.charAt_eq_zero_iff]
  omega

/-- The name of an empty entry is the empty string. -/
theorem entryName_of_empty (hi : i < dentryPerBlock) (hempty : entryEmpty b i = true) :
    (entryName b i).bytes = [] := by
  have hget : Bytes.get b (64 * i) = 0 := of_decide_eq_true hempty
  have hnil : stringAt b (64 * i) = ⟨[], List.not_mem_nil⟩ := by
    rw [dentryPerBlock] at hi
    have hsize : blockSize = 4096 := rfl
    apply stringAt_eq
    · simp only [CString.strlen, List.length_nil]
      omega
    · intro k hk
      obtain rfl : k = 0 := by simpa [CString.strlen] using hk
      exact hget
  rw [entryName, hnil]

end Entry

/-! ## The entries of a directory -/

/-- The first `n` entries are used, under names of their own, and the others are
empty. -/
structure Entries (dir : Block) (n : Nat) : Prop where
  le : n ≤ dentryPerBlock
  used : ∀ i < n, entryEmpty dir i = false
  empty : ∀ i, n ≤ i → i < dentryPerBlock → entryEmpty dir i = true
  short : ∀ i < n, (entryName dir i).strlen < maxName
  distinct : ∀ i < n, ∀ j < n, entryName dir i = entryName dir j → i = j

section Entries

variable {dir : Block} {name : CString} {i n m inodeId : Nat}

theorem lookupFrom_eq_found (hused : ∀ j, i ≤ j → j ≤ n → entryEmpty dir j = false)
    (hother : ∀ j, i ≤ j → j < n → entryName dir j ≠ name) (hname : entryName dir n = name)
    (hi : i ≤ n) (hm : n < i + m) : lookupFrom dir name m i = .found n := by
  induction m generalizing i with
  | zero => omega
  | succ m ih =>
    have hhere := hused i le_rfl hi
    rw [lookupFrom, hhere, if_neg (by simp)]
    by_cases hin : i = n
    · rw [hin, if_pos (CString.strcmp_eq_zero_iff.mpr hname)]
    · rw [if_neg fun heq => hother i le_rfl (by omega) (CString.strcmp_eq_zero_iff.mp heq)]
      exact ih (fun j hj => hused j (by omega)) (fun j hj => hother j (by omega)) (by omega)
        (by omega)

theorem lookupFrom_eq_missing (hused : ∀ j, i ≤ j → j < n → entryEmpty dir j = false)
    (hother : ∀ j, i ≤ j → j < n → entryName dir j ≠ name) (hempty : entryEmpty dir n = true)
    (hi : i ≤ n) (hm : n < i + m) : lookupFrom dir name m i = .missing := by
  induction m generalizing i with
  | zero => omega
  | succ m ih =>
    by_cases hin : i = n
    · rw [lookupFrom, hin, if_pos hempty]
    · have hhere := hused i le_rfl (by omega)
      rw [lookupFrom, hhere, if_neg (by simp),
        if_neg fun heq => hother i le_rfl (by omega) (CString.strcmp_eq_zero_iff.mp heq)]
      exact ih (fun j hj => hused j (by omega)) (fun j hj => hother j (by omega)) (by omega)
        (by omega)

theorem lookupFrom_eq_full (hused : ∀ j, i ≤ j → j < i + m → entryEmpty dir j = false)
    (hother : ∀ j, i ≤ j → j < i + m → entryName dir j ≠ name) :
    lookupFrom dir name m i = .full := by
  induction m generalizing i with
  | zero => rfl
  | succ m ih =>
    have hhere := hused i le_rfl (by omega)
    rw [lookupFrom, hhere, if_neg (by simp),
      if_neg fun heq => hother i le_rfl (by omega) (CString.strcmp_eq_zero_iff.mp heq)]
    exact ih (fun j hj hlt => hused j (by omega) (by omega))
      fun j hj hlt => hother j (by omega) (by omega)

theorem Entries.lt_of_used (h : Entries dir n) (hi : i < dentryPerBlock)
    (hused : entryEmpty dir i = false) : i < n := by
  by_contra hge
  rw [h.empty i (by omega) hi] at hused
  cases hused

/-- A search finds the entry with the name. -/
theorem Entries.lookup_found (h : Entries dir n) (hi : i < n) (hname : entryName dir i = name) :
    lookup dir name = .found i := by
  have hle := h.le
  apply lookupFrom_eq_found (fun j _ hj => h.used j (by omega)) _ hname (Nat.zero_le _) (by omega)
  intro j _ hj heq
  have hsame := h.distinct j (by omega) i hi (heq.trans hname.symm)
  omega

/-- A search for another name stops at the first empty entry. -/
theorem Entries.lookup_missing (h : Entries dir n) (hn : n < dentryPerBlock)
    (hother : ∀ i < n, entryName dir i ≠ name) : lookup dir name = .missing :=
  lookupFrom_eq_missing (fun j _ hj => h.used j hj) (fun j _ hj => hother j hj)
    (h.empty n le_rfl hn) (Nat.zero_le _) (by omega)

theorem Entries.lookup_full (h : Entries dir dentryPerBlock)
    (hother : ∀ i < dentryPerBlock, entryName dir i ≠ name) : lookup dir name = .full :=
  lookupFrom_eq_full (fun j _ hj => h.used j (by omega)) fun j _ hj => hother j (by omega)

theorem slotFrom_eq_none (hused : ∀ j, i ≤ j → j < n → entryEmpty dir j = false)
    (hname : entryName dir n = name) (hi : i ≤ n) (hm : n < i + m) :
    slotFrom dir name m i = none := by
  induction m generalizing i with
  | zero => omega
  | succ m ih =>
    rw [slotFrom]
    by_cases heq : entryName dir i = name
    · rw [if_pos (CString.strcmp_eq_zero_iff.mpr heq)]
    · have hne : i ≠ n := by
        rintro rfl
        exact heq hname
      have hhere := hused i le_rfl (by omega)
      rw [if_neg (fun hz => heq (CString.strcmp_eq_zero_iff.mp hz)), hhere, if_neg (by simp)]
      exact ih (fun j hj => hused j (by omega)) (by omega) (by omega)

theorem slotFrom_eq_some (hused : ∀ j, i ≤ j → j < n → entryEmpty dir j = false)
    (hother : ∀ j, i ≤ j → j ≤ n → entryName dir j ≠ name) (hempty : entryEmpty dir n = true)
    (hi : i ≤ n) (hm : n < i + m) : slotFrom dir name m i = some n := by
  induction m generalizing i with
  | zero => omega
  | succ m ih =>
    rw [slotFrom, if_neg fun hz => hother i le_rfl hi (CString.strcmp_eq_zero_iff.mp hz)]
    by_cases hin : i = n
    · rw [hin, if_pos hempty]
    · have hhere := hused i le_rfl (by omega)
      rw [hhere, if_neg (by simp)]
      exact ih (fun j hj => hused j (by omega)) (fun j hj => hother j (by omega)) (by omega)
        (by omega)

theorem slotFrom_eq_full (hused : ∀ j, i ≤ j → j < i + m → entryEmpty dir j = false)
    (hother : ∀ j, i ≤ j → j < i + m → entryName dir j ≠ name) :
    slotFrom dir name m i = some (i + m) := by
  induction m generalizing i with
  | zero => rfl
  | succ m ih =>
    have hhere := hused i le_rfl (by omega)
    rw [slotFrom, if_neg fun hz => hother i le_rfl (by omega) (CString.strcmp_eq_zero_iff.mp hz),
      hhere, if_neg (by simp), ih (fun j hj hlt => hused j (by omega) (by omega))
        (fun j hj hlt => hother j (by omega) (by omega))]
    congr 1
    omega

/-- The slot for a new name in a full directory lies behind the block. -/
theorem Entries.freeSlot_full (h : Entries dir dentryPerBlock)
    (hother : ∀ i < dentryPerBlock, entryName dir i ≠ name) :
    freeSlot dir name = some dentryPerBlock := by
  have hslot : slotFrom dir name dentryPerBlock 0 = some (0 + dentryPerBlock) :=
    slotFrom_eq_full (fun j _ hj => h.used j (by omega)) fun j _ hj => hother j (by omega)
  rwa [Nat.zero_add] at hslot

/-- There is no slot for a name that is there. -/
theorem Entries.freeSlot_none (h : Entries dir n) (hi : i < n)
    (hname : entryName dir i = name) : freeSlot dir name = none := by
  have hle := h.le
  exact slotFrom_eq_none (fun j _ hj => h.used j (by omega)) hname (Nat.zero_le _) (by omega)

/-- Nor is there one for the empty name, which the first empty entry has. -/
theorem Entries.freeSlot_empty (h : Entries dir n) (hn : n < dentryPerBlock)
    (hname : name.bytes = []) : freeSlot dir name = none := by
  have hempty := entryName_of_empty hn (h.empty n le_rfl hn)
  have hsame : entryName dir n = name := CString.ext_bytes (hempty.trans hname.symm)
  exact slotFrom_eq_none (fun j _ hj => h.used j hj) hsame (Nat.zero_le _) (by omega)

/-- The slot for a new name is the first empty entry. -/
theorem Entries.freeSlot_some (h : Entries dir n) (hn : n < dentryPerBlock)
    (hname : name.bytes ≠ []) (hother : ∀ i < n, entryName dir i ≠ name) :
    freeSlot dir name = some n := by
  have hempty := h.empty n le_rfl hn
  apply slotFrom_eq_some (fun j _ hj => h.used j hj) _ hempty (Nat.zero_le _) (by omega)
  intro j _ hj heq
  by_cases hjn : j = n
  · rw [hjn] at heq
    rw [← heq] at hname
    exact hname (entryName_of_empty hn hempty)
  · exact hother j (by omega) heq

/-- A new name takes the first empty entry. -/
theorem Entries.setEntry (h : Entries dir n) (hn : n < dentryPerBlock) (hne : name.bytes ≠ [])
    (hname : name.strlen < maxName) (hother : ∀ i < n, entryName dir i ≠ name) :
    Entries (setEntry dir n name.bytes inodeId) (n + 1) := by
  have hold : ∀ i < n, entryName (MipsOs.Fs.setEntry dir n name.bytes inodeId) i =
      entryName dir i := fun i hi =>
    entryName_setEntry_of_ne hname (by omega) (by omega) (h.short i hi)
  have hnew : entryName (MipsOs.Fs.setEntry dir n name.bytes inodeId) n = name :=
    entryName_setEntry hn hname
  refine ⟨hn, fun i hi => ?_, fun i hi hlt => ?_, fun i hi => ?_, fun i hi j hj heq => ?_⟩
  · by_cases hin : i = n
    · rw [hin]
      exact entryEmpty_setEntry hn hname hne
    · rw [entryEmpty_setEntry_of_ne hname hin]
      exact h.used i (by omega)
  · rw [entryEmpty_setEntry_of_ne hname (by omega)]
    exact h.empty i (by omega) hlt
  · by_cases hin : i = n
    · rw [hin, hnew]
      exact hname
    · rw [hold i (by omega)]
      exact h.short i (by omega)
  · by_cases hin : i = n
    · by_cases hjn : j = n
      · omega
      · rw [hin, hnew, hold j (by omega)] at heq
        exact absurd heq.symm (hother j (by omega))
    · rw [hold i (by omega)] at heq
      by_cases hjn : j = n
      · rw [hjn, hnew] at heq
        exact absurd heq (hother i (by omega))
      · rw [hold j (by omega)] at heq
        exact h.distinct i (by omega) j (by omega) heq

end Entries

end MipsOs.Fs
