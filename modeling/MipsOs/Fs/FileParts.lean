import MipsOs.Fs.Alloc

/-!
# The parts of a file

A file names its blocks in thirteen addresses of the inode.  Slots 10 and 11
name blocks of addresses, and so do the entries of the block at slot 11.  A
`Part` is a place that names a block, and `Part.addr` is the block it names.

`FileOk` says that the parts have blocks of their own.  `find_data_block`
changes a file in one way only: it gives a part that has no block a free one
(`Adds`).  `adds_slot` and `adds_entry` say which writes do that, and `Grows` is
a sequence of such steps.
-/

namespace MipsOs.Fs

open MipsOs.Lib MipsOs.Lib.BlockProg

/-! ## Parts -/

/-- A place that names a block: an address of the inode, or an entry of the
block at another place. -/
inductive Part where
  | slot (a : Fin 13)
  | entry (parent : Part) (k : Nat)
  deriving DecidableEq

namespace Part

/-- The block at a part; `0` when there is none. -/
def addr (s : BlockStore) (n : Inode) : Part → Nat
  | slot a => n.addrs a
  | entry p k => if p.addr s n = 0 then 0 else Bytes.word (s (p.addr s n)) k

/-- The part names a block of addresses. -/
def IsIndex : Part → Prop
  | slot a => a = 10 ∨ a = 11
  | entry (slot a) k => a = 11 ∧ k < addrPerBlock
  | entry (entry _ _) _ => False

/-- The parts that a file can have. -/
def Ok : Part → Prop
  | slot _ => True
  | entry p k => p.IsIndex ∧ k < addrPerBlock

instance : DecidablePred IsIndex
  | slot a => inferInstanceAs (Decidable (a = 10 ∨ a = 11))
  | entry (slot a) k => inferInstanceAs (Decidable (a = 11 ∧ k < addrPerBlock))
  | entry (entry _ _) _ => inferInstanceAs (Decidable False)

theorem IsIndex.ok {p : Part} (h : p.IsIndex) : p.Ok := by
  cases p with
  | slot a => trivial
  | entry q k =>
    cases q with
    | slot a => exact ⟨Or.inr h.1, h.2⟩
    | entry r j => exact h.elim

/-- The part, when it has no block. -/
def missing (s : BlockStore) (n : Inode) (p : Part) : List Part :=
  if p.addr s n = 0 then [p] else []

/-- The parts from the inode down to this one that have no block. -/
def absent (s : BlockStore) (n : Inode) : Part → List Part
  | slot a => missing s n (slot a)
  | entry p k => p.absent s n ++ missing s n (entry p k)

theorem missing_eq_nil {s : BlockStore} {n : Inode} {p : Part} (h : p.addr s n ≠ 0) :
    p.missing s n = [] := if_neg h

theorem missing_eq_single {s : BlockStore} {n : Inode} {p : Part} (h : p.addr s n = 0) :
    p.missing s n = [p] := if_pos h

theorem addr_entry {s : BlockStore} {n : Inode} {p : Part} (h : p.addr s n ≠ 0) (k : Nat) :
    (entry p k).addr s n = Bytes.word (s (p.addr s n)) k := if_neg h

theorem absent_slot_eq_nil_iff {s : BlockStore} {n : Inode} {a : Fin 13} :
    (slot a).absent s n = [] ↔ n.addrs a ≠ 0 := by
  show (if n.addrs a = 0 then _ else _) = [] ↔ _
  split_ifs with h <;> simp [h]

theorem absent_entry_eq_nil_iff {s : BlockStore} {n : Inode} {p : Part} {k : Nat} :
    (entry p k).absent s n = [] ↔ p.absent s n = [] ∧ (entry p k).addr s n ≠ 0 := by
  rw [absent, List.append_eq_nil_iff, missing]
  split_ifs with h <;> simp [h]

/-- How many blocks of addresses are above a part. -/
def depth : Part → Nat
  | slot _ => 0
  | entry p _ => p.depth + 1

/-- The parts above a part name blocks of addresses. -/
theorem eq_or_index_of_mem_absent {s : BlockStore} {n : Inode} {p q : Part} (hok : p.Ok)
    (h : q ∈ p.absent s n) : q = p ∨ q.IsIndex := by
  induction p with
  | slot a =>
    rw [absent, missing] at h
    split_ifs at h
    · exact Or.inl (List.mem_singleton.mp h)
    · cases h
  | entry p k ih =>
    rw [absent, List.mem_append, missing] at h
    rcases h with h | h
    · rcases ih hok.1.ok h with rfl | hindex
      · exact Or.inr hok.1
      · exact Or.inr hindex
    · split_ifs at h
      · exact Or.inl (List.mem_singleton.mp h)
      · cases h

theorem depth_le_of_mem_absent {s : BlockStore} {n : Inode} {p q : Part}
    (h : q ∈ p.absent s n) : q.depth ≤ p.depth := by
  induction p with
  | slot a =>
    rw [absent, missing] at h
    split_ifs at h
    · rw [List.mem_singleton.mp h]
    · cases h
  | entry p k ih =>
    rw [absent, List.mem_append, missing] at h
    rcases h with h | h
    · exact (ih h).trans (Nat.le_succ _)
    · split_ifs at h
      · rw [List.mem_singleton.mp h]
      · cases h

/-- A part is not among those above it. -/
theorem entry_not_mem_absent {s : BlockStore} {n : Inode} (p : Part) (k : Nat) :
    entry p k ∉ p.absent s n := by
  intro h
  have hle : p.depth + 1 ≤ p.depth := depth_le_of_mem_absent h
  omega

end Part

/-- The number of blocks that a file can have. -/
def maxFileBlocks : Nat := 10 + addrPerBlock + addrPerBlock * addrPerBlock

/-- The part that names block `iBlock` of the file. -/
def dataPart (iBlock : Nat) : Part :=
  if h : iBlock < 10 then .slot ⟨iBlock, by omega⟩
  else if iBlock < 10 + addrPerBlock then .entry (.slot 10) (iBlock - 10)
  else .entry (.entry (.slot 11) ((iBlock - 10 - addrPerBlock) / addrPerBlock))
    ((iBlock - 10 - addrPerBlock) % addrPerBlock)

section DataPart

variable {i j : Nat}

theorem dataPart_direct (h : i < 10) : dataPart i = .slot ⟨i, by omega⟩ := dif_pos h

theorem dataPart_indirect (h : ¬ i < 10) (hi : i < 10 + addrPerBlock) :
    dataPart i = .entry (.slot 10) (i - 10) := by
  rw [dataPart, dif_neg h, if_pos hi]

theorem dataPart_double (h : ¬ i < 10) (hi : ¬ i < 10 + addrPerBlock) :
    dataPart i = .entry (.entry (.slot 11) ((i - 10 - addrPerBlock) / addrPerBlock))
      ((i - 10 - addrPerBlock) % addrPerBlock) := by
  rw [dataPart, dif_neg h, if_neg hi]

theorem double_lt (h : ¬ i < 10 + addrPerBlock) (hmax : i < maxFileBlocks) :
    (i - 10 - addrPerBlock) / addrPerBlock < addrPerBlock := by
  unfold maxFileBlocks at hmax
  apply Nat.div_lt_of_lt_mul
  omega

theorem dataPart_ok (hmax : i < maxFileBlocks) : (dataPart i).Ok := by
  by_cases hdirect : i < 10
  · rw [dataPart_direct hdirect]
    trivial
  · by_cases hindirect : i < 10 + addrPerBlock
    · rw [dataPart_indirect hdirect hindirect]
      exact ⟨Or.inl rfl, by omega⟩
    · rw [dataPart_double hdirect hindirect]
      exact ⟨⟨rfl, double_lt hindirect hmax⟩, Nat.mod_lt _ (by decide)⟩

/-- The blocks of addresses are not data. -/
theorem dataPart_not_index : ¬ (dataPart i).IsIndex := by
  by_cases hdirect : i < 10
  · rw [dataPart_direct hdirect]
    rintro (h | h)
    · have hval : i = 10 := congrArg Fin.val h
      omega
    · have hval : i = 11 := congrArg Fin.val h
      omega
  · by_cases hindirect : i < 10 + addrPerBlock
    · rw [dataPart_indirect hdirect hindirect]
      exact fun h => absurd h.1 (by decide)
    · rw [dataPart_double hdirect hindirect]
      exact id

theorem dataPart_injective : Function.Injective dataPart := by
  intro i j h
  have hpos : 0 < addrPerBlock := by decide
  have hi := Nat.div_add_mod (i - 10 - addrPerBlock) addrPerBlock
  have hj := Nat.div_add_mod (j - 10 - addrPerBlock) addrPerBlock
  unfold dataPart at h
  split_ifs at h with hi1 hj1 hj2 hi2 hj3 hj4 hj5
  · exact congrArg Fin.val (Part.slot.inj h)
  · have hsub := (Part.entry.inj h).2
    omega
  · cases (Part.entry.inj h).1
  · cases (Part.entry.inj h).1
  · obtain ⟨hparent, hmod⟩ := Part.entry.inj h
    have hdiv := (Part.entry.inj hparent).2
    rw [hdiv, hmod] at hi
    omega

end DataPart

/-! ## Free blocks -/

section Free

variable (sb : SuperBlock) (s : BlockStore)

/-- The free blocks of the data region. -/
def freeBlocks : Finset Nat := {b ∈ Finset.Ico sb.dataStart sb.size | ¬ BlockUsed sb s b}

variable {sb s} {b : Nat}

theorem mem_freeBlocks :
    b ∈ freeBlocks sb s ↔ (sb.dataStart ≤ b ∧ b < sb.size) ∧ ¬ BlockUsed sb s b := by
  rw [freeBlocks, Finset.mem_filter, Finset.mem_Ico]

theorem freeBlocks_updateData (hr : Regions sb) (hb : sb.dataStart ≤ b) (x : Block) :
    freeBlocks sb (Function.update s b x) = freeBlocks sb s := by
  ext c
  rw [mem_freeBlocks, mem_freeBlocks]
  constructor
  · rintro ⟨hc, hfree⟩
    exact ⟨hc, fun h => hfree ((blockUsed_updateData hr hb hc.2).mpr h)⟩
  · rintro ⟨hc, hfree⟩
    exact ⟨hc, fun h => hfree ((blockUsed_updateData hr hb hc.2).mp h)⟩

end Free

/-! ## Writes to data blocks -/

/-- The block `b` is taken, and nothing else changes but data blocks. -/
structure DataWrite (sb : SuperBlock) (s t : BlockStore) (b : Nat) : Prop where
  used_iff : ∀ c < sb.size, BlockUsed sb t c ↔ BlockUsed sb s c ∨ c = b
  inodeUsed_iff : ∀ i, InodeUsed sb t i ↔ InodeUsed sb s i
  inode_eq : ∀ i < bitsPerBlock, inodeOf sb t i = inodeOf sb s i

theorem dataWrite_takeBlock {sb : SuperBlock} {s : BlockStore} {b : Nat} (hr : Regions sb)
    (hb : b < sb.size) : DataWrite sb s (takeBlock sb s b) b where
  used_iff _ _ := blockUsed_takeBlock
  inodeUsed_iff _ := inodeUsed_takeBlock hr
  inode_eq _ hi := inodeOf_takeBlock hr hi hb

theorem DataWrite.update {sb : SuperBlock} {s t : BlockStore} {b c : Nat} (hr : Regions sb)
    (h : DataWrite sb s t b) (hc : sb.dataStart ≤ c) (x : Block) :
    DataWrite sb s (Function.update t c x) b where
  used_iff d hd := (blockUsed_updateData hr hc hd).trans (h.used_iff d hd)
  inodeUsed_iff i := (inodeUsed_updateData hr hc).trans (h.inodeUsed_iff i)
  inode_eq i hi := (inodeOf_updateData hr hc hi).trans (h.inode_eq i hi)

/-! ## Files whose parts have blocks of their own -/

/-- The blocks of a file are taken data blocks, and no two parts share one. -/
structure FileOk (sb : SuperBlock) (s : BlockStore) (n : Inode) : Prop where
  range : ∀ p : Part, p.Ok → p.addr s n ≠ 0 → sb.dataStart ≤ p.addr s n ∧ p.addr s n < sb.size
  used : ∀ p : Part, p.Ok → p.addr s n ≠ 0 → BlockUsed sb s (p.addr s n)
  inj : ∀ p q : Part, p.Ok → q.Ok → p.addr s n ≠ 0 → p.addr s n = q.addr s n → p = q

/-- The part `p` has got the free block `b`, and nothing else has changed. -/
structure Adds (sb : SuperBlock) (s : BlockStore) (n : Inode) (t : BlockStore) (m : Inode)
    (p : Part) (b : Nat) : Prop extends DataWrite sb s t b where
  ok : p.Ok
  free : b ∈ freeBlocks sb s
  absent : p.addr s n = 0
  addr_eq : ∀ q : Part, q.Ok → q.addr t m = if q = p then b else q.addr s n
  data_eq : ∀ c, sb.dataStart ≤ c → c ≠ b →
    (∀ q : Part, q.IsIndex → q.addr s n ≠ 0 → q.addr s n ≠ c) → t c = s c
  size_eq : m.size = n.size

section Adds

variable {sb : SuperBlock} {s t : BlockStore} {n m : Inode} {p q : Part} {b : Nat}

theorem Regions.dataStart_pos (hr : Regions sb) : 0 < sb.dataStart := by
  have hlt := hr.inodeBitmap_lt
  have hle := hr.bitmap_le
  have hinodes := hr.inodeStart_le_dataStart
  omega

theorem ne_zero_of_free (hr : Regions sb) (hb : b ∈ freeBlocks sb s) : b ≠ 0 := by
  have hpos := hr.dataStart_pos
  have hle := (mem_freeBlocks.mp hb).1.1
  omega

/-- A file without addresses has no part with a block. -/
theorem addr_empty (h : ∀ a, n.addrs a = 0) (p : Part) : p.addr s n = 0 := by
  induction p with
  | slot a => exact h a
  | entry p k ih =>
    show (if p.addr s n = 0 then 0 else _) = 0
    rw [if_pos ih]

theorem fileOk_empty (h : ∀ a, n.addrs a = 0) : FileOk sb s n where
  range p _ hne := absurd (addr_empty h p) hne
  used p _ hne := absurd (addr_empty h p) hne
  inj p _ _ _ hne := absurd (addr_empty h p) hne

/-- A file has no free block. -/
theorem FileOk.addr_ne_free (hok : FileOk sb s n) (hq : q.Ok) (hne : q.addr s n ≠ 0)
    (hb : b ∈ freeBlocks sb s) : q.addr s n ≠ b := by
  intro heq
  exact (mem_freeBlocks.mp hb).2 (heq ▸ hok.used q hq hne)

/-- One more part keeps the blocks apart. -/
theorem Adds.fileOk (h : Adds sb s n t m p b) (hok : FileOk sb s n) : FileOk sb t m := by
  obtain ⟨⟨hle, hlt⟩, _⟩ := mem_freeBlocks.mp h.free
  constructor
  · intro q hq hne
    rw [h.addr_eq q hq] at hne ⊢
    split_ifs at hne ⊢
    · exact ⟨hle, hlt⟩
    · exact hok.range q hq hne
  · intro q hq hne
    rw [h.addr_eq q hq] at hne ⊢
    split_ifs at hne ⊢
    · exact (h.used_iff b hlt).mpr (Or.inr rfl)
    · exact (h.used_iff _ (hok.range q hq hne).2).mpr (Or.inl (hok.used q hq hne))
  · intro q r hq hr hne heq
    rw [h.addr_eq q hq] at hne heq
    rw [h.addr_eq r hr] at heq
    split_ifs at hne heq with hqp hrp hrp
    · rw [hqp, hrp]
    · exact absurd heq.symm (hok.addr_ne_free hr (heq ▸ hne) h.free)
    · exact absurd heq (hok.addr_ne_free hq hne h.free)
    · exact hok.inj q r hq hr hne heq

/-- One free block is gone. -/
theorem Adds.freeBlocks_eq (h : Adds sb s n t m p b) :
    freeBlocks sb t = (freeBlocks sb s).erase b := by
  ext c
  rw [Finset.mem_erase, mem_freeBlocks, mem_freeBlocks]
  constructor
  · rintro ⟨hc, hunused⟩
    rw [h.used_iff c hc.2, not_or] at hunused
    exact ⟨hunused.2, hc, hunused.1⟩
  · rintro ⟨hne, hc, hunused⟩
    rw [h.used_iff c hc.2, not_or]
    exact ⟨hc, hunused, hne⟩

/-- A write at one part, as all other parts see it.  The new block holds no
addresses yet. -/
theorem addr_after_write (hb : b ≠ 0) (habsent : p.addr s n = 0) (hnew : p.addr t m = b)
    (hblank : p.IsIndex → ∀ k < addrPerBlock, Bytes.word (t b) k = 0)
    (hslot : ∀ a, .slot a ≠ p → m.addrs a = n.addrs a)
    (hentry : ∀ q : Part, q.IsIndex → q.addr s n ≠ 0 → ∀ k < addrPerBlock, .entry q k ≠ p →
      Bytes.word (t (q.addr s n)) k = Bytes.word (s (q.addr s n)) k) :
    ∀ q : Part, q.Ok → q.addr t m = if q = p then b else q.addr s n := by
  intro q
  induction q with
  | slot a =>
    intro _
    split_ifs with heq
    · rw [heq, hnew]
    · exact hslot a heq
  | entry q k ih =>
    intro hok
    split_ifs with heq
    · rw [heq, hnew]
    show (if q.addr t m = 0 then 0 else Bytes.word (t (q.addr t m)) k) =
      if q.addr s n = 0 then 0 else Bytes.word (s (q.addr s n)) k
    rw [ih hok.1.ok]
    by_cases hqp : q = p
    · rw [if_pos hqp, if_neg hb, hqp, if_pos habsent]
      exact hblank (hqp ▸ hok.1) k hok.2
    · rw [if_neg hqp]
      by_cases hzero : q.addr s n = 0
      · rw [if_pos hzero, if_pos hzero]
      · rw [if_neg hzero, if_neg hzero]
        exact hentry q hok.1 hzero k hok.2 heq

end Adds

/-! ### The content of data blocks does not matter -/

section Data

variable {sb : SuperBlock} {s t : BlockStore} {n : Inode} {p q : Part} {b : Nat}

/-- The parts are where they were as long as the blocks of addresses stay. -/
theorem addr_congr (h : ∀ q : Part, q.IsIndex → q.addr s n ≠ 0 → t (q.addr s n) = s (q.addr s n))
    (hp : p.Ok) : p.addr t n = p.addr s n := by
  induction p with
  | slot a => rfl
  | entry p k ih =>
    show (if p.addr t n = 0 then 0 else Bytes.word (t (p.addr t n)) k) =
      if p.addr s n = 0 then 0 else Bytes.word (s (p.addr s n)) k
    rw [ih hp.1.ok]
    split_ifs with hzero
    · rfl
    · rw [h p hp.1 hzero]

theorem absent_congr (h : ∀ q : Part, q.Ok → q.addr t n = q.addr s n) (hp : p.Ok) :
    p.absent t n = p.absent s n := by
  induction p with
  | slot a => rfl
  | entry p k ih =>
    rw [Part.absent, Part.absent, ih hp.1.ok, Part.missing, Part.missing, h _ hp]

/-- A write to a block of data. -/
theorem FileOk.addr_update (hok : FileOk sb s n) (hp : p.Ok) (hdata : ¬ p.IsIndex)
    (hne : p.addr s n ≠ 0) (x : Block) (hq : q.Ok) :
    q.addr (Function.update s (p.addr s n) x) n = q.addr s n := by
  apply addr_congr _ hq
  intro r hr hrne
  apply Function.update_of_ne
  intro heq
  exact hdata (hok.inj p r hp hr.ok hne heq.symm ▸ hr)

theorem FileOk.update (hr : Regions sb) (hok : FileOk sb s n) (hp : p.Ok) (hdata : ¬ p.IsIndex)
    (hne : p.addr s n ≠ 0) (x : Block) : FileOk sb (Function.update s (p.addr s n) x) n := by
  have haddr : ∀ q : Part, q.Ok → q.addr (Function.update s (p.addr s n) x) n = q.addr s n :=
    fun q hq => hok.addr_update hp hdata hne x hq
  have hle := (hok.range p hp hne).1
  constructor
  · intro q hq hqne
    rw [haddr q hq] at hqne ⊢
    exact hok.range q hq hqne
  · intro q hq hqne
    rw [haddr q hq] at hqne ⊢
    rw [blockUsed_updateData hr hle (hok.range q hq hqne).2]
    exact hok.used q hq hqne
  · intro q l hq hl hqne heq
    rw [haddr q hq] at hqne heq
    rw [haddr l hl] at heq
    exact hok.inj q l hq hl hqne heq

end Data

/-! ### The size does not matter -/

section Grow

variable {sb : SuperBlock} {s : BlockStore} {n : Inode} {i : Nat}

theorem addr_grow (p : Part) :
    p.addr s (n.grow i) = p.addr s n := by
  induction p with
  | slot a => rfl
  | entry p k ih =>
    show (if p.addr s (n.grow i) = 0 then 0 else _) = if p.addr s n = 0 then 0 else _
    rw [ih]

theorem absent_grow (p : Part) :
    p.absent s (n.grow i) = p.absent s n := by
  have hmissing : ∀ p : Part, p.missing s (n.grow i) = p.missing s n := by
    intro p
    unfold Part.missing
    rw [addr_grow]
  induction p with
  | slot a => exact hmissing _
  | entry p k ih => rw [Part.absent, Part.absent, ih, hmissing]

theorem FileOk.grow (h : FileOk sb s n) (i : Nat) :
    FileOk sb s (n.grow i) := by
  obtain ⟨hrange, hused, hinj⟩ := h
  constructor
  · intro p hp hne
    rw [addr_grow] at hne ⊢
    exact hrange p hp hne
  · intro p hp hne
    rw [addr_grow] at hne ⊢
    exact hused p hp hne
  · intro p q hp hq hne heq
    rw [addr_grow] at hne
    rw [addr_grow, addr_grow] at heq
    exact hinj p q hp hq hne heq

end Grow

/-! ## The writes that give a part a block -/

section Writes

variable {sb : SuperBlock} {s : BlockStore} {n : Inode} {p : Part} {a : Fin 13} {b k : Nat}
  {x : Block}

/-- A page that holds zeros behind its first word. -/
def Blank (x : Block) : Prop := ∀ k, 0 < k → k < addrPerBlock → Bytes.word x k = 0

theorem word_clearFirst (h : Blank x) (hk : k < addrPerBlock) :
    Bytes.word (clearFirst x) k = 0 := by
  unfold clearFirst
  rcases Nat.eq_zero_or_pos k with rfl | hpos
  · exact Bytes.word_setWord_same _ (by decide) (by decide)
  · rw [Bytes.word_setWord_of_ne _ (by omega), h k hpos hk]

/-- A new block in a slot of the inode. -/
theorem adds_slot (hr : Regions sb) (hok : FileOk sb s n) (hb : b ∈ freeBlocks sb s)
    (habsent : n.addrs a = 0) (hdata : ¬ (Part.slot a).IsIndex) :
    Adds sb s n (takeBlock sb s b) (n.setAddr a b) (.slot a) b := by
  obtain ⟨⟨hle, hlt⟩, _⟩ := mem_freeBlocks.mp hb
  refine ⟨dataWrite_takeBlock hr hlt, trivial, hb, habsent, ?_,
    fun c hc _ _ => takeBlock_data hr hlt hc, rfl⟩
  apply addr_after_write (p := .slot a) (ne_zero_of_free hr hb) habsent (setAddr_addrs_self n a b)
  · exact fun h => absurd h hdata
  · intro c hne
    exact Function.update_of_ne (fun heq => hne (by rw [heq])) _ _
  · intro q hq hne l _ _
    rw [takeBlock_data hr hlt (hok.range q hq.ok hne).1]

/-- A new block of addresses in a slot of the inode. -/
theorem adds_slotBlock (hr : Regions sb) (hok : FileOk sb s n) (hb : b ∈ freeBlocks sb s)
    (habsent : n.addrs a = 0) (hx : Blank x) :
    Adds sb s n (Function.update (takeBlock sb s b) b (clearFirst x)) (n.setAddr a b)
      (.slot a) b := by
  obtain ⟨⟨hle, hlt⟩, _⟩ := mem_freeBlocks.mp hb
  refine ⟨(dataWrite_takeBlock hr hlt).update hr hle _, trivial, hb, habsent, ?_, ?_, rfl⟩
  · apply addr_after_write (p := .slot a) (ne_zero_of_free hr hb) habsent
      (setAddr_addrs_self n a b)
    · intro _ l hl
      rw [Function.update_self, word_clearFirst hx hl]
    · intro c hne
      exact Function.update_of_ne (fun heq => hne (by rw [heq])) _ _
    · intro q hq hne l _ _
      rw [Function.update_of_ne (hok.addr_ne_free hq.ok hne hb),
        takeBlock_data hr hlt (hok.range q hq.ok hne).1]
  · intro c hc hne _
    rw [Function.update_of_ne hne, takeBlock_data hr hlt hc]

/-- The write of an address into the block `p`, as the parts see it. -/
theorem word_entryWrite (hr : Regions sb) (hok : FileOk sb s n) (hb : b < sb.size)
    (hp : p.IsIndex) (hne : p.addr s n ≠ 0) {q : Part} (hq : q.IsIndex) (hqne : q.addr s n ≠ 0)
    {l : Nat} (hl : Part.entry q l ≠ .entry p k) :
    Bytes.word (Function.update (takeBlock sb s b) (p.addr s n)
        (Bytes.setWord (takeBlock sb s b (p.addr s n)) k b) (q.addr s n)) l =
      Bytes.word (s (q.addr s n)) l := by
  have hdata : ∀ q : Part, q.IsIndex → q.addr s n ≠ 0 →
      takeBlock sb s b (q.addr s n) = s (q.addr s n) :=
    fun q hq hqne => takeBlock_data hr hb (hok.range q hq.ok hqne).1
  by_cases hsame : q.addr s n = p.addr s n
  · obtain rfl : q = p := hok.inj q p hq.ok hp.ok hqne hsame
    rw [Function.update_self, Bytes.word_setWord_of_ne _ (fun heq => hl (by rw [heq])),
      hdata q hq hqne]
  · rw [Function.update_of_ne hsame, hdata q hq hqne]

/-- The block `p` stays where it is when the write is to one of its entries. -/
theorem addr_entry_write {t : BlockStore} (hp : p.IsIndex)
    (hentry : ∀ q : Part, q.IsIndex → q.addr s n ≠ 0 → ∀ l, Part.entry q l ≠ .entry p k →
      Bytes.word (t (q.addr s n)) l = Bytes.word (s (q.addr s n)) l) :
    p.addr t n = p.addr s n := by
  cases p with
  | slot a => rfl
  | entry q j =>
    cases q with
    | slot a =>
      show (if n.addrs a = 0 then 0 else Bytes.word (t (n.addrs a)) j) =
        if n.addrs a = 0 then 0 else Bytes.word (s (n.addrs a)) j
      split_ifs with hzero
      · rfl
      · apply hentry (.slot a) (Or.inr hp.1) hzero
        exact fun h => Part.noConfusion (Part.entry.inj h).1
    | entry r l => exact hp.elim

/-- The entry that is written names the new block. -/
theorem addr_entry_same {t : BlockStore} (hr : Regions sb) (hb : b < sb.size)
    (hk : k < addrPerBlock) (hne : p.addr s n ≠ 0) (hparent : p.addr t n = p.addr s n)
    {y : Block} (ht : t (p.addr s n) = Bytes.setWord y k b) :
    (Part.entry p k).addr t n = b := by
  have hsize := hr.size_lt
  rw [addrPerBlock] at hk
  show (if p.addr t n = 0 then 0 else Bytes.word (t (p.addr t n)) k) = b
  rw [hparent, if_neg hne, ht]
  exact Bytes.word_setWord_same _ (by omega) (by omega)

/-- A new block in an entry of the block of addresses `p`. -/
theorem adds_entry (hr : Regions sb) (hok : FileOk sb s n) (hb : b ∈ freeBlocks sb s)
    (hp : p.IsIndex) (hne : p.addr s n ≠ 0) (hk : k < addrPerBlock)
    (habsent : (Part.entry p k).addr s n = 0) (hdata : ¬ (Part.entry p k).IsIndex) :
    Adds sb s n (Function.update (takeBlock sb s b) (p.addr s n)
      (Bytes.setWord (takeBlock sb s b (p.addr s n)) k b)) n (.entry p k) b := by
  obtain ⟨⟨hle, hlt⟩, _⟩ := mem_freeBlocks.mp hb
  have hrange := hok.range p hp.ok hne
  have hentry : ∀ q : Part, q.IsIndex → q.addr s n ≠ 0 → ∀ l, Part.entry q l ≠ .entry p k →
      Bytes.word (Function.update (takeBlock sb s b) (p.addr s n)
        (Bytes.setWord (takeBlock sb s b (p.addr s n)) k b) (q.addr s n)) l =
      Bytes.word (s (q.addr s n)) l :=
    fun q hq hqne l hl => word_entryWrite hr hok hlt hp hne hq hqne hl
  refine ⟨(dataWrite_takeBlock hr hlt).update hr hrange.1 _, ⟨hp, hk⟩, hb, habsent, ?_, ?_, rfl⟩
  · apply addr_after_write (ne_zero_of_free hr hb) habsent
    · apply addr_entry_same hr hlt hk hne (addr_entry_write hp hentry)
      rw [Function.update_self]
    · exact fun h => absurd h hdata
    · exact fun _ _ => rfl
    · exact fun q hq hqne l _ hl => hentry q hq hqne l hl
  · intro c hc _ hparts
    rw [Function.update_of_ne (Ne.symm (hparts p hp hne)), takeBlock_data hr hlt hc]

/-- A new block of addresses in an entry of the block of addresses `p`. -/
theorem adds_entryBlock (hr : Regions sb) (hok : FileOk sb s n) (hb : b ∈ freeBlocks sb s)
    (hp : p.IsIndex) (hne : p.addr s n ≠ 0) (hk : k < addrPerBlock)
    (habsent : (Part.entry p k).addr s n = 0) (hx : Blank x) :
    Adds sb s n (Function.update (Function.update (takeBlock sb s b) (p.addr s n)
      (Bytes.setWord (takeBlock sb s b (p.addr s n)) k b)) b (clearFirst x)) n (.entry p k) b := by
  obtain ⟨⟨hle, hlt⟩, _⟩ := mem_freeBlocks.mp hb
  have hrange := hok.range p hp.ok hne
  have hentry : ∀ q : Part, q.IsIndex → q.addr s n ≠ 0 → ∀ l, Part.entry q l ≠ .entry p k →
      Bytes.word (Function.update (Function.update (takeBlock sb s b) (p.addr s n)
        (Bytes.setWord (takeBlock sb s b (p.addr s n)) k b)) b (clearFirst x) (q.addr s n)) l =
      Bytes.word (s (q.addr s n)) l := by
    intro q hq hqne l hl
    rw [Function.update_of_ne (hok.addr_ne_free hq.ok hqne hb)]
    exact word_entryWrite hr hok hlt hp hne hq hqne hl
  refine ⟨((dataWrite_takeBlock hr hlt).update hr hrange.1 _).update hr hle _, ⟨hp, hk⟩, hb,
    habsent, ?_, ?_, rfl⟩
  · apply addr_after_write (ne_zero_of_free hr hb) habsent
    · apply addr_entry_same hr hlt hk hne (addr_entry_write hp hentry)
      rw [Function.update_of_ne (hok.addr_ne_free hp.ok hne hb), Function.update_self]
    · intro _ l hl
      rw [Function.update_self, word_clearFirst hx hl]
    · exact fun _ _ => rfl
    · exact fun q hq hqne l _ hl => hentry q hq hqne l hl
  · intro c hc hcb hparts
    rw [Function.update_of_ne hcb, Function.update_of_ne (Ne.symm (hparts p hp hne)),
      takeBlock_data hr hlt hc]

end Writes

/-! ## Several parts one after another -/

/-- The parts of the list have got blocks, in this order. -/
inductive Grows (sb : SuperBlock) (s : BlockStore) (n : Inode) :
    List Part → BlockStore → Inode → Prop where
  | nil : Grows sb s n [] s n
  | snoc {ps : List Part} {t u : BlockStore} {m k : Inode} {p : Part} {b : Nat}
      (h : Grows sb s n ps t m) (hadd : Adds sb t m u k p b) : Grows sb s n (ps ++ [p]) u k

section Grows

variable {sb : SuperBlock} {s t u : BlockStore} {n m k : Inode} {ps qs : List Part} {q : Part}

theorem Adds.grows {p : Part} {b : Nat} (h : Adds sb s n t m p b) : Grows sb s n [p] t m :=
  Grows.nil.snoc h

theorem Grows.append (h : Grows sb s n ps t m) (h' : Grows sb t m qs u k) :
    Grows sb s n (ps ++ qs) u k := by
  induction h' with
  | nil => rwa [List.append_nil]
  | snoc _ hadd ih =>
    rw [← List.append_assoc]
    exact ih.snoc hadd

theorem Grows.fileOk (h : Grows sb s n ps t m) (hok : FileOk sb s n) : FileOk sb t m := by
  induction h with
  | nil => exact hok
  | snoc _ hadd ih => exact hadd.fileOk ih

theorem Grows.freeBlocks_subset (h : Grows sb s n ps t m) : freeBlocks sb t ⊆ freeBlocks sb s := by
  induction h with
  | nil => exact fun _ h => h
  | snoc _ hadd ih =>
    rw [hadd.freeBlocks_eq]
    exact fun c hc => ih (Finset.mem_of_mem_erase hc)

/-- Each part takes one free block. -/
theorem Grows.card (h : Grows sb s n ps t m) :
    (freeBlocks sb t).card + ps.length = (freeBlocks sb s).card := by
  induction h with
  | nil => rfl
  | snoc _ hadd ih =>
    have hone := Finset.card_erase_add_one hadd.free
    rw [hadd.freeBlocks_eq, List.length_append, List.length_singleton]
    omega

/-- The other parts keep their blocks. -/
theorem Grows.addr_of_not_mem (h : Grows sb s n ps t m) (hq : q.Ok) (hnot : q ∉ ps) :
    q.addr t m = q.addr s n := by
  induction h with
  | nil => rfl
  | snoc _ hadd ih =>
    rw [List.mem_append, not_or, List.mem_singleton] at hnot
    rw [hadd.addr_eq q hq, if_neg hnot.2, ih hnot.1]

/-- A part that has a block keeps it. -/
theorem Grows.addr_of_ne_zero (h : Grows sb s n ps t m) (hq : q.Ok) (hne : q.addr s n ≠ 0) :
    q.addr t m = q.addr s n := by
  induction h with
  | nil => rfl
  | snoc _ hadd ih =>
    rw [hadd.addr_eq q hq, if_neg, ih]
    intro heq
    have habsent := hadd.absent
    rw [← heq, ih] at habsent
    exact hne habsent

/-- A part that has got a block has got a free one. -/
theorem Grows.addr_mem_free (h : Grows sb s n ps t m) (hq : q.Ok)
    (habsent : q.addr s n = 0) (hne : q.addr t m ≠ 0) : q.addr t m ∈ freeBlocks sb s := by
  induction h with
  | nil => exact absurd habsent hne
  | snoc hgrow hadd ih =>
    rw [hadd.addr_eq q hq] at hne ⊢
    split_ifs at hne ⊢
    · exact hgrow.freeBlocks_subset hadd.free
    · exact ih hne

theorem Grows.eq_of_nil (h : Grows sb s n [] t m) : t = s ∧ m = n := by
  generalize hps : ([] : List Part) = ps at h
  cases h with
  | nil => exact ⟨rfl, rfl⟩
  | snoc _ _ => exact absurd hps.symm (List.append_ne_nil_of_right_ne_nil _ (List.cons_ne_nil _ _))

end Grows

end MipsOs.Fs
