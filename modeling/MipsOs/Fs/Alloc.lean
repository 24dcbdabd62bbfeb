import MipsOs.Fs.PathWalk

/-!
# Allocation over a flat store

The file system on a flat store has four views: the bits of the two bitmaps
(`InodeUsed`, `BlockUsed`), the inodes (`inodeOf`) and the data blocks.
`Regions` says that they lie in different blocks, as they do under every super
block of `init_file_system`.

A write of the source is one of four operations on the store, and each of them
changes one view: `takeInode`, `takeBlock`, `editInode` and the update of a
data block.  `allocInode_sat` and `allocDataBlock_sat` say that the two
allocators take a free bit.
-/

namespace MipsOs.Fs

open MipsOs.Lib MipsOs.Lib.BlockProg

/-! ## The regions of a partition -/

/-- The block of the block bitmap that holds the bit of block `b`. -/
def bitmapBlock (sb : SuperBlock) (b : Nat) : Nat := b / bitsPerBlock + sb.blockBitmapStart

/-- The blocks of the inode bitmap, the block bitmap, the inodes and the data
come in this order. -/
structure Regions (sb : SuperBlock) : Prop where
  inodeBitmap_lt : sb.inodeBitmapStart < sb.blockBitmapStart
  bitmap_le : sb.blockBitmapStart ≤ sb.inodeStart
  bitmap_lt : ∀ b < sb.size, bitmapBlock sb b < sb.inodeStart
  inodes_le : sb.inodeStart + bitsPerBlock / inodesPerBlock ≤ sb.dataStart
  dataStart_lt : sb.dataStart < bitsPerBlock
  size_lt : sb.size < 2 ^ 31

theorem Regions.inodeStart_le_dataStart {sb : SuperBlock} (hr : Regions sb) :
    sb.inodeStart ≤ sb.dataStart :=
  le_trans (Nat.le_add_right _ _) hr.inodes_le

theorem bitmapStart_le (sb : SuperBlock) (b : Nat) : sb.blockBitmapStart ≤ bitmapBlock sb b :=
  Nat.le_add_left _ _

/-- In one block of the bitmap every block has a bit of its own. -/
theorem bit_eq_iff {sb : SuperBlock} {b c : Nat} (h : bitmapBlock sb c = bitmapBlock sb b) :
    c % bitsPerBlock = b % bitsPerBlock ↔ c = b := by
  have hsplit := Nat.div_add_mod b bitsPerBlock
  have hsplit' := Nat.div_add_mod c bitsPerBlock
  have hdiv : c / bitsPerBlock = b / bitsPerBlock := by
    unfold bitmapBlock at h
    omega
  rw [hdiv] at hsplit'
  omega

/-- The super block of a new file system, whatever the size of the partition. -/
theorem regions_setup {sectorNum : Nat} (h : sectorNum < 2 ^ 32) :
    Regions (setupSuperBlock sectorNum) := by
  have hsize : (setupSuperBlock sectorNum).size = sectorNum / 8 := rfl
  have hbits : bitsPerBlock = 32768 := rfl
  have hbitmap : (setupSuperBlock sectorNum).sizeBlockBitmap =
      (setupSuperBlock sectorNum).size / bitsPerBlock +
        if (setupSuperBlock sectorNum).size % bitsPerBlock ≠ 0 then 1 else 0 := rfl
  have hinodes := setupSuperBlock_inodeStart sectorNum
  have hdata := setupSuperBlock_dataStart sectorNum
  rw [hsize, hbits] at hbitmap
  constructor
  · rw [setupSuperBlock_inodeBitmapStart, setupSuperBlock_blockBitmapStart]
    omega
  · rw [setupSuperBlock_blockBitmapStart]
    omega
  · intro b hb
    rw [bitmapBlock, setupSuperBlock_blockBitmapStart, hinodes, hbits, hbitmap]
    rw [hsize] at hb
    split <;> omega
  · have hblocks : bitsPerBlock / inodesPerBlock = 512 := rfl
    rw [hblocks, hdata]
  · rw [hdata, hinodes, hbits, hbitmap]
    split <;> omega
  · rw [hsize]
    omega

/-! ## The views -/

section Views

variable (sb : SuperBlock) (s : BlockStore)

/-- The inode is marked in the inode bitmap. -/
def InodeUsed (inodeId : Nat) : Prop := bitmapCheck (s sb.inodeBitmapStart) inodeId = true

/-- The block is marked in the block bitmap. -/
def BlockUsed (b : Nat) : Prop := bitmapCheck (s (bitmapBlock sb b)) (b % bitsPerBlock) = true

instance (inodeId : Nat) : Decidable (InodeUsed sb s inodeId) :=
  inferInstanceAs (Decidable (_ = _))

instance (b : Nat) : Decidable (BlockUsed sb s b) := inferInstanceAs (Decidable (_ = _))

/-- The inode bitmap with one more bit. -/
def takeInode (inodeId : Nat) : BlockStore :=
  Function.update s sb.inodeBitmapStart (bitmapSet (s sb.inodeBitmapStart) inodeId)

/-- The block bitmap with one more bit. -/
def takeBlock (b : Nat) : BlockStore :=
  Function.update s (bitmapBlock sb b) (bitmapSet (s (bitmapBlock sb b)) (b % bitsPerBlock))

/-- A write to the block of the inode. -/
def editInode (inodeId : Nat) (f : Block → Block) : BlockStore :=
  Function.update s (inodeInBlock sb inodeId) (f (s (inodeInBlock sb inodeId)))

end Views

section Where

variable {sb : SuperBlock} {i j : Nat}

theorem inodeInBlock_natCast (hr : Regions sb) (hi : i < bitsPerBlock) :
    inodeInBlock sb i = i / inodesPerBlock + sb.inodeStart := by
  have hdata := hr.dataStart_lt
  have hinodes := hr.inodes_le
  simp only [bitsPerBlock, blockSize, inodesPerBlock] at hi hdata hinodes
  unfold inodeInBlock inodesPerBlock
  omega

theorem inodeOffset_natCast (i : Nat) : inodeOffset i = i % inodesPerBlock := by
  unfold inodeOffset inodesPerBlock
  omega

theorem inodeOffset_lt (inodeId : Int) : inodeOffset inodeId < inodesPerBlock :=
  Nat.mod_lt _ (by decide)

theorem inodeStart_le (hr : Regions sb) (hi : i < bitsPerBlock) :
    sb.inodeStart ≤ inodeInBlock sb i := by
  rw [inodeInBlock_natCast hr hi]
  exact Nat.le_add_left _ _

theorem inodeInBlock_lt (hr : Regions sb) (hi : i < bitsPerBlock) :
    inodeInBlock sb i < sb.dataStart := by
  have hinodes := hr.inodes_le
  rw [inodeInBlock_natCast hr hi]
  simp only [bitsPerBlock, blockSize, inodesPerBlock] at hi hinodes ⊢
  omega

/-- Two inodes differ in their block or in their place there. -/
theorem inode_place_ne (hr : Regions sb) (hi : i < bitsPerBlock) (hj : j < bitsPerBlock)
    (hne : j ≠ i) (hblock : inodeInBlock sb j = inodeInBlock sb i) :
    inodeOffset j ≠ inodeOffset i := by
  rw [inodeInBlock_natCast hr hi, inodeInBlock_natCast hr hj] at hblock
  rw [inodeOffset_natCast, inodeOffset_natCast]
  unfold inodesPerBlock at hblock ⊢
  omega

end Where

/-! ## Inodes in a block -/

section InodeBlock

variable {b b' : Block} {k l v : Nat}

/-- An inode is what its words are. -/
theorem inodeAt_congr (h : ∀ a < 16, Bytes.word b' (16 * l + a) = Bytes.word b (16 * l + a)) :
    inodeAt b' l = inodeAt b l := by
  have haddr : ∀ a : Fin 13, Bytes.word b' (16 * l + 3 + a) = Bytes.word b (16 * l + 3 + a) := by
    intro a
    rw [Nat.add_assoc]
    exact h _ (by omega)
  unfold inodeAt
  simp only [Inode.mk.injEq]
  exact ⟨h 0 (by omega), h 1 (by omega), h 2 (by omega), funext haddr⟩

/-- A write to one inode leaves the others. -/
theorem inodeAt_setWord_of_ne {a : Nat} (hne : l ≠ k) (ha : a < 16) :
    inodeAt (Bytes.setWord b (16 * k + a) v) l = inodeAt b l := by
  apply inodeAt_congr
  intro c hc
  exact Bytes.word_setWord_of_ne _ (by omega) _

theorem inodeAt_setInodeHead_of_ne {type size : Nat} (hne : l ≠ k) :
    inodeAt (setInodeHead b k type size) l = inodeAt b l := by
  unfold setInodeHead setInodeSize setInodeNLinks setInodeType
  rw [inodeAt_setWord_of_ne hne (by omega), inodeAt_setWord_of_ne hne (by omega)]
  exact inodeAt_setWord_of_ne (a := 0) hne (by omega)

theorem inodeAt_setInodeAddr_of_ne {a : Nat} (hne : l ≠ k) (ha : a < 13) :
    inodeAt (setInodeAddr b k a v) l = inodeAt b l := by
  unfold setInodeAddr
  rw [Nat.add_assoc]
  exact inodeAt_setWord_of_ne hne (by omega)

theorem inodeAt_setInodeHead {type size : Nat} (hk : k < inodesPerBlock) (htype : type < 2 ^ 32)
    (hsize : size < 2 ^ 32) :
    inodeAt (setInodeHead b k type size) k =
      { inodeAt b k with type := type, nLinks := 1, size := size } := by
  have hblock : 4 * (16 * k + 2) + 3 < 4096 := by
    rw [inodesPerBlock] at hk
    omega
  unfold inodeAt setInodeHead setInodeSize setInodeNLinks setInodeType
  simp only [Inode.mk.injEq]
  refine ⟨?_, ?_, ?_, funext fun a => ?_⟩
  · rw [Bytes.word_setWord_of_ne _ (by omega), Bytes.word_setWord_of_ne _ (by omega),
      Bytes.word_setWord_same _ (by omega) htype]
  · rw [Bytes.word_setWord_of_ne _ (by omega), Bytes.word_setWord_same _ (by omega) (by omega)]
  · rw [Bytes.word_setWord_same _ hblock hsize]
  · rw [Bytes.word_setWord_of_ne _ (by omega), Bytes.word_setWord_of_ne _ (by omega),
      Bytes.word_setWord_of_ne _ (by omega)]

theorem inodeAt_setInodeAddr {a : Fin 13} (hk : k < inodesPerBlock) (hv : v < 2 ^ 32) :
    inodeAt (setInodeAddr b k a v) k = (inodeAt b k).setAddr a v := by
  have hblock : 4 * (16 * k + 3 + a) + 3 < 4096 := by
    rw [inodesPerBlock] at hk
    omega
  unfold inodeAt setInodeAddr Inode.setAddr
  simp only [Inode.mk.injEq]
  refine ⟨?_, ?_, ?_, funext fun c => ?_⟩
  · rw [Bytes.word_setWord_of_ne _ (by omega)]
  · rw [Bytes.word_setWord_of_ne _ (by omega)]
  · rw [Bytes.word_setWord_of_ne _ (by omega)]
  · by_cases hc : c = a
    · rw [hc, Function.update_self, Bytes.word_setWord_same _ hblock hv]
    · have hne : (c : Nat) ≠ a := fun h => hc (Fin.ext h)
      rw [Function.update_of_ne hc, Bytes.word_setWord_of_ne _ (by omega)]

theorem setAddr_addrs_self (n : Inode) (a : Fin 13) (v : Nat) :
    (n.setAddr a v).addrs a = v := by
  show Function.update n.addrs a v a = v
  rw [Function.update_self]

/-- The fields are values of `uint32_t`. -/
def Inode.Fits (n : Inode) : Prop := ∀ v ∈ n.words, v < 2 ^ 32

theorem Inode.words_addr (n : Inode) (a : Fin 13) : n.words[3 + (a : Nat)]? = some (n.addrs a) := by
  rw [Nat.add_comm]
  show (List.ofFn n.addrs)[(a : Nat)]? = _
  rw [List.getElem?_ofFn, dif_pos a.isLt]

theorem Inode.words_fit (n : Inode) (hk : k < inodesPerBlock) :
    4 * (16 * k + 0 + n.words.length) ≤ 4096 := by
  rw [inodesPerBlock] at hk
  simp only [Inode.words, List.length_cons, List.length_ofFn]
  omega

/-- An address that is put into a block is read back. -/
theorem addr_putInode {n : Inode} {a : Fin 13} (hk : k < inodesPerBlock)
    (ha : n.addrs a < 2 ^ 32) (b : Block) : (inodeAt (putInode b k n) k).addrs a = n.addrs a := by
  have hword := Bytes.word_putWords n.words ha (n.words_fit hk) (n.words_addr a) b
  rwa [Nat.zero_add, ← Nat.add_assoc] at hword

/-- An inode that is put into a block is read back. -/
theorem inodeAt_putInode {n : Inode} (hk : k < inodesPerBlock) (hn : n.Fits) (b : Block) :
    inodeAt (putInode b k n) k = n := by
  have hword : ∀ j v, n.words[j]? = some v → Bytes.word (putInode b k n) (16 * k + j) = v := by
    intro j v hget
    have hput := Bytes.word_putWords n.words (hn v (List.mem_of_getElem? hget)) (n.words_fit hk)
      hget b
    rwa [Nat.zero_add] at hput
  have haddr : (inodeAt (putInode b k n) k).addrs = n.addrs :=
    funext fun a => addr_putInode hk (hn _ (List.mem_of_getElem? (n.words_addr a))) b
  obtain ⟨type, nLinks, size, addrs⟩ := n
  rw [inodeAt] at haddr ⊢
  simp only [Inode.mk.injEq]
  exact ⟨hword 0 _ rfl, hword 1 _ rfl, hword 2 _ rfl, haddr⟩

/-- Putting back the inode that is there changes nothing. -/
theorem putInode_inodeAt (b : Block) (k : Nat) : putInode b k (inodeAt b k) = b := by
  apply Bytes.putWords_word
  intro j v hget
  obtain ⟨hj, rfl⟩ := List.getElem?_eq_some_iff.mp hget
  have hlen : j < 16 := by simpa [Inode.words] using hj
  rw [Nat.zero_add]
  interval_cases j <;> simp [Inode.words, inodeAt, Nat.add_assoc]

end InodeBlock

/-! ## The operations on the views -/

section Operations

variable {sb : SuperBlock} {s : BlockStore} {inodeId i j b c : Nat} {x : Block}

theorem inodeUsed_update (h : c ≠ sb.inodeBitmapStart) :
    InodeUsed sb (Function.update s c x) i ↔ InodeUsed sb s i := by
  unfold InodeUsed
  rw [Function.update_of_ne h.symm]

theorem blockUsed_update (h : c ≠ bitmapBlock sb b) :
    BlockUsed sb (Function.update s c x) b ↔ BlockUsed sb s b := by
  unfold BlockUsed
  rw [Function.update_of_ne h.symm]

theorem inodeOf_update (h : c ≠ inodeInBlock sb i) :
    inodeOf sb (Function.update s c x) i = inodeOf sb s i := by
  unfold inodeOf
  rw [Function.update_of_ne h.symm]

/-! ### `takeInode` -/

theorem inodeUsed_takeInode (hid : inodeId < bitsPerBlock) :
    InodeUsed sb (takeInode sb s inodeId) i ↔ InodeUsed sb s i ∨ i = inodeId := by
  unfold InodeUsed takeInode
  rw [Function.update_self, bitmapCheck_bitmapSet _ hid]
  simp

theorem blockUsed_takeInode (hr : Regions sb) :
    BlockUsed sb (takeInode sb s inodeId) b ↔ BlockUsed sb s b := by
  have hlt := hr.inodeBitmap_lt
  have hle := bitmapStart_le sb b
  exact blockUsed_update (by omega)

theorem inodeOf_takeInode (hr : Regions sb) (hi : i < bitsPerBlock) :
    inodeOf sb (takeInode sb s inodeId) i = inodeOf sb s i := by
  have hlt := hr.inodeBitmap_lt
  have hle := hr.bitmap_le
  have hblock := inodeStart_le hr hi
  exact inodeOf_update (by omega)

theorem takeInode_data (hr : Regions sb) (hc : sb.dataStart ≤ c) :
    takeInode sb s inodeId c = s c := by
  have hlt := hr.inodeBitmap_lt
  have hle := hr.bitmap_le
  have hinodes := hr.inodeStart_le_dataStart
  exact Function.update_of_ne (by omega) _ _

/-! ### `takeBlock` -/

theorem inodeUsed_takeBlock (hr : Regions sb) :
    InodeUsed sb (takeBlock sb s b) i ↔ InodeUsed sb s i := by
  have hlt := hr.inodeBitmap_lt
  have hle := bitmapStart_le sb b
  exact inodeUsed_update (by omega)

theorem blockUsed_takeBlock :
    BlockUsed sb (takeBlock sb s b) c ↔ BlockUsed sb s c ∨ c = b := by
  have hmod : ∀ d, d % bitsPerBlock < bitsPerBlock := fun d => Nat.mod_lt _ (by decide)
  by_cases hsame : bitmapBlock sb c = bitmapBlock sb b
  · unfold BlockUsed takeBlock
    rw [hsame, Function.update_self, bitmapCheck_bitmapSet _ (hmod b), Bool.or_eq_true,
      decide_eq_true_iff, bit_eq_iff hsame]
  · have hne : c ≠ b := fun heq => hsame (by rw [heq])
    rw [takeBlock, blockUsed_update (Ne.symm hsame)]
    simp only [hne, or_false]

theorem inodeOf_takeBlock (hr : Regions sb) (hi : i < bitsPerBlock) (hb : b < sb.size) :
    inodeOf sb (takeBlock sb s b) i = inodeOf sb s i := by
  have hlt := hr.bitmap_lt b hb
  have hblock := inodeStart_le hr hi
  exact inodeOf_update (by omega)

theorem takeBlock_data (hr : Regions sb) (hb : b < sb.size) (hc : sb.dataStart ≤ c) :
    takeBlock sb s b c = s c := by
  have hlt := hr.bitmap_lt b hb
  have hinodes := hr.inodeStart_le_dataStart
  exact Function.update_of_ne (by omega) _ _

/-! ### `editInode` -/

variable {f : Block → Block}

theorem inodeUsed_editInode (hr : Regions sb) (hid : inodeId < bitsPerBlock) :
    InodeUsed sb (editInode sb s inodeId f) i ↔ InodeUsed sb s i := by
  have hlt := hr.inodeBitmap_lt
  have hle := hr.bitmap_le
  have hblock := inodeStart_le hr hid
  exact inodeUsed_update (by omega)

theorem blockUsed_editInode (hr : Regions sb) (hid : inodeId < bitsPerBlock) (hb : b < sb.size) :
    BlockUsed sb (editInode sb s inodeId f) b ↔ BlockUsed sb s b := by
  have hlt := hr.bitmap_lt b hb
  have hblock := inodeStart_le hr hid
  exact blockUsed_update (by omega)

theorem inodeOf_editInode :
    inodeOf sb (editInode sb s inodeId f) inodeId =
      inodeAt (f (s (inodeInBlock sb inodeId))) (inodeOffset inodeId) := by
  unfold inodeOf editInode
  rw [Function.update_self]

/-- An edit that leaves the other places of the block leaves the other inodes. -/
theorem inodeOf_editInode_of_ne (hr : Regions sb) (hid : inodeId < bitsPerBlock)
    (hi : i < bitsPerBlock) (hne : i ≠ inodeId)
    (hf : ∀ l ≠ inodeOffset inodeId, ∀ x, inodeAt (f x) l = inodeAt x l) :
    inodeOf sb (editInode sb s inodeId f) i = inodeOf sb s i := by
  by_cases hblock : inodeInBlock sb i = inodeInBlock sb inodeId
  · unfold inodeOf editInode
    rw [hblock, Function.update_self, hf _ (inode_place_ne hr hid hi hne hblock)]
  · exact inodeOf_update (Ne.symm hblock)

theorem editInode_data (hr : Regions sb) (hid : inodeId < bitsPerBlock) (hc : sb.dataStart ≤ c) :
    editInode sb s inodeId f c = s c := by
  have hlt := inodeInBlock_lt hr hid
  exact Function.update_of_ne (by omega) _ _

/-! ### Data blocks -/

theorem inodeUsed_updateData (hr : Regions sb) (hc : sb.dataStart ≤ c) :
    InodeUsed sb (Function.update s c x) i ↔ InodeUsed sb s i := by
  have hlt := hr.inodeBitmap_lt
  have hle := hr.bitmap_le
  have hinodes := hr.inodeStart_le_dataStart
  exact inodeUsed_update (by omega)

theorem blockUsed_updateData (hr : Regions sb) (hc : sb.dataStart ≤ c) (hb : b < sb.size) :
    BlockUsed sb (Function.update s c x) b ↔ BlockUsed sb s b := by
  have hlt := hr.bitmap_lt b hb
  have hinodes := hr.inodeStart_le_dataStart
  exact blockUsed_update (by omega)

theorem inodeOf_updateData (hr : Regions sb) (hc : sb.dataStart ≤ c) (hi : i < bitsPerBlock) :
    inodeOf sb (Function.update s c x) i = inodeOf sb s i := by
  have hlt := inodeInBlock_lt hr hi
  exact inodeOf_update (by omega)

end Operations

/-! ## The allocators -/

section Allocators

variable {sb : SuperBlock} {s : BlockStore} {undef : Nat}

/-- `i` is the lowest free inode. -/
structure FirstFree (sb : SuperBlock) (s : BlockStore) (i : Nat) : Prop where
  lt : i < bitsPerBlock
  unused : ¬ InodeUsed sb s i
  below : ∀ j < i, InodeUsed sb s j

theorem FirstFree.eq {i j : Nat} (hi : FirstFree sb s i) (hj : FirstFree sb s j) : i = j := by
  by_contra hne
  rcases Nat.lt_or_gt_of_ne hne with hlt | hlt
  · exact hi.unused (hj.below i hlt)
  · exact hj.unused (hi.below j hlt)

/-- `alloc_inode` takes the lowest free inode. -/
theorem allocInode_sat (hfree : ∃ i < bitsPerBlock, ¬ InodeUsed sb s i) :
    (allocInode sb undef).Sat s fun inodeId t =>
      FirstFree sb s inodeId ∧ t = takeInode sb s inodeId := by
  obtain ⟨i, hi, hunused⟩ := hfree
  unfold allocInode
  simp only [sat_bind, sat_blockGet_read, sat_read, sat_write, sat_blockCommit, sat_pure]
  cases hfind : (List.range bitsPerBlock).find? fun i =>
      !bitmapCheck (s sb.inodeBitmapStart) i with
  | none =>
    have hall := List.find?_eq_none.mp hfind i (List.mem_range.mpr hi)
    simp only [Bool.not_eq_true, Bool.not_eq_false'] at hall
    exact absurd hall hunused
  | some inodeId =>
    obtain ⟨hbit, hmem, hbelow⟩ := List.find?_range_eq_some.mp hfind
    rw [Bool.not_eq_true'] at hbit
    refine ⟨⟨List.mem_range.mp hmem, ?_, fun j hj => ?_⟩, rfl⟩
    · unfold InodeUsed
      rw [Option.getD_some, hbit]
      decide
    · have hused := hbelow j hj
      rwa [Bool.not_not] at hused

/-- Without a free inode `alloc_inode` answers the value of its local. -/
theorem allocInode_sat_none (hnone : ¬ ∃ i < bitsPerBlock, ¬ InodeUsed sb s i) :
    (allocInode sb undef).Sat s fun inodeId t => inodeId = undef ∧ t = takeInode sb s undef := by
  unfold allocInode
  simp only [sat_bind, sat_blockGet_read, sat_read, sat_write, sat_blockCommit, sat_pure]
  have hfind : (List.range bitsPerBlock).find? (fun i =>
      !bitmapCheck (s sb.inodeBitmapStart) i) = none := by
    apply List.find?_eq_none.mpr
    intro i hi hfree
    refine hnone ⟨i, List.mem_range.mp hi, ?_⟩
    unfold InodeUsed
    simpa using hfree
  rw [hfind]
  exact ⟨rfl, rfl⟩

/-- The page that is held in front of block `i` is the page of the block before
it, which is the same or the one before. -/
theorem nextBitmap_sat {i page : Nat}
    (hpage : page = bitmapBlock sb i ∨ page + 1 = bitmapBlock sb i) :
    (nextBitmap sb i page page).Sat s fun r t =>
      r = (bitmapBlock sb i, bitmapBlock sb i) ∧ t = s := by
  unfold nextBitmap
  by_cases hsame : i / bitsPerBlock + sb.blockBitmapStart = page
  · rw [if_neg (not_not.mpr hsame)]
    rw [sat_pure, ← hsame]
    exact ⟨rfl, rfl⟩
  · rw [if_pos hsame]
    have hnext : page + 1 = bitmapBlock sb i := by
      rcases hpage with heq | heq
      · exact absurd heq.symm hsame
      · exact heq
    simp only [sat_bind, sat_blockGet_read, sat_blockCommit, sat_pure, hnext, and_self]

/-- The block of the bitmap for the next number is the same or the next one. -/
theorem bitmapBlock_succ (sb : SuperBlock) (i : Nat) :
    bitmapBlock sb i = bitmapBlock sb (i + 1) ∨
      bitmapBlock sb i + 1 = bitmapBlock sb (i + 1) := by
  unfold bitmapBlock bitsPerBlock blockSize
  omega

/-- The loop of `alloc_data_block` takes the first free block. -/
theorem allocFrom_sat {n i page : Nat}
    (hpage : page = bitmapBlock sb i ∨ page + 1 = bitmapBlock sb i)
    (hfree : ∃ b, i ≤ b ∧ b < i + n ∧ ¬ BlockUsed sb s b) :
    (allocFrom sb n i page page).Sat s fun r t =>
      ∃ b, i ≤ b ∧ b < i + n ∧ ¬ BlockUsed sb s b ∧ r.2 = some b ∧ t = takeBlock sb s b := by
  induction n generalizing i page with
  | zero =>
    obtain ⟨b, hle, hlt, _⟩ := hfree
    omega
  | succ n ih =>
    unfold allocFrom
    apply sat_bind.mpr
    apply (nextBitmap_sat hpage).mono
    rintro r t ⟨rfl, rfl⟩
    simp only [sat_bind, sat_read]
    by_cases hused : bitmapCheck (t (bitmapBlock sb i)) (i % bitsPerBlock) = true
    · rw [if_pos hused]
      obtain ⟨b, hle, hlt, hunused⟩ := hfree
      have hne : b ≠ i := fun heq => hunused (heq ▸ hused)
      apply (ih (bitmapBlock_succ sb i) ⟨b, by omega, by omega, hunused⟩).mono
      rintro r t' ⟨c, hc, hcn, hrest⟩
      exact ⟨c, by omega, by omega, hrest⟩
    · rw [if_neg hused]
      simp only [sat_bind, sat_write, sat_pure]
      exact ⟨i, le_rfl, by omega, hused, rfl, rfl⟩

theorem allocFrom_sat_none {n i page : Nat}
    (hpage : page = bitmapBlock sb i ∨ page + 1 = bitmapBlock sb i)
    (hused : ∀ b, i ≤ b → b < i + n → BlockUsed sb s b) :
    (allocFrom sb n i page page).Sat s fun r t => r.2 = none ∧ t = s := by
  induction n generalizing i page with
  | zero => exact ⟨rfl, rfl⟩
  | succ n ih =>
    unfold allocFrom
    apply sat_bind.mpr
    apply (nextBitmap_sat hpage).mono
    rintro r t ⟨rfl, rfl⟩
    simp only [sat_bind, sat_read]
    have hhere : bitmapCheck (t (bitmapBlock sb i)) (i % bitsPerBlock) = true :=
      hused i le_rfl (by omega)
    rw [if_pos hhere]
    exact ih (bitmapBlock_succ sb i) fun b hb hlt => hused b (by omega) (by omega)

theorem bitmapBlock_dataStart (hr : Regions sb) :
    sb.blockBitmapStart = bitmapBlock sb sb.dataStart := by
  unfold bitmapBlock
  rw [Nat.div_eq_of_lt hr.dataStart_lt, Nat.zero_add]

/-- Without a free data block `alloc_data_block` answers the value of its local. -/
theorem allocDataBlock_sat_none (hr : Regions sb)
    (hused : ∀ b, sb.dataStart ≤ b → b < sb.size → BlockUsed sb s b) :
    (allocDataBlock sb undef).Sat s fun b t => b = undef ∧ t = s := by
  unfold allocDataBlock
  simp only [sat_bind, sat_blockGet_read]
  apply (allocFrom_sat_none (Or.inl (bitmapBlock_dataStart hr)) fun b hb hlt =>
    hused b hb (by omega)).mono
  rintro ⟨page, found⟩ t ⟨hfound, ht⟩
  dsimp only at hfound
  subst hfound
  simp only [sat_blockCommit, sat_pure, Option.getD_none, true_and]
  exact ht

/-- `alloc_data_block` takes a free data block. -/
theorem allocDataBlock_sat (hr : Regions sb)
    (hfree : ∃ b, sb.dataStart ≤ b ∧ b < sb.size ∧ ¬ BlockUsed sb s b) :
    (allocDataBlock sb undef).Sat s fun b t =>
      sb.dataStart ≤ b ∧ b < sb.size ∧ ¬ BlockUsed sb s b ∧ t = takeBlock sb s b := by
  obtain ⟨b, hle, hlt, hunused⟩ := hfree
  unfold allocDataBlock
  simp only [sat_bind, sat_blockGet_read]
  apply (allocFrom_sat (Or.inl (bitmapBlock_dataStart hr)) ⟨b, hle, by omega, hunused⟩).mono
  rintro ⟨page, found⟩ t ⟨c, hc, hcn, hrest, hfound, ht⟩
  dsimp only at hfound
  subst hfound
  simp only [sat_blockCommit, sat_pure, Option.getD_some]
  exact ⟨hc, by omega, hrest, ht⟩

end Allocators

end MipsOs.Fs
