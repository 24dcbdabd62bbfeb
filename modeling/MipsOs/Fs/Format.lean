import MipsOs.Fs.Mount
import MipsOs.Fs.NewStore
import MipsOs.Lib.Tiling

/-!
# The layout of a new file system

What `init_file_system` makes of a partition, for every number of sectors: the
boot block, the super block, the inode bitmap, the block bitmap, the inodes and
the data blocks tile the partition; the block bitmap has a bit for every block;
every inode has 64 bytes of its own; and the blocks up to the block of the root
are marked as used, and no others.

The loop over `bitmap_set` works on one page, so it needs
`data_start < BITS_PER_BLOCK`.  The number of bitmap blocks is at most `2 ^ 14`,
because a partition has fewer than `2 ^ 32` sectors.

`init_content` connects the run of `init_file_system` over the cache with the
store `newStore`.
-/

namespace MipsOs.Fs

open MipsOs.Lib MipsOs.Lib.BlockProg

/-! ## The regions -/

/-- The regions of a file system: the boot block, the super block, the inode
bitmap, the block bitmap, the inodes and the data blocks. -/
def regions (sb : SuperBlock) : List (Nat × Nat) :=
  [(0, 1), (1, 1), (sb.inodeBitmapStart, sb.sizeInodeBitmap),
    (sb.blockBitmapStart, sb.sizeBlockBitmap), (sb.inodeStart, sb.sizeInodeArray),
    (sb.dataStart, sb.nDataBlocks)]

/-- `sizeof(inode_t)` -/
def inodeSize : Nat := 64

/-- The regions tile the partition and what the code looks up lies in its
region. -/
structure LaidOut (sb : SuperBlock) : Prop where
  tiles : Tiles 0 (regions sb) sb.size
  bits : ∀ b < sb.size, InRange (sb.blockBitmapStart, sb.sizeBlockBitmap) (bitmapBlock sb b)
  marks : ∀ id ≤ sb.dataStart, 4 * (id / 32) + 4 ≤ blockSize
  inodes : ∀ i < sb.nInodes, InRange (sb.inodeStart, sb.sizeInodeArray) (inodeInBlock sb i) ∧
    inodeSize * inodeOffset i + inodeSize ≤ blockSize
  apart : ∀ i < sb.nInodes, ∀ j < sb.nInodes, i ≠ j → inodeInBlock sb i = inodeInBlock sb j →
    inodeSize * inodeOffset i + inodeSize ≤ inodeSize * inodeOffset j ∨
      inodeSize * inodeOffset j + inodeSize ≤ inodeSize * inodeOffset i

section Setup

variable {sectorNum : Nat}

theorem setup_size : (setupSuperBlock sectorNum).size = sectorNum / 8 := rfl

/-- The bitmap has a block for every `BITS_PER_BLOCK` blocks, and for the
rest. -/
theorem size_le_bits :
    (setupSuperBlock sectorNum).size ≤ (setupSuperBlock sectorNum).sizeBlockBitmap * 32768 := by
  have hbitmap : (setupSuperBlock sectorNum).sizeBlockBitmap =
      sectorNum / 8 / 32768 + if sectorNum / 8 % 32768 ≠ 0 then 1 else 0 := rfl
  rw [hbitmap, setup_size]
  split <;> omega

theorem sizeBlockBitmap_le (h : sectorNum < 2 ^ 32) :
    (setupSuperBlock sectorNum).sizeBlockBitmap ≤ 16384 := by
  have hbitmap : (setupSuperBlock sectorNum).sizeBlockBitmap =
      sectorNum / 8 / 32768 + if sectorNum / 8 % 32768 ≠ 0 then 1 else 0 := rfl
  rw [hbitmap]
  split <;> omega

/-- With room for a data block the subtraction does not wrap. -/
theorem setup_nDataBlocks (h : sectorNum < 2 ^ 32)
    (hroom : (setupSuperBlock sectorNum).dataStart < (setupSuperBlock sectorNum).size) :
    (setupSuperBlock sectorNum).dataStart + (setupSuperBlock sectorNum).nDataBlocks =
      (setupSuperBlock sectorNum).size := by
  have hblocks : (setupSuperBlock sectorNum).nDataBlocks =
      ((setupSuperBlock sectorNum).size + 2 ^ 32 - (setupSuperBlock sectorNum).dataStart) %
        2 ^ 32 := rfl
  have hsize := @setup_size sectorNum
  rw [hblocks]
  omega

theorem setup_tiles (h : sectorNum < 2 ^ 32)
    (hroom : (setupSuperBlock sectorNum).dataStart < (setupSuperBlock sectorNum).size) :
    Tiles 0 (regions (setupSuperBlock sectorNum)) (setupSuperBlock sectorNum).size := by
  have hdata := setup_nDataBlocks h hroom
  refine ⟨rfl, rfl, rfl, rfl, ?_, ?_, ?_⟩
  · show (setupSuperBlock sectorNum).inodeStart = 0 + 1 + 1 + 1 +
      (setupSuperBlock sectorNum).sizeBlockBitmap
    rw [setupSuperBlock_inodeStart]
  · show (setupSuperBlock sectorNum).dataStart = 0 + 1 + 1 + 1 +
      (setupSuperBlock sectorNum).sizeBlockBitmap + 512
    rw [setupSuperBlock_dataStart, setupSuperBlock_inodeStart]
  · show 0 + 1 + 1 + 1 + (setupSuperBlock sectorNum).sizeBlockBitmap + 512 +
      (setupSuperBlock sectorNum).nDataBlocks = (setupSuperBlock sectorNum).size
    rw [setupSuperBlock_dataStart, setupSuperBlock_inodeStart] at hdata
    omega

/-- A partition of any size is laid out consistently, provided that there is
room for a data block. -/
theorem laidOut_setup (h : sectorNum < 2 ^ 32)
    (hroom : (setupSuperBlock sectorNum).dataStart < (setupSuperBlock sectorNum).size) :
    LaidOut (setupSuperBlock sectorNum) := by
  have hr := regions_setup h
  have hids : (setupSuperBlock sectorNum).nInodes = bitsPerBlock := rfl
  refine ⟨setup_tiles h hroom, fun b hb => ?_, fun id hid => ?_, fun i hi => ?_,
    fun i hi j hj hne hblock => ?_⟩
  · refine ⟨bitmapStart_le _ b, ?_⟩
    have hlt := hr.bitmap_lt b hb
    rwa [setupSuperBlock_inodeStart] at hlt
  · have hlt := hr.dataStart_lt
    simp only [bitsPerBlock, blockSize] at hlt ⊢
    omega
  · have hlt := inodeOffset_lt i
    refine ⟨⟨inodeStart_le hr hi, ?_⟩, ?_⟩
    · exact inodeInBlock_lt hr hi
    · simp only [inodesPerBlock, inodeSize, blockSize] at hlt ⊢
      omega
  · have hplace := inode_place_ne hr hj hi hne hblock
    unfold inodeSize
    omega

/-- The words of a super block. -/
def SuperBlock.fields (sb : SuperBlock) : List Nat :=
  [sb.magicNum, sb.size, sb.nInodes, sb.inodeBitmapStart, sb.sizeInodeBitmap,
    sb.blockBitmapStart, sb.sizeBlockBitmap, sb.inodeStart, sb.sizeInodeArray,
    sb.dataStart, sb.nDataBlocks]

/-- The super block reads back as it was stored: no field is cut off. -/
theorem ofPage_store (h : sectorNum < 2 ^ 32) (page : Block) :
    SuperBlock.ofPage ((setupSuperBlock sectorNum).store page) = setupSuperBlock sectorNum := by
  have hbitmap := sizeBlockBitmap_le h
  have hinode := setupSuperBlock_inodeStart sectorNum
  have hdata := setupSuperBlock_dataStart sectorNum
  have hsize := @setup_size sectorNum
  have hblocks : (setupSuperBlock sectorNum).nDataBlocks < 2 ^ 32 := Nat.mod_lt _ (by decide)
  have hword : ∀ j v, (setupSuperBlock sectorNum).fields[j]? = some v → v < 2 ^ 32 →
      Bytes.word ((setupSuperBlock sectorNum).store page) j = v := by
    intro j v hget hv
    have hput := Bytes.word_putWords (c := 0) (i := 0) _ hv (by simp [SuperBlock.fields]) hget page
    simp only [Nat.zero_add] at hput
    exact hput
  have hmagic : kfsMagic < 2 ^ 32 := by decide
  rw [SuperBlock.ofPage, hword 0 kfsMagic rfl hmagic,
    hword 1 _ rfl (by omega), hword 2 bitsPerBlock rfl (by decide), hword 3 2 rfl (by decide),
    hword 4 1 rfl (by decide), hword 5 3 rfl (by decide), hword 6 _ rfl (by omega),
    hword 7 _ rfl (by omega), hword 8 512 rfl (by decide), hword 9 _ rfl (by omega),
    hword 10 _ rfl hblocks]
  rfl

end Setup

/-! ## The blocks in use -/

section Used

variable {sb : SuperBlock} {blocks : List (Nat × Block)} {s old : BlockStore} {b : Nat} {x : Block}

/-- A block that is overwritten with one content only. -/
theorem overwritten_of_mem (hall : ∀ e ∈ blocks, e.1 = b → e.2 = x)
    (hmem : ∃ e ∈ blocks, e.1 = b) : overwritten blocks s b = x := by
  induction blocks generalizing s with
  | nil =>
    obtain ⟨e, he, -⟩ := hmem
    cases he
  | cons e rest ih =>
    show overwritten rest (Function.update s e.1 e.2) b = x
    by_cases hrest : ∃ e ∈ rest, e.1 = b
    · exact ih (fun e he => hall e (List.mem_cons_of_mem _ he)) hrest
    · have hfirst : e.1 = b := by
        obtain ⟨e', he', hb⟩ := hmem
        rcases List.mem_cons.mp he' with rfl | hin
        · exact hb
        · exact absurd ⟨e', hin, hb⟩ hrest
      rw [overwritten_of_ne fun e' he' hb => hrest ⟨e', he', hb⟩, ← hfirst, Function.update_self]
      exact hall e List.mem_cons_self hfirst

/-- The blocks of the bitmap behind the first one are empty. -/
theorem newStore_furtherBitmap (hr : Regions sb) {k : Nat} (hpos : 0 < k)
    (hk : k < sb.sizeBlockBitmap)
    (hfit : sb.blockBitmapStart + sb.sizeBlockBitmap ≤ sb.inodeStart) :
    newStore sb old (k + sb.blockBitmapStart) = zeroBlock := by
  have hdata := hr.inodeStart_le_dataStart
  rw [newStore_eq, Function.update_of_ne (by omega), Function.update_of_ne (by omega)]
  apply overwritten_of_mem
  · intro e he _
    obtain ⟨i, -, rfl⟩ := List.mem_map.mp he
    rfl
  · refine ⟨(sb.blockBitmapStart + k, zeroBlock), List.mem_map.mpr ⟨k, ?_, rfl⟩, ?_⟩
    · rw [List.mem_range'_1]
      omega
    · exact Nat.add_comm _ _

/-- Of all the bits of the bitmap those up to the block of the root are set. -/
theorem blockUsed_newStore_bits (hr : Regions sb)
    (hfit : sb.blockBitmapStart + sb.sizeBlockBitmap ≤ sb.inodeStart)
    (hb : b < sb.sizeBlockBitmap * bitsPerBlock) :
    BlockUsed sb (newStore sb old) b ↔ b ≤ sb.dataStart := by
  have hdata := hr.dataStart_lt
  have hk : b / bitsPerBlock < sb.sizeBlockBitmap :=
    Nat.div_lt_of_lt_mul (Nat.mul_comm _ _ ▸ hb)
  have hsome : 0 < sb.sizeBlockBitmap := Nat.zero_lt_of_lt hk
  by_cases hfirst : b < bitsPerBlock
  · have hbitmap : bitmapBlock sb b = sb.blockBitmapStart := by
      rw [bitmapBlock, Nat.div_eq_of_lt hfirst, Nat.zero_add]
    rw [BlockUsed, hbitmap, newStore_blockBitmap hr (by omega), Nat.mod_eq_of_lt hfirst,
      bitmapCheck_newBlockBitmap hr, decide_eq_true_iff]
  · have hpos : 0 < b / bitsPerBlock := Nat.div_pos (by omega) (by decide)
    rw [BlockUsed, bitmapBlock, newStore_furtherBitmap hr hpos hk hfit, bitmapCheck_zeroBlock]
    simp only [Bool.false_eq_true, false_iff]
    omega

end Used

/-! ## The run of `init_file_system` -/

section Run

variable {s s' : Mounted} {p q : Fin 4} {b : Nat} {x : Block}

theorem blockGet_currentPartition {c c' : Cache} {doRead : Bool} {page : Nat}
    (h : blockGet c b doRead = some (page, c')) : c'.currentPartition = c.currentPartition := by
  unfold blockGet at h
  split at h
  · obtain ⟨-, rfl⟩ := Prod.mk.inj (Option.some.inj h)
    rfl
  · obtain ⟨i, -, hload⟩ := Option.bind_eq_some_iff.mp h
    obtain ⟨-, rfl⟩ := Prod.mk.inj (Option.some.inj hload)
    rw [Cache.load_currentPartition, Cache.evict_currentPartition]

@[simp] theorem blockCommit_currentPartition (c : Cache) (page : Nat) (doWrite : Bool) :
    (blockCommit c page doWrite).currentPartition = c.currentPartition := by
  unfold blockCommit
  split <;> rfl

theorem Mounted.overwrite_content (h : s.overwrite b x = some s') :
    s'.fs.cache.currentPartition = s.fs.cache.currentPartition ∧
      s'.content = s.content.set s.fs.cache.currentPartition b x := by
  simp only [Mounted.overwrite, Mounted.get, Mounted.write, Mounted.commit,
    Option.bind_eq_bind, Option.pure_def, Option.bind_eq_some_iff, Option.some.injEq,
    Prod.exists, Prod.mk.injEq] at h
  obtain ⟨page, s₁, ⟨page', c, hget, rfl, rfl⟩, s₂, ⟨p, b', hfind, rfl⟩, rfl⟩ := h
  have hpart := blockGet_currentPartition hget
  rw [List.find?_cons_of_pos (by simp)] at hfind
  obtain ⟨-, rfl⟩ := Prod.mk.inj (Option.some.inj hfind)
  refine ⟨?_, ?_⟩
  · show (blockCommit (c.poke page' x) page' true).currentPartition = _
    rw [blockCommit_currentPartition]
    exact hpart
  · show (s.content.set s.fs.cache.currentPartition b (c.mem page')).set c.currentPartition b x = _
    rw [hpart, Store.set_set]

/-- The contents after a list of blocks has been overwritten. -/
theorem Mounted.foldlM_overwrite_content (blocks : List (Nat × Block))
    (h : blocks.foldlM (fun s (b, x) => s.overwrite b x) s = some s') :
    s'.content s.fs.cache.currentPartition =
        overwritten blocks (s.content s.fs.cache.currentPartition) ∧
      ∀ q ≠ s.fs.cache.currentPartition, s'.content q = s.content q := by
  induction blocks generalizing s with
  | nil =>
    obtain rfl : s = s' := by simpa using h
    exact ⟨rfl, fun _ _ => rfl⟩
  | cons e rest ih =>
    simp only [List.foldlM_cons, Option.bind_eq_bind, Option.bind_eq_some_iff] at h
    obtain ⟨s₁, hfirst, hrest⟩ := h
    obtain ⟨hpart, hcontent⟩ := Mounted.overwrite_content hfirst
    obtain ⟨hsame, hother⟩ := ih hrest
    rw [hpart, hcontent] at hsame
    rw [hpart, hcontent] at hother
    refine ⟨?_, fun q hq => ?_⟩
    · rw [hsame]
      show _ = overwritten rest (Function.update (s.content s.fs.cache.currentPartition) e.1 e.2)
      congr 1
      funext d
      by_cases hd : d = e.1
      · rw [hd, Store.set_self, Function.update_self]
      · rw [Store.set_of_ne _ _ fun h => hd h.2, Function.update_of_ne hd]
    · rw [hother q hq]
      funext d
      exact Store.set_of_ne _ _ fun h => hq h.1

/-- What the blocks of the partition hold after `init_file_system`: the super
block in block 1, and the store of a new file system around it. -/
theorem Mounted.init_content (hm : s.fs.fsMounted = false) (hinit : s.init p = some s') :
    s'.content p =
        newStore (setupSuperBlock (s.fs.cache.table p).sectorNum)
          (Function.update (s.content p) 1
            ((setupSuperBlock (s.fs.cache.table p).sectorNum).store
              ((s.fs.select p).cache.mem (s.fs.select p).fsSuperBlock))) ∧
      ∀ q ≠ p, s'.content q = s.content q := by
  rw [Mounted.init, if_neg (by rw [hm]; decide)] at hinit
  simp only [Option.bind_eq_bind, Option.pure_def, Option.bind_eq_some_iff,
    Option.some.injEq] at hinit
  obtain ⟨s₁, hfold, rfl⟩ := hinit
  obtain ⟨hsame, hother⟩ := Mounted.foldlM_overwrite_content _ hfold
  have hpart : (s.superBlockWritten (s.fs.setup p)).fs.cache.currentPartition = p := rfl
  have htable : (s.superBlockWritten (s.fs.setup p)).fs.cache.table = s.fs.cache.table := rfl
  rw [hpart, htable] at hsame
  rw [hpart] at hother
  refine ⟨?_, fun q hq => ?_⟩
  · show s₁.content p = _
    rw [hsame, newStore]
    congr 1
    funext d
    show s.content.set p 1 ((s.fs.setup p).cache.mem (s.fs.setup p).fsSuperBlock) p d = _
    have hpage : (s.fs.setup p).cache.mem (s.fs.setup p).fsSuperBlock =
        (setupSuperBlock (s.fs.cache.table p).sectorNum).store
          ((s.fs.select p).cache.mem (s.fs.select p).fsSuperBlock) :=
      Function.update_self _ _ _
    rw [hpage]
    by_cases hd : d = 1
    · rw [hd, Store.set_self, Function.update_self]
    · rw [Store.set_of_ne _ _ fun h => hd h.2, Function.update_of_ne hd]
  · show s₁.content q = _
    rw [hother q hq]
    funext d
    exact Store.set_of_ne _ _ fun h => hq h.1

end Run

/-! ## Every format is consistent -/

/-- Block 1 is written before the others, and stays. -/
theorem newStore_superBlock (sectorNum : Nat) (old : BlockStore) :
    newStore (setupSuperBlock sectorNum) old 1 = old 1 := by
  apply overwritten_of_ne
  intro e he heq
  have hlt := (setupBlocks_le he).1
  omega

section Format

variable {sectorNum : Nat}

theorem used_setup (h : sectorNum < 2 ^ 32) (old : BlockStore) {b : Nat}
    (hb : b < (setupSuperBlock sectorNum).sizeBlockBitmap * bitsPerBlock) :
    BlockUsed (setupSuperBlock sectorNum) (newStore (setupSuperBlock sectorNum) old) b ↔
      b ≤ (setupSuperBlock sectorNum).dataStart := by
  apply blockUsed_newStore_bits (regions_setup h) _ hb
  rw [setupSuperBlock_blockBitmapStart, setupSuperBlock_inodeStart]

/-- Whatever the number of sectors, a format that has room for a data block lays
out the partition consistently.  Every block has one region and a bit of the
bitmap; the marking loop stays in the first block of the bitmap; every inode has
64 bytes of its own; and when `init_file_system` is done the super block on the
card says so and the blocks up to the first data block are used, of all that the
bitmap has a bit for. -/
theorem format_consistent (h : sectorNum < 2 ^ 32)
    (hroom : (setupSuperBlock sectorNum).dataStart < (setupSuperBlock sectorNum).size) :
    LaidOut (setupSuperBlock sectorNum) ∧
      (∀ b < (setupSuperBlock sectorNum).size,
        b < (setupSuperBlock sectorNum).sizeBlockBitmap * bitsPerBlock ∧
          ∃! r, r ∈ regions (setupSuperBlock sectorNum) ∧ InRange r b) ∧
      (∀ unread old b, b < (setupSuperBlock sectorNum).sizeBlockBitmap * bitsPerBlock →
        (BlockUsed (setupSuperBlock sectorNum)
            ((initBlocks (setupSuperBlock sectorNum)).flat unread old).2.2 b ↔
          b ≤ (setupSuperBlock sectorNum).dataStart)) ∧
      ∀ (s s' : Mounted) (p : Fin 4), (s.fs.cache.table p).sectorNum = sectorNum →
        s.fs.fsMounted = false → s.init p = some s' →
        SuperBlock.ofPage (s'.content p 1) = setupSuperBlock sectorNum ∧
          ∀ b < (setupSuperBlock sectorNum).sizeBlockBitmap * bitsPerBlock,
            (BlockUsed (setupSuperBlock sectorNum) (s'.content p) b ↔
              b ≤ (setupSuperBlock sectorNum).dataStart) := by
  have hlaid := laidOut_setup h hroom
  refine ⟨hlaid, fun b hb => ⟨?_, ?_⟩, fun unread old b hb => ?_, ?_⟩
  · have hbits := @size_le_bits sectorNum
    simp only [bitsPerBlock, blockSize]
    omega
  · exact hlaid.tiles.existsUnique (Nat.zero_le b) hb
  · rw [initBlocks_flat]
    exact used_setup h old hb
  · intro s s' p hsectors hm hinit
    have hcontent := (Mounted.init_content hm hinit).1
    rw [hsectors] at hcontent
    rw [hcontent]
    refine ⟨?_, fun b hb => used_setup h _ hb⟩
    rw [newStore_superBlock, Function.update_self]
    exact ofPage_store h _

/-- A partition of 1024 blocks, formatted after boot. -/
theorem blank_format_consistent :
    ∃ s', blankMounted.init 0 = some s' ∧
      SuperBlock.ofPage (s'.content 0 1) = setupSuperBlock 8192 ∧
      BlockUsed (setupSuperBlock 8192) (s'.content 0) 516 ∧
      ¬ BlockUsed (setupSuperBlock 8192) (s'.content 0) 517 := by
  have hsome : (blankMounted.init 0).isSome = true := by decide +kernel
  obtain ⟨s', hs'⟩ := Option.isSome_iff_exists.mp hsome
  obtain ⟨hsuper, hused⟩ :=
    (format_consistent (by decide) (by decide)).2.2.2 blankMounted s' 0 rfl rfl hs'
  refine ⟨s', hs', hsuper, (hused 516 (by decide)).mpr (by decide), fun h => ?_⟩
  exact absurd ((hused 517 (by decide)).mp h) (by decide)

end Format

end MipsOs.Fs
