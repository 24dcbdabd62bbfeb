import MipsOs.Fs.Disk
import MipsOs.Lib.Bytes

/-!
# What the blocks of a file system hold

The structures of `fs/fs.h` as bytes of a block, the bitmap functions of
`libs/bitmap.c`, and the blocks that `init_file_system` writes.

An inode is 64 bytes: `type`, `n_links`, `size` and `addrs[13]`.  A directory
entry is 64 bytes: 60 bytes of name and the number of an inode.  Both are
read and written word by word, as the C code does through its pointers.
-/

namespace MipsOs.Fs

open MipsOs.Lib

/-- `KFS_MAGIC` -/
def kfsMagic : Nat := 0x66666666

/-- `SECTOR_PER_BLOCK` -/
def sectorPerBlock : Nat := blockSize / sectorSize

/-- `BITS_PER_BLOCK` -/
def bitsPerBlock : Nat := blockSize * 8

/-- `INODES_PER_BLOCK` -/
def inodesPerBlock : Nat := 64

/-- `DENTRY_PER_BLOCK` -/
def dentryPerBlock : Nat := 64

/-- `ADDR_PER_BLOCK` -/
def addrPerBlock : Nat := 1024

/-- `TYPE_FILE` -/
def typeFile : Nat := 1

/-- `TYPE_DIR` -/
def typeDir : Nat := 2

/-- A block after `memset(block, 0, BLOCK_SIZE)`. -/
def zeroBlock : Block := fun _ => 0

/-! ## Bitmaps -/

/-- `bitmap_check` -/
def bitmapCheck (bitmap : Block) (id : Nat) : Bool :=
  Bytes.word bitmap (id / 32) &&& 2 ^ (id % 32) ≠ 0

/-- `bitmap_set` -/
def bitmapSet (bitmap : Block) (id : Nat) : Block :=
  Bytes.setWord bitmap (id / 32) (bitSet (Bytes.word bitmap (id / 32)) (id % 32))

/-- `bitmap_clear` -/
def bitmapClear (bitmap : Block) (id : Nat) : Block :=
  Bytes.setWord bitmap (id / 32) (bitClear (Bytes.word bitmap (id / 32)) (id % 32))

theorem bitmapCheck_eq (bitmap : Block) (id : Nat) :
    bitmapCheck bitmap id = (Bytes.word bitmap (id / 32)).testBit (id % 32) := by
  rw [bitmapCheck, Nat.and_two_pow]
  cases (Bytes.word bitmap (id / 32)).testBit (id % 32) <;> simp

/-- Setting a bit sets that bit and no other. -/
theorem bitmapCheck_bitmapSet (bitmap : Block) {id : Nat} (hid : id < bitsPerBlock)
    (j : Nat) :
    bitmapCheck (bitmapSet bitmap id) j = (bitmapCheck bitmap j || decide (j = id)) := by
  have hk : 4 * (id / 32) + 3 < 4096 := by
    simp only [bitsPerBlock, blockSize] at hid
    omega
  have hlt := bitSet_lt (Bytes.word_lt bitmap (id / 32)) (Nat.mod_lt id (by decide : 0 < 32))
  rw [bitmapCheck_eq, bitmapCheck_eq, bitmapSet, Bytes.word_setWord _ hk hlt]
  split
  · rename_i h
    rw [testBit_bitSet, h]
    congr 1
    rw [decide_eq_decide]
    omega
  · rename_i h
    have hne : j ≠ id := fun heq => h (heq ▸ rfl)
    simp [hne]

/-- Clearing a bit clears that bit and no other. -/
theorem bitmapCheck_bitmapClear (bitmap : Block) {id : Nat} (hid : id < bitsPerBlock)
    (j : Nat) :
    bitmapCheck (bitmapClear bitmap id) j = (bitmapCheck bitmap j && decide (j ≠ id)) := by
  have hk : 4 * (id / 32) + 3 < 4096 := by
    simp only [bitsPerBlock, blockSize] at hid
    omega
  have hlt := bitClear_lt (Bytes.word_lt bitmap (id / 32)) (id % 32)
  rw [bitmapCheck_eq, bitmapCheck_eq, bitmapClear, Bytes.word_setWord _ hk hlt]
  split
  · rename_i h
    rw [testBit_bitClear (Nat.mod_lt id (by decide)) (Nat.mod_lt j (by decide)), h]
    congr 1
    rw [decide_eq_decide]
    omega
  · rename_i h
    have hne : j ≠ id := fun heq => h (heq ▸ rfl)
    simp [hne]

/-- A bit that was free is free again after it was set and cleared, and the bitmap is as before. -/
theorem bitmapClear_bitmapSet {bitmap : Block} {id : Nat} (hid : id < bitsPerBlock)
    (hfree : bitmapCheck bitmap id = false) : bitmapClear (bitmapSet bitmap id) id = bitmap := by
  have hk : 4 * (id / 32) + 3 < 4096 := by
    simp only [bitsPerBlock, blockSize] at hid
    omega
  have ho := Nat.mod_lt id (show 0 < 32 by decide)
  have hword := Bytes.word_lt bitmap (id / 32)
  rw [bitmapCheck_eq] at hfree
  unfold bitmapClear bitmapSet
  rw [Bytes.word_setWord_same _ hk (bitSet_lt hword ho), Bytes.setWord_setWord,
    bitClear_bitSet hword ho hfree, Bytes.setWord_word]

@[simp] theorem bitmapCheck_zeroBlock (id : Nat) : bitmapCheck zeroBlock id = false := by
  rw [bitmapCheck_eq]
  have hzero : Bytes.word zeroBlock (id / 32) = 0 := by
    have hget : ∀ i, Bytes.get zeroBlock i = 0 := by
      intro i
      unfold Bytes.get
      split <;> rfl
    simp [Bytes.word, hget]
  rw [hzero, Nat.zero_testBit]

/-! ## The super block -/

/-- `super_block_t` -/
structure SuperBlock where
  magicNum : Nat
  size : Nat
  nInodes : Nat
  inodeBitmapStart : Nat
  sizeInodeBitmap : Nat
  blockBitmapStart : Nat
  sizeBlockBitmap : Nat
  inodeStart : Nat
  sizeInodeArray : Nat
  dataStart : Nat
  nDataBlocks : Nat
  deriving DecidableEq, Repr

/-- The super block that `init_file_system` sets up for a partition of
`sectorNum` sectors.  All fields are `uint32_t`. -/
def setupSuperBlock (sectorNum : Nat) : SuperBlock :=
  let size := sectorNum / sectorPerBlock
  let inodeBitmapStart := 2
  let sizeInodeBitmap := 1
  let blockBitmapStart := inodeBitmapStart + sizeInodeBitmap
  let sizeBlockBitmap := size / bitsPerBlock + if size % bitsPerBlock ≠ 0 then 1 else 0
  let inodeStart := blockBitmapStart + sizeBlockBitmap
  let sizeInodeArray := bitsPerBlock / inodesPerBlock
  let dataStart := inodeStart + sizeInodeArray
  { magicNum := kfsMagic
    size := size
    nInodes := bitsPerBlock
    inodeBitmapStart := inodeBitmapStart
    sizeInodeBitmap := sizeInodeBitmap
    blockBitmapStart := blockBitmapStart
    sizeBlockBitmap := sizeBlockBitmap
    inodeStart := inodeStart
    sizeInodeArray := sizeInodeArray
    dataStart := dataStart
    nDataBlocks := (size + 2 ^ 32 - dataStart) % 2 ^ 32 }

@[simp] theorem setupSuperBlock_inodeBitmapStart (n : Nat) :
    (setupSuperBlock n).inodeBitmapStart = 2 := rfl

@[simp] theorem setupSuperBlock_blockBitmapStart (n : Nat) :
    (setupSuperBlock n).blockBitmapStart = 3 := rfl

theorem setupSuperBlock_inodeStart (n : Nat) :
    (setupSuperBlock n).inodeStart = 3 + (setupSuperBlock n).sizeBlockBitmap := rfl

theorem setupSuperBlock_dataStart (n : Nat) :
    (setupSuperBlock n).dataStart = (setupSuperBlock n).inodeStart + 512 := rfl

/-- Write the super block into a page.  The bytes after it stay. -/
def SuperBlock.store (sb : SuperBlock) (page : Block) : Block :=
  [sb.magicNum, sb.size, sb.nInodes, sb.inodeBitmapStart, sb.sizeInodeBitmap,
    sb.blockBitmapStart, sb.sizeBlockBitmap, sb.inodeStart, sb.sizeInodeArray,
    sb.dataStart, sb.nDataBlocks].zipIdx.foldl
    (fun page (v, k) => Bytes.setWord page k v) page

/-- The super block in a page. -/
def SuperBlock.ofPage (page : Block) : SuperBlock where
  magicNum := Bytes.word page 0
  size := Bytes.word page 1
  nInodes := Bytes.word page 2
  inodeBitmapStart := Bytes.word page 3
  sizeInodeBitmap := Bytes.word page 4
  blockBitmapStart := Bytes.word page 5
  sizeBlockBitmap := Bytes.word page 6
  inodeStart := Bytes.word page 7
  sizeInodeArray := Bytes.word page 8
  dataStart := Bytes.word page 9
  nDataBlocks := Bytes.word page 10

/-- The field `magic_num` of a page. -/
def pageMagic (page : Block) : Nat := Bytes.word page 0

/-! ## Inodes and directory entries -/

/-- `inode_block[k].type` -/
def setInodeType (b : Block) (k v : Nat) : Block := Bytes.setWord b (16 * k) v

/-- `inode_block[k].n_links` -/
def setInodeNLinks (b : Block) (k v : Nat) : Block := Bytes.setWord b (16 * k + 1) v

/-- `inode_block[k].size` -/
def setInodeSize (b : Block) (k v : Nat) : Block := Bytes.setWord b (16 * k + 2) v

/-- `inode_block[k].addrs[a]` -/
def setInodeAddr (b : Block) (k a v : Nat) : Block := Bytes.setWord b (16 * k + 3 + a) v

/-- `strcpy(dir_block[i].name, name); dir_block[i].inode_id = inode_id` -/
def setEntry (b : Block) (i : Nat) (name : List UInt8) (inodeId : Nat) : Block :=
  Bytes.setWord (Bytes.paste b (64 * i) (name ++ [0])) (16 * i + 15) inodeId

/-- The name `"."`. -/
def dotName : List UInt8 := [46]

/-- The name `".."`. -/
def dotDotName : List UInt8 := [46, 46]

/-! ## The blocks of a new file system -/

/-- The inode bitmap of a new file system. -/
def newInodeBitmap : Block := bitmapSet zeroBlock 0

/-- The first block bitmap of a new file system. -/
def newBlockBitmap (sb : SuperBlock) : Block :=
  (List.range (sb.dataStart + 1)).foldl bitmapSet zeroBlock

/-- The first inode block of a new file system: the inode of the root. -/
def newInodeBlock (sb : SuperBlock) : Block :=
  setInodeAddr (setInodeSize (setInodeNLinks (setInodeType zeroBlock 0 typeDir) 0 1) 0 1)
    0 0 sb.dataStart

/-- The directory block of the root. -/
def newRootDir : Block :=
  setEntry (setEntry zeroBlock 0 dotName 0) 1 dotDotName 0

/-- The blocks that `init_file_system` overwrites through the cache, in
order. -/
def setupBlocks (sb : SuperBlock) : List (Nat × Block) :=
  [(sb.inodeBitmapStart, newInodeBitmap), (sb.blockBitmapStart, newBlockBitmap sb)] ++
    ((List.range' 1 (sb.sizeBlockBitmap - 1)).map fun i =>
      (sb.blockBitmapStart + i, zeroBlock)) ++
    [(sb.inodeStart, newInodeBlock sb), (sb.dataStart, newRootDir)]

end MipsOs.Fs
