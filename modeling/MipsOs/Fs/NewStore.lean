import MipsOs.Fs.Create

/-!
# The store of a new file system

`init_file_system` overwrites the blocks of `setupBlocks`, over whatever the
partition holds.  What follows for the views: inode 0 is the one allocated
inode, a directory with the block `data_start`, and the blocks up to that one
are marked as used.
-/

namespace MipsOs.Fs

open MipsOs.Lib MipsOs.Lib.BlockProg

/-- Overwrite blocks. -/
def overwriteAll : List (Nat × Block) → Prog Unit
  | [] => return ()
  | (blockId, x) :: blocks => do
    let page ← blockGet blockId false
    write page x
    blockCommit page true
    overwriteAll blocks

/-- The blocks of `init_file_system`. -/
def initBlocks (sb : SuperBlock) : Prog Unit := overwriteAll (setupBlocks sb)

/-- The store with some blocks overwritten. -/
def overwritten (blocks : List (Nat × Block)) (s : BlockStore) : BlockStore :=
  blocks.foldl (fun s e => Function.update s e.1 e.2) s

section Overwritten

variable {blocks rest : List (Nat × Block)} {s : BlockStore} {b : Nat} {x : Block}

theorem overwriteAll_sat : (overwriteAll blocks).Sat s fun _ t => t = overwritten blocks s := by
  induction blocks generalizing s with
  | nil => rfl
  | cons e blocks ih =>
    obtain ⟨b, x⟩ := e
    unfold overwriteAll
    simp only [sat_bind, sat_blockGet, sat_write, sat_blockCommit, Function.update_idem]
    intro _
    exact ih

theorem overwritten_append :
    overwritten (blocks ++ rest) s = overwritten rest (overwritten blocks s) :=
  List.foldl_append

theorem overwritten_of_ne (h : ∀ e ∈ blocks, e.1 ≠ b) : overwritten blocks s b = s b := by
  induction blocks generalizing s with
  | nil => rfl
  | cons e blocks ih =>
    show overwritten blocks (Function.update s e.1 e.2) b = s b
    rw [ih fun e he => h e (List.mem_cons_of_mem _ he),
      Function.update_of_ne (h e List.mem_cons_self).symm]

end Overwritten

/-- The store that `init_file_system` leaves. -/
def newStore (sb : SuperBlock) (old : BlockStore) : BlockStore := overwritten (setupBlocks sb) old

/-- Whatever the pages hold that it does not read, `init_file_system` leaves
this store. -/
theorem initBlocks_flat (sb : SuperBlock) (unread : List (Option Block)) (old : BlockStore) :
    ((initBlocks sb).flat unread old).2.2 = newStore sb old :=
  overwriteAll_sat.flat unread

/-! ## The bitmaps of a new file system -/

theorem bitmapCheck_foldl (ids : List Nat) (hids : ∀ id ∈ ids, id < bitsPerBlock) (b : Block)
    (j : Nat) :
    bitmapCheck (ids.foldl bitmapSet b) j = (bitmapCheck b j || decide (j ∈ ids)) := by
  induction ids generalizing b with
  | nil => simp
  | cons id ids ih =>
    rw [List.foldl_cons, ih (fun i hi => hids i (List.mem_cons_of_mem _ hi)),
      bitmapCheck_bitmapSet _ (hids id List.mem_cons_self), Bool.or_assoc]
    congr 1
    rw [← Bool.decide_or, decide_eq_decide, List.mem_cons]

theorem bitmapCheck_newInodeBitmap (j : Nat) :
    bitmapCheck newInodeBitmap j = decide (j = 0) := by
  rw [newInodeBitmap, bitmapCheck_bitmapSet _ (by decide), bitmapCheck_zeroBlock, Bool.false_or]

theorem bitmapCheck_newBlockBitmap {sb : SuperBlock} (hr : Regions sb) (j : Nat) :
    bitmapCheck (newBlockBitmap sb) j = decide (j ≤ sb.dataStart) := by
  have hdata := hr.dataStart_lt
  have hids : ∀ id ∈ List.range (sb.dataStart + 1), id < bitsPerBlock := by
    intro id hid
    have hlt := List.mem_range.mp hid
    omega
  rw [newBlockBitmap, bitmapCheck_foldl _ hids, bitmapCheck_zeroBlock, Bool.false_or,
    decide_eq_decide, List.mem_range]
  omega

/-! ## The views of a new file system -/

section NewStore

variable {sb : SuperBlock} {old : BlockStore}

/-- The blocks of the block bitmap behind the first one. -/
def furtherBitmaps (sb : SuperBlock) : List (Nat × Block) :=
  (List.range' 1 (sb.sizeBlockBitmap - 1)).map fun i => (sb.blockBitmapStart + i, zeroBlock)

theorem newStore_eq :
    newStore sb old =
      Function.update (Function.update
        (overwritten (furtherBitmaps sb)
          (Function.update (Function.update old sb.inodeBitmapStart newInodeBitmap)
            sb.blockBitmapStart (newBlockBitmap sb)))
        sb.inodeStart (newInodeBlock sb)) sb.dataStart newRootDir := by
  unfold newStore setupBlocks
  rw [overwritten_append, overwritten_append]
  rfl

theorem overwritten_furtherBitmaps {b : Nat} {s : BlockStore}
    (hb : b ≤ sb.blockBitmapStart ∨ sb.blockBitmapStart + sb.sizeBlockBitmap ≤ b) :
    overwritten (furtherBitmaps sb) s b = s b := by
  apply overwritten_of_ne
  intro e he
  obtain ⟨i, hi, rfl⟩ := List.mem_map.mp he
  rw [List.mem_range'_1] at hi
  dsimp only
  omega

theorem newStore_dataStart : newStore sb old sb.dataStart = newRootDir := by
  rw [newStore_eq, Function.update_self]

theorem newStore_inodeStart (hr : Regions sb) :
    newStore sb old sb.inodeStart = newInodeBlock sb := by
  have hinodes := hr.inodes_le
  have hblocks : bitsPerBlock / inodesPerBlock = 512 := rfl
  rw [newStore_eq, Function.update_of_ne (by omega), Function.update_self]

theorem newStore_inodeBitmap (hr : Regions sb) :
    newStore sb old sb.inodeBitmapStart = newInodeBitmap := by
  have hlt := hr.inodeBitmap_lt
  have hle := hr.bitmap_le
  have hdata := hr.inodeStart_le_dataStart
  rw [newStore_eq, Function.update_of_ne (by omega), Function.update_of_ne (by omega),
    overwritten_furtherBitmaps (by omega), Function.update_of_ne (by omega),
    Function.update_self]

theorem newStore_blockBitmap (hr : Regions sb) (hlt : sb.blockBitmapStart < sb.inodeStart) :
    newStore sb old sb.blockBitmapStart = newBlockBitmap sb := by
  have hdata := hr.inodeStart_le_dataStart
  rw [newStore_eq, Function.update_of_ne (by omega), Function.update_of_ne (by omega),
    overwritten_furtherBitmaps (by omega), Function.update_self]

/-- Inode 0 is the one that is allocated. -/
theorem inodeUsed_newStore (hr : Regions sb) {i : Nat} :
    InodeUsed sb (newStore sb old) i ↔ i = 0 := by
  rw [InodeUsed, newStore_inodeBitmap hr, bitmapCheck_newInodeBitmap, decide_eq_true_iff]

/-- The blocks up to the block of the root are used, on a partition that goes
that far. -/
theorem blockUsed_newStore (hr : Regions sb) {b : Nat} (hb : b < bitsPerBlock)
    (hsize : b < sb.size) : BlockUsed sb (newStore sb old) b ↔ b ≤ sb.dataStart := by
  have hbitmap : bitmapBlock sb b = sb.blockBitmapStart := by
    rw [bitmapBlock, Nat.div_eq_of_lt hb, Nat.zero_add]
  have hlt := hr.bitmap_lt b hsize
  rw [hbitmap] at hlt
  rw [BlockUsed, hbitmap, newStore_blockBitmap hr hlt, Nat.mod_eq_of_lt hb,
    bitmapCheck_newBlockBitmap hr, decide_eq_true_iff]

/-- The inode of the root. -/
theorem inodeOf_newStore (hr : Regions sb) :
    (inodeOf sb (newStore sb old) 0).type = typeDir ∧
      (inodeOf sb (newStore sb old) 0).addrs 0 = sb.dataStart := by
  have hdata := hr.dataStart_lt
  have hword : sb.dataStart < 2 ^ 32 := by
    simp only [bitsPerBlock, blockSize] at hdata
    omega
  have hblock : inodeInBlock sb 0 = sb.inodeStart := by
    have hzero := inodeInBlock_natCast hr (show 0 < bitsPerBlock by decide)
    rwa [Nat.zero_div, Nat.zero_add] at hzero
  have hinode : inodeOf sb (newStore sb old) 0 =
      ({ inodeAt zeroBlock 0 with type := typeDir, nLinks := 1, size := 1 } : Inode).setAddr 0
        sb.dataStart := by
    rw [inodeOf, hblock, newStore_inodeStart hr]
    have haddr := inodeAt_setInodeAddr (b := setInodeHead zeroBlock 0 typeDir 1) (a := 0)
      (show 0 < inodesPerBlock by decide) hword
    rw [inodeAt_setInodeHead (by decide) typeDir_lt (by decide)] at haddr
    exact haddr
  rw [hinode]
  exact ⟨rfl, setAddr_addrs_self _ _ _⟩

/-- The directory block of the root. -/
theorem dirOf_newStore (hr : Regions sb) : dirOf sb (newStore sb old) 0 = newDir 0 0 := by
  rw [dirOf, (inodeOf_newStore hr).2, newStore_dataStart]
  rfl

end NewStore

end MipsOs.Fs
