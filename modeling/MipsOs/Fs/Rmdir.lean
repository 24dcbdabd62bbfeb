import MipsOs.Fs.DirTree

/-!
# The removal of a directory

`do_rmdir` over a flat store.  It looks for the entry of the directory in its
parent, moves the last entry of the parent into that place, clears the last
entry, and frees the inode and a block.

The move is between the bytes `dir_id` and `last_dir_id` of the block and not
between the entries of these numbers, because the source adds to a `void *`.  So
the parent keeps its other entries exactly when there is nothing to move
(`rmdir_removes_iff`).
-/

namespace MipsOs.Fs

open MipsOs.Lib MipsOs.Lib.BlockProg

/-! ## The call -/

/-- The loop over the entries `i, …` of the parent: `dir_id` and `last_dir_id`,
where they have got a value. -/
def rmdirScan (dir : Block) (inodeId : Nat) : Nat → Nat → Option Nat → Option Nat × Option Int
  | 0, _, dirId => (dirId, none)
  | n + 1, i, dirId =>
    if entryEmpty dir i then (dirId, some ((i : Int) - 1))
    else rmdirScan dir inodeId n (i + 1) (if entryInodeId dir i = inodeId then some i else dirId)

/-- The parent without the entry `dir_id`.  The source copies between bytes of the
block and clears an entry. -/
def moveEntry (dir : Block) (dirId lastDirId : Int) : Block :=
  if dirId = lastDirId then Bytes.memset dir (64 * dirId) 0 64
  else Bytes.memset (Bytes.memcpy dir dirId lastDirId 64) (64 * lastDirId) 0 64

/-- The values of the locals `dir_id` and `last_dir_id` before the loop. -/
structure RmdirUndef where
  dirId : Int
  lastDirId : Int

/-- `do_rmdir` -/
def doRmdir (sb : SuperBlock) (undef : RmdirUndef) (inodeId : Nat) : Prog Unit := do
  let inodeBlock ← blockGet (inodeInBlock sb inodeId) true
  let thisInode := inodeAt (← read inodeBlock) (inodeOffset inodeId)
  let dirBlock ← blockGet (thisInode.addrs 0) true
  let faInodeId := entryInodeId (← read dirBlock) 1
  let faInodeBlock ← blockGet (inodeInBlock sb faInodeId) true
  let faInode := inodeAt (← read faInodeBlock) (inodeOffset faInodeId)
  let faDirBlock ← blockGet (faInode.addrs 0) true
  let faDir ← read faDirBlock
  let (dirId, lastDirId) := rmdirScan faDir inodeId dentryPerBlock 0 none
  write faDirBlock (moveEntry faDir ((dirId.map Int.ofNat).getD undef.dirId)
    (lastDirId.getD undef.lastDirId))
  blockCommit inodeBlock false
  blockCommit dirBlock false
  blockCommit faInodeBlock false
  blockCommit faDirBlock true
  freeInode sb inodeId
  -- `inode_block->addrs[0]` is the address of the first inode of the block.
  freeDataBlock sb ((inodeAt (← read inodeBlock) 0).addrs 0)

/-! ## The call over a flat store -/

section Flat

variable (sb : SuperBlock) (s : BlockStore)

/-- The inode bitmap with one bit less. -/
def releaseInode (inodeId : Nat) : BlockStore :=
  Function.update s sb.inodeBitmapStart (bitmapClear (s sb.inodeBitmapStart) inodeId)

/-- The block bitmap with one bit less. -/
def releaseBlock (b : Nat) : BlockStore :=
  Function.update s (bitmapBlock sb b) (bitmapClear (s (bitmapBlock sb b)) (b % bitsPerBlock))

/-- The parent of a directory, by its entry `".."`. -/
def parentOf (inodeId : Nat) : Nat := entryInodeId (dirOf sb s inodeId) 1

/-- The block of a directory. -/
def dirBlockOf (inodeId : Nat) : Nat := (inodeOf sb s inodeId).addrs 0

/-- The block of the parent after the removal. -/
def movedDir (undef : RmdirUndef) (dir : Block) (inodeId : Nat) : Block :=
  moveEntry dir
    (((rmdirScan dir inodeId dentryPerBlock 0 none).1.map Int.ofNat).getD undef.dirId)
    ((rmdirScan dir inodeId dentryPerBlock 0 none).2.getD undef.lastDirId)

/-- The store with the entry removed and the inode freed. -/
def unlinked (undef : RmdirUndef) (inodeId : Nat) : BlockStore :=
  releaseInode sb (Function.update s (dirBlockOf sb s (parentOf sb s inodeId))
    (movedDir undef (dirOf sb s (parentOf sb s inodeId)) inodeId)) inodeId

/-- The block that `do_rmdir` frees: the first address in the block of the inode. -/
def freedBlock (inodeId : Nat) : Nat := (inodeAt (s (inodeInBlock sb inodeId)) 0).addrs 0

theorem doRmdir_flat (undef : RmdirUndef) (inodeId : Nat) (unread : List (Option Block)) :
    (doRmdir sb undef inodeId).flat unread s =
      ((), unread, releaseBlock sb (unlinked sb s undef inodeId)
        (freedBlock sb (unlinked sb s undef inodeId) inodeId)) := rfl

end Flat

/-! ## The operations on the views -/

section Operations

variable {sb : SuperBlock} {s : BlockStore} {inodeId i b c : Nat}

theorem inodeUsed_releaseInode (hid : inodeId < bitsPerBlock) :
    InodeUsed sb (releaseInode sb s inodeId) i ↔ InodeUsed sb s i ∧ i ≠ inodeId := by
  unfold InodeUsed releaseInode
  rw [Function.update_self, bitmapCheck_bitmapClear _ hid]
  simp

theorem blockUsed_releaseInode (hr : Regions sb) :
    BlockUsed sb (releaseInode sb s inodeId) b ↔ BlockUsed sb s b := by
  have hlt := hr.inodeBitmap_lt
  have hle := bitmapStart_le sb b
  exact blockUsed_update (by omega)

theorem inodeUsed_releaseBlock (hr : Regions sb) :
    InodeUsed sb (releaseBlock sb s b) i ↔ InodeUsed sb s i := by
  have hlt := hr.inodeBitmap_lt
  have hle := bitmapStart_le sb b
  exact inodeUsed_update (by omega)

theorem blockUsed_releaseBlock :
    BlockUsed sb (releaseBlock sb s b) c ↔ BlockUsed sb s c ∧ c ≠ b := by
  have hmod : ∀ d, d % bitsPerBlock < bitsPerBlock := fun d => Nat.mod_lt _ (by decide)
  by_cases hsame : bitmapBlock sb c = bitmapBlock sb b
  · unfold BlockUsed releaseBlock
    rw [hsame, Function.update_self, bitmapCheck_bitmapClear _ (hmod b), Bool.and_eq_true,
      decide_eq_true_iff, Ne, bit_eq_iff hsame]
  · have hne : c ≠ b := fun heq => hsame (by rw [heq])
    rw [releaseBlock, blockUsed_update (Ne.symm hsame)]
    simp only [hne, ne_eq, not_false_eq_true, and_true]

/-- The two bitmaps lie in front of the inodes. -/
theorem releaseInode_of_le (hr : Regions sb) (hc : sb.inodeStart ≤ c) :
    releaseInode sb s inodeId c = s c := by
  have hlt := hr.inodeBitmap_lt
  have hle := hr.bitmap_le
  exact Function.update_of_ne (by omega) _ _

theorem releaseBlock_of_le (hr : Regions sb) (hb : b < sb.size) (hc : sb.inodeStart ≤ c) :
    releaseBlock sb s b c = s c := by
  have hlt := hr.bitmap_lt b hb
  exact Function.update_of_ne (by omega) _ _

end Operations

/-! ## The search of the parent -/

section Scan

variable {dir : Block} {inodeId n i m j : Nat} {dirId : Option Nat}

/-- The loop stops behind the last entry and remembers the last one with the
inode. -/
theorem rmdirScan_eq (hused : ∀ j, j < n → entryEmpty dir j = false)
    (hempty : entryEmpty dir n = true) (hi : entryInodeId dir i = inodeId) (hin : i < n)
    (honly : ∀ j < n, entryInodeId dir j = inodeId → j = i) (hj : j ≤ n) (hm : n < j + m)
    (hdone : i < j → dirId = some i) :
    rmdirScan dir inodeId m j dirId = (some i, some ((n : Int) - 1)) := by
  induction m generalizing j dirId with
  | zero => omega
  | succ m ih =>
    unfold rmdirScan
    rcases Nat.lt_or_ge j n with hlt | hge
    · rw [if_neg (by rw [hused j hlt]; decide)]
      apply ih hlt (by omega)
      intro hij
      by_cases hsame : entryInodeId dir j = inodeId
      · rw [if_pos hsame, honly j hlt hsame]
      · rw [if_neg hsame]
        exact hdone (lt_of_le_of_ne (Nat.lt_succ_iff.mp hij) fun heq => hsame (heq ▸ hi))
    · obtain rfl : j = n := le_antisymm hj hge
      rw [if_pos hempty, hdone hin]

/-- In a directory with a free slot the two locals get their values. -/
theorem Entries.movedDir_eq (h : Entries dir n) (hn : n < dentryPerBlock)
    (hi : entryInodeId dir i = inodeId) (hin : i < n)
    (honly : ∀ j < n, entryInodeId dir j = inodeId → j = i) (undef : RmdirUndef) :
    movedDir undef dir inodeId = moveEntry dir i ((n - 1 : Nat) : Int) := by
  rw [movedDir, rmdirScan_eq h.used (h.empty n le_rfl hn) hi hin honly (Nat.zero_le n) (by omega)
    (fun hlt => absurd hlt (Nat.not_lt_zero i))]
  rw [Nat.cast_sub (by omega)]
  rfl

end Scan

/-! ## One entry less -/

/-- The name and the inode of an entry. -/
def entryPair (dir : Block) (i : Nat) : CString × Nat := (entryName dir i, entryInodeId dir i)

/-- Of the `n` entries of `dir`, entry `i` has gone and the others are there. -/
structure Removed (dir dir' : Block) (n i : Nat) : Prop where
  entries : Entries dir' (n - 1)
  dots : ∀ k < 2, entryPair dir' k = entryPair dir k
  others : ((List.range (n - 1)).map (entryPair dir')).Perm
    (((List.range n).erase i).map (entryPair dir))

/-- `c` is the subdirectory of `p` at entry `i` of its `n` entries, and the address
that the removal frees lies in the partition. -/
structure Subdir (sb : SuperBlock) (s : BlockStore) (p c n i : Nat) : Prop where
  inode_lt : c < bitsPerBlock
  parent : parentOf sb s c = p
  block_le : sb.dataStart ≤ dirBlockOf sb s p
  entries : Entries (dirOf sb s p) n
  three_le : 3 ≤ n
  room : n < dentryPerBlock
  two_le : 2 ≤ i
  lt : i < n
  named : entryInodeId (dirOf sb s p) i = c
  only : ∀ j < n, entryInodeId (dirOf sb s p) j = c → j = i
  freed_lt : freedBlock sb s c < sb.size

section Clear

variable {dir : Block} {n i j k : Nat}

/-- The bytes outside of a cleared entry stay. -/
theorem get_clearEntry_of_ne (hk : k / 64 ≠ i) :
    Bytes.get (Bytes.memset dir (64 * (i : Int)) 0 64) k = Bytes.get dir k := by
  have hcast : (64 * (i : Int)) = (64 * i : Nat) := by push_cast; rfl
  rw [hcast, Bytes.get_memset, if_neg]
  omega

theorem entryEmpty_clearEntry (hi : i < dentryPerBlock) :
    entryEmpty (Bytes.memset dir (64 * (i : Int)) 0 64) i = true := by
  have hcast : (64 * (i : Int)) = (64 * i : Nat) := by push_cast; rfl
  rw [dentryPerBlock] at hi
  unfold entryEmpty
  rw [hcast, Bytes.get_memset, if_pos (by omega)]
  rfl

theorem entryPair_congr {dir' : Block} (hj : j < dentryPerBlock)
    (hshort : (entryName dir j).strlen < maxName)
    (h : ∀ k, k / 64 = j → Bytes.get dir' k = Bytes.get dir k) :
    entryPair dir' j = entryPair dir j := by
  rw [maxName] at hshort
  rw [dentryPerBlock] at hj
  have hsize : blockSize = 4096 := rfl
  have hname : entryName dir' j = entryName dir j := by
    apply stringAt_congr
    · rw [entryName] at hshort
      omega
    · intro k hlo hhi
      rw [entryName] at hshort
      exact h k (by omega)
  have hinode : entryInodeId dir' j = entryInodeId dir j := by
    apply Bytes.word_congr
    intro k hlo hhi
    exact h k (by omega)
  rw [entryPair, entryPair, hname, hinode]

theorem entryEmpty_clearEntry_of_ne (hj : j ≠ i) :
    entryEmpty (Bytes.memset dir (64 * (i : Int)) 0 64) j = entryEmpty dir j := by
  unfold entryEmpty
  rw [get_clearEntry_of_ne (by omega)]

/-- The entries in front of one that is cleared. -/
theorem Entries.entryPair_clearEntry (h : Entries dir n) (hj : j < n) (hne : j ≠ i) :
    entryPair (Bytes.memset dir (64 * (i : Int)) 0 64) j = entryPair dir j := by
  have hle := h.le
  apply entryPair_congr (by omega) (h.short j hj)
  intro k hk
  exact get_clearEntry_of_ne (by omega)

/-- Clearing the last entry removes it. -/
theorem Entries.removed_last (h : Entries dir n) (hn : 3 ≤ n) :
    Removed dir (Bytes.memset dir (64 * ((n - 1 : Nat) : Int)) 0 64) n (n - 1) := by
  have hle := h.le
  have hpair : ∀ j < n - 1, entryPair (Bytes.memset dir (64 * ((n - 1 : Nat) : Int)) 0 64) j =
      entryPair dir j :=
    fun j hj => h.entryPair_clearEntry (by omega) (by omega)
  have hempty : ∀ j < dentryPerBlock, j ≠ n - 1 →
      entryEmpty (Bytes.memset dir (64 * ((n - 1 : Nat) : Int)) 0 64) j = entryEmpty dir j :=
    fun j _ hj => entryEmpty_clearEntry_of_ne hj
  refine ⟨⟨by omega, ?_, ?_, ?_, ?_⟩, fun k hk => hpair k (by omega), ?_⟩
  · intro j hj
    rw [hempty j (by omega) (by omega)]
    exact h.used j (by omega)
  · intro j hj hlt
    by_cases hlast : j = n - 1
    · rw [hlast]
      exact entryEmpty_clearEntry (by omega)
    · rw [hempty j hlt hlast]
      exact h.empty j (by omega) hlt
  · intro j hj
    rw [(Prod.mk.inj (hpair j hj)).1]
    exact h.short j (by omega)
  · intro j hj l hl heq
    rw [(Prod.mk.inj (hpair j hj)).1, (Prod.mk.inj (hpair l hl)).1] at heq
    exact h.distinct j (by omega) l (by omega) heq
  · have herase : (List.range n).erase (n - 1) = List.range (n - 1) := by
      obtain ⟨m, rfl⟩ : ∃ m, n = m + 1 := ⟨n - 1, by omega⟩
      rw [Nat.add_sub_cancel, List.range_succ, List.erase_append_right _ (by simp)]
      simp
    rw [herase]
    apply List.Perm.of_eq
    apply List.map_congr_left
    intro j hj
    exact hpair j (List.mem_range.mp hj)

end Clear

/-! ## The parent after the call -/

/-- What the removal of `c` changes: its bit, the bit of a block, and the block of
the parent. -/
structure Freed (sb : SuperBlock) (s s' : BlockStore) (undef : RmdirUndef) (c : Nat) : Prop where
  used_iff : ∀ i, InodeUsed sb s' i ↔ InodeUsed sb s i ∧ i ≠ c
  blockUsed_iff : ∀ b < sb.size, BlockUsed sb s' b ↔ BlockUsed sb s b ∧ b ≠ freedBlock sb s c
  inode_eq : ∀ i < bitsPerBlock, inodeOf sb s' i = inodeOf sb s i
  parent : s' (dirBlockOf sb s (parentOf sb s c)) =
    movedDir undef (dirOf sb s (parentOf sb s c)) c
  data_eq : ∀ b, sb.dataStart ≤ b → b ≠ dirBlockOf sb s (parentOf sb s c) → s' b = s b

section Parent

variable {sb : SuperBlock} {s : BlockStore} {dir : Block} {p c n i : Nat}

/-- The blocks of the inodes stay. -/
theorem unlinked_of_ne (hr : Regions sb) {b : Nat} (hb : sb.inodeStart ≤ b)
    (hne : b ≠ dirBlockOf sb s (parentOf sb s c)) (undef : RmdirUndef) :
    unlinked sb s undef c b = s b := by
  rw [unlinked, releaseInode_of_le hr hb, Function.update_of_ne hne]

theorem doRmdir_freed (hr : Regions sb) (hc : c < bitsPerBlock)
    (hblock : sb.dataStart ≤ dirBlockOf sb s (parentOf sb s c))
    (hfreed : freedBlock sb s c < sb.size) (undef : RmdirUndef) (unread : List (Option Block)) :
    Freed sb s ((doRmdir sb undef c).flat unread s).2.2 undef c := by
  have hinodes := hr.inodeStart_le_dataStart
  have hinode : ∀ i < bitsPerBlock, unlinked sb s undef c (inodeInBlock sb i) =
      s (inodeInBlock sb i) := by
    intro i hi
    have hlt := inodeInBlock_lt hr hi
    exact unlinked_of_ne hr (inodeStart_le hr hi) (by omega) undef
  have hsame : freedBlock sb (unlinked sb s undef c) c = freedBlock sb s c := by
    rw [freedBlock, freedBlock, hinode c hc]
  rw [doRmdir_flat, hsame]
  dsimp only
  constructor
  · intro i
    rw [inodeUsed_releaseBlock hr, unlinked, inodeUsed_releaseInode hc,
      inodeUsed_updateData hr hblock]
  · intro b hb
    rw [blockUsed_releaseBlock, unlinked, blockUsed_releaseInode hr,
      blockUsed_updateData hr hblock hb]
  · intro i hi
    rw [inodeOf, inodeOf, releaseBlock_of_le hr hfreed (inodeStart_le hr hi), hinode i hi]
  · rw [releaseBlock_of_le hr hfreed (by omega), unlinked, releaseInode_of_le hr (by omega),
      Function.update_self]
  · intro b hb hne
    rw [releaseBlock_of_le hr hfreed (by omega), unlinked_of_ne hr (by omega) hne]

/-- The block of the parent comes from the move alone. -/
theorem Subdir.parent_block (hr : Regions sb) (h : Subdir sb s p c n i) (undef : RmdirUndef)
    (unread : List (Option Block)) :
    ((doRmdir sb undef c).flat unread s).2.2 (dirBlockOf sb s p) =
      moveEntry (dirOf sb s p) i ((n - 1 : Nat) : Int) := by
  have hblock := h.block_le
  have hparent := h.parent
  have hfreed := doRmdir_freed hr h.inode_lt (hparent.symm ▸ hblock) h.freed_lt undef unread
  have hmoved := hfreed.parent
  rw [hparent] at hmoved
  rw [hmoved]
  exact h.entries.movedDir_eq h.room h.named h.lt h.only undef

/-- A move between bytes of the block reaches only the first two entries. -/
theorem Entries.entryPair_moveEntry (h : Entries dir n) (hn : n < dentryPerBlock) (htwo : 2 ≤ i)
    (hlt : i + 1 < n) :
    entryPair (moveEntry dir i ((n - 1 : Nat) : Int)) i = entryPair dir i := by
  rw [dentryPerBlock] at hn
  apply entryPair_congr (lt_trans (by omega : i < n) hn) (h.short i (by omega))
  intro k hk
  rw [moveEntry, if_neg (by omega), get_clearEntry_of_ne (by omega),
    Bytes.get_memcpy dir (by omega) (by omega), if_neg (by omega)]

/-- So the entry that has to go stays, and its name is found nowhere else. -/
theorem Entries.not_removed_of_lt (h : Entries dir n) (hn : n < dentryPerBlock) (htwo : 2 ≤ i)
    (hlt : i + 1 < n) :
    ¬ Removed dir (moveEntry dir i ((n - 1 : Nat) : Int)) n i := by
  intro hremoved
  have hstays : entryPair dir i ∈
      (List.range (n - 1)).map (entryPair (moveEntry dir i ((n - 1 : Nat) : Int))) :=
    List.mem_map.mpr ⟨i, List.mem_range.mpr (by omega), h.entryPair_moveEntry hn htwo hlt⟩
  obtain ⟨j, hj, hsame⟩ := List.mem_map.mp (hremoved.others.mem_iff.mp hstays)
  obtain ⟨hne, hrange⟩ := List.nodup_range.mem_erase_iff.mp hj
  exact hne (h.distinct j (List.mem_range.mp hrange) i (by omega) (Prod.mk.inj hsame).1)

/-- The parent keeps exactly its other entries if and only if the subdirectory is the
last one. -/
theorem rmdir_removes_iff (hr : Regions sb) (h : Subdir sb s p c n i) (undef : RmdirUndef)
    (unread : List (Option Block)) :
    Removed (dirOf sb s p) (((doRmdir sb undef c).flat unread s).2.2 (dirBlockOf sb s p)) n i ↔
      i + 1 = n := by
  have hlt := h.lt
  rw [h.parent_block hr]
  constructor
  · intro hremoved
    by_contra hne
    exact h.entries.not_removed_of_lt h.room h.two_le (by omega) hremoved
  · intro hlast
    obtain rfl : i = n - 1 := by omega
    rw [moveEntry, if_pos rfl]
    exact h.entries.removed_last h.three_le

end Parent

/-! ## A root with two directories -/

section Sample

theorem oneName_nonzero : (0 : UInt8) ∉ [(49 : UInt8)] := by decide

theorem twoName_nonzero : (0 : UInt8) ∉ [(50 : UInt8)] := by decide

/-- The names `"1"` and `"2"`. -/
def oneName : CString := ⟨[49], oneName_nonzero⟩

/-- The name `"2"`. -/
def twoName : CString := ⟨[50], twoName_nonzero⟩

/-- The block of the inodes 0, 1 and 2 of a partition of 1024 blocks: the root in
block 516 and two directories in the blocks 517 and 518. -/
def twoInodes : Block :=
  setInodeAddr (setInodeHead
    (setInodeAddr (setInodeHead (newInodeBlock (setupSuperBlock 8192)) 1 typeDir 1) 1 0 517)
    2 typeDir 1) 2 0 518

/-- The root, with the directories `"1"` and `"2"`. -/
def twoDirs : Block :=
  setEntry (setEntry (newDir 0 0) 2 oneName.bytes 1) 3 twoName.bytes 2

/-- The partition after `mkdir 1` and `mkdir 2` in the root. -/
def twoDirsStore : BlockStore
  | 2 => bitmapSet (bitmapSet newInodeBitmap 1) 2
  | 3 => bitmapSet (bitmapSet (newBlockBitmap (setupSuperBlock 8192)) 517) 518
  | 4 => twoInodes
  | 516 => twoDirs
  | 517 => newDir 1 0
  | 518 => newDir 2 0
  | _ => zeroBlock

theorem entries_twoDirs : Entries twoDirs 4 where
  le := by decide
  used := by decide +kernel
  empty := by
    have hempty : ∀ i < dentryPerBlock, 4 ≤ i → entryEmpty twoDirs i = true := by decide +kernel
    exact fun i hle hlt => hempty i hlt hle
  short := by decide +kernel
  distinct := by decide +kernel

theorem twoDirs_subdir {c i : Nat} (hi : c + 1 = i) (hc : c = 1 ∨ c = 2) :
    Subdir (setupSuperBlock 8192) twoDirsStore 0 c 4 i := by
  subst hi
  rcases hc with rfl | rfl
  all_goals
    exact ⟨by decide, by decide +kernel, by decide +kernel, entries_twoDirs, by decide, by decide,
      by decide, by decide, by decide +kernel, by decide +kernel, by decide +kernel⟩

/-- The directory `"2"` is the last entry, and goes. -/
theorem twoDirs_removes_last :
    Removed twoDirs (((doRmdir (setupSuperBlock 8192) ⟨0, 0⟩ 2).flat [] twoDirsStore).2.2 516)
      4 3 :=
  (rmdir_removes_iff (regions_setup (by decide)) (twoDirs_subdir rfl (Or.inr rfl)) ⟨0, 0⟩ []).mpr
    rfl

/-- The directory `"1"` is not the last entry, and stays. -/
theorem twoDirs_not_removes_first :
    ¬ ∀ (sb : SuperBlock) (s : BlockStore) (p c n i : Nat) (undef : RmdirUndef)
      (unread : List (Option Block)), Regions sb → Subdir sb s p c n i →
      Removed (dirOf sb s p) (((doRmdir sb undef c).flat unread s).2.2 (dirBlockOf sb s p))
        n i := by
  intro h
  have hr : Regions (setupSuperBlock 8192) := regions_setup (by decide)
  have hsub := twoDirs_subdir (c := 1) rfl (Or.inl rfl)
  have hremoved := h _ _ 0 1 4 2 ⟨0, 0⟩ [] hr hsub
  rw [hsub.parent_block hr] at hremoved
  exact hsub.entries.not_removed_of_lt hsub.room hsub.two_le (by decide) hremoved

end Sample

end MipsOs.Fs
