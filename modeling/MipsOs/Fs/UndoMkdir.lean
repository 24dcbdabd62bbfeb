import MipsOs.Fs.Rmdir
import MipsOs.Fs.TreeSystem

/-!
# The removal of a new directory

`do_mkdir`, and then `do_rmdir` of the directory that it made.

`do_rmdir` frees the first address in the block of the inode.  That is the block
of the new directory only when its inode is the first one there.  And the loop
over the parent sets `last_dir_id` at an empty entry, so with the new entry the
parent must not be full.  Under these two conditions, and only then, the removal
restores the bitmaps and the entries (`mkdir_rmdir_restores_iff`).
-/

namespace MipsOs.Fs

open MipsOs.Lib MipsOs.Lib.BlockProg

/-- The directories are a tree with blocks of their own, and the first address of
an allocated inode is missing or a data block in use. -/
structure Consistent (sb : SuperBlock) (s : BlockStore) : Prop where
  tree : DirTree sb s
  own : OwnBlocks sb s
  addr : ∀ i : Nat, Allocated sb s i → (inodeOf sb s i).addrs 0 = 0 ∨
    sb.dataStart ≤ (inodeOf sb s i).addrs 0 ∧ (inodeOf sb s i).addrs 0 < sb.size ∧
      BlockUsed sb s ((inodeOf sb s i).addrs 0)

/-- The bitmaps, and the entries of the directories of `s`, are what they are in `s`. -/
structure Restored (sb : SuperBlock) (s s' : BlockStore) : Prop where
  used_iff : ∀ i, InodeUsed sb s' i ↔ InodeUsed sb s i
  blockUsed_iff : ∀ b < sb.size, BlockUsed sb s' b ↔ BlockUsed sb s b
  entryEmpty_eq : ∀ d, Directory sb s d → ∀ i < dentryPerBlock,
    entryEmpty (dirOf sb s' d) i = entryEmpty (dirOf sb s d) i
  entryPair_eq : ∀ d, Directory sb s d → ∀ i < dentryPerBlock,
    entryEmpty (dirOf sb s d) i = false → entryPair (dirOf sb s' d) i = entryPair (dirOf sb s d) i

/-- The values of the uninitialised locals of the two calls, and of the blocks that
are not read. -/
structure UndoUndef where
  mkdir : Nat
  rmdir : RmdirUndef
  mkdirUnread : List (Option Block)
  rmdirUnread : List (Option Block)

section Undo

variable (sb : SuperBlock) (s : BlockStore)

/-- The store after `do_mkdir`. -/
def mkdirStore (u : UndoUndef) (fa : Nat) (name : CString) : BlockStore :=
  ((doMkdir sb u.mkdir fa name).flat u.mkdirUnread s).2.2

/-- The store after `do_mkdir`, and `do_rmdir` of the inode in entry `n` of the parent. -/
def mkdirRmdir (u : UndoUndef) (fa n : Nat) (name : CString) : BlockStore :=
  ((doRmdir sb u.rmdir (entryInodeId (dirOf sb (mkdirStore sb s u fa name) fa) n)).flat
    u.rmdirUnread (mkdirStore sb s u fa name)).2.2

end Undo

/-! ## The parent with one entry more and one less -/

section Parent

variable {dir : Block} {n i inodeId : Nat} {name : CString} {dirId : Int}

/-- The entry behind the last one comes and goes. -/
theorem get_clear_setEntry (hname : name.strlen < maxName) {k : Nat} (hk : k / 64 ≠ n) :
    Bytes.get (Bytes.memset (setEntry dir n name.bytes inodeId) (64 * (n : Int)) 0 64) k =
      Bytes.get dir k := by
  rw [get_clearEntry_of_ne hk, get_setEntry_of_ne hname hk]

theorem entryEmpty_clear_setEntry (h : Entries dir n) (hn : n < dentryPerBlock)
    (hname : name.strlen < maxName) :
    entryEmpty (Bytes.memset (setEntry dir n name.bytes inodeId) (64 * (n : Int)) 0 64) i =
      entryEmpty dir i := by
  by_cases hin : i = n
  · rw [hin, h.empty n le_rfl hn]
    exact entryEmpty_clearEntry hn
  · unfold entryEmpty
    rw [get_clear_setEntry hname (by omega)]

theorem entryPair_clear_setEntry (h : Entries dir n) (hn : n < dentryPerBlock)
    (hname : name.strlen < maxName) (hi : i < n) :
    entryPair (Bytes.memset (setEntry dir n name.bytes inodeId) (64 * (n : Int)) 0 64) i =
      entryPair dir i := by
  apply entryPair_congr (by omega) (h.short i hi)
  intro k hk
  exact get_clear_setEntry hname (by omega)

/-- In a full directory the loop does not set `last_dir_id`. -/
theorem rmdirScan_full {m j : Nat} {found : Option Nat}
    (hused : ∀ i, j ≤ i → i < j + m → entryEmpty dir i = false) :
    (rmdirScan dir inodeId m j found).2 = none := by
  induction m generalizing j found with
  | zero => rfl
  | succ m ih =>
    unfold rmdirScan
    rw [if_neg (by rw [hused j le_rfl (by omega)]; decide)]
    exact ih fun i hle hlt => hused i (by omega) (by omega)

/-- With a `last_dir_id` of zero the entry `"."` goes. -/
theorem entryEmpty_moveEntry_zero : entryEmpty (moveEntry dir dirId 0) 0 = true := by
  unfold moveEntry
  split_ifs with heq
  · rw [heq]
    exact entryEmpty_clearEntry (by decide : 0 < dentryPerBlock)
  · exact entryEmpty_clearEntry (by decide : 0 < dentryPerBlock)

end Parent

/-! ## The block that is freed -/

section Freed

variable {sb : SuperBlock} {s t : BlockStore} {fa n c b : Nat} {name : CString}

/-- It is the first block of the first inode in the block of inodes. -/
theorem freedBlock_eq (hr : Regions sb) (hc : c < bitsPerBlock) :
    freedBlock sb s c =
      (inodeOf sb s (inodesPerBlock * (c / inodesPerBlock) : Nat)).addrs 0 := by
  have hle := Nat.mul_div_le c inodesPerBlock
  have hblock : inodeInBlock sb (inodesPerBlock * (c / inodesPerBlock) : Nat) =
      inodeInBlock sb c := by
    rw [inodeInBlock_natCast hr (by omega), inodeInBlock_natCast hr hc]
    rw [Nat.mul_div_cancel_left _ (by decide)]
  have hoffset : inodeOffset (inodesPerBlock * (c / inodesPerBlock) : Nat) = 0 := by
    rw [inodeOffset_natCast, Nat.mul_mod_right]
  rw [freedBlock, inodeOf, hblock, hoffset]

/-- What the call of `do_mkdir` leaves, when there is room. -/
theorem mkdirStore_created (hr : Regions sb) (hcons : Consistent sb s)
    (hname : NewName sb s fa n name) (hfirst : FirstFree sb s c)
    (hfree : ∃ b, sb.dataStart ≤ b ∧ b < sb.size ∧ ¬ BlockUsed sb s b) (u : UndoUndef) :
    ∃ b, Created sb s (mkdirStore sb s u fa name) fa n name c (some b) := by
  have hslot := hname.entries.freeSlot_some hname.lt hname.nonempty hname.fresh
  have hblock := hcons.own.le fa hname.dir
  have hmkdir : (doMkdir sb u.mkdir fa name).Sat s _ :=
    doMkdir_sat hr hslot hblock ⟨c, hfirst.lt, hfirst.unused⟩ hfree
  obtain ⟨inodeId, b, hfirst', hb, hbn, hbfree, ht⟩ := hmkdir.flat u.mkdirUnread
  obtain rfl := hfirst.eq hfirst'
  have hne : b ≠ (inodeOf sb s fa).addrs 0 := by
    rintro rfl
    exact hbfree (hcons.own.used fa hname.dir hbn)
  refine ⟨b, ?_⟩
  rw [mkdirStore, ht]
  exact madeDir_created hr hblock hfirst.lt hfirst.unused hb hbn hbfree hne

theorem Created.entryInodeId_parent (hc : Created sb s t fa n name c (some b))
    (hname : NewName sb s fa n name) : entryInodeId (dirOf sb t fa) n = c := by
  have hlt := hc.lt
  simp only [bitsPerBlock, blockSize] at hlt
  rw [hc.dirOf_parent hname.dir, entryInodeId_setEntry hname.lt (by omega)]

theorem Created.parentOf_new (hc : Created sb s t fa n name c (some b))
    (hname : NewName sb s fa n name) : parentOf sb t c = fa := by
  have hlt := hc.lt
  have hfa := hname.dir.lt
  simp only [bitsPerBlock, blockSize] at hlt hfa
  rw [parentOf, hc.dirOf_new rfl]
  exact (newDir_dirBlock (by omega) (by omega)).dotDot_inode

/-- The block of the new directory is freed if its inode is the first one of a block. -/
theorem Created.freedBlock_first (hr : Regions sb) (hc : Created sb s t fa n name c (some b))
    (hmod : c % inodesPerBlock = 0) : freedBlock sb t c = b := by
  obtain ⟨_, _, _, haddr, _⟩ := hc.block b rfl
  rw [freedBlock_eq hr hc.lt, Nat.mul_div_cancel' (Nat.dvd_of_mod_eq_zero hmod), haddr]

/-- Otherwise a block of another inode is freed. -/
theorem Created.freedBlock_other (hr : Regions sb) (hcons : Consistent sb s)
    (hfirst : FirstFree sb s c) (hc : Created sb s t fa n name c (some b))
    (hmod : c % inodesPerBlock ≠ 0) : freedBlock sb t c < sb.size ∧ freedBlock sb t c ≠ b := by
  obtain ⟨hb, hbn, hbfree, _⟩ := hc.block b rfl
  have hsplit := Nat.div_add_mod c inodesPerBlock
  have hlt : inodesPerBlock * (c / inodesPerBlock) < c := by omega
  have hold : Allocated sb s (inodesPerBlock * (c / inodesPerBlock)) :=
    ⟨hlt.trans hfirst.lt, hfirst.below _ hlt⟩
  have hbitmap := hr.inodeBitmap_lt
  have hle := hr.bitmap_le
  have hinodes := hr.inodeStart_le_dataStart
  rw [freedBlock_eq hr hc.lt, hc.inodeOf_old hold]
  rcases hcons.addr _ hold with hzero | ⟨_, hsize, hused⟩
  · rw [hzero]
    omega
  · refine ⟨hsize, ?_⟩
    intro heq
    exact hbfree (heq ▸ hused)

/-! ## The directories afterwards -/

variable {t' : BlockStore} {undef : RmdirUndef}

/-- After both calls the inodes of the old directories are as before. -/
theorem Freed.inodeOf_old (hc : Created sb s t fa n name c (some b))
    (hf : Freed sb t t' undef c) {d : Nat} (hd : Directory sb s d) :
    inodeOf sb t' d = inodeOf sb s d := by
  rw [hf.inode_eq d hd.lt, hc.inodeOf_old hd.toAllocated]

/-- The parent has lost an entry. -/
theorem Freed.dirOf_parent (hname : NewName sb s fa n name)
    (hc : Created sb s t fa n name c (some b)) (hf : Freed sb t t' undef c) :
    dirOf sb t' fa = movedDir undef (setEntry (dirOf sb s fa) n name.bytes c) c := by
  have hmoved := hf.parent
  have hblock : dirBlockOf sb t fa = (inodeOf sb s fa).addrs 0 := by
    rw [dirBlockOf, hc.inodeOf_old hname.dir.toAllocated]
  rw [hc.parentOf_new hname, hc.dirOf_parent hname.dir, hblock] at hmoved
  rw [dirOf, hf.inodeOf_old hc hname.dir, hmoved]

theorem Freed.dirOf_old (hcons : Consistent sb s) (hname : NewName sb s fa n name)
    (hc : Created sb s t fa n name c (some b)) (hf : Freed sb t t' undef c) {d : Nat}
    (hd : Directory sb s d) (hne : d ≠ fa) : dirOf sb t' d = dirOf sb s d := by
  have hold := hc.inodeOf_old hd.toAllocated
  have hapart : (inodeOf sb s d).addrs 0 ≠ dirBlockOf sb t (parentOf sb t c) := by
    rw [hc.parentOf_new hname, dirBlockOf, hc.inodeOf_old hname.dir.toAllocated]
    intro heq
    exact hne (hcons.own.distinct d fa hd hname.dir heq)
  have hsame := hc.dirOf_old hcons.own hname.dir hd hne
  rw [dirOf, hold] at hsame
  rw [dirOf, hf.inodeOf_old hc hd, hf.data_eq _ (hcons.own.le d hd) hapart, hsame]

/-- The new entry is the only one for the new inode. -/
theorem Created.only (hcons : Consistent sb s) (hname : NewName sb s fa n name)
    (hc : Created sb s t fa n name c (some b)) {j : Nat} (hj : j < n + 1)
    (heq : entryInodeId (setEntry (dirOf sb s fa) n name.bytes c) j = c) : j = n := by
  by_contra hne
  rw [entryInodeId_setEntry_of_ne hname.short hne] at heq
  have hlt := hname.lt
  have halloc := hcons.tree.names_allocated hname.dir (i := j) (by omega)
    (hname.entries.used j (by omega))
  rw [heq] at halloc
  exact hc.not_allocated halloc

/-- A parent with a free slot left gets its entries back. -/
theorem Created.movedDir_eq (hcons : Consistent sb s) (hname : NewName sb s fa n name)
    (hc : Created sb s t fa n name c (some b)) (hroom : n + 1 < dentryPerBlock) :
    movedDir undef (setEntry (dirOf sb s fa) n name.bytes c) c =
      Bytes.memset (setEntry (dirOf sb s fa) n name.bytes c) (64 * (n : Int)) 0 64 := by
  have hlt := hc.lt
  simp only [bitsPerBlock, blockSize] at hlt
  have hentries : Entries (setEntry (dirOf sb s fa) n name.bytes c) (n + 1) :=
    hname.entries.setEntry hname.lt hname.nonempty hname.short hname.fresh
  have hnamed : entryInodeId (setEntry (dirOf sb s fa) n name.bytes c) n = c :=
    entryInodeId_setEntry hname.lt (by omega)
  rw [hentries.movedDir_eq hroom hnamed (Nat.lt_succ_self n) fun j hj heq =>
    hc.only hcons hname hj heq]
  rw [Nat.add_sub_cancel, moveEntry, if_pos rfl]

/-! ## The two conditions -/

theorem Freed.restored (hcons : Consistent sb s) (hname : NewName sb s fa n name)
    (hc : Created sb s t fa n name c (some b)) (hf : Freed sb t t' undef c)
    (hblock : freedBlock sb t c = b) (hroom : n + 1 < dentryPerBlock) : Restored sb s t' := by
  obtain ⟨_, hbn, hbfree, _⟩ := hc.block b rfl
  have hparent := hf.dirOf_parent hname hc
  rw [hc.movedDir_eq hcons hname hroom] at hparent
  constructor
  · intro i
    rw [hf.used_iff, hc.used_iff]
    constructor
    · rintro ⟨hused | heq, hne⟩
      · exact hused
      · exact absurd heq hne
    · intro hused
      exact ⟨.inl hused, fun heq => hc.unused (heq ▸ hused)⟩
  · intro x hx
    rw [hf.blockUsed_iff x hx, hc.blockUsed_iff x hx, hblock]
    constructor
    · rintro ⟨hused | heq, hne⟩
      · exact hused
      · exact absurd (Option.some.inj heq).symm hne
    · intro hused
      exact ⟨.inl hused, fun heq => hbfree (heq ▸ hused)⟩
  · intro d hd i _
    by_cases hfa : d = fa
    · rw [hfa, hparent]
      exact entryEmpty_clear_setEntry hname.entries hname.lt hname.short
    · rw [hf.dirOf_old hcons hname hc hd hfa]
  · intro d hd i hi hused
    by_cases hfa : d = fa
    · subst hfa
      have hin : i < n := by
        by_contra hge
        rw [hname.entries.empty i (by omega) hi] at hused
        cases hused
      rw [hparent]
      exact entryPair_clear_setEntry hname.entries hname.lt hname.short hin
    · rw [hf.dirOf_old hcons hname hc hd hfa]

/-- The block of the new directory stays marked when another one is freed. -/
theorem Freed.not_restored_block (hc : Created sb s t fa n name c (some b))
    (hf : Freed sb t t' undef c) (hother : freedBlock sb t c ≠ b) : ¬ Restored sb s t' := by
  intro hrestored
  obtain ⟨_, hbn, hbfree, _⟩ := hc.block b rfl
  have hused : BlockUsed sb t' b :=
    (hf.blockUsed_iff b hbn).mpr ⟨(hc.blockUsed_iff b hbn).mpr (.inr rfl), hother.symm⟩
  exact hbfree ((hrestored.blockUsed_iff b hbn).mp hused)

/-- With a `last_dir_id` of zero a full parent loses the entry `"."`. -/
theorem Freed.not_restored_full (hname : NewName sb s fa n name)
    (hc : Created sb s t fa n name c (some b)) (hf : Freed sb t t' undef c)
    (hundef : undef.lastDirId = 0) (hfull : n + 1 = dentryPerBlock) : ¬ Restored sb s t' := by
  intro hrestored
  have hentries : Entries (setEntry (dirOf sb s fa) n name.bytes c) (n + 1) :=
    hname.entries.setEntry hname.lt hname.nonempty hname.short hname.fresh
  have hscan : (rmdirScan (setEntry (dirOf sb s fa) n name.bytes c) c dentryPerBlock 0 none).2 =
      none := rmdirScan_full fun i _ hi => hentries.used i (by omega)
  have hdot := hrestored.entryEmpty_eq fa hname.dir 0 (by decide)
  rw [hf.dirOf_parent hname hc, movedDir, hscan, Option.getD_none, hundef,
    entryEmpty_moveEntry_zero] at hdot
  rw [hname.entries.used 0 (by rw [dentryPerBlock] at hfull; omega)] at hdot
  cases hdot

/-- `do_rmdir` of the new inode. -/
theorem mkdirRmdir_freed (hr : Regions sb) (hcons : Consistent sb s)
    (hname : NewName sb s fa n name) (u : UndoUndef)
    (hc : Created sb s (mkdirStore sb s u fa name) fa n name c (some b))
    (hsize : freedBlock sb (mkdirStore sb s u fa name) c < sb.size) :
    Freed sb (mkdirStore sb s u fa name) (mkdirRmdir sb s u fa n name) u.rmdir c := by
  have hblock : sb.dataStart ≤ dirBlockOf sb (mkdirStore sb s u fa name)
      (parentOf sb (mkdirStore sb s u fa name) c) := by
    rw [hc.parentOf_new hname, dirBlockOf, hc.inodeOf_old hname.dir.toAllocated]
    exact hcons.own.le fa hname.dir
  rw [mkdirRmdir, hc.entryInodeId_parent hname]
  exact doRmdir_freed hr hc.lt hblock hsize u.rmdir u.rmdirUnread

end Freed

/-- The removal of a new directory restores the bitmaps and the entries exactly if its
inode is the first of a block of inodes and the parent has another free slot. -/
theorem mkdir_rmdir_restores_iff {sb : SuperBlock} {s : BlockStore} {fa n c : Nat}
    {name : CString} (hr : Regions sb) (hcons : Consistent sb s) (hname : NewName sb s fa n name)
    (hfirst : FirstFree sb s c)
    (hfree : ∃ b, sb.dataStart ≤ b ∧ b < sb.size ∧ ¬ BlockUsed sb s b) :
    (∀ u, Restored sb s (mkdirRmdir sb s u fa n name)) ↔
      c % inodesPerBlock = 0 ∧ n + 1 < dentryPerBlock := by
  have hn := hname.lt
  constructor
  · intro h
    obtain ⟨b, hc⟩ := mkdirStore_created hr hcons hname hfirst hfree ⟨0, ⟨0, 0⟩, [], []⟩
    have hrestored := h ⟨0, ⟨0, 0⟩, [], []⟩
    obtain ⟨_, hbn, _⟩ := hc.block b rfl
    by_cases hmod : c % inodesPerBlock = 0
    · refine ⟨hmod, ?_⟩
      have hsize := hc.freedBlock_first hr hmod ▸ hbn
      by_contra hfull
      exact (mkdirRmdir_freed hr hcons hname _ hc hsize).not_restored_full hname hc rfl (by omega)
        hrestored
    · obtain ⟨hsize, hother⟩ := hc.freedBlock_other hr hcons hfirst hmod
      exact absurd hrestored
        ((mkdirRmdir_freed hr hcons hname _ hc hsize).not_restored_block hc hother)
  · rintro ⟨hmod, hroom⟩ u
    obtain ⟨b, hc⟩ := mkdirStore_created hr hcons hname hfirst hfree u
    obtain ⟨_, hbn, _⟩ := hc.block b rfl
    have hblock := hc.freedBlock_first hr hmod
    exact (mkdirRmdir_freed hr hcons hname u hc (hblock ▸ hbn)).restored hcons hname hc hblock hroom

/-! ## A first directory -/

section Sample

open TreeSystem

variable {sb : SuperBlock}

theorem consistent_newStore (hr : Regions sb) (hsize : sb.dataStart < sb.size)
    (old : BlockStore) : Consistent sb (newStore sb old) where
  tree := dirTree_newStore hr old
  own := ownBlocks_newStore hr old
  addr i hi := by
    obtain rfl := (allocated_newStore hr).mp hi
    have haddr : (inodeOf sb (newStore sb old) (0 : Nat)).addrs 0 = sb.dataStart :=
      (inodeOf_newStore hr).2
    rw [haddr]
    exact .inr ⟨le_rfl, hsize, (blockUsed_newStore hr hr.dataStart_lt hsize).mpr le_rfl⟩

theorem firstFree_newStore (hr : Regions sb) (old : BlockStore) :
    FirstFree sb (newStore sb old) 1 where
  lt := by decide
  unused := by
    rw [inodeUsed_newStore hr]
    decide
  below j hj := (inodeUsed_newStore hr).mpr (Nat.lt_one_iff.mp hj)

theorem letterA_newName (hr : Regions sb) (old : BlockStore) :
    NewName sb (newStore sb old) 0 2 letterA := by
  have hdir : dirOf sb (newStore sb old) (0 : Nat) = newDir 0 0 := dirOf_newStore hr
  refine ⟨(directory_newStore hr).mpr rfl, ?_, by decide, by decide, by decide, ?_⟩
  · rw [hdir]
    exact entries_newDir
  · rw [hdir]
    decide +kernel

theorem freeBlock_newStore (hr : Regions sb) (old : BlockStore)
    (hsize : sb.dataStart + 1 < sb.size) (hdata : sb.dataStart + 1 < bitsPerBlock) :
    ∃ b, sb.dataStart ≤ b ∧ b < sb.size ∧ ¬ BlockUsed sb (newStore sb old) b := by
  refine ⟨sb.dataStart + 1, by omega, hsize, ?_⟩
  rw [blockUsed_newStore hr hdata hsize]
  omega

theorem TreeSystem.Nested.consistent {s : BlockStore} {k : Nat} (h : Nested sb s k)
    (htree : DirTree sb s) (hown : OwnBlocks sb s) : Consistent sb s where
  tree := htree
  own := hown
  addr i hi := by
    have hle := (h.used_iff i).mp hi.used
    have hd : Directory sb s i := ⟨hi, h.isDir i hle⟩
    exact .inr ⟨hown.le i hd, h.addr_lt i hle, hown.used i hd (h.addr_lt i hle)⟩

/-- In a partition of 1024 blocks with 63 directories inside of each other the next one
gets inode 64, the first of its block, and its removal restores the state before. -/
theorem deep_directory_restored :
    ∃ st, Reaches (step (setupSuperBlock 8192)) (CallerOk (setupSuperBlock 8192))
        (start (setupSuperBlock 8192) (fun _ => zeroBlock) []) st ∧
      ∀ u, Restored (setupSuperBlock 8192) st.store
        (mkdirRmdir (setupSuperBlock 8192) st.store u 63 2 letterA) := by
  have hr : Regions (setupSuperBlock 8192) := regions_setup (by decide)
  obtain ⟨st, hreach, hnested⟩ :=
    exists_nested (k := 63) hr (by decide) (by decide) fun _ => zeroBlock
  have hinv := reaches_inv hr (hreach.mono fun _ _ hok => hok.1)
  have hcons := hnested.consistent hinv.tree hinv.own
  exact ⟨st, hreach, (mkdir_rmdir_restores_iff hr hcons (hnested.newName (by decide))
    (hnested.firstFree (by decide)) (hnested.freeBlock (by decide))).mpr ⟨by decide, by decide⟩⟩

/-- The removal of the first directory of a new partition, which has inode 1, does not
free its block. -/
theorem first_directory_not_restored :
    ¬ ∀ (sb : SuperBlock) (s : BlockStore) (fa n c : Nat) (name : CString) (u : UndoUndef),
      Regions sb → Consistent sb s → NewName sb s fa n name → slash ∉ name.bytes →
      FirstFree sb s c → (∃ b, sb.dataStart ≤ b ∧ b < sb.size ∧ ¬ BlockUsed sb s b) →
      Restored sb s (mkdirRmdir sb s u fa n name) := by
  intro h
  have hr : Regions (setupSuperBlock 8192) := regions_setup (by decide)
  have hcons := consistent_newStore hr (by decide) fun _ => zeroBlock
  have hname := letterA_newName hr fun _ => zeroBlock
  have hfirst := firstFree_newStore hr fun _ => zeroBlock
  have hfree := freeBlock_newStore hr (fun _ => zeroBlock) (by decide) (by decide)
  obtain ⟨b, hc⟩ := mkdirStore_created hr hcons hname hfirst hfree ⟨0, ⟨0, 0⟩, [], []⟩
  obtain ⟨hsize, hother⟩ := hc.freedBlock_other hr hcons hfirst (by decide)
  exact (mkdirRmdir_freed hr hcons hname _ hc hsize).not_restored_block hc hother
    (h _ _ 0 2 1 letterA _ hr hcons hname (by decide) hfirst hfree)

end Sample

end MipsOs.Fs
