import MipsOs.Fs.Alloc
import MipsOs.Fs.Entries

/-!
# What a creation does

`do_mkdir` and `do_touch` over a flat store.  Both search the parent for a slot
and leave the store alone when the name is there.  Otherwise they enter the
name with a free inode, and `do_mkdir` gives that inode a block with the entries
`"."` and `".."`.

`madeDir` and `madeFile` are the stores that the calls end with, written with
the operations on the views.  `Created` is what the two have in common.
-/

namespace MipsOs.Fs

open MipsOs.Lib MipsOs.Lib.BlockProg

section Stores

variable (sb : SuperBlock) (s : BlockStore)

/-- The directory block `b` with a new entry, for an inode that was free. -/
def entered (b slot : Nat) (name : CString) (inodeId : Nat) : BlockStore :=
  Function.update (takeInode sb s inodeId) b
    (setEntry (takeInode sb s inodeId b) slot name.bytes inodeId)

/-- The store after `do_mkdir`, which has taken the inode and the block `b`. -/
def madeDir (faInodeId faBlock slot : Nat) (name : CString) (inodeId b : Nat) : BlockStore :=
  Function.update
    (editInode sb
      (takeBlock sb
        (editInode sb (entered sb s faBlock slot name inodeId) inodeId
          (setInodeHead · (inodeOffset inodeId) typeDir 1)) b) inodeId
      (setInodeAddr · (inodeOffset inodeId) 0 b)) b (newDir inodeId faInodeId)

/-- The store after `do_touch`, which has taken the inode. -/
def madeFile (faBlock slot : Nat) (name : CString) (inodeId : Nat) : BlockStore :=
  editInode sb (entered sb s faBlock slot name inodeId) inodeId
    (setInodeHead · (inodeOffset inodeId) typeFile 0)

end Stores

section Calls

variable {sb : SuperBlock} {s : BlockStore} {undef faInodeId faBlock slot inodeId b : Nat}
  {name : CString}

theorem inodeUsed_entered (hr : Regions sb) (hb : sb.dataStart ≤ faBlock)
    (hid : inodeId < bitsPerBlock) {i : Nat} :
    InodeUsed sb (entered sb s faBlock slot name inodeId) i ↔
      InodeUsed sb s i ∨ i = inodeId := by
  rw [entered, inodeUsed_updateData hr hb, inodeUsed_takeInode hid]

theorem blockUsed_entered (hr : Regions sb) (hb : sb.dataStart ≤ faBlock) {c : Nat}
    (hc : c < sb.size) :
    BlockUsed sb (entered sb s faBlock slot name inodeId) c ↔ BlockUsed sb s c := by
  rw [entered, blockUsed_updateData hr hb hc, blockUsed_takeInode hr]

theorem inodeOf_entered (hr : Regions sb) (hb : sb.dataStart ≤ faBlock) {i : Nat}
    (hi : i < bitsPerBlock) :
    inodeOf sb (entered sb s faBlock slot name inodeId) i = inodeOf sb s i := by
  rw [entered, inodeOf_updateData hr hb hi, inodeOf_takeInode hr hi]

theorem entered_self (hr : Regions sb) (hb : sb.dataStart ≤ faBlock) :
    entered sb s faBlock slot name inodeId faBlock =
      setEntry (s faBlock) slot name.bytes inodeId := by
  rw [entered, Function.update_self, takeInode_data hr hb]

theorem entered_data (hr : Regions sb) {c : Nat} (hc : sb.dataStart ≤ c) (hne : c ≠ faBlock) :
    entered sb s faBlock slot name inodeId c = s c := by
  rw [entered, Function.update_of_ne hne, takeInode_data hr hc]

/-! ## The calls end in these stores -/

/-- The search of the parent changes nothing. -/
theorem searchSlot_sat :
    (searchSlot sb faInodeId name).Sat s fun slot t =>
      slot = { faInodeBlock := inodeInBlock sb faInodeId
               faDirBlock := (inodeOf sb s faInodeId).addrs 0
               dirI := freeSlot (dirOf sb s faInodeId) name } ∧ t = s :=
  ⟨rfl, rfl⟩

theorem addEntry_sat (hfree : ∃ i < bitsPerBlock, ¬ InodeUsed sb s i) :
    (addEntry sb undef faBlock slot name).Sat s fun inodeId t =>
      FirstFree sb s inodeId ∧ t = entered sb s faBlock slot name inodeId := by
  unfold addEntry
  apply sat_bind.mpr
  apply (allocInode_sat hfree).mono
  rintro inodeId t ⟨hfirst, rfl⟩
  simp only [sat_bind, sat_read, sat_write, sat_blockCommit, sat_pure]
  exact ⟨hfirst, rfl⟩

theorem addEntry_sat_none (hnone : ¬ ∃ i < bitsPerBlock, ¬ InodeUsed sb s i) :
    (addEntry sb undef faBlock slot name).Sat s fun inodeId t =>
      inodeId = undef ∧ t = entered sb s faBlock slot name inodeId := by
  unfold addEntry
  apply sat_bind.mpr
  apply (allocInode_sat_none hnone).mono
  rintro inodeId t ⟨rfl, rfl⟩
  simp only [sat_bind, sat_read, sat_write, sat_blockCommit, sat_pure]
  exact ⟨trivial, rfl⟩

/-- The address that `do_mkdir` reads back is the block that it allocated. -/
theorem addr_setInodeAddr (x : Block) {k : Nat} (hk : k < inodesPerBlock) (hb : b < 2 ^ 32) :
    (inodeAt (setInodeAddr x k 0 b) k).addrs 0 = b := by
  have hinode : inodeAt (setInodeAddr x k 0 b) k = (inodeAt x k).setAddr 0 b :=
    inodeAt_setInodeAddr (a := 0) hk hb
  rw [hinode, setAddr_addrs_self]

/-- The store when `do_mkdir` asks for a data block. -/
def headed (sb : SuperBlock) (s : BlockStore) (faBlock slot : Nat) (name : CString)
    (inodeId : Nat) : BlockStore :=
  editInode sb (entered sb s faBlock slot name inodeId) inodeId
    (setInodeHead · (inodeOffset inodeId) typeDir 1)

theorem blockUsed_headed (hr : Regions sb) (hb : sb.dataStart ≤ faBlock)
    (hid : inodeId < bitsPerBlock) {c : Nat} (hc : c < sb.size) :
    BlockUsed sb (headed sb s faBlock slot name inodeId) c ↔ BlockUsed sb s c := by
  rw [headed, blockUsed_editInode hr hid hc, blockUsed_entered hr hb hc]

/-- `do_mkdir`, whatever inode and block the allocators answer. -/
theorem doMkdir_sat_allocated {P : Nat → Prop} {Q : Nat → Nat → BlockStore → Prop}
    (hslot : freeSlot (dirOf sb s faInodeId) name = some slot)
    (hinode : (addEntry sb undef ((inodeOf sb s faInodeId).addrs 0) slot name).Sat s fun i t =>
      P i ∧ t = entered sb s ((inodeOf sb s faInodeId).addrs 0) slot name i)
    (hblock : ∀ i, P i → (allocDataBlock sb undef).Sat
      (headed sb s ((inodeOf sb s faInodeId).addrs 0) slot name i) fun b u =>
        b < 2 ^ 32 ∧ Q i b u) :
    (doMkdir sb undef faInodeId name).Sat s fun _ t => ∃ i b u, P i ∧ Q i b u ∧
      t = Function.update (editInode sb u i (setInodeAddr · (inodeOffset i) 0 b)) b
        (newDir i faInodeId) := by
  unfold doMkdir
  apply sat_bind.mpr
  apply searchSlot_sat.mono
  rintro slot' t ⟨rfl, ht⟩
  dsimp only
  rw [hslot, ht]
  simp only [makeDir, sat_bind]
  apply hinode.mono
  rintro i t ⟨hi, rfl⟩
  simp only [sat_blockCommit, sat_blockGet_read, sat_read, sat_write]
  apply (hblock i hi).mono
  rintro b u ⟨hword, hb⟩
  simp only [Function.update_self, addr_setInodeAddr _ (inodeOffset_lt _) hword, sat_blockGet,
    Function.update_idem]
  intro _
  exact ⟨i, b, u, hi, hb, rfl⟩

theorem doMkdir_sat (hr : Regions sb)
    (hslot : freeSlot (dirOf sb s faInodeId) name = some slot)
    (hblock : sb.dataStart ≤ (inodeOf sb s faInodeId).addrs 0)
    (hinode : ∃ i < bitsPerBlock, ¬ InodeUsed sb s i)
    (hfree : ∃ b, sb.dataStart ≤ b ∧ b < sb.size ∧ ¬ BlockUsed sb s b) :
    (doMkdir sb undef faInodeId name).Sat s fun _ t => ∃ inodeId b,
      FirstFree sb s inodeId ∧ sb.dataStart ≤ b ∧ b < sb.size ∧ ¬ BlockUsed sb s b ∧
        t = madeDir sb s faInodeId ((inodeOf sb s faInodeId).addrs 0) slot name inodeId b := by
  have hsize := hr.size_lt
  obtain ⟨c, hc, hcn, hcfree⟩ := hfree
  apply (doMkdir_sat_allocated (Q := fun i b u => (sb.dataStart ≤ b ∧ b < sb.size ∧
    ¬ BlockUsed sb s b) ∧
      u = takeBlock sb (headed sb s ((inodeOf sb s faInodeId).addrs 0) slot name i) b)
    hslot (addEntry_sat hinode) ?_).mono
  · rintro _ t ⟨i, b, u, hfirst, ⟨⟨hb, hbn, hbfree⟩, rfl⟩, rfl⟩
    exact ⟨i, b, hfirst, hb, hbn, hbfree, rfl⟩
  · intro i hfirst
    have hsame : ∀ c < sb.size, BlockUsed sb
        (headed sb s ((inodeOf sb s faInodeId).addrs 0) slot name i) c ↔ BlockUsed sb s c :=
      fun c hc => blockUsed_headed hr hblock hfirst.lt hc
    apply (allocDataBlock_sat hr ⟨c, hc, hcn, fun h => hcfree ((hsame c hcn).mp h)⟩).mono
    rintro b u ⟨hb, hbn, hbfree, rfl⟩
    exact ⟨by omega, ⟨hb, hbn, fun h => hbfree ((hsame b hbn).mpr h)⟩, rfl⟩

/-- `do_touch`, whatever inode the allocator answers. -/
theorem doTouch_sat_allocated {P : Nat → Prop}
    (hslot : freeSlot (dirOf sb s faInodeId) name = some slot)
    (hinode : (addEntry sb undef ((inodeOf sb s faInodeId).addrs 0) slot name).Sat s fun i t =>
      P i ∧ t = entered sb s ((inodeOf sb s faInodeId).addrs 0) slot name i) :
    (doTouch sb undef faInodeId name).Sat s fun _ t => ∃ i, P i ∧
      t = madeFile sb s ((inodeOf sb s faInodeId).addrs 0) slot name i := by
  unfold doTouch
  apply sat_bind.mpr
  apply searchSlot_sat.mono
  rintro slot' t ⟨rfl, ht⟩
  dsimp only
  rw [hslot, ht]
  simp only [makeFile, sat_bind]
  apply hinode.mono
  rintro i t ⟨hi, rfl⟩
  simp only [sat_blockCommit, sat_blockGet_read, sat_read, sat_write]
  exact ⟨i, hi, rfl⟩

theorem doTouch_sat (hslot : freeSlot (dirOf sb s faInodeId) name = some slot)
    (hinode : ∃ i < bitsPerBlock, ¬ InodeUsed sb s i) :
    (doTouch sb undef faInodeId name).Sat s fun _ t => ∃ inodeId,
      FirstFree sb s inodeId ∧
        t = madeFile sb s ((inodeOf sb s faInodeId).addrs 0) slot name inodeId :=
  doTouch_sat_allocated hslot (addEntry_sat hinode)

/-- A name that is there is not created again. -/
theorem doMkdir_sat_present (hslot : freeSlot (dirOf sb s faInodeId) name = none) :
    (doMkdir sb undef faInodeId name).Sat s fun _ t => t = s := by
  unfold doMkdir
  apply sat_bind.mpr
  apply searchSlot_sat.mono
  rintro slot' t ⟨rfl, ht⟩
  dsimp only
  rw [hslot, ht]
  rfl

theorem doTouch_sat_present (hslot : freeSlot (dirOf sb s faInodeId) name = none) :
    (doTouch sb undef faInodeId name).Sat s fun _ t => t = s := by
  unfold doTouch
  apply sat_bind.mpr
  apply searchSlot_sat.mono
  rintro slot' t ⟨rfl, ht⟩
  dsimp only
  rw [hslot, ht]
  rfl

end Calls

/-! ## The effect -/

/-- What a creation changes.  `newBlock` is the block of a new directory. -/
structure Created (sb : SuperBlock) (s s' : BlockStore) (faInodeId slot : Nat) (name : CString)
    (inodeId : Nat) (newBlock : Option Nat) : Prop where
  lt : inodeId < bitsPerBlock
  unused : ¬ InodeUsed sb s inodeId
  used_iff : ∀ i, InodeUsed sb s' i ↔ InodeUsed sb s i ∨ i = inodeId
  blockUsed_iff : ∀ b < sb.size, BlockUsed sb s' b ↔ BlockUsed sb s b ∨ newBlock = some b
  inode_eq : ∀ i < bitsPerBlock, i ≠ inodeId → inodeOf sb s' i = inodeOf sb s i
  parent : s' ((inodeOf sb s faInodeId).addrs 0) =
    setEntry (dirOf sb s faInodeId) slot name.bytes inodeId
  data_eq : ∀ c, sb.dataStart ≤ c → c ≠ (inodeOf sb s faInodeId).addrs 0 → newBlock ≠ some c →
    s' c = s c
  isDir_iff : IsDir sb s' inodeId ↔ newBlock.isSome
  block : ∀ b, newBlock = some b → sb.dataStart ≤ b ∧ b < sb.size ∧ ¬ BlockUsed sb s b ∧
    (inodeOf sb s' inodeId).addrs 0 = b ∧ s' b = newDir inodeId faInodeId

section Effect

variable {sb : SuperBlock} {s : BlockStore} {faInodeId slot inodeId b : Nat} {name : CString}

theorem typeDir_lt : typeDir < 2 ^ 32 := by decide

theorem typeFile_lt : typeFile < 2 ^ 32 := by decide

theorem typeFile_ne_typeDir : typeFile ≠ typeDir := by decide

theorem madeFile_created (hr : Regions sb)
    (hblock : sb.dataStart ≤ (inodeOf sb s faInodeId).addrs 0) (hid : inodeId < bitsPerBlock)
    (hunused : ¬ InodeUsed sb s inodeId) :
    Created sb s (madeFile sb s ((inodeOf sb s faInodeId).addrs 0) slot name inodeId) faInodeId
      slot name inodeId none where
  lt := hid
  unused := hunused
  used_iff i := by rw [madeFile, inodeUsed_editInode hr hid, inodeUsed_entered hr hblock hid]
  blockUsed_iff c hc := by
    rw [madeFile, blockUsed_editInode hr hid hc, blockUsed_entered hr hblock hc]
    simp
  inode_eq i hi hne := by
    rw [madeFile, inodeOf_editInode_of_ne hr hid hi hne, inodeOf_entered hr hblock hi]
    intro l hl x
    exact inodeAt_setInodeHead_of_ne hl
  parent := by
    rw [madeFile, editInode_data hr hid hblock, entered_self hr hblock]
    rfl
  data_eq c hc hne _ := by
    rw [madeFile, editInode_data hr hid hc, entered_data hr hc hne]
  isDir_iff := by
    unfold IsDir
    rw [madeFile, inodeOf_editInode,
      inodeAt_setInodeHead (inodeOffset_lt _) typeFile_lt (by decide)]
    exact iff_of_false typeFile_ne_typeDir (by decide)
  block c hc := by cases hc

/-- The inode of the new directory. -/
theorem inodeOf_madeDir (hr : Regions sb)
    (hblock : sb.dataStart ≤ (inodeOf sb s faInodeId).addrs 0) (hid : inodeId < bitsPerBlock)
    (hb : sb.dataStart ≤ b) (hbn : b < sb.size) :
    inodeOf sb
      (madeDir sb s faInodeId ((inodeOf sb s faInodeId).addrs 0) slot name inodeId b) inodeId =
      ({ inodeOf sb s inodeId with type := typeDir, nLinks := 1, size := 1 } : Inode).setAddr 0
        b := by
  have hsize := hr.size_lt
  have hword : b < 2 ^ 32 := by omega
  have hhead : ∀ t : BlockStore, inodeOf sb
      (editInode sb t inodeId (setInodeHead · (inodeOffset inodeId) typeDir 1)) inodeId =
      { inodeOf sb t inodeId with type := typeDir, nLinks := 1, size := 1 } := by
    intro t
    rw [inodeOf_editInode, inodeAt_setInodeHead (inodeOffset_lt _) typeDir_lt (by decide)]
    rfl
  have haddr : ∀ t : BlockStore, inodeOf sb
      (editInode sb t inodeId (setInodeAddr · (inodeOffset inodeId) 0 b)) inodeId =
      (inodeOf sb t inodeId).setAddr 0 b := by
    intro t
    rw [inodeOf_editInode]
    exact inodeAt_setInodeAddr (a := 0) (inodeOffset_lt _) hword
  rw [madeDir, inodeOf_updateData hr hb hid, haddr, inodeOf_takeBlock hr hid hbn, hhead,
    inodeOf_entered hr hblock hid]

theorem madeDir_created (hr : Regions sb)
    (hblock : sb.dataStart ≤ (inodeOf sb s faInodeId).addrs 0) (hid : inodeId < bitsPerBlock)
    (hunused : ¬ InodeUsed sb s inodeId) (hb : sb.dataStart ≤ b) (hbn : b < sb.size)
    (hbfree : ¬ BlockUsed sb s b) (hne : b ≠ (inodeOf sb s faInodeId).addrs 0) :
    Created sb s
      (madeDir sb s faInodeId ((inodeOf sb s faInodeId).addrs 0) slot name inodeId b) faInodeId
      slot name inodeId (some b) where
  lt := hid
  unused := hunused
  used_iff i := by
    rw [madeDir, inodeUsed_updateData hr hb, inodeUsed_editInode hr hid, inodeUsed_takeBlock hr,
      inodeUsed_editInode hr hid, inodeUsed_entered hr hblock hid]
  blockUsed_iff c hc := by
    rw [madeDir, blockUsed_updateData hr hb hc, blockUsed_editInode hr hid hc,
      blockUsed_takeBlock, blockUsed_editInode hr hid hc, blockUsed_entered hr hblock hc,
      Option.some.injEq, eq_comm]
  inode_eq i hi hoff := by
    rw [madeDir, inodeOf_updateData hr hb hi, inodeOf_editInode_of_ne hr hid hi hoff,
      inodeOf_takeBlock hr hi hbn, inodeOf_editInode_of_ne hr hid hi hoff,
      inodeOf_entered hr hblock hi]
    · intro l hl x
      exact inodeAt_setInodeHead_of_ne hl
    · intro l hl x
      exact inodeAt_setInodeAddr_of_ne hl (by decide)
  parent := by
    rw [madeDir, Function.update_of_ne hne.symm, editInode_data hr hid hblock,
      takeBlock_data hr hbn hblock, editInode_data hr hid hblock, entered_self hr hblock]
    rfl
  data_eq c hc hcne hnew := by
    have hcb : c ≠ b := fun heq => hnew (heq ▸ rfl)
    rw [madeDir, Function.update_of_ne hcb, editInode_data hr hid hc, takeBlock_data hr hbn hc,
      editInode_data hr hid hc, entered_data hr hc hcne]
  isDir_iff := by
    unfold IsDir
    rw [inodeOf_madeDir hr hblock hid hb hbn]
    exact iff_of_true rfl rfl
  block c hc := by
    obtain rfl := Option.some.inj hc
    refine ⟨hb, hbn, hbfree, ?_, ?_⟩
    · rw [inodeOf_madeDir hr hblock hid hb hbn, setAddr_addrs_self]
    · rw [madeDir, Function.update_self]

end Effect

end MipsOs.Fs
