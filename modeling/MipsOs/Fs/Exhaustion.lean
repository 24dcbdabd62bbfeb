import MipsOs.Fs.FileBlocks
import MipsOs.Fs.PathLookup
import MipsOs.Fs.Transfer
import MipsOs.Fs.UndoMkdir

/-!
# When space runs out

The allocators have no answer for "nothing is free": they answer whatever their
local variable holds.  And the search of a full directory ends behind its last
entry, which the callers do not notice.

`Clean` says that a call has failed without a trace.  No call that creates or grows
does so.  `do_touch` and `do_mkdir` take an inode before they look for anything
else, or overwrite the inode that the local names; `write` stores into the block
that the local names (`exhausted_calls_not_clean`).
-/

namespace MipsOs.Fs

open MipsOs.Lib MipsOs.Lib.BlockProg

/-- Both bitmaps, the entries of the directories, the inodes but for the target, and
the blocks of the other files are as before. -/
structure Kept (sb : SuperBlock) (s t : BlockStore) (target : Option Nat) : Prop
    extends Restored sb s t where
  inode_eq : ∀ i < bitsPerBlock, some i ≠ target → inodeOf sb t i = inodeOf sb s i
  file_eq : ∀ i : Nat, Allocated sb s i → ¬ IsDir sb s i → some i ≠ target →
    ∀ p : Part, p.Ok → p.addr s (inodeOf sb s i) ≠ 0 →
      t (p.addr s (inodeOf sb s i)) = s (p.addr s (inodeOf sb s i))

/-- Whatever the uninitialised locals hold, and the pages that are not read, the call
keeps everything and stores to the allowed blocks only. -/
def Clean {α : Type} (sb : SuperBlock) (s : BlockStore) (target : Option Nat)
    (allowed : Nat → Prop) (call : Nat → Prog α) : Prop :=
  ∀ undef unread, Kept sb s ((call undef).flat unread s).2.2 target ∧
    ∀ b ∈ (call undef).stores unread s, allowed b

/-! ## Creation -/

section Creation

variable {sb : SuperBlock} {s : BlockStore} {fa slot i : Nat} {name : CString}

theorem inodeUsed_headed (hr : Regions sb) {b : Nat} (hb : sb.dataStart ≤ b)
    (hi : i < bitsPerBlock) {j : Nat} :
    InodeUsed sb (headed sb s b slot name i) j ↔ InodeUsed sb s j ∨ j = i := by
  rw [headed, inodeUsed_editInode hr hi, inodeUsed_entered hr hb hi]

/-- With a free inode, the bit of that inode has changed. -/
theorem not_kept_of_used {t : BlockStore} {target : Option Nat} (hi : ¬ InodeUsed sb s i)
    (ht : InodeUsed sb t i) : ¬ Kept sb s t target :=
  fun h => hi ((h.used_iff i).mp ht)

/-- `do_touch` of a new name takes an inode, or makes a file of the one that its local
names: here the parent. -/
theorem doTouch_not_kept (hr : Regions sb) (hfa : Directory sb s fa)
    (hblock : sb.dataStart ≤ dirBlockOf sb s fa)
    (hslot : freeSlot (dirOf sb s fa) name = some slot) (unread : List (Option Block)) :
    ¬ Kept sb s ((doTouch sb fa fa name).flat unread s).2.2 none := by
  by_cases hinode : ∃ i < bitsPerBlock, ¬ InodeUsed sb s i
  · have htouch : (doTouch sb fa fa name).Sat s _ := doTouch_sat hslot hinode
    obtain ⟨i, hfirst, ht⟩ := htouch.flat unread
    apply not_kept_of_used hfirst.unused
    rw [ht]
    exact ((madeFile_created hr hblock hfirst.lt hfirst.unused).used_iff i).mpr (.inr rfl)
  · have htouch : (doTouch sb fa fa name).Sat s _ :=
      doTouch_sat_allocated hslot (addEntry_sat_none hinode)
    obtain ⟨i, rfl, ht⟩ := htouch.flat unread
    intro hkept
    have hsame := hkept.inode_eq i hfa.lt nofun
    have hdir : (inodeOf sb s i).type = typeDir := hfa.isDir
    rw [← hsame, ht, madeFile, inodeOf_editInode,
      inodeAt_setInodeHead (inodeOffset_lt _) typeFile_lt (by decide)] at hdir
    exact typeFile_ne_typeDir hdir

/-- The allocator of blocks leaves the inode bitmap alone, and with this local it
answers a block of the data region. -/
theorem allocDataBlock_sat_any (hr : Regions sb) :
    (allocDataBlock sb sb.dataStart).Sat s fun b t => b < 2 ^ 32 ∧ sb.dataStart ≤ b ∧
      ∀ j, InodeUsed sb t j ↔ InodeUsed sb s j := by
  have hsize := hr.size_lt
  have hdata := hr.dataStart_lt
  simp only [bitsPerBlock, blockSize] at hdata
  by_cases hfree : ∃ b, sb.dataStart ≤ b ∧ b < sb.size ∧ ¬ BlockUsed sb s b
  · apply (allocDataBlock_sat hr hfree).mono
    rintro b t ⟨hb, hbn, _, rfl⟩
    exact ⟨by omega, hb, fun j => inodeUsed_takeBlock hr⟩
  · have hused : ∀ b, sb.dataStart ≤ b → b < sb.size → BlockUsed sb s b := by
      intro b hb hbn
      by_contra hunused
      exact hfree ⟨b, hb, hbn, hunused⟩
    apply (allocDataBlock_sat_none hr hused).mono
    rintro b t ⟨rfl, rfl⟩
    exact ⟨by omega, le_rfl, fun j => Iff.rfl⟩

/-- With a free inode `do_mkdir` takes it. -/
theorem doMkdir_not_kept (hr : Regions sb) (hblock : sb.dataStart ≤ dirBlockOf sb s fa)
    (hslot : freeSlot (dirOf sb s fa) name = some slot)
    (hinode : ∃ i < bitsPerBlock, ¬ InodeUsed sb s i) (unread : List (Option Block)) :
    ¬ Kept sb s ((doMkdir sb sb.dataStart fa name).flat unread s).2.2 none := by
  obtain ⟨i, b, u, hfirst, ⟨hb, hsame⟩, ht⟩ :=
    (doMkdir_sat_allocated hslot (addEntry_sat hinode)
      (fun i _ => allocDataBlock_sat_any hr)).flat unread
  apply not_kept_of_used hfirst.unused
  rw [dirBlockOf] at hblock
  rw [ht, inodeUsed_updateData hr hb, inodeUsed_editInode hr hfirst.lt, hsame,
    inodeUsed_headed hr hblock hfirst.lt]
  exact .inr rfl

/-- Behind its two entries a new directory is empty. -/
theorem bitmapCheck_newDir (d p : Nat) : bitmapCheck (newDir d p) 1024 = false := by
  have hget : ∀ k, 128 ≤ k → k < 4096 → Bytes.get (newDir d p) k = 0 := by
    intro k hlo hhi
    rw [newDir_eq, get_setEntry_of_ne dotDotString_short (by omega),
      get_setEntry_of_ne dotString_short (by omega), Bytes.get_eq _ hhi]
    rfl
  have hword : Bytes.word (newDir d p) 32 = 0 := by
    simp [Bytes.word, hget]
  rw [bitmapCheck_eq, show 1024 / 32 = 32 from rfl, hword, Nat.zero_testBit]

/-- Without a free inode `do_mkdir` takes a block, or makes a directory of the block
that its local names: here the inode bitmap. -/
theorem doMkdir_not_kept_none (hr : Regions sb) (hblock : sb.dataStart ≤ dirBlockOf sb s fa)
    (hslot : freeSlot (dirOf sb s fa) name = some slot)
    (hinode : ¬ ∃ i < bitsPerBlock, ¬ InodeUsed sb s i) (unread : List (Option Block)) :
    ¬ Kept sb s ((doMkdir sb sb.inodeBitmapStart fa name).flat unread s).2.2 none := by
  have hbitmap := hr.inodeBitmap_lt
  have hle := hr.bitmap_le
  have hinodes := hr.inodeStart_le_dataStart
  have hdata := hr.dataStart_lt
  have hsize := hr.size_lt
  have hid : sb.inodeBitmapStart < bitsPerBlock := by omega
  have hsame : ∀ c < sb.size, BlockUsed sb
      (headed sb s (dirBlockOf sb s fa) slot name sb.inodeBitmapStart) c ↔ BlockUsed sb s c :=
    fun c hc => blockUsed_headed hr hblock hid hc
  intro hkept
  by_cases hfree : ∃ b, sb.dataStart ≤ b ∧ b < sb.size ∧ ¬ BlockUsed sb s b
  · obtain ⟨c, hc, hcn, hcfree⟩ := hfree
    have halloc : ∀ i, i = sb.inodeBitmapStart → (allocDataBlock sb sb.inodeBitmapStart).Sat
        (headed sb s (dirBlockOf sb s fa) slot name i) fun b u => b < 2 ^ 32 ∧
          (sb.dataStart ≤ b ∧ b < sb.size ∧ ¬ BlockUsed sb s b ∧ BlockUsed sb u b) := by
      rintro _ rfl
      apply (allocDataBlock_sat hr ⟨c, hc, hcn, fun h => hcfree ((hsame c hcn).mp h)⟩).mono
      rintro b u ⟨hb, hbn, hbfree, rfl⟩
      exact ⟨by omega, hb, hbn, fun h => hbfree ((hsame b hbn).mpr h),
        blockUsed_takeBlock.mpr (.inr rfl)⟩
    obtain ⟨_, b, u, rfl, ⟨hb, hbn, hbfree, hbused⟩, ht⟩ :=
      (doMkdir_sat_allocated hslot (addEntry_sat_none hinode) halloc).flat unread
    apply hbfree
    rw [← hkept.blockUsed_iff b hbn, ht, blockUsed_updateData hr hb hbn,
      blockUsed_editInode hr hid hbn]
    exact hbused
  · have hused : ∀ b, sb.dataStart ≤ b → b < sb.size → BlockUsed sb
        (headed sb s (dirBlockOf sb s fa) slot name sb.inodeBitmapStart) b := by
      intro b hb hbn
      by_contra hunused
      exact hfree ⟨b, hb, hbn, fun h => hunused ((hsame b hbn).mpr h)⟩
    have halloc : ∀ i, i = sb.inodeBitmapStart → (allocDataBlock sb sb.inodeBitmapStart).Sat
        (headed sb s (dirBlockOf sb s fa) slot name i) fun b _ => b < 2 ^ 32 ∧
          b = sb.inodeBitmapStart := by
      rintro _ rfl
      apply (allocDataBlock_sat_none hr hused).mono
      rintro b u ⟨rfl, _⟩
      simp only [bitsPerBlock, blockSize] at hid
      exact ⟨by omega, rfl⟩
    obtain ⟨_, _, u, rfl, rfl, ht⟩ :=
      (doMkdir_sat_allocated hslot (addEntry_sat_none hinode) halloc).flat unread
    have hbit : InodeUsed sb s 1024 := by
      by_contra hunused
      exact hinode ⟨1024, by decide, hunused⟩
    rw [← hkept.used_iff, ht, InodeUsed, Function.update_self, bitmapCheck_newDir] at hbit
    cases hbit

end Creation

/-! ## `find_data_block` without a free block -/

section Growth

variable {sb : SuperBlock} {s : BlockStore} {n : Inode} {undef : Nat}

/-- The page of a missing block of addresses is cleared. -/
theorem mem_stores_addrBlock (hr : Regions sb) (hnone : freeBlocks sb s = ∅) {a : Fin 13}
    (h : n.addrs a = 0) (unread : List (Option Block)) :
    undef ∈ (addrBlock sb undef n a).stores unread s := by
  rw [addrBlock, if_neg (not_not.mpr h)]
  apply mem_stores_right (allocDataBlock_flat_none hr hnone undef unread)
  show undef ∈ [(n.setAddr a undef).addrs a]
  rw [setAddr_addrs_self]
  exact List.mem_singleton_self undef

theorem mem_stores_addrEntryBlock (hr : Regions sb) (hnone : freeBlocks sb s = ∅) {page k : Nat}
    (hk : k < addrPerBlock) (hundef : undef < 2 ^ 32) (h : Bytes.word (s page) k = 0)
    (unread : List (Option Block)) :
    undef ∈ (addrEntryBlock sb undef page k).stores unread s := by
  have hread : Bytes.word (Function.update s page (Bytes.setWord (s page) k undef) page) k =
      undef := by
    rw [addrPerBlock] at hk
    rw [Function.update_self]
    exact Bytes.word_setWord_same _ (by omega) hundef
  rw [addrEntryBlock]
  apply mem_stores_right (flat_read page unread s)
  rw [if_neg (not_not.mpr h)]
  apply mem_stores_right (allocDataBlock_flat_none hr hnone undef unread)
  show undef ∈ [page,
    Bytes.word (Function.update s page (Bytes.setWord (s page) k undef) page) k]
  rw [hread]
  exact List.mem_cons_of_mem _ (List.mem_singleton_self undef)

/-- An entry that is missing is answered as the local. -/
theorem addrEntry_flat_none (hr : Regions sb) (hnone : freeBlocks sb s = ∅) {page k : Nat}
    (h : Bytes.word (s page) k = 0) (unread : List (Option Block)) :
    (addrEntry sb undef page k).flat unread s =
      ((undef, true), unread, Function.update s page (Bytes.setWord (s page) k undef)) := by
  rw [addrEntry, flat_bind, flat_read, if_neg (not_not.mpr h), flat_bind,
    allocDataBlock_flat_none hr hnone]
  rfl

/-- The lookup of a block that is missing stores to the block that the local names, or
answers it. -/
theorem findDataBlock_none (hr : Regions sb) (hnone : freeBlocks sb s = ∅)
    (hundef : undef < 2 ^ 32) {offset : Nat} (hmax : offset / blockSize < maxFileBlocks)
    (h : (dataPart (offset / blockSize)).absent s n ≠ []) (unread : List (Option Block)) :
    undef ∈ (findDataBlock sb undef n offset).stores unread s ∨
      ((findDataBlock sb undef n offset).flat unread s).1.1 = undef := by
  unfold findDataBlock
  dsimp only
  rw [← absent_grow (i := offset / blockSize)] at h
  generalize n.grow (offset / blockSize) = n at *
  by_cases hdirect : offset / blockSize < 10
  · rw [dataPart_direct hdirect, Ne, Part.absent_slot_eq_nil_iff, not_not] at h
    right
    rw [dif_pos hdirect, if_pos h, flat_bind, allocDataBlock_flat_none hr hnone]
    rfl
  rw [dif_neg hdirect]
  by_cases hindirect : offset / blockSize < 10 + addrPerBlock
  · rw [dataPart_indirect hdirect hindirect, Ne, Part.absent_entry_eq_nil_iff,
      Part.absent_slot_eq_nil_iff] at h
    rw [if_pos hindirect]
    by_cases hslot : n.addrs 10 = 0
    · exact .inl (mem_stores_left _ (mem_stores_addrBlock hr hnone hslot unread))
    · have hpresent : (Part.slot 10).addr s n ≠ 0 := hslot
      rw [Part.addr_entry hpresent] at h
      have hentry : Bytes.word (s (n.addrs 10)) (offset / blockSize - 10) = 0 := by
        by_contra hne
        exact h ⟨hslot, hne⟩
      right
      rw [flat_bind, addrBlock_flat_present undef unread hslot]
      dsimp only
      rw [flat_bind, addrEntry_flat_none hr hnone hentry]
      rfl
  · have hdouble : offset / blockSize < 10 + addrPerBlock + addrPerBlock * addrPerBlock := hmax
    rw [dataPart_double hdirect hindirect, Ne, Part.absent_entry_eq_nil_iff,
      Part.absent_entry_eq_nil_iff, Part.absent_slot_eq_nil_iff] at h
    rw [if_neg hindirect, if_pos hdouble]
    by_cases hslot : n.addrs 11 = 0
    · exact .inl (mem_stores_left _ (mem_stores_addrBlock hr hnone hslot unread))
    have hpresent : (Part.slot 11).addr s n ≠ 0 := hslot
    rw [Part.addr_entry hpresent] at h
    by_cases hentry : Bytes.word (s (n.addrs 11))
        ((offset / blockSize - 10 - addrPerBlock) / addrPerBlock) = 0
    · left
      apply mem_stores_right (addrBlock_flat_present undef unread hslot)
      exact mem_stores_left _ (mem_stores_addrEntryBlock hr hnone (double_lt hindirect hmax) hundef
        hentry unread)
    · have hparent : (Part.entry (.slot 11)
          ((offset / blockSize - 10 - addrPerBlock) / addrPerBlock)).addr s n =
          Bytes.word (s (n.addrs 11))
            ((offset / blockSize - 10 - addrPerBlock) / addrPerBlock) :=
        Part.addr_entry hpresent _
      rw [Part.addr_entry (hparent ▸ hentry), hparent] at h
      have hlast : Bytes.word (s (Bytes.word (s (n.addrs 11))
          ((offset / blockSize - 10 - addrPerBlock) / addrPerBlock)))
          ((offset / blockSize - 10 - addrPerBlock) % addrPerBlock) = 0 := by
        by_contra hne
        exact h ⟨⟨hslot, hentry⟩, hne⟩
      right
      rw [flat_bind, addrBlock_flat_present undef unread hslot]
      dsimp only
      rw [flat_bind, addrEntryBlock_flat_present undef unread hentry]
      dsimp only
      rw [flat_bind, addrEntry_flat_none hr hnone hlast]
      rfl

/-! ## A write without a free block -/

/-- The file needs a block for the bytes from `o + k` on that it does not have. -/
def NeedsBlock (s : BlockStore) (n : Inode) (o size k : Nat) : Prop :=
  k < size ∧ ∃ i, (o + k) / blockSize ≤ i ∧ i * blockSize < o + size ∧
    (dataPart i).absent s n ≠ []

/-- The next round of `write`, whose block is there, leaves the need as it is. -/
theorem NeedsBlock.next {t : BlockStore} {m : Inode} {o size k : Nat}
    (h : NeedsBlock s n o size k) (hhere : (dataPart ((o + k) / blockSize)).absent s n = [])
    (habsent : ∀ i, (o + k) / blockSize < i → i * blockSize < o + size →
      (dataPart i).absent t m = (dataPart i).absent s n) :
    NeedsBlock t m o size (k + pieceSize o size k) := by
  obtain ⟨hk, i, hle, hlt, hmissing⟩ := h
  have hi : (o + k) / blockSize < i := by
    apply lt_of_le_of_ne hle
    rintro rfl
    exact hmissing hhere
  have hend := pieceEnd_eq (o := o) hk
  have hsize : blockSize = 4096 := rfl
  unfold pieceEnd at hend
  rw [hsize] at hend hi hlt
  refine ⟨by omega, i, ?_, ?_, ?_⟩
  · rw [hsize]
    omega
  · rw [hsize]
    omega
  · rw [habsent i (by rwa [hsize]) (by rwa [hsize])]
    exact hmissing

/-- What a page holds that arrives does not matter when it is overwritten. -/
theorem update_arrive (s : BlockStore) (b : Nat) (x : Option Block) (y : Block) :
    Function.update (arrive s b x) b y = Function.update s b y := by
  cases x with
  | none => rfl
  | some x => exact Function.update_idem x y s

/-- A page that is got and stored to. -/
theorem mem_stores_page {b : Nat} {doRead : Bool} {f : Block → Block} {next : Prog (Inode × Nat)}
    {unread : List (Option Block)} (h : undef = b ∨ ∀ x rest,
      undef ∈ next.stores rest (Function.update s b x)) :
    undef ∈ (do
      let page ← blockGet b doRead
      write page (f (← read page))
      blockCommit page true
      next : Prog (Inode × Nat)).stores unread s := by
  cases doRead with
  | true =>
    show undef ∈ b :: next.stores unread (Function.update s b (f (s b)))
    rcases h with rfl | hnext
    · exact List.mem_cons_self
    · exact List.mem_cons_of_mem _ (hnext _ _)
  | false =>
    show undef ∈ b :: next.stores unread.tail (Function.update (arrive s b unread.head?.join) b
      (f (arrive s b unread.head?.join b)))
    rw [update_arrive]
    rcases h with rfl | hnext
    · exact List.mem_cons_self
    · exact List.mem_cons_of_mem _ (hnext _ _)

/-- Some round of `write` stores to the block that the local names. -/
theorem mem_stores_writeFrom (hr : Regions sb) (hundef : undef < 2 ^ 32) {buff : List UInt8}
    {o k m : Nat} (hmax : o + buff.length + blockSize ≤ 2 ^ 31) (hnone : freeBlocks sb s = ∅)
    (hok : FileOk sb s n) (hneeds : NeedsBlock s n o buff.length k) (hm : buff.length - k ≤ m)
    (unread : List (Option Block)) :
    undef ∈ (writeFrom sb undef buff o m n k (o + k)).stores unread s := by
  induction m generalizing k s n unread with
  | zero =>
    have hlt := hneeds.1
    omega
  | succ m ih =>
    have hk := hneeds.1
    have hpos := pieceSize_pos (o := o) hk
    have hend := pieceEnd_eq (o := o) hk
    have hround : (o + k) / blockSize < maxFileBlocks := by
      unfold maxFileBlocks addrPerBlock blockSize
      simp only [blockSize] at hmax
      omega
    rw [writeFrom, if_pos hk]
    dsimp only
    by_cases hmissing : (dataPart ((o + k) / blockSize)).absent s n = []
    · obtain ⟨t, l, rest, hflat, hensured⟩ :=
        findDataBlock_flat undef unread hr hok hround (canReach_of_present hmissing unread)
      have hgrows := hensured.grows
      rw [absent_grow, hmissing] at hgrows
      obtain ⟨rfl, rfl⟩ := hgrows.eq_of_nil
      have hok' := hok.grow ((o + k) / blockSize)
      have hpart := dataPart_ok hround
      have hne := hensured.present
      have hcopy : o + (k + pieceSize o buff.length k) - (o + k) = pieceSize o buff.length k := by
        omega
      apply mem_stores_right hflat
      dsimp only
      rw [hend, hcopy]
      have hnext : ∀ (x : Block) (rest : List (Option Block)), undef ∈
          (writeFrom sb undef buff o m (n.grow ((o + k) / blockSize))
            (k + pieceSize o buff.length k) (o + (k + pieceSize o buff.length k))).stores rest
            (Function.update t ((dataPart ((o + k) / blockSize)).addr t
              (n.grow ((o + k) / blockSize))) x) := by
        intro x rest
        apply ih
        · rw [freeBlocks_updateData hr (hok'.range _ hpart hne).1]
          exact hnone
        · exact hok'.update hr hpart dataPart_not_index hne x
        · apply hneeds.next hmissing
          intro i _ hi
          have hlt : i < maxFileBlocks := by
            unfold maxFileBlocks addrPerBlock
            simp only [blockSize] at hmax hi
            omega
          rw [absent_congr (fun q hq => hok'.addr_update hpart dataPart_not_index hne x hq)
            (dataPart_ok hlt), absent_grow]
        · omega
      exact mem_stores_page (.inr hnext)
    · rcases findDataBlock_none hr hnone hundef hround hmissing unread with hstored | hanswer
      · exact mem_stores_left _ hstored
      · rw [stores_bind]
        apply List.mem_append_right
        rw [hanswer]
        exact mem_stores_page (.inl rfl)

/-- The blocks that the file has. -/
def InFile (s : BlockStore) (n : Inode) (b : Nat) : Prop :=
  ∃ p : Part, p.Ok ∧ p.addr s n ≠ 0 ∧ p.addr s n = b

/-- A write that needs a block stores outside of the file. -/
theorem writeFile_not_clean (hr : Regions sb) {file : OpenFile} {buff : List UInt8}
    (hmax : file.offset.toNat + buff.length + blockSize ≤ 2 ^ 31)
    (hok : FileOk sb s file.inode) (hnone : freeBlocks sb s = ∅)
    (hneeds : NeedsBlock s file.inode file.offset.toNat buff.length 0) :
    ¬ Clean sb s (some file.inodeId) (InFile s file.inode)
      (fun undef => writeFile sb undef file buff) := by
  have hbitmap := hr.inodeBitmap_lt
  have hle := hr.bitmap_le
  have hinodes := hr.inodeStart_le_dataStart
  have hdata := hr.dataStart_lt
  simp only [bitsPerBlock, blockSize] at hdata
  intro hclean
  obtain ⟨_, hstores⟩ := hclean sb.inodeBitmapStart []
  have hundef : sb.inodeBitmapStart < 2 ^ 32 := by omega
  have hstored := mem_stores_writeFrom hr hundef hmax hnone hok hneeds (le_refl _) []
  obtain ⟨p, hp, hne, heq⟩ := hstores _ (mem_stores_left _ hstored)
  have hrange := (hok.range p hp hne).1
  omega

end Growth

/-! ## The result -/

section Result

open TreeSystem

variable {sb : SuperBlock} {s : BlockStore}

theorem freeBlocks_eq_empty (h : ¬ FreeBlock sb s) : freeBlocks sb s = ∅ := by
  rw [Finset.eq_empty_iff_forall_notMem]
  intro b hb
  obtain ⟨⟨hle, hlt⟩, hfree⟩ := mem_freeBlocks.mp hb
  exact h ⟨b, hle, hlt, hfree⟩

/-- No creation of a new name, and no write that needs a block, fails cleanly when an
inode, a block or an entry that it needs is not there. -/
theorem exhausted_calls_not_clean (hr : Regions sb) (s : BlockStore) :
    (∀ (fa slot : Nat) (name : CString), Directory sb s fa → sb.dataStart ≤ dirBlockOf sb s fa →
      freeSlot (dirOf sb s fa) name = some slot → ¬ FreeInode sb s ∨ ¬ FreeSlot sb s fa →
      ¬ Clean sb s none (· = dirBlockOf sb s fa) fun undef => doTouch sb undef fa name) ∧
    (∀ (fa slot : Nat) (name : CString), Directory sb s fa → sb.dataStart ≤ dirBlockOf sb s fa →
      freeSlot (dirOf sb s fa) name = some slot →
      ¬ FreeInode sb s ∨ ¬ FreeBlock sb s ∨ ¬ FreeSlot sb s fa →
      ¬ Clean sb s none (· = dirBlockOf sb s fa) fun undef => doMkdir sb undef fa name) ∧
    (∀ (file : OpenFile) (buff : List UInt8),
      file.offset.toNat + buff.length + blockSize ≤ 2 ^ 31 → FileOk sb s file.inode →
      NeedsBlock s file.inode file.offset.toNat buff.length 0 → ¬ FreeBlock sb s →
      ¬ Clean sb s (some file.inodeId) (InFile s file.inode)
        fun undef => writeFile sb undef file buff) := by
  refine ⟨?_, ?_, ?_⟩
  · intro fa slot name hfa hblock hslot _ hclean
    exact doTouch_not_kept hr hfa hblock hslot [] (hclean fa []).1
  · intro fa slot name _ hblock hslot _ hclean
    by_cases hinode : FreeInode sb s
    · exact doMkdir_not_kept hr hblock hslot hinode [] (hclean sb.dataStart []).1
    · exact doMkdir_not_kept_none hr hblock hslot hinode [] (hclean sb.inodeBitmapStart []).1
  · intro file buff hmax hok hneeds hnone
    exact writeFile_not_clean hr hmax hok (freeBlocks_eq_empty hnone) hneeds

/-- A full root has no entry for the name `"a"`. -/
theorem freeSlot_letterA (h : Holds sb s 62) :
    freeSlot (dirOf sb s (0 : Nat)) letterA = some dentryPerBlock := by
  apply Entries.freeSlot_full h.entries
  intro i hi
  have hdots : dotString ≠ letterA ∧ dotDotString ≠ letterA ∧
      ∀ j < 64, byteName j ≠ letterA := by decide +kernel
  obtain ⟨hdot, hdotDot, hfiles⟩ := hdots
  rcases h.name_cases (i := i) hi with heq | heq | ⟨j, hj, heq⟩
  · rwa [heq]
  · rwa [heq]
  · rw [heq]
    exact hfiles j (by omega)

theorem not_freeSlot_of_holds (h : Holds sb s 62) : ¬ FreeSlot sb s 0 := by
  rintro ⟨i, hi, hempty⟩
  rw [h.entries.used i hi] at hempty
  cases hempty

/-- A partition of 517 blocks has the block of the root and no other data block. -/
theorem not_freeBlock_newStore (old : BlockStore) :
    ¬ FreeBlock (setupSuperBlock 4136) (newStore (setupSuperBlock 4136) old) := by
  have hr : Regions (setupSuperBlock 4136) := regions_setup (by decide)
  have hdata : (setupSuperBlock 4136).dataStart = 516 := rfl
  have hsize : (setupSuperBlock 4136).size = 517 := rfl
  rintro ⟨b, hle, hlt, hfree⟩
  rw [blockUsed_newStore hr (by simp only [bitsPerBlock, blockSize]; omega) hlt] at hfree
  omega

/-- On that partition, `do_touch` in a full root, `do_mkdir` in a new root and the first
write of a file do not fail cleanly. -/
theorem small_partition_not_clean :
    (∃ st : TreeState, ¬ Clean (setupSuperBlock 4136) st.store none
      (· = dirBlockOf (setupSuperBlock 4136) st.store (0 : Nat))
      fun undef => doTouch (setupSuperBlock 4136) undef 0 letterA) ∧
    (¬ Clean (setupSuperBlock 4136) (newStore (setupSuperBlock 4136) fun _ => zeroBlock) none
      (· = dirBlockOf (setupSuperBlock 4136)
        (newStore (setupSuperBlock 4136) fun _ => zeroBlock) (0 : Nat))
      fun undef => doMkdir (setupSuperBlock 4136) undef 0 letterA) ∧
    ¬ Clean (setupSuperBlock 4136) (newStore (setupSuperBlock 4136) fun _ => zeroBlock)
      (some OpenFile.blank.inodeId)
      (InFile (newStore (setupSuperBlock 4136) fun _ => zeroBlock) OpenFile.blank.inode)
      fun undef => writeFile (setupSuperBlock 4136) undef OpenFile.blank hello := by
  have hr : Regions (setupSuperBlock 4136) := regions_setup (by decide)
  obtain ⟨st, hreach, hholds⟩ := exists_holds hr (fun _ => zeroBlock) le_rfl
  have hinv := reaches_inv hr hreach
  have hnone := not_freeBlock_newStore fun _ => zeroBlock
  have hname := letterA_newName hr fun _ => zeroBlock
  have hown := ownBlocks_newStore hr fun _ => zeroBlock
  have hslot := hname.entries.freeSlot_some hname.lt hname.nonempty hname.fresh
  obtain ⟨htouch, _, _⟩ := exhausted_calls_not_clean hr st.store
  obtain ⟨_, hmkdir, hwrite⟩ := exhausted_calls_not_clean hr
    (newStore (setupSuperBlock 4136) fun _ => zeroBlock)
  refine ⟨⟨st, ?_⟩, ?_, ?_⟩
  · exact htouch 0 _ letterA hinv.tree.root (hinv.own.le 0 hinv.tree.root)
      (freeSlot_letterA hholds) (.inr (not_freeSlot_of_holds hholds))
  · exact hmkdir 0 _ letterA hname.dir (hown.le 0 hname.dir) hslot (.inr (.inl hnone))
  · apply hwrite OpenFile.blank hello (by decide) (fileOk_empty fun _ => rfl) _ hnone
    refine ⟨by decide, 0, by decide, by decide, ?_⟩
    rw [Ne, dataPart_direct (by decide), Part.absent_slot_eq_nil_iff]
    exact fun h => h rfl

/-- With 62 files in the root, `do_touch` of another one takes an inode and leaves no
entry for it. -/
theorem full_root_touch_not_clean :
    ¬ ∀ (sectorNum : Nat) (old : BlockStore) (st : TreeState) (fa slot : Nat) (name : CString),
      sectorNum < 2 ^ 32 →
      Reaches (step (setupSuperBlock sectorNum)) (Room (setupSuperBlock sectorNum))
        (start (setupSuperBlock sectorNum) old []) st →
      Directory (setupSuperBlock sectorNum) st.store fa →
      freeSlot (dirOf (setupSuperBlock sectorNum) st.store fa) name = some slot →
      ¬ FreeSlot (setupSuperBlock sectorNum) st.store fa →
      Clean (setupSuperBlock sectorNum) st.store none
        (· = dirBlockOf (setupSuperBlock sectorNum) st.store fa)
        fun undef => doTouch (setupSuperBlock sectorNum) undef fa name := by
  intro h
  have hr : Regions (setupSuperBlock 8192) := regions_setup (by decide)
  obtain ⟨st, hreach, hholds⟩ := exists_holds hr (fun _ => zeroBlock) le_rfl
  have hinv := reaches_inv hr hreach
  have hclean := h 8192 _ st 0 _ letterA (by decide) hreach hinv.tree.root (freeSlot_letterA hholds)
    (not_freeSlot_of_holds hholds)
  exact doTouch_not_kept hr hinv.tree.root (hinv.own.le 0 hinv.tree.root)
    (freeSlot_letterA hholds) [] (hclean 0 []).1

end Result

end MipsOs.Fs
