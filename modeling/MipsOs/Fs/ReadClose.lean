import MipsOs.Fs.Exhaustion
import MipsOs.Fs.FileMapping
import MipsOs.Fs.Lasting

/-!
# What a read leaves on the disk

`read` asks `find_data_block` for the blocks of its range, as `write` does.  So it
takes a block for every hole of the range, and it raises the size in the inode copy
of the open file, which `close` writes back.

`read_untouched_iff` says when a `read` and the `close` behind it leave the file
system as it was: when the range has no hole, and the copy with its raised size is the
inode on the disk.  It takes in a file system without free blocks, where the new
addresses come from an uninitialised local.  The range ends at 2^31 at the latest: the
offset of a longer one wraps around, and `find_data_block` leaves the array of addresses.
-/

namespace MipsOs.Fs

open MipsOs.Lib MipsOs.Lib.BlockProg

/-- `read` of an open file, and `close`. -/
def readClose (sb : SuperBlock) (undef : Nat) (file : OpenFile) (size : Nat) :
    Prog (List UInt8) := do
  let (out, file) ← readFile sb undef file size
  writeBack sb file
  return out

/-- Both bitmaps, the inodes and the taken data blocks are as before. -/
structure Untouched (sb : SuperBlock) (s t : BlockStore) : Prop where
  inodeBitmap : t sb.inodeBitmapStart = s sb.inodeBitmapStart
  blockBitmap : ∀ c, sb.blockBitmapStart ≤ c → c < sb.inodeStart → t c = s c
  inode_eq : ∀ i < bitsPerBlock, inodeOf sb t i = inodeOf sb s i
  content : ∀ c, TakenData sb s c → t c = s c

/-- Whatever the uninitialised local holds, and the pages that arrive without being
read, `read` and `close` leave the file system as it is. -/
def LeavesUntouched (sb : SuperBlock) (s : BlockStore) (file : OpenFile) (size : Nat) : Prop :=
  ∀ undef, (readClose sb undef file size).Sat s fun _ t => Untouched sb s t

/-- The inode after a transfer of `size` bytes from `o` on, but for new addresses. -/
def Inode.covering (n : Inode) (o size : Nat) : Inode :=
  if size = 0 then n else n.grow ((o + size - 1) / blockSize)

/-! ## The rounds of `read` -/

section Rounds

variable {sb : SuperBlock} {undef o size : Nat} {s : BlockStore} {n : Inode}
  {out : List UInt8}

/-- The bytes that a round copies. -/
def pieceBytes (o size k : Nat) (data : Block) : List UInt8 :=
  (List.range' ((o + k) % blockSize) (pieceSize o size k)).map (Bytes.get data)

theorem readFrom_round {m : Nat} (hk : out.length < size)
    {Q : Inode × List UInt8 × Nat → BlockStore → Prop} :
    (readFrom sb undef size o (m + 1) n out (o + out.length)).Sat s Q ↔
      (findDataBlock sb undef n (o + out.length)).Sat s fun r t =>
        (readFrom sb undef size o m r.2 (out ++ pieceBytes o size out.length (t r.1))
          (o + (out ++ pieceBytes o size out.length (t r.1)).length)).Sat t Q := by
  have hlen : ∀ x : Block, o + (out ++ pieceBytes o size out.length x).length =
      pieceEnd o size (o + out.length) := by
    intro x
    rw [pieceEnd_eq hk, List.length_append, pieceBytes, List.length_map, List.length_range']
  simp only [hlen]
  rw [readFrom, if_pos hk, sat_bind]
  rfl

theorem readFrom_done {m : Nat} (hk : ¬ out.length < size) :
    readFrom sb undef size o m n out (o + out.length) = pure (n, out, o + out.length) := by
  cases m with
  | zero => rfl
  | succ m => rw [readFrom, if_neg hk]

/-- Whatever the file looks like. -/
theorem readFrom_lasts (hr : Regions sb) (hundef : Beyond sb undef) (m : Nat) :
    (readFrom sb undef size o m n out (o + out.length)).Sat s fun r t =>
      Lasts sb s t ∧ KeepsSlots n r.1 := by
  induction m generalizing s n out with
  | zero => exact ⟨Lasts.refl sb s, KeepsSlots.refl n⟩
  | succ m ih =>
    by_cases hk : out.length < size
    · rw [readFrom_round hk]
      apply (findDataBlock_lasts hr hundef _).mono
      intro r t ⟨hlasts, hkeeps, _⟩
      apply ih.mono
      intro r' u ⟨hlasts', hkeeps'⟩
      exact ⟨hlasts.trans hlasts', hkeeps.trans hkeeps'⟩
    · rw [readFrom_done hk]
      exact ⟨Lasts.refl sb s, KeepsSlots.refl n⟩

theorem round_lt_max {k : Nat} (hk : k < size) (hmax : o + size ≤ maxFileBlocks * blockSize) :
    (o + k) / blockSize < maxFileBlocks := by
  apply Nat.div_lt_of_lt_mul
  rw [Nat.mul_comm]
  omega

theorem findDataBlock_present {i : Nat} (hmax : i / blockSize < maxFileBlocks)
    (h : (dataPart (i / blockSize)).absent s n = []) :
    (findDataBlock sb undef n i).Sat s fun r t => t = s ∧ r.2 = n.grow (i / blockSize) := by
  rw [sat_iff_flat]
  intro unread
  rw [findDataBlock_flat_present undef unread hmax h]
  exact ⟨rfl, rfl⟩

theorem Inode.grow_grow (n : Inode) {i j : Nat} (h : i ≤ j) : (n.grow i).grow j = n.grow j := by
  unfold Inode.grow
  rw [max_assoc, max_eq_right (Nat.succ_le_succ h)]

theorem Inode.grow_of_lt {i : Nat} (h : i < n.size) : n.grow i = n := by
  unfold Inode.grow
  rw [max_eq_left h]

/-- A round after which no byte is left is in the last block of the range. -/
theorem last_round {k : Nat} (hk : k < size) (hend : k + pieceSize o size k = size) :
    (o + k) / blockSize = (o + size - 1) / blockSize := by
  have hfits := @pieceSize_fits o size k
  have hsplit := Nat.div_add_mod (o + k) blockSize
  rw [blockSize] at *
  omega

/-- Over blocks that are there, `read` raises the size and nothing else. -/
theorem readFrom_present (hmax : o + size ≤ maxFileBlocks * blockSize)
    (hneeds : ¬ NeedsBlock s n o size out.length) {m : Nat} (hm : size - out.length ≤ m) :
    (readFrom sb undef size o m n out (o + out.length)).Sat s fun r t => t = s ∧
      r.1 = if out.length < size then n.grow ((o + size - 1) / blockSize) else n := by
  induction m generalizing n out with
  | zero =>
    have hdone : ¬ out.length < size := by omega
    rw [if_neg hdone]
    exact ⟨rfl, rfl⟩
  | succ m ih =>
    by_cases hk : out.length < size
    · rw [readFrom_round hk, if_pos hk]
      have hpos := pieceSize_pos (o := o) hk
      have hle := pieceSize_le (o := o) hk
      have hhere : (dataPart ((o + out.length) / blockSize)).absent s n = [] := by
        by_contra hmissing
        refine hneeds ⟨hk, (o + out.length) / blockSize, le_rfl, ?_, hmissing⟩
        have hmul := Nat.div_mul_le_self (o + out.length) blockSize
        omega
      apply (findDataBlock_present (round_lt_max hk hmax) hhere).mono
      rintro r t ⟨rfl, hinode⟩
      have hlen : (out ++ pieceBytes o size out.length (t r.1)).length =
          out.length + pieceSize o size out.length := by
        rw [List.length_append, pieceBytes, List.length_map, List.length_range']
      have hnext : ¬ NeedsBlock t r.2 o size
          (out ++ pieceBytes o size out.length (t r.1)).length := by
        rw [hlen, hinode]
        rintro ⟨_, i, hi, hin, hmissing⟩
        rw [absent_grow] at hmissing
        have hmono := Nat.div_le_div_right (c := blockSize)
          (Nat.add_le_add_left (Nat.le_add_right out.length (pieceSize o size out.length)) o)
        exact hneeds ⟨hk, i, hmono.trans hi, hin, hmissing⟩
      apply (ih hnext (by omega)).mono
      intro r' u ⟨hu, hanswer⟩
      refine ⟨hu, ?_⟩
      rw [hanswer, hlen, hinode]
      split
      · exact Inode.grow_grow n (Nat.div_le_div_right (by omega))
      · rw [last_round hk (by omega)]
    · rw [readFrom_done hk, if_neg hk]
      exact ⟨rfl, rfl⟩

/-- Over a block that is missing, `read` leaves its mark. -/
theorem readFrom_marked (hr : Regions sb) (hundef : Beyond sb undef) (hok : FileOk sb s n)
    (hmax : o + size ≤ maxFileBlocks * blockSize) (hneeds : NeedsBlock s n o size out.length)
    {m : Nat} (hm : size - out.length ≤ m) :
    (readFrom sb undef size o m n out (o + out.length)).Sat s fun r t =>
      Marked sb undef s n t r.1 := by
  induction m generalizing n out with
  | zero =>
    have hlt := hneeds.1
    omega
  | succ m ih =>
    have hk := hneeds.1
    have hpos := pieceSize_pos (o := o) hk
    have hround := round_lt_max hk hmax
    rw [readFrom_round hk]
    by_cases hhere : (dataPart ((o + out.length) / blockSize)).absent s n = []
    · apply (findDataBlock_present hround hhere).mono
      rintro r t ⟨rfl, hinode⟩
      have hlen : (out ++ pieceBytes o size out.length (t r.1)).length =
          out.length + pieceSize o size out.length := by
        rw [List.length_append, pieceBytes, List.length_map, List.length_range']
      have hnext := hneeds.next hhere fun i _ _ => absent_grow (i := (o + out.length) / blockSize) _
      rw [← hlen, ← hinode] at hnext
      have hok' := hok.grow ((o + out.length) / blockSize)
      rw [← hinode] at hok'
      apply (ih hok' hnext (by omega)).mono
      intro r' u hmarked
      rw [hinode] at hmarked
      exact hmarked
    · apply (findDataBlock_lasts hr hundef _).mono
      intro r t ⟨hlasts, _, hmarked⟩
      apply (readFrom_lasts hr hundef m).mono
      intro r' u ⟨hlasts', hkeeps⟩
      exact (hmarked hok hround hhere).lasts hr hundef hlasts hlasts' hkeeps

end Rounds

/-! ## The result -/

section Result

variable {sb : SuperBlock} {s t : BlockStore} {file : OpenFile} {size o : Nat} {n : Inode}

/-- The store after `close`. -/
def closed (sb : SuperBlock) (t : BlockStore) (inodeId : Nat) (n : Inode) : BlockStore :=
  editInode sb t inodeId fun b => putInode b (inodeOffset inodeId) n

theorem readClose_sat {undef : Nat} (hoffset : file.offset = o) {Q : BlockStore → Prop} :
    (readClose sb undef file size).Sat s (fun _ t => Q t) ↔
      (readFrom sb undef size o size file.inode [] (o + ([] : List UInt8).length)).Sat s
        fun r t => Q (closed sb t file.inodeId r.1) := by
  unfold readClose readFile
  rw [hoffset]
  simp only [sat_bind]
  rfl

theorem Untouched.refl (sb : SuperBlock) (s : BlockStore) : Untouched sb s s where
  inodeBitmap := rfl
  blockBitmap := fun _ _ _ => rfl
  inode_eq := fun _ _ => rfl
  content := fun _ _ => rfl

/-- The copy that is the inode on the disk. -/
theorem closed_inodeOf (inodeId : Nat) : closed sb s inodeId (inodeOf sb s inodeId) = s := by
  unfold closed editInode inodeOf
  dsimp only
  rw [putInode_inodeAt, Function.update_eq_self]

theorem inodeOf_closed (hn : n.Fits) (inodeId : Nat) :
    inodeOf sb (closed sb t inodeId n) inodeId = n := by
  unfold inodeOf closed editInode
  rw [Function.update_self, inodeAt_putInode (inodeOffset_lt _) hn]

theorem Inode.Fits.grow (h : n.Fits) {i : Nat} (hi : i + 1 < 2 ^ 32) : (n.grow i).Fits := by
  intro v hv
  simp only [Inode.words, Inode.grow, List.mem_cons] at hv
  rcases hv with rfl | rfl | rfl | hv
  · exact h _ (by simp [Inode.words])
  · exact h _ (by simp [Inode.words])
  · exact max_lt (h _ (by simp [Inode.words])) hi
  · exact h v (List.mem_cons_of_mem _ (List.mem_cons_of_mem _ (List.mem_cons_of_mem _ hv)))

theorem Inode.Fits.covering (h : n.Fits) (hmax : o + size ≤ maxFileBlocks * blockSize) :
    (n.covering o size).Fits := by
  unfold Inode.covering
  split
  · exact h
  · apply h.grow
    unfold maxFileBlocks addrPerBlock at hmax
    rw [blockSize] at hmax ⊢
    omega

/-- There is a number behind the last block that is none of the addresses. -/
theorem exists_beyond (hr : Regions sb) (n : Inode) :
    ∃ undef, Beyond sb undef ∧ ∀ a, n.addrs a ≠ undef := by
  have hsize := hr.size_lt
  have hdata := hr.dataStart_lt
  rw [bitsPerBlock, blockSize] at hdata
  obtain ⟨u, hu, hnot⟩ := Finset.exists_mem_notMem_of_card_lt_card
    (s := Finset.univ.image n.addrs) (t := Finset.Ico (sb.dataStart + sb.size)
      (sb.dataStart + sb.size + 14)) (by
    have hcard := Finset.card_image_le (s := Finset.univ) (f := n.addrs)
    rw [Finset.card_univ, Fintype.card_fin] at hcard
    rw [Nat.card_Ico]
    omega)
  rw [Finset.mem_Ico] at hu
  refine ⟨u, ⟨by omega, by omega, by omega⟩, fun a ha => hnot ?_⟩
  exact Finset.mem_image.mpr ⟨a, Finset.mem_univ a, ha⟩

/-- A mark is seen behind `close`. -/
theorem Marked.not_untouched (hr : Regions sb) {undef : Nat} (hundef : Beyond sb undef)
    (hid : file.inodeId < bitsPerBlock) (hne : ∀ a, (inodeOf sb s file.inodeId).addrs a ≠ undef)
    {m : Inode} (h : Marked sb undef s n t m) :
    ¬ Untouched sb s (closed sb t file.inodeId m) := by
  intro huntouched
  have hlow := inodeStart_le hr hid
  have hhigh := inodeInBlock_lt hr hid
  rcases h with (⟨b, hb, hused⟩ | ⟨c, k, hc, hk, hzero, hword⟩) | ⟨a, _, hslot⟩
  · obtain ⟨⟨_, hlt⟩, hfree⟩ := mem_freeBlocks.mp hb
    have hbitmap := hr.bitmap_lt b hlt
    apply hfree
    have hsame := huntouched.blockBitmap (bitmapBlock sb b) (bitmapStart_le sb b) hbitmap
    unfold closed editInode at hsame
    rw [Function.update_of_ne (by omega)] at hsame
    unfold BlockUsed at hused ⊢
    rwa [← hsame]
  · have hsame := huntouched.content c hc
    have hle := hc.le
    unfold closed editInode at hsame
    rw [Function.update_of_ne (by omega)] at hsame
    rw [hsame, hzero] at hword
    exact hundef.ne_zero hr hword.symm
  · have hsame := huntouched.inode_eq _ hid
    apply hne a
    rw [← hsame, ← hslot]
    unfold inodeOf closed editInode
    rw [Function.update_self, addr_putInode (inodeOffset_lt _) (hslot ▸ hundef.lt)]

/-- A hole is filled. -/
theorem NeedsBlock.not_untouched (hr : Regions sb) (hid : file.inodeId < bitsPerBlock)
    (hok : FileOk sb s file.inode) (hoffset : file.offset = o)
    (hmax : o + size ≤ maxFileBlocks * blockSize) (hneeds : NeedsBlock s file.inode o size 0) :
    ¬ LeavesUntouched sb s file size := by
  intro huntouched
  obtain ⟨undef, hundef, hne⟩ := exists_beyond hr (inodeOf sb s file.inodeId)
  have hsat := (readClose_sat hoffset).mp (huntouched undef)
  have hmarked := @readFrom_marked sb undef o size s file.inode [] hr hundef hok hmax hneeds _
    (Nat.sub_le size _)
  exact (hmarked.flat []).not_untouched hr hundef hid hne (hsat.flat [])

/-- The range of an `int` is inside the maximum file size. -/
theorem le_max_of_le_int (h : o + size ≤ 2 ^ 31) : o + size ≤ maxFileBlocks * blockSize :=
  h.trans (by decide +kernel)

/-- Below 2^31, where the `int` offsets of the source do not wrap around, a `read` and the
`close` behind it leave the file system as it was if and only if the range has no hole and
the copy with its raised size is the inode on the disk. -/
theorem read_untouched_iff (hr : Regions sb) (hid : file.inodeId < bitsPerBlock)
    (hfits : file.inode.Fits) (hok : FileOk sb s file.inode) (hoffset : file.offset = o)
    (hint : o + size ≤ 2 ^ 31) :
    LeavesUntouched sb s file size ↔
      ¬ NeedsBlock s file.inode o size 0 ∧
        inodeOf sb s file.inodeId = file.inode.covering o size := by
  have hmax := le_max_of_le_int hint
  have hpresent : ¬ NeedsBlock s file.inode o size 0 → ∀ undef,
      (readFrom sb undef size o size file.inode [] (o + ([] : List UInt8).length)).Sat s
        fun r t => t = s ∧ r.1 = file.inode.covering o size := by
    intro hneeds undef
    apply (readFrom_present hmax hneeds (Nat.sub_le size _)).mono
    intro r t ⟨ht, hinode⟩
    refine ⟨ht, ?_⟩
    rw [hinode, Inode.covering, List.length_nil]
    rcases Nat.eq_zero_or_pos size with rfl | hpos
    · rfl
    · rw [if_pos hpos, if_neg (by omega)]
  constructor
  · intro huntouched
    have hneeds : ¬ NeedsBlock s file.inode o size 0 :=
      fun hneeds => hneeds.not_untouched hr hid hok hoffset hmax huntouched
    refine ⟨hneeds, ?_⟩
    have hsat := ((readClose_sat hoffset).mp (huntouched 0)).flat []
    obtain ⟨_, hinode⟩ := (hpresent hneeds 0).flat []
    rw [← hsat.inode_eq _ hid, hinode, inodeOf_closed (hfits.covering hmax)]
  · rintro ⟨hneeds, hinode⟩ undef
    rw [readClose_sat hoffset]
    apply (hpresent hneeds undef).mono
    rintro r t ⟨rfl, hcopy⟩
    rw [hcopy, ← hinode, closed_inodeOf]
    exact Untouched.refl sb t

end Result

/-! ## The directory block of the root -/

section Root

open FileMapping

/-- The inode of the root of a new partition of 1024 blocks. -/
def rootInode : Inode := inodeOf (setupSuperBlock 8192) smallStore (0 : Nat)

/-- The root, opened and moved to the offset. -/
def rootHandle (offset : Nat) : OpenFile where
  inUse := true
  inodeId := 0
  access := 0
  offset := offset
  inode := rootInode

theorem rootInode_size : rootInode.size = 1 := by decide +kernel

theorem rootInode_addrs (a : Fin 13) : rootInode.addrs a = if a = 0 then 516 else 0 := by
  revert a
  decide +kernel

theorem rootInode_fits : rootInode.Fits := by
  unfold Inode.Fits
  decide +kernel

/-- The root has its directory block and no other. -/
theorem rootInode_parts {p : Part} (hp : p.Ok) (hne : p.addr smallStore rootInode ≠ 0) :
    p = .slot 0 := by
  have hindex : ∀ q : Part, q.IsIndex → q.addr smallStore rootInode = 0 := by
    intro q hq
    cases q with
    | slot a =>
      show rootInode.addrs a = 0
      rw [rootInode_addrs]
      rcases hq with rfl | rfl <;> decide
    | entry r k =>
      cases r with
      | slot a =>
        obtain ⟨rfl, _⟩ := hq
        exact if_pos (rootInode_addrs 11)
      | entry _ _ => exact hq.elim
  cases p with
  | slot a =>
    change rootInode.addrs a ≠ 0 at hne
    rw [rootInode_addrs] at hne
    by_cases ha : a = 0
    · rw [ha]
    · rw [if_neg ha] at hne
      exact absurd rfl hne
  | entry q k => exact absurd (if_pos (hindex q hp.1)) hne

theorem rootInode_ok : FileOk (setupSuperBlock 8192) smallStore rootInode := by
  have hr : Regions (setupSuperBlock 8192) := regions_setup (by decide)
  have haddr : ∀ p : Part, p.Ok → p.addr smallStore rootInode ≠ 0 →
      p.addr smallStore rootInode = 516 := by
    intro p hp hne
    rw [rootInode_parts hp hne]
    exact rootInode_addrs 0
  constructor
  · intro p hp hne
    rw [haddr p hp hne]
    decide
  · intro p hp hne
    rw [haddr p hp hne, smallStore, blockUsed_newStore hr (by decide) (by decide)]
    decide
  · intro p q hp hq hne heq
    rw [rootInode_parts hp hne, rootInode_parts hq (heq ▸ hne)]

/-- The names of the root are read. -/
theorem root_read_untouched :
    LeavesUntouched (setupSuperBlock 8192) smallStore (rootHandle 0) 128 := by
  have hneeds : ¬ NeedsBlock smallStore (rootHandle 0).inode 0 128 0 := by
    rintro ⟨_, i, _, hi, hmissing⟩
    have hzero : i = 0 := by
      rw [blockSize] at hi
      omega
    rw [hzero, dataPart_direct (by decide), Ne, Part.absent_slot_eq_nil_iff] at hmissing
    exact hmissing fun h => absurd ((rootInode_addrs 0).symm.trans h) (by decide)
  have hinode : inodeOf (setupSuperBlock 8192) smallStore (rootHandle 0).inodeId =
      (rootHandle 0).inode.covering 0 128 := by
    unfold Inode.covering
    rw [if_neg (by decide)]
    exact (Inode.grow_of_lt (n := rootInode) (rootInode_size ▸ by decide)).symm
  have hiff := @read_untouched_iff _ _ (rootHandle 0) 128 0
    (regions_setup (show 8192 < 2 ^ 32 by decide)) (by decide) rootInode_fits rootInode_ok rfl
    (by decide)
  rw [hiff]
  exact ⟨hneeds, hinode⟩

/-- A byte behind the directory block is read: the root gets another block. -/
theorem root_read_fills_hole :
    FileOk (setupSuperBlock 8192) smallStore (rootHandle 4096).inode ∧
      inodeOf (setupSuperBlock 8192) smallStore (rootHandle 4096).inodeId =
        (rootHandle 4096).inode ∧
      ¬ LeavesUntouched (setupSuperBlock 8192) smallStore (rootHandle 4096) 1 := by
  refine ⟨rootInode_ok, rfl, ?_⟩
  have hmax : 4096 + 1 ≤ maxFileBlocks * blockSize := by decide +kernel
  apply NeedsBlock.not_untouched (regions_setup (by decide)) (by decide) rootInode_ok rfl hmax
  refine ⟨by decide, 1, by decide, by decide, ?_⟩
  rw [Ne, dataPart_direct (by decide), Part.absent_slot_eq_nil_iff]
  exact fun h => h (rootInode_addrs 1)

end Root

end MipsOs.Fs
