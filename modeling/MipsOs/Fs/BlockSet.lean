import MipsOs.Fs.FileBlocks
import MipsOs.Fs.Rmdir

/-!
# The block bitmap as a set

The bits of the blocks of the block bitmap are one set of block numbers.
`alloc_data_block` inserts its least element that is missing in the range of the data
blocks, and `free_data_block` deletes a number.

The scan of `alloc_data_block` goes from one block of the bitmap to the next, and
`free_data_block` divides.  `allocFrom_flat` follows the scan to the block where it
stops, which is the one that the division finds.
-/

namespace MipsOs.Fs

open MipsOs.Lib MipsOs.Lib.BlockProg

/-! ## The set -/

section Set

variable (sb : SuperBlock)

/-- The blocks whose bit is set. -/
def usedBlocks (s : BlockStore) : Set Nat := {b | BlockUsed sb s b}

/-- The data blocks that are not in the set. -/
def missing (used : Set Nat) : Set Nat := {b | sb.dataStart ≤ b ∧ b < sb.size ∧ b ∉ used}

/-- What a program may ask of the bitmap. -/
inductive BlockOp where
  | alloc
  | free (b : Nat)
  deriving DecidableEq, Repr

open Classical in
/-- The set after the operations, and what the allocations answer.  Without a free
block the answer is `undef` and the set stays. -/
noncomputable def setOps (undef : Nat) : List BlockOp → Set Nat → List Nat × Set Nat
  | [], used => ([], used)
  | .alloc :: ops, used =>
    if (missing sb used).Nonempty then
      let b := sInf (missing sb used)
      ((setOps undef ops (insert b used)).map (b :: ·) id)
    else (setOps undef ops used).map (undef :: ·) id
  | .free b :: ops, used => setOps undef ops (used \ {b})

/-- The same operations on the bitmap. -/
def blockOps (undef : Nat) : List BlockOp → Prog (List Nat)
  | [] => return []
  | .alloc :: ops => do
    let b ← allocDataBlock sb undef
    let bs ← blockOps undef ops
    return b :: bs
  | .free b :: ops => do
    freeDataBlock sb b
    blockOps undef ops

/-- From `s` the allocation takes the least free block `b` and leaves `t`. -/
structure TakesLeast (undef : Nat) (s : BlockStore) (b : Nat) (t : BlockStore) : Prop where
  least : IsLeast (missing sb (usedBlocks sb s)) b
  answer : ∀ unread, (allocDataBlock sb undef).flat unread s = (b, unread, t)
  loads : ∀ unread, (allocDataBlock sb undef).gets unread s =
    List.range' sb.blockBitmapStart (b / bitsPerBlock + 1)
  stores : ∀ unread, (allocDataBlock sb undef).stores unread s = [bitmapBlock sb b]
  used : usedBlocks sb t = insert b (usedBlocks sb s)
  rest : ∀ c, c ≠ bitmapBlock sb b → t c = s c
  restored : ∀ unread, (freeDataBlock sb b).flat unread t = ((), unread, s)

end Set

variable {sb : SuperBlock} {s : BlockStore} (undef : Nat)

theorem usedBlocks_takeBlock (b : Nat) :
    usedBlocks sb (takeBlock sb s b) = insert b (usedBlocks sb s) := by
  ext c
  show BlockUsed sb (takeBlock sb s b) c ↔ c = b ∨ BlockUsed sb s c
  rw [blockUsed_takeBlock, or_comm]

theorem usedBlocks_releaseBlock (b : Nat) :
    usedBlocks sb (releaseBlock sb s b) = usedBlocks sb s \ {b} := by
  ext c
  exact blockUsed_releaseBlock

/-- A free block that is taken and released leaves no trace. -/
theorem releaseBlock_takeBlock {b : Nat} (hfree : b ∉ usedBlocks sb s) :
    releaseBlock sb (takeBlock sb s b) b = s := by
  have hbit : bitmapCheck (s (bitmapBlock sb b)) (b % bitsPerBlock) = false :=
    Bool.eq_false_iff.mpr hfree
  unfold releaseBlock takeBlock
  rw [Function.update_self, Function.update_idem,
    bitmapClear_bitmapSet (Nat.mod_lt _ (by decide)) hbit, Function.update_eq_self]

/-! ## The scan -/

section Scan

variable {i page : Nat} (unread : List (Option Block))

theorem nextBitmap_flat (hpage : page = bitmapBlock sb i ∨ page + 1 = bitmapBlock sb i) :
    (nextBitmap sb i page page).flat unread s =
        ((bitmapBlock sb i, bitmapBlock sb i), unread, s) ∧
      (nextBitmap sb i page page).gets unread s =
        List.range' (page + 1) (bitmapBlock sb i - page) ∧
      (nextBitmap sb i page page).stores unread s = [] := by
  unfold nextBitmap
  rcases hpage with hpage | hpage
  · have heq : i / bitsPerBlock + sb.blockBitmapStart = page := hpage.symm
    rw [if_neg (not_not.mpr heq), ← hpage, Nat.sub_self]
    exact ⟨rfl, rfl, rfl⟩
  · have hne : i / bitsPerBlock + sb.blockBitmapStart ≠ page := by
      unfold bitmapBlock at hpage
      omega
    rw [if_pos hne, ← hpage, Nat.add_sub_cancel_left]
    exact ⟨rfl, rfl, rfl⟩

theorem bitmapBlock_mono {b : Nat} (h : i ≤ b) : bitmapBlock sb i ≤ bitmapBlock sb b :=
  Nat.add_le_add_right (Nat.div_le_div_right h) _

theorem page_le {b : Nat} (hpage : page = bitmapBlock sb i ∨ page + 1 = bitmapBlock sb i)
    (h : i ≤ b) : page ≤ bitmapBlock sb b := by
  have hmono : bitmapBlock sb i ≤ bitmapBlock sb b := bitmapBlock_mono h
  omega

/-- The scan stops at the first free block, in the block of the bitmap that has
its bit, and it has been through all the blocks of the bitmap before. -/
theorem allocFrom_flat {n b : Nat}
    (hpage : page = bitmapBlock sb i ∨ page + 1 = bitmapBlock sb i) (hi : i ≤ b)
    (hb : b < i + n) (hfree : b ∉ usedBlocks sb s)
    (hbelow : ∀ c, i ≤ c → c < b → c ∈ usedBlocks sb s) :
    (allocFrom sb n i page page).flat unread s =
        ((bitmapBlock sb b, some b), unread, takeBlock sb s b) ∧
      (allocFrom sb n i page page).gets unread s =
        List.range' (page + 1) (bitmapBlock sb b - page) ∧
      (allocFrom sb n i page page).stores unread s = [bitmapBlock sb b] := by
  induction n generalizing i page with
  | zero => omega
  | succ n ih =>
    obtain ⟨hflat, hgets, hstores⟩ := nextBitmap_flat (s := s) unread hpage
    unfold allocFrom
    rw [flat_bind, gets_bind, stores_bind, hflat, hgets, hstores]
    dsimp only
    rw [flat_bind, gets_bind, stores_bind, flat_read]
    dsimp only
    rcases Nat.eq_or_lt_of_le hi with rfl | hlt
    · have hbit : ¬ bitmapCheck (s (bitmapBlock sb i)) (i % bitsPerBlock) = true := hfree
      rw [if_neg hbit]
      refine ⟨rfl, ?_, rfl⟩
      simp only [gets_read, gets_bind, gets_write, gets_pure, List.append_nil]
    · have hused : bitmapCheck (s (bitmapBlock sb i)) (i % bitsPerBlock) = true :=
        hbelow i le_rfl hlt
      have hnext := ih (bitmapBlock_succ sb i) hlt (by omega) fun c hc => hbelow c (by omega)
      rw [if_pos hused]
      refine ⟨hnext.1, ?_, hnext.2.2⟩
      have hle := page_le hpage le_rfl
      have hlast : bitmapBlock sb i ≤ bitmapBlock sb b := bitmapBlock_mono hi
      rw [hnext.2.1, gets_read, List.nil_append,
        show bitmapBlock sb i + 1 = page + 1 + 1 * (bitmapBlock sb i - page) by omega,
        List.range'_append]
      congr 1
      omega

end Scan

/-! ## One allocation -/

/-- `alloc_data_block` takes the least free block, and `free_data_block` gives it
back. -/
theorem takesLeast (hr : Regions sb) {b : Nat}
    (hleast : IsLeast (missing sb (usedBlocks sb s)) b) :
    TakesLeast sb undef s b (takeBlock sb s b) := by
  obtain ⟨hle, hlt, hfree⟩ := hleast.1
  have hbelow : ∀ c, sb.dataStart ≤ c → c < b → c ∈ usedBlocks sb s := by
    intro c hc hcb
    by_contra hunused
    have hleb := hleast.2 (show c ∈ missing sb (usedBlocks sb s) from ⟨hc, by omega, hunused⟩)
    omega
  have hstart := bitmapBlock_dataStart hr
  have hscan := fun unread => allocFrom_flat (n := sb.size - sb.dataStart) unread
    (Or.inl hstart) hle (by omega) hfree hbelow
  constructor
  · exact hleast
  · intro unread
    unfold allocDataBlock
    rw [flat_bind, flat_blockGet_read]
    dsimp only
    rw [flat_bind, (hscan unread).1]
    rfl
  · intro unread
    unfold allocDataBlock
    rw [gets_bind, gets_blockGet_read, flat_blockGet_read]
    dsimp only
    rw [gets_bind, (hscan unread).2.1, (hscan unread).1]
    dsimp only
    rw [gets_bind, gets_blockCommit, gets_pure, List.append_nil, List.append_nil,
      List.singleton_append, ← List.range'_succ]
    show List.range' sb.blockBitmapStart
      (b / bitsPerBlock + sb.blockBitmapStart - sb.blockBitmapStart + 1) = _
    rw [Nat.add_sub_cancel]
  · intro unread
    unfold allocDataBlock
    rw [stores_bind, flat_blockGet_read]
    dsimp only
    rw [stores_bind, (hscan unread).2.2, (hscan unread).1]
    rfl
  · exact usedBlocks_takeBlock b
  · intro c hc
    exact Function.update_of_ne hc _ _
  · intro unread
    exact congrArg (fun t => ((), unread, t)) (releaseBlock_takeBlock hfree)

/-- Without a free block the bitmap stays as it is. -/
theorem allocDataBlock_flat_missing (hr : Regions sb)
    (hnone : ¬ (missing sb (usedBlocks sb s)).Nonempty) (unread : List (Option Block)) :
    (allocDataBlock sb undef).flat unread s = (undef, unread, s) := by
  apply allocDataBlock_flat_full hr
  intro b hb hlt
  by_contra hfree
  exact hnone ⟨b, hb, hlt, hfree⟩

/-! ## Any number of operations -/

theorem blockOps_reads (ops : List BlockOp) : (blockOps sb undef ops).Reads := by
  induction ops with
  | nil => exact True.intro
  | cons op ops ih =>
    cases op with
    | alloc =>
      unfold blockOps
      exact Reads.bind (allocDataBlock_reads undef) fun b => ih.bind fun bs => True.intro
    | free b =>
      unfold blockOps
      exact Reads.bind ⟨rfl, fun page bitmap => True.intro⟩ fun _ => ih

/-- The blocks in front of the block bitmap and behind it. -/
def Outside (sb : SuperBlock) (c : Nat) : Prop := c < sb.blockBitmapStart ∨ sb.inodeStart ≤ c

theorem bitmapBlock_ne (hr : Regions sb) {b c : Nat} (hb : b < sb.size) (hc : Outside sb c) :
    c ≠ bitmapBlock sb b := by
  have hlt := hr.bitmap_lt b hb
  have hle := bitmapStart_le sb b
  unfold Outside at hc
  omega

/-- The operations write to the block bitmap only. -/
theorem blockOps_outside (hr : Regions sb) {ops : List BlockOp}
    (hops : ∀ b, .free b ∈ ops → b < sb.size) (s : BlockStore) (unread : List (Option Block))
    {c : Nat} (hc : Outside sb c) : ((blockOps sb undef ops).flat unread s).2.2 c = s c := by
  induction ops generalizing s unread with
  | nil => rfl
  | cons op ops ih =>
    have hrest := ih fun b hb => hops b (List.mem_cons_of_mem _ hb)
    cases op with
    | alloc =>
      unfold blockOps
      simp only [flat_bind, flat_pure]
      rw [hrest]
      by_cases hfree : (missing sb (usedBlocks sb s)).Nonempty
      · have htake := takesLeast undef hr (isLeast_csInf hfree)
        rw [htake.answer]
        exact htake.rest c (bitmapBlock_ne hr htake.least.1.2.1 hc)
      · rw [allocDataBlock_flat_missing undef hr hfree]
    | free b =>
      unfold blockOps
      rw [flat_bind, hrest]
      exact Function.update_of_ne (bitmapBlock_ne hr (hops b List.mem_cons_self) hc) _ _

/-- The bitmap follows the set. -/
theorem blockOps_setOps (hr : Regions sb) (ops : List BlockOp) (s : BlockStore)
    (unread : List (Option Block)) :
    ((blockOps sb undef ops).flat unread s).1 = (setOps sb undef ops (usedBlocks sb s)).1 ∧
      usedBlocks sb ((blockOps sb undef ops).flat unread s).2.2 =
        (setOps sb undef ops (usedBlocks sb s)).2 := by
  induction ops generalizing s unread with
  | nil => exact ⟨rfl, rfl⟩
  | cons op ops ih =>
    cases op with
    | alloc =>
      unfold blockOps setOps
      simp only [flat_bind, flat_pure]
      by_cases hfree : (missing sb (usedBlocks sb s)).Nonempty
      · have htake := takesLeast undef hr (isLeast_csInf hfree)
        rw [if_pos hfree, htake.answer]
        dsimp only
        obtain ⟨hanswers, hset⟩ := ih (takeBlock sb s (sInf (missing sb (usedBlocks sb s))))
          unread
        rw [htake.used] at hanswers hset
        exact ⟨congrArg _ hanswers, hset⟩
      · rw [if_neg hfree, allocDataBlock_flat_missing undef hr hfree]
        obtain ⟨hanswers, hset⟩ := ih s unread
        exact ⟨congrArg _ hanswers, hset⟩
    | free b =>
      unfold blockOps setOps
      rw [flat_bind, show (freeDataBlock sb b).flat unread s =
        ((), unread, releaseBlock sb s b) from rfl, ← usedBlocks_releaseBlock]
      exact ih (releaseBlock sb s b) unread

/-- Under the super block of every partition, an allocation takes the least free block
and nothing else, freeing it restores the store, and a sequence of allocations and
frees acts on the bitmap as on a set. -/
theorem block_bitmap_is_set {sectorNum : Nat} (h : sectorNum < 2 ^ 32) (undef : Nat)
    (s : BlockStore) :
    ((missing (setupSuperBlock sectorNum) (usedBlocks (setupSuperBlock sectorNum) s)).Nonempty →
      ∃ b t, TakesLeast (setupSuperBlock sectorNum) undef s b t) ∧
    ∀ ops : List BlockOp, (∀ b, .free b ∈ ops → b < (setupSuperBlock sectorNum).size) →
      ∀ unread, ∃ bs t, (blockOps (setupSuperBlock sectorNum) undef ops).flat unread s =
          (bs, unread, t) ∧
        setOps (setupSuperBlock sectorNum) undef ops (usedBlocks (setupSuperBlock sectorNum) s) =
          (bs, usedBlocks (setupSuperBlock sectorNum) t) ∧
        ∀ c, Outside (setupSuperBlock sectorNum) c → t c = s c := by
  have hr := regions_setup h
  constructor
  · intro hfree
    exact ⟨_, _, takesLeast undef hr (isLeast_csInf hfree)⟩
  · intro ops hops unread
    obtain ⟨hanswers, hset⟩ := blockOps_setOps undef hr ops s unread
    refine ⟨_, _, ?_, Prod.ext hanswers.symm hset.symm, fun c =>
      blockOps_outside undef hr hops s unread⟩
    have hunread := (@blockOps_reads (setupSuperBlock sectorNum) undef ops).flat_unread unread s
    exact Prod.ext rfl (Prod.ext hunread rfl)

/-- On a cleared bitmap of four blocks. -/
theorem block_bitmap_is_set_zero :
    (∃ b t, TakesLeast (setupSuperBlock 1048576) 0 (fun _ => zeroBlock) b t) ∧
      ∃ bs t, (blockOps (setupSuperBlock 1048576) 0 [.alloc, .free 40000]).flat []
          (fun _ => zeroBlock) = (bs, [], t) ∧
        setOps (setupSuperBlock 1048576) 0 [.alloc, .free 40000]
            (usedBlocks (setupSuperBlock 1048576) fun _ => zeroBlock) =
          (bs, usedBlocks (setupSuperBlock 1048576) t) ∧
        ∀ c, Outside (setupSuperBlock 1048576) c → t c = zeroBlock := by
  have hset := block_bitmap_is_set (show 1048576 < 2 ^ 32 by decide) 0 fun _ => zeroBlock
  refine ⟨hset.1 ⟨519, by decide, by decide, ?_⟩, hset.2 _ ?_ []⟩
  · intro hused
    have hbit : bitmapCheck zeroBlock (519 % bitsPerBlock) = true := hused
    rw [bitmapCheck_zeroBlock] at hbit
    cases hbit
  · intro b hb
    simp only [List.mem_cons, BlockOp.free.injEq, reduceCtorEq, List.not_mem_nil, false_or,
      or_false] at hb
    rw [hb]
    decide

end MipsOs.Fs
