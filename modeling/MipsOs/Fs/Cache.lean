import MipsOs.Fs.Disk
import MipsOs.Mm.PageCtrl

/-!
# The block cache

`disk_buff_init`, `block_get`, `block_commit` and `block_sink` of
`fs/fs.c`: 32 buffers, each a page of the kernel pool, with round-robin
replacement and write back.

A pointer is the address of a page, and `0` is the null pointer.  The
pages of the kernel pool are the memory `mem`.  `blockGet` answers `none`
when the search for a buffer that is not in use goes round for ever.

The second half of the file is the structural invariant `Cache.Wf`: the
buffers hold pairwise different pages and pairwise different blocks, and
the kernel pool accounts for these pages and for the pages of other owners.
It holds at the start and is kept by the four operations.
-/

namespace MipsOs.Fs

open MipsOs.Mm

/-- `DISK_BUFF_SIZE` -/
abbrev diskBuffSize : Nat := 32

/-- `KERNEL_PAGE_START` -/
def kernelPageStart : Nat := 0xffffffffa2000000

/-- One entry of the arrays `disk_buff`, `disk_buff_using`,
`disk_buff_dirty` and `disk_buff_block_id`. -/
structure Buff where
  page : Nat
  inUse : Bool
  dirty : Bool
  blockId : Nat
  deriving DecidableEq, Repr

/-- The globals of the block layer, the card and the kernel pages. -/
structure Cache where
  buff : Fin diskBuffSize → Buff
  idNextNewBuff : Fin diskBuffSize
  cntDirtyBuff : Int
  currentPartition : Fin 4
  table : PartitionTable
  card : Card
  mem : Nat → Block
  pageCtrlKernel : PageCtrl

/-- `disk_buff_init` -/
def diskBuffInit (c : Cache) : Cache :=
  { c with
    idNextNewBuff := 0
    buff := fun _ => { page := 0, inUse := false, dirty := false, blockId := 0 }
    cntDirtyBuff := 0 }

namespace Cache

/-- Replace one buffer. -/
def setBuff (c : Cache) (i : Fin diskBuffSize) (b : Buff) : Cache :=
  { c with buff := Function.update c.buff i b }

/-- The first loop of `block_get`: the first buffer that holds the block. -/
def findBuff (c : Cache) (blockId : Nat) : Option (Fin diskBuffSize) :=
  (List.finRange diskBuffSize).find? fun i =>
    (c.buff i).blockId = blockId ∧ (c.buff i).page ≠ 0

/-- The `while` loop of `block_get`: the first buffer at or after `i`, going
round, that is not in use. -/
def victimFrom (c : Cache) : Nat → Fin diskBuffSize → Option (Fin diskBuffSize)
  | 0, _ => none
  | fuel + 1, i => if (c.buff i).inUse then c.victimFrom fuel (i + 1) else some i

/-- Write the buffer back when it is dirty, and give its page back. -/
def evict (c : Cache) (i : Fin diskBuffSize) : Cache :=
  let b := c.buff i
  if b.page ≠ 0 then
    let c :=
      if b.dirty then
        { c with
          card := blockWrite c.table c.card c.currentPartition b.blockId (c.mem b.page)
          cntDirtyBuff := c.cntDirtyBuff - 1 }
      else
        c
    { c with pageCtrlKernel := freePage c.pageCtrlKernel b.page }.setBuff i
      { b with page := 0, dirty := false, blockId := 0 }
  else
    c

/-- Put a new page for `blockId` into buffer `i`.  The flag `inUse` keeps its
value: this path of `block_get` does not write `disk_buff_using`. -/
def load (c : Cache) (i : Fin diskBuffSize) (blockId : Nat) (doRead : Bool) : Cache :=
  let (page, ctrl) := allocPage c.pageCtrlKernel
  let c := { c with pageCtrlKernel := ctrl }
  let b := { c.buff i with page := page, blockId := blockId }
  let c :=
    if doRead then
      { c with
        mem := Function.update c.mem page
          (blockRead c.table c.card c.currentPartition blockId) }.setBuff i
        { b with dirty := false }
    else
      { c with cntDirtyBuff := c.cntDirtyBuff + 1 }.setBuff i { b with dirty := true }
  { c with idNextNewBuff := c.idNextNewBuff + 1 }

end Cache

/-- `block_get`: the page of the block.  `none` when all buffers are in use. -/
def blockGet (c : Cache) (blockId : Nat) (doRead : Bool) : Option (Nat × Cache) :=
  match c.findBuff blockId with
  | some i => some ((c.buff i).page, c.setBuff i { c.buff i with inUse := true })
  | none => do
    let i ← c.victimFrom diskBuffSize c.idNextNewBuff
    let c := (c.evict i).load i blockId doRead
    return ((c.buff i).page, c)

/-- `block_commit` -/
def blockCommit (c : Cache) (block : Nat) (doWrite : Bool) : Cache :=
  match (List.finRange diskBuffSize).find? fun i => (c.buff i).page = block with
  | none => c
  | some i =>
    c.setBuff i { c.buff i with dirty := doWrite || (c.buff i).dirty, inUse := false }

/-- One round of the loop of `block_sink`. -/
def Cache.sinkBuff (c : Cache) (i : Fin diskBuffSize) : Cache :=
  if (c.buff i).dirty then
    { c with
      card := blockWrite c.table c.card c.currentPartition (c.buff i).blockId
        (c.mem (c.buff i).page)
      cntDirtyBuff := c.cntDirtyBuff - 1 }.setBuff i { c.buff i with dirty := false }
  else
    c

/-- `block_sink` -/
def blockSink (c : Cache) : Cache :=
  (List.finRange diskBuffSize).foldl Cache.sinkBuff c

/-! ## What the pieces of `block_get` do -/

namespace Cache

variable (c : Cache) (i j : Fin diskBuffSize) (blockId : Nat) (doRead : Bool)

@[simp] theorem setBuff_buff_self (b : Buff) : (c.setBuff i b).buff i = b := by
  simp [setBuff]

@[simp] theorem setBuff_buff_of_ne {i j : Fin diskBuffSize} (h : j ≠ i) (b : Buff) :
    (c.setBuff i b).buff j = c.buff j := by
  simp [setBuff, Function.update_of_ne h]

/-- The page that the next `load` puts into its buffer. -/
def newPage : Nat := (allocPage c.pageCtrlKernel).1

@[simp] theorem evict_table : (c.evict i).table = c.table := by
  simp only [evict, setBuff]
  split_ifs <;> rfl

@[simp] theorem evict_currentPartition :
    (c.evict i).currentPartition = c.currentPartition := by
  simp only [evict, setBuff]
  split_ifs <;> rfl

@[simp] theorem evict_mem : (c.evict i).mem = c.mem := by
  simp only [evict, setBuff]
  split_ifs <;> rfl

@[simp] theorem evict_idNextNewBuff : (c.evict i).idNextNewBuff = c.idNextNewBuff := by
  simp only [evict, setBuff]
  split_ifs <;> rfl

@[simp] theorem evict_buff_of_ne {i j : Fin diskBuffSize} (h : j ≠ i) :
    (c.evict i).buff j = c.buff j := by
  simp only [evict, setBuff]
  split_ifs <;> simp [Function.update_of_ne h]

@[simp] theorem evict_page_self : ((c.evict i).buff i).page = 0 := by
  simp only [evict, setBuff]
  split_ifs with h1 h2 <;> simp_all

@[simp] theorem evict_inUse : ((c.evict i).buff j).inUse = (c.buff j).inUse := by
  rcases eq_or_ne j i with rfl | hne
  · simp only [evict, setBuff]
    split_ifs <;> simp
  · rw [evict_buff_of_ne c hne]

/-- An eviction writes the card only for a dirty page. -/
theorem evict_card :
    (c.evict i).card =
      if (c.buff i).page ≠ 0 ∧ (c.buff i).dirty = true then
        blockWrite c.table c.card c.currentPartition (c.buff i).blockId
          (c.mem (c.buff i).page)
      else
        c.card := by
  simp only [evict, setBuff]
  split_ifs <;> simp_all

theorem evict_pageCtrlKernel :
    (c.evict i).pageCtrlKernel =
      if (c.buff i).page ≠ 0 then freePage c.pageCtrlKernel (c.buff i).page
      else c.pageCtrlKernel := by
  simp only [evict, setBuff]
  split_ifs <;> rfl

theorem load_buff_self :
    (c.load i blockId doRead).buff i =
      { page := c.newPage, inUse := (c.buff i).inUse, dirty := !doRead,
        blockId := blockId } := by
  cases doRead <;> simp [load, newPage, setBuff]

@[simp] theorem load_buff_of_ne {i j : Fin diskBuffSize} (h : j ≠ i) :
    (c.load i blockId doRead).buff j = c.buff j := by
  cases doRead <;> simp [load, setBuff, Function.update_of_ne h]

@[simp] theorem load_inUse :
    ((c.load i blockId doRead).buff j).inUse = (c.buff j).inUse := by
  rcases eq_or_ne j i with rfl | hne
  · rw [load_buff_self]
  · rw [load_buff_of_ne c blockId doRead hne]

@[simp] theorem load_table : (c.load i blockId doRead).table = c.table := by
  cases doRead <;> rfl

@[simp] theorem load_currentPartition :
    (c.load i blockId doRead).currentPartition = c.currentPartition := by
  cases doRead <;> rfl

@[simp] theorem load_card : (c.load i blockId doRead).card = c.card := by
  cases doRead <;> rfl

@[simp] theorem load_idNextNewBuff :
    (c.load i blockId doRead).idNextNewBuff = c.idNextNewBuff + 1 := by
  cases doRead <;> rfl

@[simp] theorem load_pageCtrlKernel :
    (c.load i blockId doRead).pageCtrlKernel = (allocPage c.pageCtrlKernel).2 := by
  cases doRead <;> rfl

theorem load_mem :
    (c.load i blockId doRead).mem =
      if doRead then
        Function.update c.mem c.newPage
          (blockRead c.table c.card c.currentPartition blockId)
      else
        c.mem := by
  cases doRead <;> rfl

variable {c i j blockId doRead}

theorem findBuff_eq_some (h : c.findBuff blockId = some i) :
    (c.buff i).blockId = blockId ∧ (c.buff i).page ≠ 0 := by
  simpa using List.find?_some h

theorem findBuff_eq_none (h : c.findBuff blockId = none) :
    ∀ i, (c.buff i).page ≠ 0 → (c.buff i).blockId ≠ blockId := by
  intro i hpage hblock
  have := List.find?_eq_none.mp h i (List.mem_finRange i)
  simp [hpage, hblock] at this

theorem victimFrom_inUse {fuel : Nat} (h : c.victimFrom fuel i = some j) :
    (c.buff j).inUse = false := by
  induction fuel generalizing i with
  | zero => simp [victimFrom] at h
  | succ fuel ih =>
    rw [victimFrom] at h
    split at h
    · exact ih h
    · rename_i hfree
      obtain rfl : i = j := by simpa using h
      simpa using hfree

end Cache

/-- The two ways in which `block_get` can answer. -/
theorem blockGet_cases {c c' : Cache} {blockId a : Nat} {doRead : Bool}
    (h : blockGet c blockId doRead = some (a, c')) :
    (∃ i, c.findBuff blockId = some i ∧ a = (c.buff i).page ∧
        c' = c.setBuff i { c.buff i with inUse := true }) ∨
      (∃ i, c.findBuff blockId = none ∧
        c.victimFrom diskBuffSize c.idNextNewBuff = some i ∧
        a = (c.evict i).newPage ∧ c' = (c.evict i).load i blockId doRead) := by
  unfold blockGet at h
  cases hfind : c.findBuff blockId with
  | some i =>
    simp only [hfind, Option.some.injEq, Prod.mk.injEq] at h
    exact Or.inl ⟨i, rfl, h.1.symm, h.2.symm⟩
  | none =>
    simp only [hfind, Option.bind_eq_bind, Option.bind_eq_some_iff, Option.pure_def,
      Option.some.injEq, Prod.mk.injEq] at h
    obtain ⟨i, hi, ha, hc⟩ := h
    rw [Cache.load_buff_self] at ha
    exact Or.inr ⟨i, rfl, hi, ha.symm, hc.symm⟩

/-! ## The structural invariant -/

namespace Cache

/-- The pages that the buffers hold. -/
def pages (c : Cache) : Finset Nat :=
  (Finset.univ.image fun i => (c.buff i).page).erase 0

theorem mem_pages {c : Cache} {a : Nat} :
    a ∈ c.pages ↔ a ≠ 0 ∧ ∃ i, (c.buff i).page = a := by
  simp [pages]

theorem card_pages_le (c : Cache) : c.pages.card ≤ diskBuffSize := by
  refine (Finset.card_erase_le).trans (Finset.card_image_le.trans ?_)
  simp

/-- The buffers hold different pages and different blocks.  The kernel pool
has handed out exactly these pages and the pages `extra` of other owners. -/
structure Wf (c : Cache) (extra : Finset Nat) : Prop where
  start : c.pageCtrlKernel.startAddr = kernelPageStart
  size : c.pageCtrlKernel.pageSize = blockSize
  pool : ∃ n ≤ 64, Exact c.pageCtrlKernel n (extra ∪ c.pages)
  page_inj : ∀ i j, (c.buff i).page ≠ 0 → (c.buff i).page = (c.buff j).page → i = j
  block_inj : ∀ i j, (c.buff i).page ≠ 0 → (c.buff j).page ≠ 0 →
    (c.buff i).blockId = (c.buff j).blockId → i = j
  extra_disjoint : Disjoint extra c.pages
  extra_card : extra.card ≤ 8

/-- The invariant reads only the pool, the pages and the block numbers. -/
theorem Wf.congr {c c' : Cache} {extra : Finset Nat} (h : c.Wf extra)
    (hctrl : c'.pageCtrlKernel = c.pageCtrlKernel)
    (hpage : ∀ i, (c'.buff i).page = (c.buff i).page)
    (hblock : ∀ i, (c'.buff i).blockId = (c.buff i).blockId) : c'.Wf extra := by
  have hpages : c'.pages = c.pages := by simp only [pages, hpage]
  refine ⟨by rw [hctrl, h.start], by rw [hctrl, h.size], ?_, ?_, ?_, ?_, h.extra_card⟩
  · rw [hctrl, hpages]
    exact h.pool
  · intro i j
    rw [hpage, hpage]
    exact h.page_inj i j
  · intro i j
    rw [hpage, hpage, hblock, hblock]
    exact h.block_inj i j
  · rw [hpages]
    exact h.extra_disjoint

/-- A change of the flags of one buffer keeps the invariant. -/
theorem Wf.setFlags {c : Cache} {extra : Finset Nat} (h : c.Wf extra)
    (i : Fin diskBuffSize) (inUse dirty : Bool) :
    (c.setBuff i { c.buff i with inUse := inUse, dirty := dirty }).Wf extra := by
  refine h.congr rfl (fun j => ?_) (fun j => ?_) <;>
    rcases eq_or_ne j i with rfl | hne <;> simp [*]

theorem regular_kernel {n : Nat} (hn : n ≤ 100) :
    Regular kernelPageStart blockSize n := by
  refine regular_of_dvd ?_ ?_ ?_ ?_ <;> simp only [blockSize, kernelPageStart] <;> omega

theorem carvedPage_kernel_ne_zero {k : Nat} (hk : k ≤ 100) :
    carvedPage kernelPageStart blockSize k ≠ 0 := by
  simp only [carvedPage, kernelPageStart, blockSize]
  omega

/-- The pool never hands out the null page. -/
theorem Wf.ne_zero {c : Cache} {extra : Finset Nat} (h : c.Wf extra) {a : Nat}
    (ha : a ∈ extra ∪ c.pages) : a ≠ 0 := by
  obtain ⟨n, hn, hexact⟩ := h.pool
  obtain ⟨k, hk, rfl⟩ := hexact.live_carved a ha
  rw [h.start, h.size]
  exact carvedPage_kernel_ne_zero (by omega)

theorem pages_evict {c : Cache} {extra : Finset Nat} (h : c.Wf extra)
    (i : Fin diskBuffSize) : (c.evict i).pages = c.pages.erase (c.buff i).page := by
  ext a
  simp only [mem_pages, Finset.mem_erase]
  constructor
  · rintro ⟨ha, j, hj⟩
    have hne : j ≠ i := by
      rintro rfl
      rw [evict_page_self] at hj
      exact ha hj.symm
    rw [evict_buff_of_ne c hne] at hj
    refine ⟨fun hai => hne ?_, ha, j, hj⟩
    exact h.page_inj j i (hj ▸ ha) (hj.trans hai)
  · rintro ⟨hai, ha, j, hj⟩
    have hne : j ≠ i := by
      rintro rfl
      exact hai hj.symm
    exact ⟨ha, j, by rw [evict_buff_of_ne c hne, hj]⟩

/-- An eviction keeps the invariant. -/
theorem Wf.evict {c : Cache} {extra : Finset Nat} (h : c.Wf extra)
    (i : Fin diskBuffSize) : (c.evict i).Wf extra := by
  have hpages := pages_evict h i
  by_cases hpage : (c.buff i).page = 0
  · have hsame : c.evict i = c := by simp [Cache.evict, hpage]
    rw [hsame]
    exact h
  have hctrl : (c.evict i).pageCtrlKernel = freePage c.pageCtrlKernel (c.buff i).page := by
    rw [evict_pageCtrlKernel, if_pos hpage]
  have hmem : (c.buff i).page ∈ c.pages := mem_pages.mpr ⟨hpage, i, rfl⟩
  have hextra : (c.buff i).page ∉ extra :=
    fun hin => Finset.disjoint_left.mp h.extra_disjoint hin hmem
  obtain ⟨n, hn, hexact⟩ := h.pool
  refine ⟨?_, ?_, ⟨n, hn, ?_⟩, ?_, ?_, ?_, h.extra_card⟩
  · rw [hctrl, freePage_startAddr, h.start]
  · rw [hctrl, freePage_pageSize, h.size]
  · have hlive : extra ∪ c.pages.erase (c.buff i).page =
        (extra ∪ c.pages).erase (c.buff i).page := by
      rw [Finset.erase_union_distrib, Finset.erase_eq_of_notMem hextra]
    rw [hctrl, hpages, hlive]
    exact freePage_exact hexact (hn.trans (by decide)) (Finset.mem_union_right _ hmem)
  · intro j k hj hjk
    have hji : j ≠ i := by rintro rfl; exact hj (evict_page_self c j)
    rw [evict_buff_of_ne c hji] at hj hjk
    rcases eq_or_ne k i with rfl | hki
    · rw [evict_page_self] at hjk
      exact absurd hjk hj
    · rw [evict_buff_of_ne c hki] at hjk
      exact h.page_inj j k hj hjk
  · intro j k hj hk hjk
    have hji : j ≠ i := by rintro rfl; exact hj (evict_page_self c j)
    have hki : k ≠ i := by rintro rfl; exact hk (evict_page_self c k)
    rw [evict_buff_of_ne c hji] at hj hjk
    rw [evict_buff_of_ne c hki] at hk hjk
    exact h.block_inj j k hj hk hjk
  · rw [hpages]
    exact h.extra_disjoint.mono_right (Finset.erase_subset _ _)

/-- The page that a load takes is not null and has no other owner. -/
theorem Wf.newPage_fresh {c : Cache} {extra : Finset Nat} (h : c.Wf extra) :
    c.newPage ≠ 0 ∧ c.newPage ∉ extra ∪ c.pages := by
  obtain ⟨n, hn, hexact⟩ := h.pool
  have hreg : Regular c.pageCtrlKernel.startAddr c.pageCtrlKernel.pageSize (n + 1) := by
    rw [h.start, h.size]
    exact regular_kernel (by omega)
  obtain ⟨hfresh, howned⟩ := allocPage_exact hexact hreg
  refine ⟨?_, hfresh⟩
  obtain ⟨k, hk, hpage⟩ := howned.live_carved _ (Finset.mem_insert_self _ _)
  have hk' : k ≤ 100 := by
    unfold carvedAfterAlloc at hk
    split at hk <;> omega
  rw [newPage, hpage, allocPage_startAddr, allocPage_pageSize, h.start, h.size]
  exact carvedPage_kernel_ne_zero hk'

theorem pages_load {c : Cache} {i : Fin diskBuffSize} (hpage : (c.buff i).page = 0)
    (hnew : c.newPage ≠ 0) (blockId : Nat) (doRead : Bool) :
    (c.load i blockId doRead).pages = insert c.newPage c.pages := by
  ext a
  simp only [mem_pages, Finset.mem_insert]
  constructor
  · rintro ⟨ha, j, hj⟩
    rcases eq_or_ne j i with rfl | hne
    · rw [load_buff_self] at hj
      exact Or.inl hj.symm
    · rw [load_buff_of_ne c blockId doRead hne] at hj
      exact Or.inr ⟨ha, j, hj⟩
  · rintro (rfl | ⟨ha, j, hj⟩)
    · exact ⟨hnew, i, by rw [load_buff_self]⟩
    · have hne : j ≠ i := by
        rintro rfl
        exact ha (hj.symm.trans hpage)
      exact ⟨ha, j, by rw [load_buff_of_ne c blockId doRead hne, hj]⟩

/-- Loading a block that no buffer holds into an empty buffer keeps the
invariant. -/
theorem Wf.load {c : Cache} {extra : Finset Nat} (h : c.Wf extra)
    {i : Fin diskBuffSize} (hpage : (c.buff i).page = 0) {blockId : Nat}
    (hnew : ∀ j, (c.buff j).page ≠ 0 → (c.buff j).blockId ≠ blockId) (doRead : Bool) :
    (c.load i blockId doRead).Wf extra := by
  obtain ⟨hzero, hfresh⟩ := h.newPage_fresh
  have hpages := pages_load hpage hzero blockId doRead
  have hnotPages : c.newPage ∉ c.pages := fun hin => hfresh (Finset.mem_union_right _ hin)
  have hother : ∀ j, j ≠ i → (c.buff j).page ≠ c.newPage := by
    intro j _ heq
    exact hnotPages (mem_pages.mpr ⟨hzero, j, heq⟩)
  obtain ⟨n, hn, hexact⟩ := h.pool
  have hreg : Regular c.pageCtrlKernel.startAddr c.pageCtrlKernel.pageSize (n + 1) := by
    rw [h.start, h.size]
    exact regular_kernel (by omega)
  refine ⟨?_, ?_, ⟨carvedAfterAlloc c.pageCtrlKernel n, ?_, ?_⟩, ?_, ?_, ?_, h.extra_card⟩
  · rw [load_pageCtrlKernel, allocPage_startAddr, h.start]
  · rw [load_pageCtrlKernel, allocPage_pageSize, h.size]
  · have hcount := hexact.count
    have hcard : (extra ∪ c.pages).card ≤ 8 + 32 :=
      (Finset.card_union_le _ _).trans (Nat.add_le_add h.extra_card c.card_pages_le)
    unfold carvedAfterAlloc
    split
    · rename_i hnil
      rw [hnil, List.length_nil] at hcount
      omega
    · exact hn
  · rw [load_pageCtrlKernel, hpages, Finset.union_insert]
    exact (allocPage_exact hexact hreg).2
  · intro j k hj hjk
    rcases eq_or_ne j i with rfl | hji
    · rcases eq_or_ne k j with rfl | hkj
      · rfl
      · rw [load_buff_self, load_buff_of_ne c blockId doRead hkj] at hjk
        exact absurd hjk.symm (hother k hkj)
    · rw [load_buff_of_ne c blockId doRead hji] at hj hjk
      rcases eq_or_ne k i with rfl | hki
      · rw [load_buff_self] at hjk
        exact absurd hjk (hother j hji)
      · rw [load_buff_of_ne c blockId doRead hki] at hjk
        exact h.page_inj j k hj hjk
  · intro j k hj hk hjk
    rcases eq_or_ne j i with rfl | hji
    · rcases eq_or_ne k j with rfl | hkj
      · rfl
      · rw [load_buff_self, load_buff_of_ne c blockId doRead hkj] at hjk
        rw [load_buff_of_ne c blockId doRead hkj] at hk
        exact absurd hjk.symm (hnew k hk)
    · rw [load_buff_of_ne c blockId doRead hji] at hj hjk
      rcases eq_or_ne k i with rfl | hki
      · rw [load_buff_self] at hjk
        exact absurd hjk (hnew j hj)
      · rw [load_buff_of_ne c blockId doRead hki] at hk hjk
        exact h.block_inj j k hj hk hjk
  · rw [hpages, Finset.disjoint_insert_right]
    exact ⟨fun hin => hfresh (Finset.mem_union_left _ hin), h.extra_disjoint⟩

/-- Another owner takes a page of the pool. -/
theorem Wf.alloc {c : Cache} {extra : Finset Nat} (h : c.Wf extra) (hcard : extra.card < 8) :
    { c with pageCtrlKernel := (allocPage c.pageCtrlKernel).2 }.Wf
      (insert c.newPage extra) := by
  obtain ⟨_, hfresh⟩ := h.newPage_fresh
  obtain ⟨n, hn, hexact⟩ := h.pool
  have hreg : Regular c.pageCtrlKernel.startAddr c.pageCtrlKernel.pageSize (n + 1) := by
    rw [h.start, h.size]
    exact regular_kernel (by omega)
  refine ⟨?_, ?_, ⟨carvedAfterAlloc c.pageCtrlKernel n, ?_, ?_⟩, h.page_inj, h.block_inj,
    ?_, ?_⟩
  · rw [allocPage_startAddr, h.start]
  · rw [allocPage_pageSize, h.size]
  · have hcount := hexact.count
    have hle : (extra ∪ c.pages).card ≤ 8 + 32 :=
      (Finset.card_union_le _ _).trans (Nat.add_le_add h.extra_card c.card_pages_le)
    unfold carvedAfterAlloc
    split
    · rename_i hnil
      rw [hnil, List.length_nil] at hcount
      omega
    · exact hn
  · rw [show pages { c with pageCtrlKernel := (allocPage c.pageCtrlKernel).2 } = c.pages
      from rfl, Finset.insert_union]
    exact (allocPage_exact hexact hreg).2
  · exact Finset.disjoint_insert_left.mpr
      ⟨fun hin => hfresh (Finset.mem_union_right _ hin), h.extra_disjoint⟩
  · exact (Finset.card_insert_le _ _).trans (by omega)

/-- Another owner gives its page back. -/
theorem Wf.free {c : Cache} {extra : Finset Nat} (h : c.Wf extra) {a : Nat}
    (ha : a ∈ extra) :
    { c with pageCtrlKernel := freePage c.pageCtrlKernel a }.Wf (extra.erase a) := by
  obtain ⟨n, hn, hexact⟩ := h.pool
  have hpages : a ∉ c.pages := Finset.disjoint_left.mp h.extra_disjoint ha
  refine ⟨?_, ?_, ⟨n, hn, ?_⟩, h.page_inj, h.block_inj, ?_, ?_⟩
  · rw [freePage_startAddr, h.start]
  · rw [freePage_pageSize, h.size]
  · rw [show pages { c with pageCtrlKernel := freePage c.pageCtrlKernel a } = c.pages
      from rfl, show extra.erase a ∪ c.pages = (extra ∪ c.pages).erase a by
        rw [Finset.erase_union_distrib, Finset.erase_eq_of_notMem hpages]]
    exact freePage_exact hexact (hn.trans (by decide)) (Finset.mem_union_left _ ha)
  · exact h.extra_disjoint.mono_left (Finset.erase_subset _ _)
  · exact (Finset.card_erase_le).trans h.extra_card

/-- A block that no buffer holds is still held by none after an eviction. -/
theorem blockId_ne_evict {c : Cache} {i : Fin diskBuffSize} {blockId : Nat}
    (hnone : c.findBuff blockId = none) :
    ∀ j, ((c.evict i).buff j).page ≠ 0 → ((c.evict i).buff j).blockId ≠ blockId := by
  intro j hj
  have hne : j ≠ i := by rintro rfl; exact hj (evict_page_self c j)
  rw [evict_buff_of_ne c hne] at hj ⊢
  exact findBuff_eq_none hnone j hj

end Cache

/-- `block_get` keeps the structural invariant. -/
theorem blockGet_wf {c c' : Cache} {extra : Finset Nat} {blockId a : Nat} {doRead : Bool}
    (h : c.Wf extra) (hget : blockGet c blockId doRead = some (a, c')) : c'.Wf extra := by
  rcases blockGet_cases hget with ⟨i, _, _, rfl⟩ | ⟨i, hnone, _, _, rfl⟩
  · exact h.setFlags i true (c.buff i).dirty
  · exact (h.evict i).load (Cache.evict_page_self c i) (Cache.blockId_ne_evict hnone) doRead

/-- `block_commit` keeps the structural invariant. -/
theorem blockCommit_wf {c : Cache} {extra : Finset Nat} (h : c.Wf extra) (block : Nat)
    (doWrite : Bool) : (blockCommit c block doWrite).Wf extra := by
  unfold blockCommit
  split
  · exact h
  · exact h.setFlags _ false _

theorem Cache.sinkBuff_wf {c : Cache} {extra : Finset Nat} (h : c.Wf extra)
    (i : Fin diskBuffSize) : (c.sinkBuff i).Wf extra := by
  unfold Cache.sinkBuff
  split
  · refine (h.setFlags i (c.buff i).inUse false).congr rfl (fun j => ?_) (fun j => ?_) <;>
      rfl
  · exact h

/-- `block_sink` keeps the structural invariant. -/
theorem blockSink_wf {c : Cache} {extra : Finset Nat} (h : c.Wf extra) :
    (blockSink c).Wf extra := by
  unfold blockSink
  generalize List.finRange diskBuffSize = is
  induction is generalizing c with
  | nil => exact h
  | cons i rest ih => exact ih (Cache.sinkBuff_wf h i)

end MipsOs.Fs
