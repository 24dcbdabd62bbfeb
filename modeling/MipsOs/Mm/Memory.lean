import MipsOs.Mm.PageCtrl

/-!
# Page tables

The page directories, the page tables and the frames of the processes:
`init_page_table`, `init_pgd`, `do_TLB_Refill`, `TLB_Invalid_handler` and
`do_page_fault` of `mm/memory.c`, and the part of `free_proc` that gives the
memory of a process back.

A page directory and a page table are both a page of `NUM_ENTRY` 64-bit
words.  `tables a i` is word `i` of the table page at address `a`.  The
writes to the TLB are not part of this model.
-/

namespace MipsOs.Mm

/-- `NUM_ENTRY` -/
def numEntry : Nat := 0x400

/-- `PGD_START` -/
def pgdStart : Nat := 0xffffffffa1000000

/-- `PT_START` -/
def ptStart : Nat := 0xffffffffa1100000

/-- The first frame of `page_ctrl_user`, a physical address. -/
def userStart : Nat := 0x20000000

/-- The size of a `PGD_t` and of a `PT_t`. -/
def tableSize : Nat := 0x2000

/-- `PAGE_SIZE` -/
def pageSize : Nat := 0x1000

/-- The macro `ENTRYLO`. -/
def entryLo (pfn c d v g : Nat) : Nat :=
  ((pfn &&& 0xFFFFFF) <<< 6) ||| ((c &&& 0x7) <<< 3) ||| ((d &&& 0x1) <<< 2) |||
    ((v &&& 0x1) <<< 1) ||| (g &&& 0x1)

/-- The three pools, the content of the table pages, `current_pgd` and
`global_empty_pt`. -/
structure Memory where
  pageCtrlUser : PageCtrl
  pageCtrlPgd : PageCtrl
  pageCtrlPt : PageCtrl
  tables : Nat → Nat → Nat
  currentPgd : Nat
  globalEmptyPt : Nat

namespace Memory

/-- Write one word of a table page. -/
def setEntry (m : Memory) (table i value : Nat) : Memory :=
  { m with
    tables := Function.update m.tables table (Function.update (m.tables table) i value) }

/-- `init_memory` and `init_page_table`, over pages with content `tables`. -/
def init (tables : Nat → Nat → Nat) : Memory :=
  let (globalEmptyPt, pt) := allocPage (pageCtrlInit ptStart tableSize)
  { pageCtrlUser := pageCtrlInit userStart pageSize
    pageCtrlPgd := pageCtrlInit pgdStart tableSize
    pageCtrlPt := pt
    tables := Function.update tables globalEmptyPt fun _ => 0
    currentPgd := 0
    globalEmptyPt := globalEmptyPt }

/-- `init_pgd` -/
def initPgd (m : Memory) (pgd : Nat) : Memory :=
  { m with tables := Function.update m.tables pgd fun _ => m.globalEmptyPt }

/-- `do_page_fault`, for the entry `j` of the table `pt`. -/
def doPageFault (m : Memory) (pt j : Nat) : Memory :=
  let (phyAddr, user) := allocPage m.pageCtrlUser
  let pfn := phyAddr >>> 12
  { m with pageCtrlUser := user }.setEntry pt j (entryLo pfn 2 1 1 0)

/-- The entry is filled when its valid bit is clear. -/
def fillEntry (m : Memory) (pt j : Nat) : Memory :=
  if m.tables pt j &&& 0x2 = 0 then m.doPageFault pt j else m

/-- The page table that covers an address, made when it does not exist. -/
def tableFor (m : Memory) (pgdOffset : Nat) : Nat × Memory :=
  let pt := m.tables m.currentPgd pgdOffset
  if pt = m.globalEmptyPt then
    let (pt, ctrl) := allocPage m.pageCtrlPt
    let m := { m with pageCtrlPt := ctrl }.setEntry m.currentPgd pgdOffset pt
    (pt, { m with tables := Function.update m.tables pt fun _ => 0 })
  else
    (pt, m)

/-- What `do_TLB_Refill` and `TLB_Invalid_handler` do to the page tables. -/
def doTlbRefill (m : Memory) (addr : Nat) : Memory :=
  let pgdOffset := (addr >>> 22) &&& 0x3ff
  let ptOffset := (addr >>> 12) &&& 0x3fe
  let (pt, m) := m.tableFor pgdOffset
  (m.fillEntry pt ptOffset).fillEntry pt (ptOffset + 1)

/-- The inner loop of `free_proc`: the frames of one page table. -/
def freeFrames (m : Memory) (pt : Nat) : Memory :=
  (List.range numEntry).foldl
    (fun m j =>
      if m.tables pt j &&& 0x2 ≠ 0 then
        let addr := ((m.tables pt j >>> 6) &&& 0xFFFFFF) <<< 12
        { m with pageCtrlUser := freePage m.pageCtrlUser addr }
      else
        m)
    m

/-- The outer loop of `free_proc`, for one entry of the page directory. -/
def freeTable (m : Memory) (pgd i : Nat) : Memory :=
  if m.tables pgd i ≠ m.globalEmptyPt then
    let pt := m.tables pgd i
    let m := m.freeFrames pt
    { m with pageCtrlPt := freePage m.pageCtrlPt pt }
  else
    m

/-- The part of `free_proc` that gives back the frames, the page tables and
the page directory of a process. -/
def freePgd (m : Memory) (pgd : Nat) : Memory :=
  let m := (List.range numEntry).foldl (fun m i => m.freeTable pgd i) m
  { m with pageCtrlPgd := freePage m.pageCtrlPgd pgd }

end Memory

end MipsOs.Mm
