import MipsOs.Sched.TlbSystem

/-!
# The refill handler in assembly

`TLBexception_handler_entry` of `arch/mips/kernel/entry.S`, instruction by
instruction on 64-bit registers, next to the walk through the page tables with
which `do_TLB_Refill` and `TLB_Invalid_handler` of `mm/memory.c` begin.

The handlers in C shift the address to an index and let the compiler scale it.
The handler in assembly shifts three places less and masks, so that the index
arrives scaled: by 8 from `BadVAddr` for the directory, and by 16 from `Context`
for the page table, where one step is a pair of entries.  `dirOffset_eq` and
`tableOffset_eq` say that the offsets are the same.

Memory is a doubleword for every address, and the pages of the tables are
aligned, so the doublewords that are read and written do not overlap.
-/

namespace MipsOs.Sched

open MipsOs.Lib MipsOs.Mm

/-- A doubleword. -/
abbrev Word64 := BitVec 64

/-- The memory that the handlers read: the doublewords of the table pages, the
globals `current_pgd`, `global_empty_pt` and `current_running`, and the pool of
page tables. -/
structure TableMemory where
  ram : Word64 → Word64
  currentPgd : Word64
  globalEmptyPt : Word64
  currentRunning : Word64
  pageCtrlPt : PageCtrl

/-! ## The walk in C -/

namespace TableMemory

/-- `table->entry[i]` -/
def entry (m : TableMemory) (table i : Word64) : Word64 := m.ram (table + 8 * i)

/-- `table->entry[i] = value` -/
def setEntry (m : TableMemory) (table i value : Word64) : TableMemory :=
  { m with ram := Function.update m.ram (table + 8 * i) value }

/-- `memset(pt, 0, sizeof(PT_t))` -/
def clearTable (m : TableMemory) (pt : Word64) : TableMemory :=
  { m with ram := fun a => if (a - pt).toNat < tableSize then 0 else m.ram a }

/-- The page table that covers an address, made when it does not exist. -/
def tableFor (m : TableMemory) (pgdOffset : Word64) : Word64 × TableMemory :=
  let pt := m.entry m.currentPgd pgdOffset
  if pt = m.globalEmptyPt then
    let (page, ctrl) := allocPage m.pageCtrlPt
    let pt := BitVec.ofNat 64 page
    (pt, (({ m with pageCtrlPt := ctrl }).setEntry m.currentPgd pgdOffset pt).clearTable pt)
  else
    (pt, m)

end TableMemory

/-- `(addr >> 22) & 0x3ff` -/
def pgdOffset (addr : Word64) : Word64 := (addr >>> 22) &&& 0x3ff

/-- `(addr >> 12) & 0x3fe` -/
def ptOffset (addr : Word64) : Word64 := (addr >>> 12) &&& 0x3fe

/-- `*pte0` and `*pte1` when the page table of an address has been found. -/
def TableMemory.pair (m : TableMemory) (addr : Word64) : Word64 × Word64 :=
  let (pt, m) := m.tableFor (pgdOffset addr)
  (m.entry pt (ptOffset addr), m.entry pt (ptOffset addr + 1))

/-! ## The handler in assembly -/

/-- The registers that the handler uses. -/
inductive Reg where
  | k0 | k1
  deriving DecidableEq

/-- The registers of coprocessor 0. -/
inductive Cp0 where
  | badVAddr | context | entryHi | entryLo0 | entryLo1
  deriving DecidableEq

/-- The variables that the handler loads. -/
inductive Global where
  | currentPgd | currentRunning

/-- The instructions of the handler. -/
inductive Instr where
  | dmfc0 (rt : Reg) (rd : Cp0)
  | dmtc0 (rt : Reg) (rd : Cp0)
  | ldGlobal (rt : Reg) (name : Global)
  | ld (rt : Reg) (offset : Word64) (base : Reg)
  | dsrl (rd rt : Reg) (sa : Nat)
  | andi (rd rs : Reg) (imm : Word64)
  | daddu (rd rs rt : Reg)
  | tlbwr
  | eret

/-- The machine in the handler.  `random` is the entry that `tlbwr` chooses. -/
structure Cpu (n : Nat) where
  mem : TableMemory
  reg : Reg → Word64
  cp0 : Cp0 → Word64
  tlb : Tlb n
  random : Fin n

namespace Cpu

variable {n : Nat}

/-- Write a register. -/
def setReg (c : Cpu n) (r : Reg) (v : Word64) : Cpu n :=
  { c with reg := Function.update c.reg r v }

/-- The value of a variable. -/
def global (c : Cpu n) : Global → Word64
  | .currentPgd => c.mem.currentPgd
  | .currentRunning => c.mem.currentRunning

/-- The entry that `tlbwr` writes. -/
def tlbEntry (c : Cpu n) : TlbEntry where
  vpn2 := vpn2Field (c.cp0 .entryHi).toNat
  asid := asidField (c.cp0 .entryHi).toNat
  lo0 := (c.cp0 .entryLo0).toNat
  lo1 := (c.cp0 .entryLo1).toNat

/-- One instruction.  The return to the program is not followed. -/
def exec (c : Cpu n) : Instr → Cpu n
  | .dmfc0 rt rd => c.setReg rt (c.cp0 rd)
  | .dmtc0 rt rd => { c with cp0 := Function.update c.cp0 rd (c.reg rt) }
  | .ldGlobal rt name => c.setReg rt (c.global name)
  | .ld rt offset base => c.setReg rt (c.mem.ram (c.reg base + offset))
  | .dsrl rd rt sa => c.setReg rd (c.reg rt >>> sa)
  | .andi rd rs imm => c.setReg rd (c.reg rs &&& imm)
  | .daddu rd rs rt => c.setReg rd (c.reg rs + c.reg rt)
  | .tlbwr => { c with tlb := c.tlb.write c.random c.tlbEntry }
  | .eret => c

/-- A sequence of instructions. -/
def run (c : Cpu n) (program : List Instr) : Cpu n := program.foldl exec c

end Cpu

/-- The entries that `do_TLB_Refill` selects. -/
def doTlbRefillPair (m : TableMemory) (addr : Word64) : Word64 × Word64 := m.pair addr

/-- The entries that `TLB_Invalid_handler` selects. -/
def tlbInvalidHandlerPair {n : Nat} (c : Cpu n) : Word64 × Word64 := c.mem.pair (c.cp0 .badVAddr)

/-- `TLBexception_handler_entry`, up to `TLBexception_handler_end`. -/
def tlbExceptionHandler : List Instr :=
  [.dmfc0 .k0 .badVAddr,
    .ldGlobal .k1 .currentPgd,
    .dsrl .k0 .k0 19,
    .andi .k0 .k0 0x1FF8,
    .daddu .k1 .k1 .k0,
    .dmfc0 .k0 .context,
    .ld .k1 0 .k1,
    .andi .k0 .k0 0x1FF8,
    .daddu .k1 .k1 .k0,
    .ld .k0 0 .k1,
    .ld .k1 8 .k1,
    .dmtc0 .k0 .entryLo0,
    .dmtc0 .k1 .entryLo1,
    .tlbwr,
    .ldGlobal .k0 .currentRunning,
    .eret]

/-! ## The offsets -/

/-- `Context` holds bits 31 to 13 of the address at bits 22 to 4, zeros below
them, and anything above. -/
structure ContextOf (context addr : Word64) : Prop where
  badVpn2 : context.extractLsb' 4 19 = addr.extractLsb' 13 19
  low : context.extractLsb' 0 4 = 0

section Offsets

variable (addr : Word64)

theorem toNat_pgdOffset : (pgdOffset addr).toNat = addr.toNat / 2 ^ 22 % 2 ^ 10 := by
  rw [pgdOffset, BitVec.toNat_and, BitVec.toNat_ushiftRight, Nat.shiftRight_eq_div_pow]
  exact and_mask _ 10

theorem toNat_ptOffset : (ptOffset addr).toNat = addr.toNat / 2 ^ 13 % 2 ^ 9 * 2 := by
  have hindex := ptOffset_eq addr.toNat
  rw [tableIndex_eq, Nat.shiftRight_eq_div_pow _ 13] at hindex
  rw [ptOffset, BitVec.toNat_and, BitVec.toNat_ushiftRight]
  exact hindex

theorem pgdOffset_lt : (pgdOffset addr).toNat < numEntry := by
  rw [toNat_pgdOffset, numEntry]
  omega

/-- Both entries of a pair are in the table. -/
theorem ptOffset_lt : (ptOffset addr).toNat + 1 < numEntry := by
  rw [toNat_ptOffset, numEntry]
  omega

theorem toNat_ptOffset_succ : (ptOffset addr + 1).toNat = (ptOffset addr).toNat + 1 := by
  have hlt := ptOffset_lt addr
  rw [numEntry] at hlt
  rw [BitVec.toNat_add]
  rw [show (1 : Word64).toNat = 1 from rfl]
  exact Nat.mod_eq_of_lt (by omega)

/-- The offset of the directory entry, from `BadVAddr`. -/
theorem dirOffset_eq : (addr >>> 19) &&& 0x1FF8 = 8 * pgdOffset addr := by
  have hlt := pgdOffset_lt addr
  have hoffset := refillDirOffset_eq addr.toNat
  rw [dirIndex_eq, Nat.shiftRight_eq_div_pow] at hoffset
  apply BitVec.eq_of_toNat_eq
  rw [BitVec.toNat_and, BitVec.toNat_ushiftRight, BitVec.toNat_mul, toNat_pgdOffset]
  refine hoffset.trans ?_
  rw [show (8 : Word64).toNat = 8 from rfl]
  omega

variable {addr}

/-- The offset of the pair in the page table, from `Context`. -/
theorem tableOffset_eq {context : Word64} (h : ContextOf context addr) :
    context &&& 0x1FF8 = 8 * ptOffset addr := by
  have hvpn := congrArg BitVec.toNat h.badVpn2
  have hlow := congrArg BitVec.toNat h.low
  simp only [BitVec.extractLsb'_toNat, Nat.shiftRight_eq_div_pow] at hvpn hlow
  apply BitVec.eq_of_toNat_eq
  rw [BitVec.toNat_and, BitVec.toNat_mul, toNat_ptOffset]
  refine (and_field context.toNat 10 3).trans ?_
  rw [Nat.shiftLeft_eq, Nat.shiftRight_eq_div_pow, show (8 : Word64).toNat = 8 from rfl]
  rw [show (0 : BitVec 4).toNat = 0 from rfl] at hlow
  omega

/-- Two addresses have the same slots if and only if they agree on bits 31 to
13. -/
theorem slots_eq_iff {addr' : Word64} :
    (pgdOffset addr = pgdOffset addr' ∧ ptOffset addr = ptOffset addr') ↔
      addr.extractLsb' 13 19 = addr'.extractLsb' 13 19 := by
  rw [← BitVec.toNat_inj, ← BitVec.toNat_inj, ← BitVec.toNat_inj, toNat_pgdOffset,
    toNat_pgdOffset, toNat_ptOffset, toNat_ptOffset, BitVec.extractLsb'_toNat,
    BitVec.extractLsb'_toNat, Nat.shiftRight_eq_div_pow, Nat.shiftRight_eq_div_pow]
  omega

end Offsets

/-! ## The words that are loaded -/

/-- The two words of a pair, found through the directory. -/
def TableMemory.walk (m : TableMemory) (addr : Word64) : Word64 × Word64 :=
  let pt := m.entry m.currentPgd (pgdOffset addr)
  (m.entry pt (ptOffset addr), m.entry pt (ptOffset addr + 1))

/-- The shared page table for what is not mapped is empty, as `init_page_table`
leaves it. -/
def TableMemory.EmptyTable (m : TableMemory) : Prop :=
  ∀ i : Word64, i.toNat < numEntry → m.entry m.globalEmptyPt i = 0

section Run

variable {n : Nat} {c : Cpu n} {m : TableMemory} {addr : Word64}

/-- What the handler does to the machine: it loads two words and writes an entry
of the TLB. -/
theorem run_handler (c : Cpu n) :
    (c.run tlbExceptionHandler).mem = c.mem ∧
      (c.run tlbExceptionHandler).cp0 .entryLo0 =
        c.mem.ram (c.mem.ram (c.mem.currentPgd + ((c.cp0 .badVAddr >>> 19) &&& 0x1FF8)) +
          (c.cp0 .context &&& 0x1FF8)) ∧
      (c.run tlbExceptionHandler).cp0 .entryLo1 =
        c.mem.ram (c.mem.ram (c.mem.currentPgd + ((c.cp0 .badVAddr >>> 19) &&& 0x1FF8)) +
          (c.cp0 .context &&& 0x1FF8) + 8) ∧
      (c.run tlbExceptionHandler).tlb =
        c.tlb.write c.random
          ⟨vpn2Field (c.cp0 .entryHi).toNat, asidField (c.cp0 .entryHi).toNat,
            ((c.run tlbExceptionHandler).cp0 .entryLo0).toNat,
            ((c.run tlbExceptionHandler).cp0 .entryLo1).toNat⟩ := by
  simp [Cpu.run, tlbExceptionHandler, Cpu.exec, Cpu.setReg, Cpu.global, Cpu.tlbEntry]

/-- The words are those of the walk. -/
theorem run_handler_walk (hctx : ContextOf (c.cp0 .context) (c.cp0 .badVAddr)) :
    ((c.run tlbExceptionHandler).cp0 .entryLo0, (c.run tlbExceptionHandler).cp0 .entryLo1) =
      c.mem.walk (c.cp0 .badVAddr) := by
  obtain ⟨-, hlo0, hlo1, -⟩ := run_handler c
  have hnext : ∀ pt off : Word64, pt + 8 * off + 8 = pt + 8 * (off + 1) := by
    intro pt off
    rw [BitVec.add_assoc]
    congr 1
    ring
  rw [hlo0, hlo1, dirOffset_eq, tableOffset_eq hctx, hnext]
  rfl

theorem pair_of_ne (h : m.entry m.currentPgd (pgdOffset addr) ≠ m.globalEmptyPt) :
    m.pair addr = m.walk addr := by
  rw [TableMemory.pair, TableMemory.tableFor, if_neg h]
  rfl

theorem entry_clearTable (m : TableMemory) (pt : Word64) {i : Word64} (hi : i.toNat < numEntry) :
    (m.clearTable pt).entry pt i = 0 := by
  have hcancel : pt + 8 * i - pt = 8 * i := by ring
  have hlt : (8 * i).toNat < tableSize := by
    rw [numEntry] at hi
    rw [BitVec.toNat_mul, show (8 : Word64).toNat = 8 from rfl, tableSize]
    omega
  show (if (pt + 8 * i - pt).toNat < tableSize then (0 : Word64) else _) = 0
  rw [hcancel, if_pos hlt]

/-- A page table that is made for the address is empty. -/
theorem pair_of_eq (h : m.entry m.currentPgd (pgdOffset addr) = m.globalEmptyPt) :
    m.pair addr = (0, 0) := by
  have hlt := ptOffset_lt addr
  rw [TableMemory.pair, TableMemory.tableFor, if_pos h]
  dsimp only
  rw [entry_clearTable _ _ (by omega), entry_clearTable _ _ (by rwa [toNat_ptOffset_succ])]

/-- The handlers in C find the words of the walk, in the page table that is there
or in the empty one that they make. -/
theorem pair_eq_walk
    (hempty : m.entry m.currentPgd (pgdOffset addr) = m.globalEmptyPt → m.EmptyTable) :
    m.pair addr = m.walk addr := by
  by_cases h : m.entry m.currentPgd (pgdOffset addr) = m.globalEmptyPt
  · have hlt := ptOffset_lt addr
    have hzero := hempty h
    rw [pair_of_eq h, TableMemory.walk, h, hzero _ (by omega),
      hzero _ (by rwa [toNat_ptOffset_succ])]
  · exact pair_of_ne h

/-- A directory at address 0 with page tables of its own behind it.  Every entry
of these holds its own address. -/
def selfTables : TableMemory where
  ram := fun a => if a.toNat < tableSize then a * 0x400 + 0x2000 else a
  currentPgd := 0
  globalEmptyPt := 0
  currentRunning := 0
  pageCtrlPt := pageCtrlInit ptStart tableSize

theorem walk_selfTables (addr : Word64) :
    ((selfTables.walk addr).1).toNat =
      0x2000 * ((pgdOffset addr).toNat + 1) + 8 * (ptOffset addr).toNat := by
  have hdir := pgdOffset_lt addr
  have htable := ptOffset_lt addr
  rw [numEntry] at hdir htable
  have haddr : (0 + 8 * pgdOffset addr : Word64).toNat = 8 * (pgdOffset addr).toNat := by
    rw [zero_add, BitVec.toNat_mul, show (8 : Word64).toNat = 8 from rfl]
    omega
  have hpt : (selfTables.entry 0 (pgdOffset addr)).toNat =
      0x2000 * ((pgdOffset addr).toNat + 1) := by
    show (if (0 + 8 * pgdOffset addr : Word64).toNat < tableSize then _ else _ : Word64).toNat = _
    rw [if_pos (by rw [haddr, tableSize]; omega), BitVec.toNat_add, BitVec.toNat_mul, haddr,
      show (0x400 : Word64).toNat = 0x400 from rfl, show (0x2000 : Word64).toNat = 0x2000 from rfl]
    omega
  have hentry : (selfTables.entry 0 (pgdOffset addr) + 8 * ptOffset addr).toNat =
      0x2000 * ((pgdOffset addr).toNat + 1) + 8 * (ptOffset addr).toNat := by
    rw [BitVec.toNat_add, hpt, BitVec.toNat_mul, show (8 : Word64).toNat = 8 from rfl]
    omega
  show (if (selfTables.entry 0 (pgdOffset addr) + 8 * ptOffset addr).toNat < tableSize then _
    else selfTables.entry 0 (pgdOffset addr) + 8 * ptOffset addr : Word64).toNat = _
  rw [if_neg (by rw [hentry, tableSize]; omega), hentry]

/-- Two addresses lead to the same pair over all directories and page tables if
and only if they agree on bits 31 to 13. -/
theorem walk_eq_iff {addr' : Word64} :
    (∀ m : TableMemory, m.walk addr = m.walk addr') ↔
      addr.extractLsb' 13 19 = addr'.extractLsb' 13 19 := by
  rw [← slots_eq_iff]
  constructor
  · intro h
    have hlt := ptOffset_lt addr
    have hlt' := ptOffset_lt addr'
    have hsame := congrArg (fun p => p.1.toNat) (h selfTables)
    simp only [walk_selfTables] at hsame
    rw [numEntry] at hlt hlt'
    rw [← BitVec.toNat_inj, ← BitVec.toNat_inj]
    omega
  · rintro ⟨hdir, htable⟩ m
    rw [TableMemory.walk, TableMemory.walk, hdir, htable]

/-- The handler in assembly loads the two entries that the handlers in C select
for the address, inside of the directory and of the page table, and changes no
table; and the pair is a matter of bits 31 to 13 of the address. -/
theorem refill_loads_pair (c : Cpu n) (hctx : ContextOf (c.cp0 .context) (c.cp0 .badVAddr))
    (hempty : c.mem.entry c.mem.currentPgd (pgdOffset (c.cp0 .badVAddr)) = c.mem.globalEmptyPt →
      c.mem.EmptyTable) :
    ((c.run tlbExceptionHandler).cp0 .entryLo0, (c.run tlbExceptionHandler).cp0 .entryLo1) =
        doTlbRefillPair c.mem (c.cp0 .badVAddr) ∧
      ((c.run tlbExceptionHandler).cp0 .entryLo0, (c.run tlbExceptionHandler).cp0 .entryLo1) =
        tlbInvalidHandlerPair c ∧
      (c.run tlbExceptionHandler).mem = c.mem ∧
      (pgdOffset (c.cp0 .badVAddr)).toNat < numEntry ∧
      (ptOffset (c.cp0 .badVAddr)).toNat + 1 < numEntry ∧
      ∀ addr : Word64,
        ((pgdOffset (c.cp0 .badVAddr) = pgdOffset addr ∧
            ptOffset (c.cp0 .badVAddr) = ptOffset addr) ↔
          (c.cp0 .badVAddr).extractLsb' 13 19 = addr.extractLsb' 13 19) ∧
        ((∀ m : TableMemory, m.walk (c.cp0 .badVAddr) = m.walk addr) ↔
          (c.cp0 .badVAddr).extractLsb' 13 19 = addr.extractLsb' 13 19) := by
  have hwords := (run_handler_walk hctx).trans (pair_eq_walk hempty).symm
  exact ⟨hwords, hwords, (run_handler c).1, pgdOffset_lt _, ptOffset_lt _,
    fun addr => ⟨slots_eq_iff, walk_eq_iff⟩⟩

end Run

/-- A machine with the tables `selfTables` that misses on 0x403000. -/
def selfCpu : Cpu 64 where
  mem := selfTables
  reg := fun _ => 0
  cp0 := fun
    | .badVAddr => 0x403000
    | .context => 0x7700002010
    | _ => 0
  tlb := TlbSystem.blankTlb
  random := 5

theorem selfCpu_loads_pair :
    ((selfCpu.run tlbExceptionHandler).cp0 .entryLo0,
        (selfCpu.run tlbExceptionHandler).cp0 .entryLo1) = doTlbRefillPair selfTables 0x403000 ∧
      doTlbRefillPair selfTables 0x403000 = (0x4010, 0x4018) :=
  ⟨(refill_loads_pair selfCpu ⟨by decide, by decide⟩ fun h => absurd h (by decide)).1, by decide⟩

/-! ## The handler in the kernel -/

/-- The doublewords are those of the current page directory and of its page
tables. -/
structure Shows (t : TableMemory) (m : Memory) : Prop where
  pgd : t.currentPgd.toNat = m.currentPgd
  empty : t.globalEmptyPt.toNat = m.globalEmptyPt
  dir : ∀ a : Word64, a.toNat < numEntry →
    (t.entry t.currentPgd a).toNat = m.tables m.currentPgd a.toNat
  table : ∀ a i : Word64, a.toNat < numEntry → i.toNat < numEntry →
    (t.entry (t.entry t.currentPgd a) i).toNat =
      m.tables (m.tables m.currentPgd a.toNat) i.toNat

theorem Shows.walk {t : TableMemory} {m : Memory} (h : Shows t m) (addr : Word64) :
    (t.walk addr).1.toNat =
        m.tables (m.tables m.currentPgd (pgdOffset addr).toNat) (ptOffset addr).toNat ∧
      (t.walk addr).2.toNat =
        m.tables (m.tables m.currentPgd (pgdOffset addr).toNat) ((ptOffset addr).toNat + 1) := by
  have hlt := ptOffset_lt addr
  refine ⟨h.table _ _ (pgdOffset_lt addr) (by omega), ?_⟩
  rw [← toNat_ptOffset_succ]
  exact h.table _ _ (pgdOffset_lt addr) (by rwa [toNat_ptOffset_succ])

namespace TlbSystem

section Handler

variable {n : Nat} {s : TlbSystem n} {c : Cpu n}

/-- A run of the instructions is the step of the handler. -/
theorem run_handler_step (hmem : Shows c.mem s.kernel.mm) (htlb : c.tlb = s.tlb)
    (hhi : (c.cp0 .entryHi).toNat = s.entryHi)
    (hctx : ContextOf (c.cp0 .context) (c.cp0 .badVAddr)) (hpgd : s.kernel.mm.currentPgd ≠ 0) :
    s.tlbExceptionHandlerEntry (c.cp0 .badVAddr).toNat (c.cp0 .context).toNat c.random =
      some { s with tlb := (c.run tlbExceptionHandler).tlb } := by
  obtain ⟨-, -, -, hwritten⟩ := run_handler c
  obtain ⟨hfirst, hsecond⟩ := hmem.walk (c.cp0 .badVAddr)
  have hwords := run_handler_walk hctx
  have hdir :
      refillDirOffset (c.cp0 .badVAddr).toNat / 8 = (pgdOffset (c.cp0 .badVAddr)).toNat := by
    rw [refillDirOffset_eq, Nat.mul_div_cancel_left _ (by omega), ← pgdOffset_eq, pgdOffset,
      BitVec.toNat_and, BitVec.toNat_ushiftRight]
    rfl
  have htable : refillTableOffset (c.cp0 .context).toNat =
      8 * (ptOffset (c.cp0 .badVAddr)).toNat := by
    have hlt := ptOffset_lt (c.cp0 .badVAddr)
    have hoffset := congrArg BitVec.toNat (tableOffset_eq hctx)
    rw [numEntry] at hlt
    rw [BitVec.toNat_and, BitVec.toNat_mul, show (8 : Word64).toNat = 8 from rfl] at hoffset
    refine hoffset.trans ?_
    omega
  have hnext : (8 * (ptOffset (c.cp0 .badVAddr)).toNat + 8) / 8 =
      (ptOffset (c.cp0 .badVAddr)).toNat + 1 := by omega
  rw [← hwords] at hfirst hsecond
  rw [tlbExceptionHandlerEntry, if_neg hpgd, hwritten, hdir, htable, hnext,
    Nat.mul_div_cancel_left _ (by omega), htlb, hhi]
  dsimp only
  rw [← hfirst, ← hsecond]
  rfl

/-- In every state that is reached the shared page table is empty, so the handler
loads what the handlers in C select. -/
theorem reached_refill_loads_pair {barrier : BarrierId → Barrier} {tables : Nat → Nat → Nat}
    {tlb : Tlb n} {entryHi : Nat} (h : Reaches step Raised (boot barrier tables tlb entryHi) s)
    (hmem : Shows c.mem s.kernel.mm)
    (hctx : ContextOf (c.cp0 .context) (c.cp0 .badVAddr)) :
    ((c.run tlbExceptionHandler).cp0 .entryLo0, (c.run tlbExceptionHandler).cp0 .entryLo1) =
      doTlbRefillPair c.mem (c.cp0 .badVAddr) := by
  obtain ⟨a, hinv, -⟩ := reaches_inv h
  have hzero := hinv.kernel.spaces.memoryOwned.empty_zero
  rw [← hinv.follows.core] at hzero
  rw [run_handler_walk hctx]
  symm
  by_cases hempty : c.mem.entry c.mem.currentPgd (pgdOffset (c.cp0 .badVAddr)) =
      c.mem.globalEmptyPt
  · have hdir := hmem.dir _ (pgdOffset_lt (c.cp0 .badVAddr))
    rw [hempty, hmem.empty] at hdir
    obtain ⟨hfirst, hsecond⟩ := hmem.walk (c.cp0 .badVAddr)
    rw [← hdir, hzero] at hfirst hsecond
    rw [doTlbRefillPair, pair_of_eq hempty]
    exact Prod.ext (BitVec.eq_of_toNat_eq hfirst.symm) (BitVec.eq_of_toNat_eq hsecond.symm)
  · exact pair_of_ne hempty

end Handler

end TlbSystem

end MipsOs.Sched
