import MipsOs.Lib.Records

/-!
# The instructions of the context switch

The part of the MIPS64 instruction set with which `arch/mips/kernel/entry.S` saves and
restores the registers.  A step has no outcome where the processor raises an exception
(an address that is not aligned, an overflow in `addi`) or where the manual leaves the
result open (a 32-bit addition of a register that is not a sign extended word).

Memory is a doubleword for every address.  All accesses are aligned, so the doublewords
do not overlap.  Control flow is not followed: a list of instructions runs to its end.
-/

namespace MipsOs.Arch

open MipsOs.Lib

/-- A doubleword. -/
abbrev Word := BitVec 64

/-- The general registers by number. -/
abbrev Reg := Fin 32

namespace Reg

/-- The register that is always 0. -/
def zero : Reg := 0

/-- The register of answers. -/
def v0 : Reg := 2

/-- The first argument. -/
def a0 : Reg := 4

/-- The second argument. -/
def a1 : Reg := 5

/-- The third argument. -/
def a2 : Reg := 6

/-- The first register that a callee saves. -/
def s0 : Reg := 16

/-- The first register of the kernel. -/
def k0 : Reg := 26

/-- The second register of the kernel. -/
def k1 : Reg := 27

/-- The stack pointer. -/
def sp : Reg := 29

/-- The return address. -/
def ra : Reg := 31

end Reg

/-- The general registers that are saved: not `$zero`, `$k0`, `$k1` and `$sp`. -/
def savedRegs : List Reg :=
  [1, 2, 3, 4, 5, 6, 7, 8, 9, 10, 11, 12, 13, 14, 15, 16, 17, 18, 19, 20, 21, 22, 23, 24, 25, 28,
    30, 31]

/-- The registers of coprocessor 0. -/
inductive Cp0 where
  | status | cause | badVAddr | epc | entryHi
  deriving DecidableEq

/-- The instructions of `entry.S` and of its macros. -/
inductive Instr where
  | addi (rt rs : Reg) (imm : BitVec 32)
  | addu (rd rs rt : Reg)
  | sd (rt : Reg) (offset : Word) (base : Reg)
  | ld (rt : Reg) (offset : Word) (base : Reg)
  /-- `ld` from a symbol, and `dla` -/
  | ldSym (rt : Reg) (addr : Word)
  | dla (rd : Reg) (addr : Word)
  | move (rd rs : Reg)
  | mfc0 (rt : Reg) (rd : Cp0)
  | mtc0 (rt : Reg) (rd : Cp0)
  | dmtc0 (rt : Reg) (rd : Cp0)
  | mfhi (rd : Reg)
  | mflo (rd : Reg)
  | mthi (rs : Reg)
  | mtlo (rs : Reg)
  | jr (rs : Reg)
  | eret

/-- The sign extension of the low word. -/
def sext (x : Word) : Word := (x.setWidth 32).signExtend 64

/-- A doubleword starts here. -/
def Aligned (a : Word) : Prop := a.toNat % 8 = 0

instance (a : Word) : Decidable (Aligned a) := inferInstanceAs (Decidable (_ = _))

/-- The processor and the memory of the kernel. -/
structure Cpu where
  reg : Reg → Word
  hi : Word
  lo : Word
  cp0 : Cp0 → Word
  mem : Word → Word

namespace Cpu

variable {c d : Cpu} {p q : List Instr} {r s : Reg} {v : Word}

/-- Write a general register. -/
def setReg (c : Cpu) (r : Reg) (v : Word) : Cpu := { c with reg := Function.update c.reg r v }

/-- Write a register of coprocessor 0. -/
def setCp0 (c : Cpu) (r : Cp0) (v : Word) : Cpu := { c with cp0 := Function.update c.cp0 r v }

/-- Write a doubleword to the memory. -/
def store (c : Cpu) (a v : Word) : Cpu := { c with mem := Function.update c.mem a v }

@[simp] theorem setReg_self : (c.setReg r v).reg r = v := Function.update_self ..

theorem setReg_of_ne (h : s ≠ r) : (c.setReg r v).reg s = c.reg s := Function.update_of_ne h ..

/-- One instruction. -/
def exec (c : Cpu) : Instr → Option Cpu
  | .addi rt rs imm =>
    let x := (c.reg rs).setWidth 32
    if sext (c.reg rs) = c.reg rs ∧ x.saddOverflow imm = false then
      some (c.setReg rt ((x + imm).signExtend 64))
    else none
  | .addu rd rs rt =>
    if sext (c.reg rs) = c.reg rs ∧ sext (c.reg rt) = c.reg rt then
      some (c.setReg rd (sext (c.reg rs + c.reg rt)))
    else none
  | .sd rt offset base =>
    if Aligned (c.reg base + offset) then some (c.store (c.reg base + offset) (c.reg rt)) else none
  | .ld rt offset base =>
    if Aligned (c.reg base + offset) then some (c.setReg rt (c.mem (c.reg base + offset)))
    else none
  | .ldSym rt addr => if Aligned addr then some (c.setReg rt (c.mem addr)) else none
  | .dla rd addr => some (c.setReg rd addr)
  | .move rd rs => some (c.setReg rd (c.reg rs))
  -- `mfc0` reads a word, also from a register of 64 bits.
  | .mfc0 rt rd => some (c.setReg rt (sext (c.cp0 rd)))
  | .mtc0 rt rd => some (c.setCp0 rd (c.reg rt))
  | .dmtc0 rt rd => some (c.setCp0 rd (c.reg rt))
  | .mfhi rd => some (c.setReg rd c.hi)
  | .mflo rd => some (c.setReg rd c.lo)
  | .mthi rs => some { c with hi := c.reg rs }
  | .mtlo rs => some { c with lo := c.reg rs }
  | .jr _ => some c
  | .eret => some c

theorem exec_sd {offset : Word} {base : Reg} (rt : Reg) (h : Aligned (c.reg base + offset)) :
    c.exec (.sd rt offset base) = some (c.store (c.reg base + offset) (c.reg rt)) := if_pos h

theorem exec_ld {offset : Word} {base : Reg} (rt : Reg) (h : Aligned (c.reg base + offset)) :
    c.exec (.ld rt offset base) = some (c.setReg rt (c.mem (c.reg base + offset))) := if_pos h

/-- The instructions in order. -/
def run (c : Cpu) (p : List Instr) : Option Cpu := p.foldlM exec c

@[simp] theorem run_nil : c.run [] = some c := rfl

theorem run_cons (i : Instr) : c.run (i :: p) = (c.exec i).bind fun d => d.run p := rfl

theorem run_append : c.run (p ++ q) = (c.run p).bind fun d => d.run q := List.foldlM_append ..

theorem run_cons_of {i : Instr} (h : c.exec i = some d) : c.run (i :: p) = d.run p := by
  rw [run_cons, h, Option.bind_some]

theorem run_append_of (h : c.run p = some d) : c.run (p ++ q) = d.run q := by
  rw [run_append, h, Option.bind_some]

/-! ## Stores and loads in a row -/

section Rows

variable {base : Reg} {offset : Reg → Word} {l : List Reg}

/-- A row of stores writes a record. -/
theorem run_stores (hal : ∀ r ∈ l, Aligned (c.reg base + offset r)) :
    c.run (l.map fun r => .sd r (offset r) base) =
      some { c with
        mem := Record.writeAll c.mem (l.map fun r => (c.reg base + offset r, c.reg r)) } := by
  induction l generalizing c with
  | nil => rfl
  | cons r l ih =>
    have hfirst := exec_sd r (hal r List.mem_cons_self)
    have hrest : ∀ s ∈ l,
        Aligned ((c.store (c.reg base + offset r) (c.reg r)).reg base + offset s) :=
      fun s hs => hal s (List.mem_cons_of_mem r hs)
    rw [List.map_cons, run_cons_of hfirst, ih hrest]
    rfl

/-- A row of loads from a record. -/
theorem run_loads (hbase : base ∉ l) (hal : ∀ r ∈ l, Aligned (c.reg base + offset r)) :
    c.run (l.map fun r => .ld r (offset r) base) =
      some { c with
        reg := Record.writeAll c.reg (l.map fun r => (r, c.mem (c.reg base + offset r))) } := by
  induction l generalizing c with
  | nil => rfl
  | cons r l ih =>
    obtain ⟨hne, hl⟩ := not_or.mp (mt List.mem_cons.mpr hbase)
    have hfirst := exec_ld r (hal r List.mem_cons_self)
    have hbase : (c.setReg r (c.mem (c.reg base + offset r))).reg base = c.reg base :=
      setReg_of_ne hne
    have hrest : ∀ s ∈ l,
        Aligned ((c.setReg r (c.mem (c.reg base + offset r))).reg base + offset s) := by
      intro s hs
      rw [hbase]
      exact hal s (List.mem_cons_of_mem r hs)
    rw [List.map_cons, run_cons_of hfirst, ih hl hrest, hbase]
    rfl

end Rows

end Cpu

/-! ## Addresses of the kernel -/

/-- An aligned address in the segments of the kernel, with `room` bytes of them below. -/
structure KernelAddr (a : Word) (room : Nat) : Prop where
  aligned : Aligned a
  ge : 0xffffffff80000000 + room ≤ a.toNat

/-- The low word of an address of the kernel is negative. -/
theorem KernelAddr.toInt_low {a : Word} {room : Nat} (h : KernelAddr a room) :
    (a.setWidth 32).toInt = (a.toNat : Int) - 2 ^ 64 := by
  have hge := h.ge
  have hlow : (a.setWidth 32).toNat = a.toNat - 0xffffffff00000000 := by
    rw [BitVec.toNat_setWidth]
    omega
  rw [BitVec.toInt_eq_toNat_cond, hlow]
  omega

/-- The addresses of the kernel are sign extended words. -/
theorem KernelAddr.sext_eq {a : Word} {room : Nat} (h : KernelAddr a room) : sext a = a := by
  have hge := h.ge
  apply BitVec.eq_of_toInt_eq
  rw [sext, BitVec.toInt_signExtend_of_le (by decide), h.toInt_low, BitVec.toInt_eq_toNat_cond]
  omega

/-- The low words of a sum that does not overflow. -/
theorem sext_add {x y : BitVec 32} (h : x.saddOverflow y = false) :
    (x + y).signExtend 64 = x.signExtend 64 + y.signExtend 64 := by
  have hno : ¬ x.saddOverflow y := by rw [h]; decide
  have hx := BitVec.toInt_lt (x := x)
  have hx' := BitVec.le_toInt x
  have hy := BitVec.toInt_lt (x := y)
  have hy' := BitVec.le_toInt y
  apply BitVec.eq_of_toInt_eq
  rw [BitVec.toInt_signExtend_of_le (by decide), BitVec.toInt_add_of_not_saddOverflow hno,
    BitVec.toInt_add, BitVec.toInt_signExtend_of_le (by decide),
    BitVec.toInt_signExtend_of_le (by decide), Int.bmod_eq_of_le (by omega) (by omega)]

/-- `addi` of a number that is not larger than the room. -/
theorem KernelAddr.addi {c : Cpu} {room : Nat} {rt rs : Reg} {imm : BitVec 32}
    (h : KernelAddr (c.reg rs) room) (himm : -(room : Int) ≤ imm.toInt) :
    c.exec (.addi rt rs imm) = some (c.setReg rt (c.reg rs + imm.signExtend 64)) := by
  have hlow := h.toInt_low
  have hge := h.ge
  have hlt := (c.reg rs).isLt
  have himm' := BitVec.toInt_lt (x := imm)
  have hno : ((c.reg rs).setWidth 32).saddOverflow imm = false := by
    rw [BitVec.saddOverflow, hlow]
    simp only [Bool.or_eq_false_iff, decide_eq_false_iff_not]
    omega
  have hsum := sext_add hno
  have hsext := h.sext_eq
  rw [sext] at hsext
  rw [hsext] at hsum
  rw [Cpu.exec, if_pos ⟨h.sext_eq, hno⟩, hsum]

end MipsOs.Arch
