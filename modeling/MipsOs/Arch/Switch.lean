import MipsOs.Arch.Context
import MipsOs.Lib.Run

/-!
# Tasks that are switched

`do_scheduler`, `exception_handler_entry`, `exception_return` and `start_up_return` of
`arch/mips/kernel/entry.S`, and the code between them.

A task that calls `do_scheduler` leaves its registers in a frame on its kernel stack,
and the address of the frame in its PCB.  A task that is interrupted does the same with
the registers of the user program.  In between, the C code of the kernel runs on behalf
of one task or the other, and programs run in user mode.

The C code is not modelled here, so a step of it is any step that leaves alone what the
others have saved.  `Sound` says what the model asks of it, and of the programs: no frame
hits another one, the programs leave `$k0` alone, and a function returns with the stack
pointer with which it was called.
-/

namespace MipsOs.Arch

open MipsOs.Lib Reg

/-! ## `interrupt_helper` -/

/-- The branches of `interrupt_helper`. -/
inductive Handler where
  | timer | tlb | syscall | other
  deriving DecidableEq

/-- `interrupt_helper`, where `exited` says that the current task has exited. -/
def interruptHelper (exited : Bool) (cause : Word) : Handler :=
  let exccode := (cause &&& 0x7c) >>> 2
  if (exccode = 0 ∧ cause &&& 0x8000 ≠ 0) ∨ exited = true then .timer
  else if exccode = 2 ∨ exccode = 3 then .tlb
  else if exccode = 8 then .syscall
  else .other

/-- What `interrupt_helper` does with the answer of a system call: `regs->regs[2]` gets it,
and `regs->epc` moves on. -/
def answered (v : Word) (x : Context) : Context :=
  Function.update (Function.update x (.reg v0) v) .epc (x .epc + 4)

/-! ## The programs -/

/-- The two stack pointers of a PCB. -/
inductive Kind where
  | kernel | user
  deriving DecidableEq

/-- `OFFSET_KERNEL_SP` and `OFFSET_USER_SP` -/
def Kind.offset : Kind → Word
  | .kernel => 0
  | .user => 8

/-- The addresses of the symbols, and of the PCBs. -/
structure Symbols (T : Type) where
  pcb : T → Word
  currentRunning : Word
  currentPid : Word
  exceptionReturn : Word
  interruptHelper : Word

section Programs

variable {T : Type} (y : Symbols T)

/-- The stack pointers in the PCBs. -/
def Symbols.word (i : T × Kind) : Word := y.pcb i.1 + i.2.offset

/-- `do_scheduler` up to the call of `save_cursor`. -/
def doSchedulerSave : List Instr := saveContext ++ [.sd sp Kind.kernel.offset k0]

/-- `do_scheduler` behind the call of `scheduler`, up to the call of `restore_cursor`. -/
def doSchedulerLoad : List Instr :=
  [.ldSym k0 y.currentPid, .dmtc0 k0 .entryHi, .ldSym k0 y.currentRunning]

/-- `do_scheduler` behind the call of `restore_cursor`. -/
def doSchedulerRestore : List Instr :=
  .ld sp Kind.kernel.offset k0 :: (restoreContext ++ [.jr ra])

/-- `exception_handler_entry` -/
def exceptionHandlerEntry : List Instr :=
  .sd sp Kind.user.offset k0 :: .ld sp Kind.kernel.offset k0 :: (saveContext ++
    [.dla ra y.exceptionReturn, .move a0 sp, .mfc0 a1 .status, .mfc0 a2 .cause,
      .dla k1 y.interruptHelper, .jr k1])

/-- `exception_return` -/
def exceptionReturn : List Instr :=
  restoreContext ++ [.sd sp Kind.kernel.offset k0, .ld sp Kind.user.offset k0, .eret]

/-- `start_up_return` behind the call of `start_up`. -/
def startUpReturn : List Instr := .addu sp sp v0 :: exceptionReturn

end Programs

/-! ## The system -/

/-- Registers that are saved: the frame, its address, and the stack pointer in the PCB. -/
structure Saved where
  base : Word
  sp : Word
  ctx : Context

/-- The processor, the task that runs, and what the tasks have saved.  `handler` and
`answer` are about the last exception of a task. -/
structure System (T : Type) where
  cpu : Cpu
  cur : T
  inKernel : Bool
  saved : T × Kind → Option Saved
  handler : T → Handler
  answer : T → Option Word

/-- Steps with a `Cpu` are those of code that is not modelled, and end with it. -/
inductive Op (T : Type) where
  | user (c : Cpu)
  | enter (exited : Bool)
  | code (c : Cpu)
  | answer (v : Word)
  /-- `do_scheduler`, where `scheduler` ends with `c₁` and `restore_cursor` with `c₂` -/
  | switch (q : T) (c₁ c₂ : Cpu)
  | leave
  | startUp
  /-- `do_spawn` with the kernel context of a new task -/
  | spawn (t : T) (x : Saved) (c : Cpu)
  /-- a task that is freed -/
  | drop (t : T)

namespace System

variable {T : Type} [DecidableEq T] (y : Symbols T)

/-- The places of what a task has saved. -/
def record (i : T × Kind) (x : Saved) : Record Word Word := (y.word i, x.sp) :: frame x.base x.ctx

/-- What is in the memory for the tasks. -/
def records (saved : T × Kind → Option Saved) (i : T × Kind) : Record Word Word :=
  (saved i).elim [] (record y i)

/-- The registers that the running task leaves at a call of `do_scheduler`. -/
def callSaved (s : System T) : Saved where
  base := s.cpu.reg sp - 312
  sp := s.cpu.reg sp - 312
  ctx := s.cpu.context

/-- The system while `do_scheduler` looks for a task. -/
def suspended (s : System T) (c : Cpu) : System T :=
  { s with cpu := c, saved := Function.update s.saved (s.cur, .kernel) (some s.callSaved) }

/-- The registers that the running program leaves at an exception. -/
def trapSaved (s : System T) : Saved where
  base := s.cpu.mem (y.word (s.cur, .kernel)) - 312
  sp := s.cpu.reg sp
  ctx := s.cpu.context

/-- One step of the system.  `none` when the code of `entry.S` faults. -/
def step (s : System T) : Op T → Option (System T)
  | .user c => some { s with cpu := c }
  | .enter exited => do
    let c ← s.cpu.run (exceptionHandlerEntry y)
    return { s with
      cpu := c
      inKernel := true
      saved := Function.update s.saved (s.cur, .user) (some (s.trapSaved y))
      handler := Function.update s.handler s.cur (interruptHelper exited (c.reg a2))
      answer := Function.update s.answer s.cur none }
  | .code c => some { s with cpu := c }
  | .answer v => do
    let x ← s.saved (s.cur, .user)
    let c := s.cpu.store (x.base + (Field.reg v0).offset) v
    let c := c.store (x.base + Field.epc.offset) (c.mem (x.base + Field.epc.offset) + 4)
    return { s with
      cpu := c
      saved := Function.update s.saved (s.cur, .user) (some { x with ctx := answered v x.ctx })
      answer := Function.update s.answer s.cur (some v) }
  | .switch q c₁ c₂ => do
    let c ← s.cpu.run doSchedulerSave
    let _ ← c₁.run (doSchedulerLoad y)
    let d ← c₂.run doSchedulerRestore
    return { s.suspended c with
      cpu := d
      cur := q
      saved := Function.update (s.suspended c).saved (q, .kernel) none }
  | .leave => do
    let c ← s.cpu.run exceptionReturn
    return { s with
      cpu := c
      inKernel := false
      saved := Function.update s.saved (s.cur, .user) none }
  | .startUp => do
    let c ← s.cpu.run startUpReturn
    return { s with cpu := c, inKernel := false }
  | .spawn t x c =>
    some { s with cpu := c, saved := Function.update s.saved (t, .kernel) (some x) }
  | .drop t =>
    some { s with
      saved := Function.update (Function.update s.saved (t, .kernel) none) (t, .user) none }

/-! ## What the code that is not modelled does -/

section Sound

variable (s : System T)

/-- The frame hits neither another one nor the stack pointers of a PCB. -/
def Free (i : T × Kind) (base : Word) : Prop :=
  ∀ a ∈ framePlaces base, ¬ Records.Beside (records y s.saved) i a ∧ ∀ j, a ≠ y.word j

/-- What is saved stays. -/
def Keeps (c d : Cpu) : Prop := ∀ a, Records.Taken (records y s.saved) a → d.mem a = c.mem a

/-- The frame below the stack pointer can be made. -/
structure Room (i : T × Kind) (sp : Word) : Prop where
  addr : KernelAddr sp offsetSize.toNat
  free : s.Free y i (sp - 312)

/-- `save_cursor` and `scheduler` choose a task that has called `do_scheduler`, and
`restore_cursor` keeps `$k0`. -/
structure SwitchOk (q : T) (c₁ c₂ : Cpu) : Prop where
  room : s.Room y (s.cur, .kernel) (s.cpu.reg sp)
  keeps : ∀ c, s.cpu.run doSchedulerSave = some c → (s.suspended c).Keeps y c c₁
  chosen : c₁.mem y.currentRunning = y.pcb q
  suspended : q = s.cur ∨ (s.saved (q, .kernel)).isSome
  keeps' : ∀ c d, s.cpu.run doSchedulerSave = some c → c₁.run (doSchedulerLoad y) = some d →
    (s.suspended c).Keeps y d c₂ ∧ c₂.reg k0 = d.reg k0

/-- What the code around `entry.S` keeps: programs run outside of the kernel and
leave `$k0` alone, exceptions do not nest, frames fit on the stacks, and the C code
keeps the frames that are saved. -/
def Sound : Op T → Prop
  | .user c => s.inKernel = false ∧ c.reg k0 = s.cpu.reg k0 ∧ c.mem = s.cpu.mem
  | .enter _ => s.inKernel = false ∧
    s.Room y (s.cur, .user) (s.cpu.mem (y.word (s.cur, .kernel)))
  | .code c => s.inKernel = true ∧ c.reg k0 = s.cpu.reg k0 ∧ s.Keeps y s.cpu c
  | .answer _ => s.inKernel = true ∧ (s.saved (s.cur, .user)).isSome ∧
    s.handler s.cur = .syscall ∧ s.answer s.cur = none
  | .switch q c₁ c₂ => s.inKernel = true ∧ s.SwitchOk y q c₁ c₂
  -- The stack pointer is the one that `interrupt_helper` was called with.
  | .leave => s.inKernel = true ∧ (∃ x, s.saved (s.cur, .user) = some x ∧ s.cpu.reg sp = x.base) ∧
    (s.handler s.cur = .syscall → (s.answer s.cur).isSome)
  -- `start_up` has answered the distance to the user context.
  | .startUp => s.inKernel = true ∧ s.saved (s.cur, .user) = none ∧
    sext (s.cpu.reg sp) = s.cpu.reg sp ∧ sext (s.cpu.reg v0) = s.cpu.reg v0 ∧
    KernelAddr (sext (s.cpu.reg sp + s.cpu.reg v0)) 0
  | .spawn t x c => s.inKernel = true ∧ t ≠ s.cur ∧ (∀ k, s.saved (t, k) = none) ∧
    x.sp = x.base ∧ KernelAddr x.base 0 ∧ s.Free y (t, .kernel) x.base ∧
    Record.In c.mem (record y (t, .kernel) x) ∧ c.reg k0 = s.cpu.reg k0 ∧ s.Keeps y s.cpu c
  | .drop t => t ≠ s.cur

end Sound

end System

/-! ## What the programs do -/

namespace Cpu

variable {c : Cpu} {x : Context} {base : Word}

/-- Where the stack pointers of the PCB in `$k0` are. -/
theorem aligned_kind (h : Aligned (c.reg k0)) (k : Kind) : Aligned (c.reg k0 + k.offset) := by
  unfold Aligned at h ⊢
  cases k <;> simp only [Kind.offset] <;> bv_omega

theorem field_setReg {r : Reg} {v : Word} {f : Field} (hf : f ≠ .reg r) :
    (c.setReg r v).field f = c.field f := by
  rw [show c.setReg r v = c.setField (.reg r) v from rfl, field_setField, if_neg hf]

theorem saved_ne {f : Field} (hf : f ∈ savedFields) {r : Reg} (hr : r ∉ savedRegs) :
    f ≠ .reg r := by
  rintro rfl
  rcases List.mem_append.mp hf with h | h
  · obtain ⟨s, hs, heq⟩ := List.mem_map.mp h
    cases heq
    exact hr hs
  · exact reg_not_other r h

/-- The two stack pointers of a PCB are two places. -/
theorem kind_ne (a : Word) : a + Kind.kernel.offset ≠ a + Kind.user.offset := by
  rw [Ne, BitVec.add_right_inj]
  decide

/-- The first part of `do_scheduler` leaves the frame, and its address in the PCB. -/
theorem run_doSchedulerSave (h : KernelAddr (c.reg sp) offsetSize.toNat)
    (hk : Aligned (c.reg k0)) :
    ∃ d, c.run doSchedulerSave = some d ∧ d.mem =
      Function.update (Record.writeAll c.mem (frame (c.reg sp - 312) c.context))
        (c.reg k0 + Kind.kernel.offset) (c.reg sp - 312) := by
  obtain ⟨d, hsave, hd⟩ := run_saveContext h
  have hk0 : d.reg k0 = c.reg k0 := hd.reg k0 (by decide) (by decide)
  have hstore := exec_sd sp (aligned_kind (hk0 ▸ hk) .kernel)
  refine ⟨_, by rw [doSchedulerSave, run_append_of hsave, run_cons_of hstore, run_nil], ?_⟩
  rw [store, hd.sp, hd.mem, hk0]

/-- The last part of `do_scheduler` gets the registers from the frame of the PCB. -/
theorem run_doSchedulerRestore (h : KernelAddr base 0) (hk : Aligned (c.reg k0))
    (hsp : c.mem (c.reg k0 + Kind.kernel.offset) = base) (hx : Record.In c.mem (frame base x)) :
    ∃ d, c.run doSchedulerRestore = some d ∧ (∀ f ∈ savedFields, d.field f = x f) ∧
      d.reg sp = base + 312 ∧ d.reg k0 = c.reg k0 ∧ d.mem = c.mem := by
  have hfirst := exec_ld sp (aligned_kind hk .kernel)
  rw [hsp] at hfirst
  obtain ⟨d, hrestore, hd⟩ := run_restoreContext (c := c.setReg sp base) (x := x)
    (by rwa [setReg_self]) (by rwa [setReg_self])
  rw [setReg_self] at hrestore
  refine ⟨d.setReg sp (base + 312), ?_, fun f hf => ?_, setReg_self, ?_, hd.mem⟩
  · rw [doSchedulerRestore, run_cons_of hfirst, run_append_of hrestore]
    rfl
  · rw [field_setReg (saved_ne hf (by decide)), hd.fields f hf]
  · rw [setReg_of_ne (by decide)]
    exact (hd.other (.reg k0) (by decide) (by decide)).trans (setReg_of_ne (by decide))

/-- The entry leaves the registers of the program in a frame on the kernel stack. -/
theorem run_exceptionHandlerEntry {T : Type} (y : Symbols T) (hk : Aligned (c.reg k0))
    (hsp : c.mem (c.reg k0 + Kind.kernel.offset) = base)
    (h : KernelAddr base offsetSize.toNat) :
    ∃ d, c.run (exceptionHandlerEntry y) = some d ∧ d.reg k0 = c.reg k0 ∧
      d.reg sp = base - 312 ∧ d.reg a2 = sext (c.cp0 .cause) ∧ d.mem = Record.writeAll
        (Function.update c.mem (c.reg k0 + Kind.user.offset) (c.reg sp))
        (frame (base - 312) c.context) := by
  have hstore := exec_sd sp (aligned_kind hk .user)
  generalize he : c.store (c.reg k0 + Kind.user.offset) (c.reg sp) = e at hstore
  have hereg : e.reg = c.reg := by rw [← he]; rfl
  have hload := exec_ld sp (aligned_kind (hereg ▸ hk) .kernel)
  have hbase : e.mem (e.reg k0 + Kind.kernel.offset) = base := by
    rw [hereg, ← hsp, ← he]
    exact Function.update_of_ne (kind_ne _) _ _
  rw [hbase] at hload
  have hspe : (e.setReg sp base).reg sp = base := setReg_self
  obtain ⟨d, hsave, hd⟩ := run_saveContext (hspe.symm ▸ h)
  have hcontext : frame (base - 312) (e.setReg sp base).context = frame (base - 312) c.context := by
    refine List.map_congr_left fun f hf => ?_
    have hfield : (e.setReg sp base).context f = e.context f := by
      cases f with
      | reg r => exact setReg_of_ne fun hr => saved_ne hf (r := sp) (by decide) (congrArg _ hr)
      | _ => rfl
    rw [hfield, ← he]
    cases f <;> rfl
  refine ⟨_,
    (run_cons_of hstore).trans ((run_cons_of hload).trans ((run_append_of hsave).trans rfl)),
    ?_, ?_, ?_, ?_⟩
  · calc d.reg k0 = (e.setReg sp base).reg k0 := hd.reg k0 (by decide) (by decide)
      _ = c.reg k0 := by rw [setReg_of_ne (by decide), hereg]
  · calc d.reg sp = (e.setReg sp base).reg sp - 312 := hd.sp
      _ = base - 312 := by rw [hspe]
  · calc sext (d.cp0 .cause) = sext ((e.setReg sp base).cp0 .cause) := by rw [hd.cp0]
      _ = sext (c.cp0 .cause) := by rw [← he]; rfl
  · calc d.mem = Record.writeAll (e.setReg sp base).mem
          (frame (base - 312) (e.setReg sp base).context) := by rw [hd.mem, hspe]
      _ = Record.writeAll e.mem (frame (base - 312) c.context) := by rw [hcontext]; rfl
      _ = _ := by rw [← he]; rfl

/-- The return gets the registers of the program from the frame at the stack pointer. -/
theorem run_exceptionReturn (h : KernelAddr (c.reg sp) 0) (hk : Aligned (c.reg k0))
    (hx : Record.In c.mem (frame (c.reg sp) x)) :
    ∃ d, c.run exceptionReturn = some d ∧ (∀ f ∈ savedFields, d.field f = x f) ∧
      d.reg sp = c.mem (c.reg k0 + Kind.user.offset) ∧ d.reg k0 = c.reg k0 ∧
      d.mem = Function.update c.mem (c.reg k0 + Kind.kernel.offset) (c.reg sp + 312) := by
  obtain ⟨d, hrestore, hd⟩ := run_restoreContext h hx
  generalize he : d.setReg sp (c.reg sp + 312) = e at hrestore
  have hk0 : e.reg k0 = c.reg k0 := by
    rw [← he, setReg_of_ne (by decide)]
    exact hd.other (.reg k0) (by decide) (by decide)
  have hspe : e.reg sp = c.reg sp + 312 := by rw [← he, setReg_self]
  have hmem : e.mem = c.mem := by
    rw [← he]
    exact hd.mem
  have hstore := exec_sd sp (aligned_kind (hk0 ▸ hk) .kernel)
  generalize hs : e.store (e.reg k0 + Kind.kernel.offset) (e.reg sp) = s at hstore
  have hsreg : s.reg = e.reg := by rw [← hs]; rfl
  have hload := exec_ld sp (aligned_kind (show Aligned (s.reg k0) by rwa [hsreg, hk0]) .user)
  refine ⟨_,
    (run_append_of hrestore).trans ((run_cons_of hstore).trans ((run_cons_of hload).trans rfl)),
    fun f hf => ?_, ?_, ?_, ?_⟩
  · calc (s.setReg sp _).field f = s.field f := field_setReg (saved_ne hf (by decide))
      _ = e.field f := by
        rw [← hs]
        cases f <;> rfl
      _ = d.field f := by
        rw [← he]
        exact field_setReg (saved_ne hf (by decide))
      _ = x f := hd.fields f hf
  · calc (s.setReg sp _).reg sp = s.mem (s.reg k0 + Kind.user.offset) := setReg_self
      _ = e.mem (e.reg k0 + Kind.user.offset) := by
        rw [hsreg, ← hs]
        exact Function.update_of_ne (kind_ne _).symm _ _
      _ = c.mem (c.reg k0 + Kind.user.offset) := by rw [hmem, hk0]
  · calc (s.setReg sp _).reg k0 = s.reg k0 := setReg_of_ne (by decide)
      _ = c.reg k0 := by rw [hsreg, hk0]
  · calc s.mem = Function.update e.mem (e.reg k0 + Kind.kernel.offset) (e.reg sp) := by
          rw [← hs]
          rfl
      _ = _ := by rw [hmem, hk0, hspe]

/-- `start_up_return` goes on from the user context above the arguments. -/
theorem run_startUpReturn (hsp : sext (c.reg sp) = c.reg sp) (hv : sext (c.reg v0) = c.reg v0)
    (h : KernelAddr (sext (c.reg sp + c.reg v0)) 0) (hk : Aligned (c.reg k0)) :
    ∃ d, c.run startUpReturn = some d ∧ d.reg k0 = c.reg k0 ∧
      d.mem = Function.update c.mem (c.reg k0 + Kind.kernel.offset)
        (sext (c.reg sp + c.reg v0) + 312) := by
  have hadd : c.exec (.addu sp sp v0) = some (c.setReg sp (sext (c.reg sp + c.reg v0))) :=
    if_pos ⟨hsp, hv⟩
  generalize he : c.setReg sp (sext (c.reg sp + c.reg v0)) = e at hadd
  have hspe : e.reg sp = sext (c.reg sp + c.reg v0) := by rw [← he, setReg_self]
  have hk0 : e.reg k0 = c.reg k0 := by
    rw [← he]
    exact setReg_of_ne (by decide)
  have hmem : e.mem = c.mem := by rw [← he]; rfl
  obtain ⟨d, hd, -, -, hdk, hdm⟩ := run_exceptionReturn (hspe.symm ▸ h) (hk0 ▸ hk)
    (x := fun f => e.mem (e.reg sp + f.offset)) fun p hp => by
      obtain ⟨f, _, rfl⟩ := List.mem_map.mp hp
      rfl
  refine ⟨d, (run_cons_of hadd).trans hd, hdk.trans hk0, ?_⟩
  rw [hdm, hmem, hk0, hspe]

end Cpu

end MipsOs.Arch
