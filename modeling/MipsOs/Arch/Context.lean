import MipsOs.Arch.Cpu

/-!
# Saving and restoring the registers

`SAVE_CONTEXT` and `RESTORE_CONTEXT` of `arch/mips/kernel/entry.S`.  The first one makes
a frame of `OFFSET_SIZE` bytes on the stack and leaves the registers there, at the
offsets of `regs_context_t`.  The second one is the way back.

`run_saveContext` and `run_restoreContext` say what they do, in terms of the `frame`
that is a record in the memory.
-/

namespace MipsOs.Arch

open MipsOs.Lib Reg

/-- The fields of `regs_context_t` that are used. -/
inductive Field where
  | reg (r : Reg)
  | status | cause | hi | lo | badVAddr | epc
  deriving DecidableEq

/-- The values of the fields. -/
abbrev Context := Field → Word

namespace Field

/-- `OFFSET_REG0` to `OFFSET_EPC` -/
def offset : Field → Word
  | .reg r => BitVec.ofNat 64 (8 * r)
  | .status => 256
  | .cause => 264
  | .hi => 272
  | .lo => 280
  | .badVAddr => 288
  | .epc => 296

/-- The instruction that brings the field to `$k1`. -/
def read : Field → Instr
  | .reg r => .move k1 r
  | .status => .mfc0 k1 .status
  | .cause => .mfc0 k1 .cause
  | .hi => .mfhi k1
  | .lo => .mflo k1
  | .badVAddr => .mfc0 k1 .badVAddr
  | .epc => .mfc0 k1 .epc

/-- The instruction that sets the field from `$k1`. -/
def write : Field → Instr
  | .reg r => .move r k1
  | .status => .mtc0 k1 .status
  | .cause => .mtc0 k1 .cause
  | .hi => .mthi k1
  | .lo => .mtlo k1
  | .badVAddr => .mtc0 k1 .badVAddr
  | .epc => .mtc0 k1 .epc

end Field

/-- The fields behind the general registers, in the order of the macros. -/
def otherFields : List Field := [.status, .cause, .hi, .lo, .badVAddr, .epc]

/-- All fields that `SAVE_CONTEXT` writes, in the order of the macro. -/
def savedFields : List Field := savedRegs.map .reg ++ otherFields

/-- `OFFSET_SIZE` -/
def offsetSize : BitVec 32 := 312

/-- `SAVE_CONTEXT` -/
def saveContext : List Instr :=
  .addi sp sp (-offsetSize) :: (savedRegs.map (fun r => .sd r (Field.reg r).offset sp) ++
    otherFields.flatMap fun f => [f.read, .sd k1 f.offset sp])

/-- `RESTORE_CONTEXT` -/
def restoreContext : List Instr :=
  savedRegs.map (fun r => .ld r (Field.reg r).offset sp) ++
    ((otherFields.flatMap fun f => [.ld k1 f.offset sp, f.write]) ++ [.addi sp sp offsetSize])

/-! ## Frames -/

/-- The frame at an address. -/
def frame (base : Word) (x : Context) : Record Word Word :=
  savedFields.map fun f => (base + f.offset, x f)

/-- The places of a frame. -/
def framePlaces (base : Word) : List Word := savedFields.map fun f => base + f.offset

@[simp] theorem places_frame (base : Word) (x : Context) :
    Record.places (frame base x) = framePlaces base := by
  rw [Record.places, frame, List.map_map]
  rfl

theorem nodup_framePlaces (base : Word) : (framePlaces base).Nodup := by
  have hoffsets : (savedFields.map Field.offset).Nodup := by decide
  have hmap : framePlaces base = (savedFields.map Field.offset).map (base + ·) := by
    rw [List.map_map]
    rfl
  rw [hmap]
  exact hoffsets.map fun x y hxy => add_left_cancel hxy

/-- The offsets are those of doublewords of the frame. -/
theorem offset_spec {f : Field} (hf : f ∈ savedFields) :
    f.offset.toNat % 8 = 0 ∧ f.offset.toNat + 8 ≤ offsetSize.toNat := by
  revert f
  decide

/-- A frame is a range of addresses. -/
theorem framePlaces_range {base a : Word} (h : base.toNat + offsetSize.toNat ≤ 2 ^ 64)
    (ha : a ∈ framePlaces base) :
    base.toNat ≤ a.toNat ∧ a.toNat < base.toNat + offsetSize.toNat := by
  obtain ⟨f, hf, rfl⟩ := List.mem_map.mp ha
  have hoffset := (offset_spec hf).2
  rw [BitVec.toNat_add]
  omega

theorem aligned_offset {base : Word} (h : Aligned base) {f : Field} (hf : f ∈ savedFields) :
    Aligned (base + f.offset) := by
  have hoffset := (offset_spec hf).1
  unfold Aligned at h ⊢
  rw [BitVec.toNat_add]
  omega

theorem frame_field {m : Word → Word} {base : Word} {x : Context}
    (h : Record.In m (frame base x)) {f : Field} (hf : f ∈ savedFields) :
    m (base + f.offset) = x f := h _ (List.mem_map_of_mem hf)

theorem reg_mem {r : Reg} (hr : r ∈ savedRegs) : Field.reg r ∈ savedFields :=
  List.mem_append_left _ (List.mem_map_of_mem hr)

theorem other_mem {f : Field} (hf : f ∈ otherFields) : f ∈ savedFields := List.mem_append_right _ hf

theorem reg_not_other : ∀ r, Field.reg r ∉ otherFields := by decide

/-- A register is saved, or it is one of four. -/
theorem saved_cases (r : Reg) : r ∈ savedRegs ∨ r = zero ∨ r = k0 ∨ r = k1 ∨ r = sp := by
  revert r
  decide

/-! ## `SAVE_CONTEXT` -/

namespace Cpu

/-- What `SAVE_CONTEXT` leaves.  `mfc0` reads words. -/
def context (c : Cpu) : Context
  | .reg r => c.reg r
  | .status => sext (c.cp0 .status)
  | .cause => sext (c.cp0 .cause)
  | .hi => c.hi
  | .lo => c.lo
  | .badVAddr => sext (c.cp0 .badVAddr)
  | .epc => sext (c.cp0 .epc)

/-- The field as the processor has it. -/
def field (c : Cpu) : Field → Word
  | .reg r => c.reg r
  | .status => c.cp0 .status
  | .cause => c.cp0 .cause
  | .hi => c.hi
  | .lo => c.lo
  | .badVAddr => c.cp0 .badVAddr
  | .epc => c.cp0 .epc

variable {c d : Cpu} {x : Context} {f : Field} {l : List Field}

theorem exec_read (f : Field) : c.exec f.read = some (c.setReg k1 (c.context f)) := by
  cases f <;> rfl

/-- The fields beside the general registers go to the frame by way of `$k1`. -/
theorem run_spills (hl : ∀ f ∈ l, f ∈ otherFields) (hal : Aligned (c.reg sp)) :
    ∃ d, c.run (l.flatMap fun f => [f.read, .sd k1 f.offset sp]) = some d ∧
      (∀ r ≠ k1, d.reg r = c.reg r) ∧ d.cp0 = c.cp0 ∧
      d.mem = Record.writeAll c.mem (l.map fun f => (c.reg sp + f.offset, c.context f)) := by
  induction l generalizing c with
  | nil => exact ⟨c, rfl, fun _ _ => rfl, rfl, rfl⟩
  | cons f l ih =>
    obtain ⟨hf, hl⟩ := List.forall_mem_cons.mp hl
    let e := (c.setReg k1 (c.context f)).store (c.reg sp + f.offset) (c.context f)
    have hreg : ∀ r ≠ k1, e.reg r = c.reg r := fun r hr => setReg_of_ne hr
    have hsp := hreg sp (by decide)
    have hstore : (c.setReg k1 (c.context f)).exec (.sd k1 f.offset sp) = some e := by
      have hkeep : (c.setReg k1 (c.context f)).reg sp = c.reg sp := hsp
      rw [exec, hkeep, setReg_self, if_pos (aligned_offset hal (other_mem hf))]
    have hcontext : ∀ g ∈ otherFields, e.context g = c.context g := by
      intro g hg
      cases g with
      | reg r => exact absurd hg (reg_not_other r)
      | _ => rfl
    obtain ⟨d, hd, hregs, hcp0, hmem⟩ := ih (c := e) hl (hsp ▸ hal)
    refine ⟨d, ?_, fun r hr => (hregs r hr).trans (hreg r hr), hcp0, ?_⟩
    · rw [List.flatMap_cons, List.cons_append, List.cons_append, List.nil_append,
        run_cons_of (exec_read f), run_cons_of hstore, hd]
    · rw [hmem, hsp, List.map_congr_left fun g hg => by rw [hcontext g (hl g hg)]]
      rfl

/-- `d` has left the context of `c` in a frame, and has changed `$sp` and `$k1` only. -/
structure Spilled (c d : Cpu) : Prop where
  reg : ∀ r, r ≠ Reg.sp → r ≠ k1 → d.reg r = c.reg r
  sp : d.reg Reg.sp = c.reg Reg.sp - 312
  cp0 : d.cp0 = c.cp0
  mem : d.mem = Record.writeAll c.mem (frame (c.reg Reg.sp - 312) c.context)

/-- `SAVE_CONTEXT` makes a frame below the stack pointer. -/
theorem run_saveContext (h : KernelAddr (c.reg sp) offsetSize.toNat) :
    ∃ d, c.run saveContext = some d ∧ Spilled c d := by
  let d := c.setReg sp (c.reg sp - 312)
  have hsp : d.reg sp = c.reg sp - 312 := setReg_self
  have hal : Aligned (d.reg sp) := by
    have hal := h.aligned
    have hge := h.ge
    rw [hsp]
    unfold Aligned at hal ⊢
    bv_omega
  have hfirst : c.exec (.addi sp sp (-offsetSize)) = some d := by
    rw [h.addi (by decide)]
    simp only [d, BitVec.sub_eq_add_neg]
    rfl
  have hregs : d.run (savedRegs.map fun r => .sd r (Field.reg r).offset sp) = some _ :=
    run_stores fun r hr => aligned_offset hal (reg_mem hr)
  obtain ⟨e, hspills, hreg, hcp0, hmem⟩ := run_spills (l := otherFields) (c := { d with
    mem := Record.writeAll d.mem
      (savedRegs.map fun r => (d.reg sp + (Field.reg r).offset, d.reg r)) })
    (fun _ hf => hf) hal
  have hframe : frame (c.reg sp - 312) c.context =
      (savedRegs.map fun r => (d.reg sp + (Field.reg r).offset, d.reg r)) ++
        otherFields.map fun f => (d.reg sp + f.offset, d.context f) := by
    rw [frame, savedFields, List.map_append, List.map_map, hsp]
    refine congrArg₂ (· ++ ·) (List.map_congr_left fun r hr => ?_) rfl
    have hne : r ≠ sp := by
      rintro rfl
      exact absurd hr (by decide)
    exact congrArg _ (setReg_of_ne hne).symm
  refine ⟨e, (run_cons_of hfirst).trans ((run_append_of hregs).trans hspills), fun r hr hk => ?_,
    (hreg sp (by decide)).trans hsp, hcp0, ?_⟩
  · exact (hreg r hk).trans (setReg_of_ne hr)
  · rw [hmem, hframe, Record.writeAll_append]
    rfl

/-! ## `RESTORE_CONTEXT` -/

/-- The field is set. -/
def setField (c : Cpu) (f : Field) (v : Word) : Cpu :=
  match f with
  | .reg r => c.setReg r v
  | .status => c.setCp0 .status v
  | .cause => c.setCp0 .cause v
  | .hi => { c with hi := v }
  | .lo => { c with lo := v }
  | .badVAddr => c.setCp0 .badVAddr v
  | .epc => c.setCp0 .epc v

theorem exec_write (f : Field) : c.exec f.write = some (c.setField f (c.reg k1)) := by
  cases f <;> rfl

/-- `d` has the fields of the context, and is like `c` for the rest, but for `$k1`. -/
structure Loaded (c d : Cpu) (l : List Field) (x : Context) : Prop where
  fields : ∀ f ∈ l, d.field f = x f
  other : ∀ f ∉ l, f ≠ .reg k1 → d.field f = c.field f
  entryHi : d.cp0 .entryHi = c.cp0 .entryHi
  mem : d.mem = c.mem

theorem field_setField (f g : Field) (v : Word) :
    (c.setField f v).field g = if g = f then v else c.field g := by
  cases f <;> cases g <;> simp [setField, field, setReg, setCp0, Function.update_apply]

/-- The fields beside the general registers come back by way of `$k1`. -/
theorem run_unspills (hl : ∀ f ∈ l, f ∈ otherFields) (hal : Aligned (c.reg sp))
    (hx : ∀ f ∈ l, c.mem (c.reg sp + f.offset) = x f) :
    ∃ d, c.run (l.flatMap fun f => [.ld k1 f.offset sp, f.write]) = some d ∧ Loaded c d l x := by
  induction l generalizing c with
  | nil => exact ⟨c, rfl, nofun, fun _ _ _ => rfl, rfl, rfl⟩
  | cons f l ih =>
    obtain ⟨hf, hl⟩ := List.forall_mem_cons.mp hl
    obtain ⟨hxf, hx⟩ := List.forall_mem_cons.mp hx
    have hnotReg : ∀ r, f ≠ .reg r := by
      rintro r rfl
      exact reg_not_other r hf
    let e := (c.setReg k1 (x f)).setField f (x f)
    have hload : c.exec (.ld k1 f.offset sp) = some (c.setReg k1 (x f)) := by
      rw [exec, if_pos (aligned_offset hal (other_mem hf)), hxf]
    have hwrite : (c.setReg k1 (x f)).exec f.write = some e := by
      rw [exec_write, setReg_self]
    have hfield : ∀ g, g ≠ .reg k1 → e.field g = if g = f then x f else c.field g := by
      intro g hg
      rw [field_setField]
      split
      · rfl
      · exact (field_setField (c := c) (.reg k1) g (x f)).trans (if_neg hg)
    have hsp : e.reg sp = c.reg sp :=
      (hfield (.reg sp) (by decide)).trans (if_neg (hnotReg sp).symm)
    have hmem : e.mem = c.mem := by cases f <;> rfl
    have hhi : e.cp0 .entryHi = c.cp0 .entryHi := by cases f <;> rfl
    obtain ⟨d, hd, hloaded⟩ := ih (c := e) hl (hsp ▸ hal) (by rwa [hsp, hmem])
    refine ⟨d, ?_, ?_, ?_, hloaded.entryHi.trans hhi, hloaded.mem.trans hmem⟩
    · rw [List.flatMap_cons, List.cons_append, List.cons_append, List.nil_append,
        run_cons_of hload, run_cons_of hwrite, hd]
    · intro g hg
      by_cases hgl : g ∈ l
      · exact hloaded.fields g hgl
      · obtain rfl := (List.mem_cons.mp hg).resolve_right hgl
        rw [hloaded.other g hgl (hnotReg k1), hfield g (hnotReg k1), if_pos rfl]
    · intro g hg hne
      obtain ⟨hgf, hgl⟩ := not_or.mp (mt List.mem_cons.mpr hg)
      rw [hloaded.other g hgl hne, hfield g hne, if_neg hgf]

theorem Loaded.append {e : Cpu} {l' : List Field} (h : Loaded c d l x) (h' : Loaded d e l' x)
    (hk1 : .reg k1 ∉ l) : Loaded c e (l ++ l') x := by
  refine ⟨fun f hf => ?_, fun f hf hne => ?_, h'.entryHi.trans h.entryHi, h'.mem.trans h.mem⟩
  · by_cases hf' : f ∈ l'
    · exact h'.fields f hf'
    · have hfl := (List.mem_append.mp hf).resolve_right hf'
      have hne : f ≠ .reg k1 := by
        rintro rfl
        exact hk1 hfl
      rw [h'.other f hf' hne, h.fields f hfl]
  · obtain ⟨hfl, hfl'⟩ := not_or.mp (mt List.mem_append.mpr hf)
    rw [h'.other f hfl' hne, h.other f hfl hne]

/-- The loads of the general registers. -/
theorem run_loadRegs (hal : Aligned (c.reg sp))
    (hx : ∀ r ∈ savedRegs, c.mem (c.reg sp + (Field.reg r).offset) = x (.reg r)) :
    ∃ d, c.run (savedRegs.map fun r => .ld r (Field.reg r).offset sp) = some d ∧
      Loaded c d (savedRegs.map .reg) x := by
  have hplaces : Record.places
      (savedRegs.map fun r => (r, c.mem (c.reg sp + (Field.reg r).offset))) = savedRegs := by
    rw [Record.places, List.map_map]
    exact List.map_id _
  have hnodup : savedRegs.Nodup := by decide
  rw [← hplaces] at hnodup
  refine ⟨_, run_loads (by decide) fun r hr => aligned_offset hal (reg_mem hr),
    fun f hf => ?_, fun f hf _ => ?_, rfl, rfl⟩
  · obtain ⟨r, hr, rfl⟩ := List.mem_map.mp hf
    exact (Record.in_writeAll hnodup _ (List.mem_map_of_mem hr)).trans (hx r hr)
  · cases f with
    | reg r =>
      refine Record.writeAll_of_notMem ?_
      rw [hplaces]
      exact fun hr => hf (List.mem_map_of_mem hr)
    | _ => rfl

/-- `RESTORE_CONTEXT` gets the fields from the frame at `$sp`, and gives the frame back. -/
theorem run_restoreContext (h : KernelAddr (c.reg sp) 0)
    (hx : Record.In c.mem (frame (c.reg sp) x)) :
    ∃ d, c.run restoreContext = some (d.setReg sp (c.reg sp + 312)) ∧ Loaded c d savedFields x := by
  obtain ⟨c', hregs, hfirst⟩ := run_loadRegs h.aligned fun r hr => frame_field hx (reg_mem hr)
  have hsp : c'.reg sp = c.reg sp := hfirst.other (.reg sp) (by decide) (by decide)
  obtain ⟨d, hd, hloaded⟩ := run_unspills (c := c') (x := x) (l := otherFields) (fun _ hf => hf)
    (hsp ▸ h.aligned) fun f hf => by
      rw [hsp, hfirst.mem]
      exact frame_field hx (other_mem hf)
  have hall := hfirst.append hloaded (by decide)
  have hspd : d.reg sp = c.reg sp := hall.other (.reg sp) (by decide) (by decide)
  have hlast : d.exec (.addi sp sp offsetSize) = some (d.setReg sp (c.reg sp + 312)) := by
    have haddr : KernelAddr (d.reg sp) 0 := hspd ▸ h
    rw [haddr.addi (by decide), hspd]
    rfl
  refine ⟨d, ?_, hall⟩
  rw [restoreContext, run_append_of hregs, run_append_of hd, run_cons_of hlast, run_nil]

end Cpu

end MipsOs.Arch
