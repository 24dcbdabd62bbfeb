import MipsOs.Mm.UserPages
import MipsOs.Sched.BootTask
import MipsOs.Sched.PageTables

/-!
# Recycled frames

The kernel beside the bytes of the user pages.  A process stores through its page
table, and the frames of a dead process are handed out again.

Two systems run side by side.  They take the same events, but a store of the
process `p` may store different bytes.  `do_page_fault` hands a frame out as it
is, so a byte that `p` has left there is read by the next process.

`recycled_frames_leak_nothing` is the result: as long as no page fault takes a
freed frame with a byte of `p` in it, no other process tells the two runs apart.
`recycled_frame_leaks` is a pair of runs without the condition.
-/

namespace MipsOs.System

open MipsOs.Lib MipsOs.Mm MipsOs.Sched

/-- A store: the process, the user address and the byte of the memory. -/
structure Store where
  pid : Int
  addr : Nat
  byte : Nat

/-- The kernel, the memory behind the user pages, and the stores since boot, with
the last one in front. -/
structure UserSystem where
  kernel : Kernel PtrQueues
  ram : Nat → UInt8
  stores : List Store

/-- An event of the kernel, or a store of the running process. -/
inductive UserEvent where
  | kernel (e : Event)
  | store (addr : Nat) (value : UInt8)

namespace UserSystem

/-- A store goes through the page table of the running process. -/
def step (s : UserSystem) : UserEvent → Option UserSystem
  | .kernel e => (memoryRun s.kernel e).map fun k => { s with kernel := k }
  | .store addr value =>
    if s.kernel.mm.currentPgd = 0 then
      none
    else
      (s.kernel.mm.translate s.kernel.mm.currentPgd addr).map fun x =>
        { s with
          ram := Function.update s.ram x value
          stores := ⟨s.kernel.currentPid, addr, x⟩ :: s.stores }

/-- The system after initialisation, with any content of the memory. -/
def boot (barrier : BarrierId → Barrier) (tables : Nat → Nat → Nat) (ram : Nat → UInt8) :
    UserSystem where
  kernel := bootKernel barrier tables
  ram := ram
  stores := []

/-- What a process reads.  Nothing is read from a page that is not mapped. -/
def read (s : UserSystem) (i : Task) (addr : Nat) : Option UInt8 :=
  (s.kernel.mm.translate (s.kernel.pcb i).pageTable addr).map s.ram

/-- The process that has stored last into a byte. -/
def writer (s : UserSystem) (x : Nat) : Option Int :=
  (s.stores.find? fun st => st.byte = x).map Store.pid

/-- The process has stored nothing into the page of the address. -/
def Unwritten (s : UserSystem) (pid : Int) (addr : Nat) : Prop :=
  ∀ st ∈ s.stores, st.pid = pid → st.addr / pageSize ≠ addr / pageSize

/-- No process has the pid. -/
def Dead (s : UserSystem) (pid : Int) : Prop :=
  ∀ i, s.kernel.toCore.Lives none i → (s.kernel.pcb i).pid ≠ pid

/-- When the process `p` is dead, every process reads the same in both systems from
the pages that it has not written. -/
def NoFlow (p : Int) (s t : UserSystem) : Prop :=
  s.Dead p → ∀ i, s.kernel.toCore.Lives none i → ∀ addr,
    s.Unwritten (s.kernel.pcb i).pid addr → s.read i addr = t.read i addr

/-- The events are the same, but for the bytes that the process `p` stores.  The
boot code does not wait. -/
def Called (p : Int) (s : UserSystem × UserSystem) : UserEvent × UserEvent → Prop
  | (.kernel e, .kernel e') => e = e' ∧ BootOk s.1.kernel.toCore e
  | (.store addr v, .store addr' v') => addr = addr' ∧ (s.1.kernel.currentPid ≠ p → v = v')
  | _ => False

/-- The freed frames that a page fault takes have no byte in them that the process
`p` has stored last. -/
def Clean (p : Int) (s : UserSystem × UserSystem) : UserEvent × UserEvent → Prop
  | (.kernel e, _) => ∀ addr ∈ e.call.faultAddr, ∀ f ∈ s.1.kernel.mm.reused addr,
      ∀ o < pageSize, s.1.writer (f + o) ≠ some p
  | _ => True

section Decidable

variable (p : Int) (s : UserSystem) (u : UserSystem × UserSystem)

instance (addr : Nat) : Decidable (s.Unwritten p addr) :=
  inferInstanceAs (Decidable (∀ _ ∈ _, _ → _ ≠ _))

instance : Decidable (s.Dead p) := inferInstanceAs (Decidable (∀ _, _ → _ ≠ _))

instance : (e : UserEvent × UserEvent) → Decidable (Called p u e)
  | (.kernel e, .kernel e') => decidable_of_iff
      (e.sp = e'.sp ∧ e.call = e'.call ∧ BootOk u.1.kernel.toCore e) (by
        obtain ⟨_, _⟩ := e
        obtain ⟨_, _⟩ := e'
        simp [Called, and_assoc])
  | (.store _ _, .store _ _) => inferInstanceAs (Decidable (_ ∧ (_ → _)))
  | (.kernel _, .store _ _) => isFalse id
  | (.store _ _, .kernel _) => isFalse id

instance : (e : UserEvent × UserEvent) → Decidable (Clean p u e)
  | (.kernel _, _) => inferInstanceAs (Decidable (∀ _ ∈ _, ∀ _ ∈ _, ∀ _ < _, _ ≠ _))
  | (.store _ _, _) => isTrue trivial

end Decidable

section Invariant

variable {p : Int} {s t s' t' : UserSystem} {a a' : Kernel ListQueues} {e : Event} {x : Nat}

theorem writer_mem {pid : Int} (h : s.writer x = some pid) :
    ∃ st ∈ s.stores, st.byte = x ∧ st.pid = pid := by
  obtain ⟨st, hfind, hpid⟩ := Option.map_eq_some_iff.mp h
  exact ⟨st, List.mem_of_find?_eq_some hfind, by simpa using List.find?_some hfind, hpid⟩

/-- The two systems differ in the bytes only that the process `p` has stored last,
and no other process maps one of them. -/
structure Twins (p : Int) (s t : UserSystem) (a : Kernel ListQueues) : Prop where
  follows : Follows a s.kernel
  kernel : KernelInv a
  boot : BootInv a
  same : t.kernel = s.kernel
  stores : t.stores = s.stores
  ram : ∀ x, s.writer x ≠ some p → t.ram x = s.ram x
  clean : ∀ i, a.toCore.Lives none i → (a.pcb i).pid ≠ p → ∀ addr x,
    a.mm.translate (a.pcb i).pageTable addr = some x → s.writer x ≠ some p
  carved : ∀ st ∈ s.stores, st.byte < a.mm.pageCtrlUser.nextPageAddr

theorem Twins.noFlow (h : Twins p s t a) : NoFlow p s t := by
  intro hdead i hlive addr _
  have hpid := hdead i hlive
  unfold read
  rw [h.same]
  rw [h.follows.core] at hlive hpid ⊢
  cases hx : a.mm.translate (a.pcb i).pageTable addr with
  | none => rfl
  | some x => exact congrArg some (h.ram x (h.clean i hlive hpid addr x hx)).symm

/-! ### Events of the kernel -/

/-- The pool of frames hands nothing out twice as new. -/
theorem userNext_le (hspaces : Spaces none a) {call : Call} (h : Moves a.toCore call a a') :
    a.mm.pageCtrlUser.nextPageAddr ≤ a'.mm.pageCtrlUser.nextPageAddr := by
  apply h.invariant
    (fun b => a.mm.pageCtrlUser.nextPageAddr ≤ b.mm.pageCtrlUser.nextPageAddr) le_rfl
  intro b c _ hmove hb
  cases hmove with
  | aside hpcb hqueues hcur hpid hnext hmm =>
    rw [hmm]
    exact hb
  | freeMemory hdying hoff hpgd =>
    apply hb.trans_eq
    exact (freePgd_userNext _ _).symm
  | fault hcall hstart hpgd =>
    have hmm : b.mm = a.mm := congrArg Core.mm hstart
    apply hb.trans
    rw [hmm]
    exact hspaces.owns.next_le_doTlbRefill _
  | _ => exact hb

/-- One event of a pointer kernel that follows a list kernel. -/
theorem Twins.follow (h : Twins p s t a) (hok : BootOk s.kernel.toCore e) {k : Kernel PtrQueues}
    (hrun : memoryRun s.kernel e = some k) :
    ∃ a', Follows a' k ∧ BootInv a' ∧ Kept a a' e ∧ kernelStep a e = .ok a' ∧
      Moves a.toCore e.call a a' ∧ k.mm.InRange := by
  obtain ⟨hkernel, hrange⟩ := Option.filter_eq_some_iff.mp hrun
  obtain ⟨a', hfollows', hboot', ha', hmoves⟩ := h.boot.follow h.follows hok hkernel
  have hkill : e.call ≠ .kill 0 := by
    intro hcall
    rw [h.boot.kill_zero hcall] at ha'
    cases ha'
  have hr := of_decide_eq_true hrange
  have hkept := (h.kernel.step hkill).of_ok ha'
  rw [hfollows'.core] at hr ⊢
  exact ⟨a', hfollows', hboot', hkept hr, ha', hmoves, hr⟩

/-- The entry of an address is one of the pair. -/
theorem exists_half (addr : Nat) : ∃ half, ∀ (m : Memory) pgd,
    m.word pgd ((addr >>> 22) &&& 0x3ff) ((addr >>> 12) &&& 0x3ff) =
      m.pte pgd (addr >>> 13) half := by
  refine ⟨⟨(addr >>> 12) % 2, by omega⟩, fun m pgd => ?_⟩
  have hindex : (addr >>> 12) &&& 0x3ff = tableIndex (addr >>> 13) + (addr >>> 12) % 2 := by
    rw [tableIndex_eq, show 0x3ff = 2 ^ 10 - 1 from rfl, and_mask, Nat.shiftRight_eq_div_pow,
      Nat.shiftRight_eq_div_pow]
    omega
  rw [pgdOffset_eq, hindex]
  rfl

/-- An event that is no page fault maps nothing. -/
theorem translate_kept (hkeeps : KeepsTables a a') {i : Task} (hlive' : a'.toCore.Lives none i)
    {addr : Nat} (hx : a'.mm.translate (a'.pcb i).pageTable addr = some x) :
    a.toCore.Lives none i ∧ (a'.pcb i).pid = (a.pcb i).pid ∧
      a.mm.translate (a.pcb i).pageTable addr = some x := by
  obtain ⟨half, hhalf⟩ := exists_half addr
  obtain ⟨hvalid, hbyte⟩ := translate_eq_some.mp hx
  rw [hhalf] at hvalid hbyte
  by_cases hlive : a.toCore.Lives none i
  · obtain ⟨hpid, hpte⟩ := hkeeps.kept i hlive hlive'
    have hword := hpte (addr >>> 13) half
    rw [Core.pteOf, Core.pteOf] at hword
    rw [hword] at hvalid hbyte
    refine ⟨hlive, hpid, translate_eq_some.mpr ?_⟩
    rw [hhalf]
    exact ⟨hvalid, hbyte⟩
  · have hzero := (hkeeps.born i hlive hlive').2 (addr >>> 13) half
    rw [Core.pteOf] at hzero
    rw [hzero] at hvalid
    exact absurd hvalid not_pteValid_zero

/-- A page fault maps frames that have no byte of `p` in them. -/
theorem Twins.clean_fault (h : Twins p s t a) {addr : Nat} (hpgd : a.mm.currentPgd ≠ 0)
    (hr : (a.mm.doTlbRefill addr).InRange)
    (hclean : ∀ f ∈ a.mm.reused addr, ∀ o < pageSize, s.writer (f + o) ≠ some p) {i : Task}
    (hlive : a.toCore.Lives none i) (hpid : (a.pcb i).pid ≠ p) {addr' : Nat}
    (hx : (a.mm.doTlbRefill addr).translate (a.pcb i).pageTable addr' = some x) :
    s.writer x ≠ some p := by
  have hcur := h.kernel.spaces.current_lives h.kernel.current_space h.kernel.toSchedInv hpgd
  have hmem : a.mm.currentPgd ∈ a.toCore.livePgds none :=
    mem_livePgds.mpr ⟨_, hcur, h.kernel.current_space.symm⟩
  obtain ⟨hvalid, hbyte⟩ := translate_eq_some.mp hx
  have hoff : addr' % pageSize < pageSize := Nat.mod_lt _ (by decide)
  rcases h.kernel.spaces.owns.takes_doTlbRefill hmem hr (mem_livePgds.mpr ⟨i, hlive, rfl⟩)
    (and_mask_lt _) ((addr' >>> 12) &&& 0x3ff) with heq | hreused | hfresh
  · rw [heq] at hvalid hbyte
    exact h.clean i hlive hpid addr' x (translate_eq_some.mpr ⟨hvalid, hbyte⟩)
  · rw [← hbyte]
    exact hclean _ hreused _ hoff
  · intro hwriter
    obtain ⟨st, hst, rfl, _⟩ := writer_mem hwriter
    have hlt := h.carved st hst
    omega

theorem Twins.kernelEvent (h : Twins p s t a) (hok : BootOk s.kernel.toCore e)
    (hclean : ∀ addr ∈ e.call.faultAddr, ∀ f ∈ s.kernel.mm.reused addr, ∀ o < pageSize,
      s.writer (f + o) ≠ some p) {k : Kernel PtrQueues} (hrun : memoryRun s.kernel e = some k) :
    ∃ a', Twins p { s with kernel := k } { t with kernel := k } a' := by
  obtain ⟨a', hfollows', hboot', hkept, ha', hmoves, hr⟩ := h.follow hok hrun
  have hmm : s.kernel.mm = a.mm := congrArg Core.mm h.follows.core
  rw [hmm] at hclean
  refine ⟨a', hfollows', hkept.inv, hboot', rfl, h.stores, h.ram, ?_, fun st hst => ?_⟩
  · intro i hlive' hpid' addr x hx
    by_cases hfault : ∃ addr, e.call = .pageFault addr
    · obtain ⟨addr₀, hcall⟩ := hfault
      simp only [kernelStep, hcall, Kernel.pageFault] at ha'
      split at ha'
      · cases ha'
      · rename_i hpgd
        obtain rfl := Except.ok.inj ha'
        rw [hfollows'.core] at hr
        exact h.clean_fault hpgd hr (hclean addr₀ (by rw [hcall]; rfl)) hlive' hpid' hx
    · have hkill : e.call ≠ .kill 0 := by
        intro hcall
        rw [h.boot.kill_zero hcall] at ha'
        cases ha'
      have hkeeps := (h.kernel.toRunInv.keepsTables h.kernel.spaces hkill
        fun addr hcall => hfault ⟨addr, hcall⟩).of_ok ha'
      obtain ⟨hlive, hpid, hx'⟩ := translate_kept hkeeps hlive' hx
      rw [hpid] at hpid'
      exact h.clean i hlive hpid' addr x hx'
  · exact (h.carved st hst).trans_le (userNext_le h.kernel.spaces hmoves)

/-! ### Stores -/

theorem writer_store (s : UserSystem) (st : Store) (ram : Nat → UInt8) (y : Nat) :
    writer { s with ram := ram, stores := st :: s.stores } y =
      if st.byte = y then some st.pid else s.writer y := by
  unfold writer
  rw [List.find?_cons]
  by_cases hy : st.byte = y
  · simp [hy]
  · simp [hy]

/-- A store of the running process. -/
theorem Twins.store (h : Twins p s t a) {addr : Nat} {v w : UInt8}
    (hsame : s.kernel.currentPid ≠ p → v = w) (hpgd : s.kernel.mm.currentPgd ≠ 0)
    (hx : s.kernel.mm.translate s.kernel.mm.currentPgd addr = some x) :
    Twins p
      { s with
        ram := Function.update s.ram x v
        stores := ⟨s.kernel.currentPid, addr, x⟩ :: s.stores }
      { kernel := s.kernel
        ram := Function.update t.ram x w
        stores := ⟨s.kernel.currentPid, addr, x⟩ :: t.stores } a := by
  have hcore := h.follows.core
  rw [hcore] at hsame hpgd hx ⊢
  have hcur := h.kernel.spaces.current_lives h.kernel.current_space h.kernel.toSchedInv hpgd
  have hmem : a.mm.currentPgd ∈ a.toCore.livePgds none :=
    mem_livePgds.mpr ⟨_, hcur, h.kernel.current_space.symm⟩
  refine ⟨h.follows, h.kernel, h.boot, rfl, congrArg (_ :: ·) h.stores, fun y hy => ?_, ?_,
    fun st hst => ?_⟩
  · show Function.update t.ram x w y = Function.update s.ram x v y
    rw [writer_store] at hy
    by_cases hxy : y = x
    · rw [if_pos hxy.symm] at hy
      rw [hxy, Function.update_self, Function.update_self]
      exact (hsame fun hpid => hy (congrArg some hpid)).symm
    · rw [if_neg (Ne.symm hxy)] at hy
      rw [Function.update_of_ne hxy, Function.update_of_ne hxy]
      exact h.ram y hy
  · intro i hlive hpid addr' y hy
    rw [writer_store]
    split
    · rename_i hxy
      obtain rfl := hxy
      have hsame := h.kernel.spaces.owns.translate_inj hmem (mem_livePgds.mpr ⟨i, hlive, rfl⟩) hx hy
      rw [h.kernel.current_space] at hsame
      obtain rfl := h.kernel.spaces.inj _ i hcur hlive hsame
      intro heq
      rw [h.kernel.current_pid] at heq
      exact hpid (Option.some.inj heq)
    · exact h.clean i hlive hpid addr' y hy
  · rcases List.mem_cons.mp hst with rfl | hst
    · exact h.kernel.spaces.owns.translate_lt hmem hx
    · exact h.carved st hst

theorem Twins.step (h : Twins p s t a) {e f : UserEvent} (hcalled : Called p (s, t) (e, f))
    (hclean : Clean p (s, t) (e, f)) (hs : s.step e = some s') (ht : t.step f = some t') :
    ∃ a', Twins p s' t' a' := by
  cases e with
  | kernel e =>
    cases f with
    | store => exact hcalled.elim
    | kernel f =>
      obtain ⟨rfl, hok⟩ := hcalled
      obtain ⟨k, hk, rfl⟩ := Option.map_eq_some_iff.mp hs
      obtain ⟨k', hk', rfl⟩ := Option.map_eq_some_iff.mp ht
      rw [h.same, hk] at hk'
      obtain rfl := Option.some.inj hk'
      exact h.kernelEvent hok (hclean) hk
  | store addr v =>
    cases f with
    | kernel => exact hcalled.elim
    | store addr' w =>
      obtain ⟨rfl, hsame⟩ := hcalled
      simp only [UserSystem.step, h.same] at hs ht
      by_cases hpgd : s.kernel.mm.currentPgd = 0
      · rw [if_pos hpgd] at hs
        cases hs
      · rw [if_neg hpgd] at hs ht
        obtain ⟨x, hx, rfl⟩ := Option.map_eq_some_iff.mp hs
        rw [hx] at ht
        obtain rfl := Option.some.inj ht
        exact ⟨a, h.store hsame hpgd hx⟩

theorem twins_boot (p : Int) (barrier : BarrierId → Barrier) (tables : Nat → Nat → Nat)
    (ram : Nat → UInt8) : Twins p (boot barrier tables ram) (boot barrier tables ram)
      (bootLists barrier tables) where
  follows := bootLists_follows barrier tables
  kernel := bootLists_kernelInv barrier tables
  boot := bootLists_bootInv barrier tables
  same := rfl
  stores := rfl
  ram _ _ := rfl
  clean _ _ _ _ _ _ hwriter := by cases hwriter
  carved _ hst := by cases hst

/-- In every two runs from boot that differ in the bytes only that the process `p`
stores, and in which no page fault takes a freed frame with a byte of `p` in it,
nobody else reads a byte of `p`. -/
theorem recycled_frames_leak_nothing (p : Int) (barrier : BarrierId → Barrier)
    (tables : Nat → Nat → Nat) (ram : Nat → UInt8)
    (h : Reaches (both step) (fun s e => Called p s e ∧ Clean p s e)
      (boot barrier tables ram, boot barrier tables ram) (s, t)) : NoFlow p s t := by
  have htwins : ∃ a, Twins p s t a := by
    apply h.unwinding (fun s t => ∃ a, Twins p s t a)
    · exact ⟨_, twins_boot p barrier tables ram⟩
    · intro s t e f s' t' hst hok hs ht
      obtain ⟨a, hst⟩ := hst
      exact hst.step hok.1 hok.2 hs ht
  obtain ⟨a, htwins⟩ := htwins
  exact htwins.noFlow

end Invariant

/-! ## A recycled frame -/

/-- Boot over cleared memory. -/
def blank : UserSystem :=
  boot (fun _ => { goal := 1, now := 0 }) (fun _ _ => 0) fun _ => 0

/-- The same event in both systems. -/
def same (call : Call) : UserEvent × UserEvent := (.kernel ⟨0, call⟩, .kernel ⟨0, call⟩)

/-- Process 1 stores 1 in one system and 2 in the other, and process 2 has frames of
its own. -/
def storing : List (UserEvent × UserEvent) :=
  [same (.spawn 0), same (.spawn 0), same .yield, same (.pageFault 0),
    (.store 0 1, .store 0 2), same .yield, same (.pageFault 0), same .yield]

/-- The two systems after these stores. -/
def stored : UserSystem × UserSystem :=
  (runIf (both step) (fun s e => Called 1 s e ∧ Clean 1 s e) (blank, blank) storing).getD
    (blank, blank)

theorem stored_run :
    runIf (both step) (fun s e => Called 1 s e ∧ Clean 1 s e) (blank, blank) storing =
      some stored := rfl

/-- The memory after process 1 has given its page table and its two frames back. -/
def givenBack (m : Memory) : Memory :=
  { m with
    pageCtrlUser := { m.pageCtrlUser with freePages := [userStart + pageSize, userStart] }
    pageCtrlPt := { m.pageCtrlPt with freePages := [ptStart + tableSize] }
    pageCtrlPgd := { m.pageCtrlPgd with freePages := [pgdStart] } }

theorem stored_freePgd :
    stored.1.kernel.mm.freePgd pgdStart = givenBack stored.1.kernel.mm := by
  have htable : ∀ j, stored.1.kernel.mm.tables (ptStart + tableSize) (j + 2) = 0 := fun _ => rfl
  have hdir : ∀ i, stored.1.kernel.mm.tables pgdStart (i + 1) = ptStart := fun _ => rfl
  have hframes : stored.1.kernel.mm.freeFrames (ptStart + tableSize) =
      stored.1.kernel.mm.freeSome (ptStart + tableSize) 2 := by
    rw [freeFrames_eq]
    apply freeSome_skip (by decide)
    intro j hj
    obtain ⟨j, rfl⟩ := Nat.exists_eq_add_of_le' hj
    rw [freeSome_tables, htable]
    exact not_pteValid_zero
  have hone : stored.1.kernel.mm.freeTables pgdStart 1 =
      { stored.1.kernel.mm with
        pageCtrlUser := (givenBack stored.1.kernel.mm).pageCtrlUser
        pageCtrlPt := (givenBack stored.1.kernel.mm).pageCtrlPt } := by
    have hentry : stored.1.kernel.mm.tables pgdStart 0 = ptStart + tableSize := rfl
    have hne : stored.1.kernel.mm.tables pgdStart 0 ≠ stored.1.kernel.mm.globalEmptyPt := by
      decide
    show stored.1.kernel.mm.freeTable pgdStart 0 = _
    rw [freeTable_eq, if_pos hne, hentry, hframes]
    rfl
  have hall : stored.1.kernel.mm.freeTables pgdStart numEntry =
      stored.1.kernel.mm.freeTables pgdStart 1 := by
    apply freeTables_skip (by decide)
    intro i hi
    obtain ⟨i, rfl⟩ := Nat.exists_eq_add_of_le' hi
    rw [hone]
    exact hdir i
  rw [freePgd_eq, hall, hone]
  rfl

/-- The kernel in the middle of the exit of process 1. -/
def freed : Kernel PtrQueues :=
  { stored.1.kernel.setPcb 1 { stored.1.kernel.cur with status := .exited } with
    kernelStackUsed :=
      freeKernelStack stored.1.kernel.kernelStackUsed (stored.1.kernel.pcb 1).kernelSp
    mm := givenBack stored.1.kernel.mm }

/-- The rest of the exit. -/
def exitRest : Except Fault (Kernel PtrQueues) := do
  let k ← Kernel.releaseLocks 1 (List.finRange maxLock) freed
  let k ← k.wakeWaiting 1
  (k.freePcb 1).doScheduler 0

theorem stored_exit : kernelStep stored.1.kernel ⟨0, .exit⟩ = exitRest := by
  have hfree : (stored.1.kernel.setPcb 1
      { stored.1.kernel.cur with status := .exited }).toCore.freeMemory 1 = freed.toCore := by
    unfold Core.freeMemory
    show _ = ({ (_ : Core) with kernelStackUsed := _, mm := givenBack stored.1.kernel.mm } : Core)
    rw [← stored_freePgd]
    rfl
  have hpgd : ((stored.1.kernel.setPcb 1
      { stored.1.kernel.cur with status := .exited }).pcb 1).pageTable ≠ 0 := by decide
  show (stored.1.kernel.setPcb 1 { stored.1.kernel.cur with status := .exited }).freeProc 1 >>=
    (fun k => k.doScheduler 0) = _
  unfold Kernel.freeProc
  rw [if_neg hpgd, hfree]
  rfl

/-- The two systems after process 1 has exited. -/
def exited : UserSystem × UserSystem :=
  ({ stored.1 with kernel := exitRest.toOption.getD stored.1.kernel },
    { stored.2 with kernel := exitRest.toOption.getD stored.1.kernel })

theorem exited_step : both step stored (same .exit) = some exited := by
  have hrun : memoryRun stored.1.kernel ⟨0, .exit⟩ = some exited.1.kernel := by
    have hsome : exitRest.toOption = some exited.1.kernel := rfl
    have hr : exited.1.kernel.mm.InRange := by decide +kernel
    unfold memoryRun kernelRun
    rw [stored_exit, hsome]
    exact Option.filter_eq_some_iff.mpr ⟨rfl, decide_eq_true hr⟩
  have hsame : stored.2.kernel = stored.1.kernel := rfl
  have hstep : ∀ (s : UserSystem) e, s.step (.kernel e) =
      (memoryRun s.kernel e).map fun k => { s with kernel := k } := fun _ _ => rfl
  apply both_eq_some.mpr
  constructor
  · show stored.1.step (.kernel ⟨0, .exit⟩) = some exited.1
    rw [hstep, hrun]
    rfl
  · show stored.2.step (.kernel ⟨0, .exit⟩) = some exited.2
    rw [hstep, hsame, hrun]
    rfl

theorem exited_reaches : Reaches (both step) (fun s e => Called 1 s e ∧ Clean 1 s e)
    (blank, blank) exited :=
  (reaches_of_runIf stored_run).snoc (e := same .exit)
    ⟨⟨rfl, fun _ => rfl⟩, by intro addr haddr; cases haddr⟩ exited_step

/-- Process 2 has new frames, and reads the same in both systems after process 1 has
exited. -/
theorem new_frames_leak_nothing :
    exited.1.Dead 1 ∧ exited.1.ram userStart ≠ exited.2.ram userStart ∧
      exited.1.read 2 0 = some 0 ∧ NoFlow 1 exited.1 exited.2 :=
  ⟨by decide, by decide, by decide, recycled_frames_leak_nothing 1 _ _ _ exited_reaches⟩

/-- Process 3 is spawned after process 1 has exited, gets the frames of process 1,
and reads the byte that process 1 has stored. -/
theorem recycled_frame_leaks : ¬ ∀ p s t, Reaches (both step) (Called p) (blank, blank) (s, t) →
    NoFlow p s t := by
  intro hall
  have hrun : (runIf (both step) (Called 1) exited
      [same (.spawn 0), same .yield, same (.pageFault 0)]).map (fun u =>
        decide (u.1.Dead 1 ∧ u.1.kernel.toCore.Lives none 1 ∧
          u.1.Unwritten (u.1.kernel.pcb 1).pid pageSize ∧
          u.1.read 1 pageSize ≠ u.2.read 1 pageSize)) = some true := by
    decide +kernel
  obtain ⟨⟨s, t⟩, hs, hread⟩ := Option.map_eq_some_iff.mp hrun
  obtain ⟨hdead, hlive, hunwritten, hne⟩ := of_decide_eq_true hread
  have hreach : Reaches (both step) (Called 1) (blank, blank) (s, t) :=
    (exited_reaches.mono fun _ _ h => h.1).trans (reaches_of_runIf hs)
  exact hne (hall 1 s t hreach hdead 1 hlive _ hunwritten)

end UserSystem

end MipsOs.System
