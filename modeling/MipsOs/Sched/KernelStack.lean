import MipsOs.Sched.PageTables

/-!
# The kernel stacks

`new_kernel_stack` marks a slot of the stack area as used, and `free_proc`
clears the slot that it computes from the saved `kernel_sp` of the process.
The stack pointer has moved by then, so the slot is the right one only while
the pointer stays in it.

`StackSystem` keeps the slot that each PCB was given at its last `do_spawn`.
`kernel_stacks_exclusive` is the result: the live processes have distinct
slots, a slot is marked as used exactly if a live process has it, a process
that is freed clears its own slot and no other, and there is a free slot
whenever there is a free PCB.
-/

namespace MipsOs.Sched

open MipsOs.Lib MipsOs.Mm

/-! ## Slots -/

/-- The stack pointer lies less than a slot below the top of slot `m`. -/
def InSlot (m sp : Nat) : Prop :=
  sp ≤ stackTop - m * stackSize ∧ stackTop - m * stackSize < sp + stackSize

instance (m sp : Nat) : Decidable (InSlot m sp) := inferInstanceAs (Decidable (_ ∧ _))

theorem InSlot.slot_eq {m sp : Nat} (h : InSlot m sp) (hm : m < numMaxTask) :
    (2 ^ 64 + stackTop - sp) % 2 ^ 64 / stackSize = m := by
  unfold InSlot at h
  simp only [stackTop, stackSize, numMaxTask] at h hm ⊢
  omega

theorem InSlot.free {m sp : Nat} (h : InSlot m sp) (hm : m < numMaxTask) (used : Nat → Bool) :
    freeKernelStack used sp = Function.update used m false := by
  rw [freeKernelStack, h.slot_eq hm]

/-- `new_kernel_stack` finds no slot, or marks a free one. -/
theorem newKernelStack_cases (used : Nat → Bool) :
    (∀ m, 0 < m → m < numMaxTask → used m = true) ∨
      ∃ m, 0 < m ∧ m < numMaxTask ∧ used m = false ∧
        newKernelStack used = (stackTop - m * stackSize, Function.update used m true) := by
  unfold newKernelStack
  cases hfind : (List.range numMaxTask).find? fun i => i ≠ 0 ∧ used i = false with
  | none =>
    refine Or.inl fun m hpos hm => ?_
    have hnot := List.find?_eq_none.mp hfind m (List.mem_range.mpr hm)
    simpa [Nat.pos_iff_ne_zero.mp hpos] using hnot
  | some m =>
    have hfound := List.find?_some hfind
    have hmem := List.mem_range.mp (List.mem_of_find?_eq_some hfind)
    simp only [decide_eq_true_eq] at hfound
    exact Or.inr ⟨m, Nat.pos_of_ne_zero hfound.1, hmem, hfound.2, rfl⟩

theorem slot_newKernelStack {m : Nat} (hm : m < numMaxTask) :
    (stackTop - (stackTop - m * stackSize)) / stackSize = m := by
  simp only [stackTop, stackSize, numMaxTask] at hm ⊢
  omega

/-- The first stack pointer of a process with at most 50 arguments. -/
theorem inSlot_newProcess {m argc : Nat} (hm : m < numMaxTask) (hargc : argc ≤ 50) :
    InSlot m ((2 ^ 64 + (stackTop - m * stackSize) -
      (2 * regsContextSize + 64 * argc) % 2 ^ 64) % 2 ^ 64) := by
  unfold InSlot
  simp only [stackTop, stackSize, numMaxTask, regsContextSize] at hm ⊢
  omega

/-! ## One event -/

/-- The table of used slots, and the saved stack pointers of some tasks lie in
their slots. -/
structure Stacked (alive : Task → Prop) (slot : Task → Nat) (used : Nat → Bool)
    (k : Kernel ListQueues) : Prop where
  used_eq : k.kernelStackUsed = used
  inSlot : ∀ i, alive i → InSlot (slot i) (k.pcb i).kernelSp
  zero : (k.pcb 0).pageTable = 0

section Lists

variable {alive alive' : Task → Prop} {slot : Task → Nat} {used : Nat → Bool}
  {k k' : Kernel ListQueues} {i : Task} {q : QueueId} {s : TaskStatus}

theorem Stacked.mono (h : Stacked alive slot used k) (halive : ∀ i, alive' i → alive i) :
    Stacked alive' slot used k :=
  ⟨h.used_eq, fun i hi => h.inSlot i (halive i hi), h.zero⟩

theorem Stacked.setPcb (h : Stacked alive slot used k) {p : Pcb}
    (hsp : alive i → InSlot (slot i) p.kernelSp) (hpgd : p.pageTable = (k.pcb i).pageTable) :
    Stacked alive slot used (k.setPcb i p) := by
  refine ⟨h.used_eq, fun j hj => ?_, ?_⟩
  · by_cases hji : j = i
    · subst hji
      rw [Kernel.setPcb_pcb_self]
      exact hsp hj
    · rw [Kernel.setPcb_pcb_of_ne hji]
      exact h.inSlot j hj
  · by_cases hi : 0 = i
    · subst hi
      rw [Kernel.setPcb_pcb_self, hpgd]
      exact h.zero
    · rw [Kernel.setPcb_pcb_of_ne hi]
      exact h.zero

/-- A change of a PCB that keeps the stack pointer. -/
theorem Stacked.update (h : Stacked alive slot used k) {p : Pcb}
    (hsp : p.kernelSp = (k.pcb i).kernelSp) (hpgd : p.pageTable = (k.pcb i).pageTable) :
    Stacked alive slot used (k.setPcb i p) := by
  apply h.setPcb _ hpgd
  rw [hsp]
  exact h.inSlot i

theorem Stacked.enqueued (h : Stacked alive slot used k) (hi : k.queues.owner i = none) :
    Stacked alive slot used (k.enqueued q i s hi) := by
  have hset := h.update (i := i) (p := { k.pcb i with status := s, inQueue := some q }) rfl rfl
  exact ⟨hset.used_eq, hset.inSlot, hset.zero⟩

theorem Stacked.woken (h : Stacked alive slot used k) (hi : k.queues.owner i = some q) :
    Stacked alive slot used (k.woken q i hi) := by
  have htaken : Stacked alive slot used (k.taken q i hi) := ⟨h.used_eq, h.inSlot, h.zero⟩
  exact htaken.enqueued _

theorem Stacked.quiet (alive : Task → Prop) (slot : Task → Nat) (used : Nat → Bool) :
    Quiet (Stacked alive slot used) where
  locks _ _ _ h := h.update rfl rfl
  lock _ _ _ h := ⟨h.used_eq, h.inSlot, h.zero⟩
  woken _ _ _ hi h := h.woken hi

/-- The slots after the task `d` has been freed. -/
def clearSlot (slot : Task → Nat) (used : Nat → Bool) : Option Task → Nat → Bool
  | none => used
  | some d => Function.update used (slot d) false

/-- The slot of the task `d` is cleared.  PCB 0 has no page directory to free. -/
structure Cleared (alive : Task → Prop) (slot : Task → Nat) (used : Nat → Bool)
    (d : Option Task) (k : Kernel ListQueues) : Prop
    extends Stacked alive slot (clearSlot slot used d) k where
  ne_zero : d ≠ some 0

theorem Stacked.cleared (h : Stacked alive slot used k) : Cleared alive slot used none k :=
  ⟨h, by simp⟩

theorem Cleared.mono {d : Option Task} (h : Cleared alive slot used d k)
    (halive : ∀ i, alive' i → alive i) : Cleared alive' slot used d k :=
  ⟨h.toStacked.mono halive, h.ne_zero⟩

/-- `free_proc` clears the slot of the process. -/
theorem Stacked.freeProc (h : Stacked alive slot used k) (hi : i ≠ 0 → alive i)
    (hslot : ∀ i, alive i → slot i < numMaxTask) :
    Safe (k.freeProc i) (Cleared alive slot used (some i)) := by
  by_cases hi0 : i = 0
  · have hpgd : (k.pcb i).pageTable = 0 := by
      rw [hi0]
      exact h.zero
    simp only [Kernel.freeProc, if_pos hpgd]
    trivial
  · refine (Stacked.quiet alive slot (Function.update used (slot i) false)).freeProc
      (fun hpgd => ?_) fun k' hk' => ⟨hk'.update rfl rfl, by simpa using hi0⟩
    refine ⟨?_, h.inSlot, h.zero⟩
    show freeKernelStack k.kernelStackUsed (k.pcb i).kernelSp = _
    rw [(h.inSlot i (hi hi0)).free (hslot i (hi hi0)), h.used_eq]

/-- `scheduler` clears the slot of a task that has killed itself. -/
theorem Stacked.doScheduler (h : Stacked alive slot used k) (hcons : Consistent none k)
    (hslot : ∀ i, alive i → slot i < numMaxTask) {sp : Nat}
    (hsp : alive k.currentRunning → InSlot (slot k.currentRunning) sp)
    (hlive : k.cur.status = .exited → k.currentRunning ≠ 0 → alive k.currentRunning) :
    Safe (k.doScheduler sp) (Cleared alive slot used
      (if k.cur.status = .exited then some k.currentRunning else none)) := by
  have hsp' : Stacked alive slot used (k.setPcb k.currentRunning { k.cur with kernelSp := sp }) :=
    h.setPcb hsp rfl
  have hcons' : Consistent none (k.setPcb k.currentRunning { k.cur with kernelSp := sp }) :=
    hcons.setPcb _ rfl rfl rfl
  have hstatus : (k.setPcb k.currentRunning { k.cur with kernelSp := sp }).cur.status =
      k.cur.status := by
    rw [Kernel.cur, Kernel.setPcb_currentRunning, Kernel.setPcb_pcb_self]
  have hsleep : Safe (k.setPcb k.currentRunning { k.cur with kernelSp := sp }).checkSleeping
      fun k' => (Consistent none k' ∧ Stacked alive slot used k') ∧
        k'.currentRunning = k.currentRunning ∧
        (k'.cur.status = .exited ↔ k.cur.status = .exited) := by
    apply Kernel.checkSleeping_rule _ ⟨⟨hcons', hsp'⟩, rfl, by rw [hstatus]⟩
    intro a i hi ha
    obtain ⟨⟨hacons, hastacked⟩, hcur, hexited⟩ := ha
    refine ⟨⟨hacons.woken hi, hastacked.woken hi⟩, hcur, ?_⟩
    rw [← hexited]
    by_cases hic : a.currentRunning = i
    · rw [Kernel.cur, Kernel.woken_currentRunning, hic, Kernel.woken_pcb_self]
      refine iff_of_false (by simp) fun hs => ?_
      have hfits := hacons.fits i
      rw [show (a.pcb i).status = .exited by rw [← hic]; exact hs, hi] at hfits
      cases hfits
    · rw [Kernel.cur, Kernel.woken_currentRunning, Kernel.woken_pcb_of_ne hi hic]
      rfl
  refine hsleep.bind fun k₁ h₁ => ?_
  obtain ⟨⟨hcons₁, hstacked₁⟩, hcur₁, hexited₁⟩ := h₁
  have hretire : Safe k₁.retire (Cleared alive slot used
      (if k.cur.status = .exited then some k.currentRunning else none)) := by
    simp only [Kernel.retire]
    split
    · rename_i hrun
      have hoff : k₁.queues.owner k₁.currentRunning = none := by
        have hfits := hcons₁.fits k₁.currentRunning
        rw [show (k₁.pcb k₁.currentRunning).status = .running from hrun.2] at hfits
        exact hfits
      have hnot : ¬ k.cur.status = .exited := by
        rw [← hexited₁, hrun.2]
        decide
      rw [if_neg hnot]
      exact Kernel.enqueue_rule hoff (hstacked₁.enqueued hoff).cleared
    · split
      · rename_i hex
        rw [if_pos (hexited₁.mp hex), ← hcur₁]
        apply hstacked₁.freeProc _ hslot
        intro hne
        rw [hcur₁] at hne ⊢
        exact hlive (hexited₁.mp hex) hne
      · rename_i hex
        rw [if_neg fun hs => hex (hexited₁.mpr hs)]
        exact hstacked₁.cleared
  refine hretire.bind fun k₂ h₂ => Kernel.dispatch_rule fun i rest hitems => ?_
  have hset := h₂.toStacked.update (i := i)
    (p := { k₂.pcb i with status := .running, inQueue := none }) rfl rfl
  exact ⟨⟨hset.used_eq, hset.inSlot, hset.zero⟩, h₂.ne_zero⟩

/-- The running task joins a queue and leaves the processor. -/
theorem Stacked.join (h : Stacked alive slot used k) (hinv : SchedInv k)
    (hslot : ∀ i, alive i → slot i < numMaxTask) (hfits : Fits s (some q)) {sp : Nat}
    (hsp : alive k.currentRunning → InSlot (slot k.currentRunning) sp) :
    Safe (k.enqueue q k.currentRunning s >>= fun k => k.doScheduler sp)
      (Stacked alive slot used) := by
  refine hinv.join_rule hfits fun hoff hcons => ?_
  have hnot : ¬ (k.enqueued q k.currentRunning s hoff).cur.status = .exited := by
    intro hs
    have hself := congrArg Pcb.status (Kernel.enqueued_pcb_self (q := q) (s := s) hoff)
    obtain rfl : s = .exited := hself.symm.trans hs
    cases hfits
  have hsched := (h.enqueued (q := q) (s := s) hoff).doScheduler hcons hslot hsp
    fun hs => absurd hs hnot
  rw [if_neg hnot] at hsched
  exact hsched.mono fun _ hk => hk.toStacked

/-- Every event but a spawn clears the slot of the process that dies in it. -/
theorem Stacked.step (h : Stacked alive slot used k) (hinv : RunInv k) {e : Event}
    (halive : ∀ i, alive i ↔ k.toCore.Lives none i)
    (hslot : ∀ i, alive i → slot i < numMaxTask) (hkill : e.call ≠ .kill 0)
    (hspawn : ∀ argc, e.call ≠ .spawn argc)
    (hsp : k.toCore.schedules e.call = true → e.call ≠ .exit → k.currentRunning ≠ 0 →
      InSlot (slot k.currentRunning) e.sp) :
    Safe (kernelStep k e) (Cleared (fun i => alive i ∧ k.toCore.dying e.call ≠ some i) slot
      used (k.toCore.dying e.call)) := by
  have hcurrent : k.currentRunning ≠ 0 → alive k.currentRunning := fun hne =>
    (halive _).mpr ⟨hne, hinv.current_live hne, by simp⟩
  have hne0 : alive k.currentRunning → k.currentRunning ≠ 0 := fun ha => ((halive _).mp ha).1
  obtain ⟨sp, call⟩ := e
  have hquiet : ∀ {m : Except Fault (Kernel ListQueues)}, k.toCore.dying call = none →
      Safe m (Stacked alive slot used) → Safe m
        (Cleared (fun i => alive i ∧ k.toCore.dying call ≠ some i) slot used
          (k.toCore.dying call)) := by
    intro m hnone hm
    rw [hnone]
    exact hm.mono fun _ hk => hk.cleared.mono fun _ hi => hi.1
  have hq := Stacked.quiet alive slot used
  cases call with
  | spawn argc => exact absurd rfl (hspawn argc)
  | yield =>
    refine (h.doScheduler hinv.toConsistent hslot (fun ha => hsp rfl (by simp) (hne0 ha))
      fun _ hne => hcurrent hne).mono fun k' hk' => ?_
    rw [Core.dying_switch _ rfl]
    exact hk'.mono fun _ hi => hi.1
  | timer count =>
    have hinv' : SchedInv (k.updateTimeElapsed count) := hinv.congr rfl rfl rfl rfl
    have h' : Stacked alive slot used (k.updateTimeElapsed count) :=
      ⟨h.used_eq, h.inSlot, h.zero⟩
    refine (h'.doScheduler hinv'.toConsistent hslot (fun ha => hsp rfl (by simp) (hne0 ha))
      fun _ hne => hcurrent hne).mono fun k' hk' => ?_
    rw [Core.dying_switch _ rfl]
    exact hk'.mono fun _ hi => hi.1
  | sleep time =>
    apply hquiet rfl
    have hinv' := hinv.setPcb_current
      (p := { k.cur with sleepUntil := (k.getTimer + time) % 2 ^ 32 }) rfl rfl rfl
    have h' := h.update (i := k.currentRunning)
      (p := { k.cur with sleepUntil := (k.getTimer + time) % 2 ^ 32 }) rfl rfl
    exact h'.join hinv' hslot (q := .sleep) (s := .sleeping) rfl
      fun ha => hsp rfl (by simp) (hne0 ha)
  | block queue =>
    apply hquiet rfl
    exact h.join hinv.toSchedInv hslot (q := .block queue) (s := .blocked) (Or.inr ⟨_, rfl⟩)
      fun ha => hsp rfl (by simp) (hne0 ha)
  | unblockOne queue => exact hquiet rfl (hq.doUnblockOne h queue)
  | unblockAll queue => exact hquiet rfl (hq.doUnblockAll h queue)
  | waitpid pid =>
    apply hquiet rfl
    simp only [kernelStep, Kernel.doWaitpid]
    split
    · rename_i hfind
      have hinv' := hinv.setPcb_current (p := { k.cur with waitpid := pid }) rfl rfl rfl
      have h' := h.update (i := k.currentRunning) (p := { k.cur with waitpid := pid }) rfl rfl
      exact h'.join hinv' hslot (q := .waitpid) (s := .blocked) (Or.inl rfl)
        fun ha => hsp hfind (by simp) (hne0 ha)
    · exact h
  | exit =>
    obtain ⟨hcons, hoff⟩ := hinv.exiting_current
    have hexited := h.update (i := k.currentRunning)
      (p := { k.cur with status := .exited }) rfl rfl
    refine ((hexited.freeProc hcurrent hslot).and (hcons.freeProc hoff)).bind fun k₁ h₁ => ?_
    obtain ⟨hcleared₁, hcons₁, hcur₁, hoff₁, _⟩ := h₁
    have hcur : k₁.currentRunning = k.currentRunning := hcur₁
    have hnot : ¬ k₁.cur.status = .exited := by
      rw [Kernel.cur, hcur, hoff₁.2]
      decide
    have hothers : Stacked (fun i => alive i ∧ k.toCore.dying .exit ≠ some i) slot
        (clearSlot slot used (some k.currentRunning)) k₁ :=
      hcleared₁.toStacked.mono fun _ hi => hi.1
    have hgone : alive k₁.currentRunning ∧ k.toCore.dying .exit ≠ some k₁.currentRunning →
        InSlot (slot k₁.currentRunning) sp := by
      rw [hcur]
      intro hi
      exact absurd rfl hi.2
    have hsched := hothers.doScheduler hcons₁ (fun i hi => hslot i hi.1) hgone
      fun hs => absurd hs hnot
    rw [if_neg hnot] at hsched
    exact hsched.mono fun _ hk => ⟨hk.toStacked, hcleared₁.ne_zero⟩
  | kill pid =>
    have hpid : pid ≠ 0 := by
      rintro rfl
      exact hkill rfl
    refine hinv.kill_rule hpid sp (fun hfind => ?_) (fun hfind hrun => ?_)
      fun i q hqi hfind hi0 hrun hlive => ?_
    · rw [Core.dying_kill_none hfind]
      exact h.cleared.mono fun _ hi => hi.1
    · rw [Core.dying_kill_running hfind hrun]
      have hset := h.update (i := k.currentRunning) (p := { k.cur with status := .exited }) rfl rfl
      exact hset.cleared.mono fun _ hi => hi.1
    · rw [Core.dying_kill_other hfind hrun]
      have hset := h.update (i := i) (p := { k.pcb i with status := .exited }) rfl rfl
      have hkilled : Stacked alive slot used (k.killed i q hqi) :=
        ⟨hset.used_eq, hset.inSlot, hset.zero⟩
      have hfree := hkilled.freeProc (i := i)
        (fun _ => (halive i).mpr ⟨hi0, hlive, by simp⟩) hslot
      exact hfree.mono fun _ hr => hr.mono fun _ hi => hi.1
  | acquire lock =>
    have hnone : k.toCore.dying (.acquire lock) = none := by
      simp only [Core.dying, Core.lockMove]
      split <;> rfl
    apply hquiet hnone
    simp only [kernelStep, Kernel.doMutexLockAcquire]
    split
    · exact hq.lock _ lock _ (hq.procGetLock h lock)
    · rename_i hlocked
      have hlock : k.toCore.schedules (.acquire lock) = true := by
        cases hl : k.lockStatus lock with
        | unlocked => exact absurd hl hlocked
        | locked => simp [Core.schedules, hl]
      exact h.join hinv.toSchedInv hslot (q := .block (.lock lock)) (s := .blocked)
        (Or.inr ⟨_, rfl⟩) fun ha => hsp hlock (by simp) (hne0 ha)
  | release lock => exact hquiet rfl (hq.doMutexLockRelease h lock)
  | barrierWait b =>
    apply hquiet rfl
    have hinv' : SchedInv (k.setBarrierNow b ((k.barrier b).now + 1)) :=
      hinv.congr rfl rfl rfl rfl
    have h' : Stacked alive slot used (k.setBarrierNow b ((k.barrier b).now + 1)) :=
      ⟨h.used_eq, h.inSlot, h.zero⟩
    simp only [kernelStep, Kernel.doBarrierWait]
    split
    · rename_i hwait
      have hsched : k.toCore.schedules (.barrierWait b) = true := by
        simpa [Core.schedules, Kernel.setBarrierNow] using hwait
      exact h'.join hinv' hslot (q := .block (.barrier b)) (s := .blocked) (Or.inr ⟨_, rfl⟩)
        fun ha => hsp hsched (by simp) (hne0 ha)
    · exact (hq.doUnblockAll h' (.barrier b)).bind fun k' hk' =>
        ⟨hk'.used_eq, hk'.inSlot, hk'.zero⟩
  | pageFault addr =>
    apply hquiet rfl
    simp only [kernelStep, Kernel.pageFault]
    split
    · trivial
    · exact ⟨h.used_eq, h.inSlot, h.zero⟩

/-! ## The invariant -/

/-- The live processes have distinct slots, which are the used ones. -/
structure StackInv (slot : Task → Nat) (k : Kernel ListQueues) : Prop where
  range : ∀ i, k.toCore.Lives none i → 0 < slot i ∧ slot i < numMaxTask
  inj : ∀ i j, k.toCore.Lives none i → k.toCore.Lives none j → slot i = slot j → i = j
  used_iff : ∀ m, 0 < m → m < numMaxTask →
    (k.kernelStackUsed m = true ↔ ∃ i, k.toCore.Lives none i ∧ slot i = m)
  stacked : Stacked (k.toCore.Lives none) slot k.kernelStackUsed k

/-- A free PCB leaves a free slot: a process has one PCB and one slot. -/
theorem StackInv.exists_free (h : StackInv slot k) (hi0 : i ≠ 0)
    (hnone : (k.pcb i).status = .none) :
    ∃ m, 0 < m ∧ m < numMaxTask ∧ k.kernelStackUsed m = false ∧
      newKernelStack k.kernelStackUsed =
        (stackTop - m * stackSize, Function.update k.kernelStackUsed m true) := by
  rcases newKernelStack_cases k.kernelStackUsed with hall | hfree
  · exfalso
    have hcover : Finset.Ioo 0 numMaxTask ⊆
        ((Finset.univ.erase (0 : Task)).erase i).image slot := by
      intro m hm
      obtain ⟨hpos, hlt⟩ := Finset.mem_Ioo.mp hm
      obtain ⟨j, hj, hslot⟩ := (h.used_iff m hpos hlt).mp (hall m hpos hlt)
      refine Finset.mem_image.mpr ⟨j, ?_, hslot⟩
      have hji : j ≠ i := by
        rintro rfl
        exact hj.2.1 hnone
      simp [hji, hj.1]
    have hcard := (Finset.card_le_card hcover).trans Finset.card_image_le
    rw [Finset.card_erase_of_mem (by simpa using hi0),
      Finset.card_erase_of_mem (Finset.mem_univ _)] at hcard
    simp [numMaxTask] at hcard
  · exact hfree

/-- The slots after an event in which the task `d` dies. -/
theorem StackInv.cleared (h : StackInv slot k) {d : Option Task}
    (hlives : ∀ i, k'.toCore.Lives none i ↔ k.toCore.Lives none i ∧ d ≠ some i)
    (hdead : ∀ i, d = some i → i ≠ 0 → k.toCore.Lives none i)
    (hcleared : Cleared (fun i => k.toCore.Lives none i ∧ d ≠ some i) slot k.kernelStackUsed d
      k') : StackInv slot k' := by
  have hused := hcleared.used_eq
  refine ⟨fun i hi => h.range i ((hlives i).mp hi).1,
    fun i j hi hj => h.inj i j ((hlives i).mp hi).1 ((hlives j).mp hj).1, fun m hpos hlt => ?_,
    ⟨rfl, fun i hi => hcleared.inSlot i ((hlives i).mp hi), hcleared.zero⟩⟩
  rw [hused]
  simp only [hlives]
  cases hd : d with
  | none =>
    simp only [ne_eq, reduceCtorEq, not_false_eq_true, and_true]
    exact h.used_iff m hpos hlt
  | some p =>
    have hp0 : p ≠ 0 := by
      rintro rfl
      exact hcleared.ne_zero hd
    have hp := hdead p hd hp0
    show Function.update k.kernelStackUsed (slot p) false m = true ↔ _
    by_cases hm : m = slot p
    · subst hm
      rw [Function.update_self]
      apply iff_of_false (by simp)
      rintro ⟨i, ⟨hi, hne⟩, hslot⟩
      exact hne (congrArg some (h.inj p i hp hi hslot.symm))
    · rw [Function.update_of_ne hm, h.used_iff m hpos hlt]
      apply exists_congr
      intro i
      constructor
      · rintro ⟨hi, hslot⟩
        refine ⟨⟨hi, fun heq => ?_⟩, hslot⟩
        obtain rfl := Option.some.inj heq
        exact hm hslot.symm
      · rintro ⟨⟨hi, _⟩, hslot⟩
        exact ⟨hi, hslot⟩

/-- `do_spawn` gives the new process a free slot. -/
theorem StackInv.spawned (h : StackInv slot k) (halloc : k.toCore.allocPcb = some i)
    (hoff : k.queues.owner i = none) {argc : Nat} (hargc : argc ≤ 50) {m : Nat} (hpos : 0 < m)
    (hlt : m < numMaxTask) (hfree : k.kernelStackUsed m = false)
    (hnew : newKernelStack k.kernelStackUsed =
      (stackTop - m * stackSize, Function.update k.kernelStackUsed m true)) :
    StackInv (Function.update slot i m) (k.spawned i argc hoff) := by
  obtain ⟨hi0, hnone⟩ := Core.allocPcb_eq_some halloc
  have hlives : ∀ j, (k.spawned i argc hoff).toCore.Lives none j ↔
      j = i ∨ k.toCore.Lives none j := by
    intro j
    by_cases hj : j = i
    · subst hj
      simp [Core.Lives, Kernel.spawned_pcb_self, hi0]
    · simp [Core.Lives, Kernel.spawned_pcb_of_ne hoff hj, hj]
  have hnot : ¬ k.toCore.Lives none i := fun hl => hl.2.1 hnone
  have hother : ∀ j, k.toCore.Lives none j → Function.update slot i m j = slot j := by
    rintro j hj
    apply Function.update_of_ne
    rintro rfl
    exact hnot hj
  have hunused : ∀ j, k.toCore.Lives none j → slot j ≠ m := by
    intro j hj hslot
    have hused := (h.used_iff m hpos hlt).mpr ⟨j, hj, hslot⟩
    rw [hfree] at hused
    cases hused
  have hused : (k.spawned i argc hoff).kernelStackUsed =
      Function.update k.kernelStackUsed m true := congrArg Prod.snd hnew
  refine ⟨fun j hj => ?_, fun j l hj hl hslot => ?_, fun n hnpos hnlt => ?_,
    ⟨rfl, fun j hj => ?_, ?_⟩⟩
  · rcases (hlives j).mp hj with rfl | hj
    · rw [Function.update_self]
      exact ⟨hpos, hlt⟩
    · rw [hother j hj]
      exact h.range j hj
  · rcases (hlives j).mp hj with hji | hj' <;> rcases (hlives l).mp hl with hli | hl'
    · rw [hji, hli]
    · rw [hji, Function.update_self, hother l hl'] at hslot
      exact absurd hslot.symm (hunused l hl')
    · rw [hli, Function.update_self, hother j hj'] at hslot
      exact absurd hslot (hunused j hj')
    · rw [hother j hj', hother l hl'] at hslot
      exact h.inj j l hj' hl' hslot
  · rw [hused]
    by_cases hnm : n = m
    · subst hnm
      rw [Function.update_self]
      exact iff_of_true rfl ⟨i, (hlives i).mpr (Or.inl rfl), Function.update_self _ _ _⟩
    · rw [Function.update_of_ne hnm, h.used_iff n hnpos hnlt]
      constructor
      · rintro ⟨j, hj, hslot⟩
        exact ⟨j, (hlives j).mpr (Or.inr hj), (hother j hj).trans hslot⟩
      · rintro ⟨j, hj, hslot⟩
        rcases (hlives j).mp hj with rfl | hj
        · rw [Function.update_self] at hslot
          exact absurd hslot.symm hnm
        · exact ⟨j, hj, (hother j hj).symm.trans hslot⟩
  · rcases (hlives j).mp hj with hji | hj'
    · rw [hji, Function.update_self, Kernel.spawned_pcb_self]
      have hsp : (k.toCore.newProcess argc).1 = (2 ^ 64 + (newKernelStack k.kernelStackUsed).1 -
          (2 * regsContextSize + 64 * argc) % 2 ^ 64) % 2 ^ 64 := rfl
      rw [hnew] at hsp
      show InSlot m (k.toCore.newProcess argc).1
      rw [hsp]
      exact inSlot_newProcess hlt hargc
    · have hji : j ≠ i := by
        rintro rfl
        exact hnot hj'
      rw [hother j hj', Kernel.spawned_pcb_of_ne hoff hji]
      exact h.stacked.inSlot j hj'
  · rw [Kernel.spawned_pcb_of_ne hoff hi0.symm]
    exact h.stacked.zero

end Lists

/-! ## Runs -/

/-- The pointer kernel, and the slot that each PCB was given at its last
`do_spawn`. -/
structure StackSystem where
  kernel : Kernel PtrQueues
  slot : Task → Nat

namespace StackSystem

/-- The slot that `new_kernel_stack` hands out. -/
def slotAfter (s : StackSystem) : Call → Task → Nat
  | .spawn _ =>
    match s.kernel.toCore.allocPcb with
    | none => s.slot
    | some i =>
      Function.update s.slot i
        ((stackTop - (newKernelStack s.kernel.kernelStackUsed).1) / stackSize)
  | _ => s.slot

/-- One event, with the slots that are handed out. -/
def step (s : StackSystem) (e : Event) : Option StackSystem :=
  (kernelRun s.kernel e).map fun k => { kernel := k, slot := s.slotAfter e.call }

/-- A new process has at most 50 arguments. -/
def argcOk : Call → Bool
  | .spawn argc => argc ≤ 50
  | _ => true

/-- Pid 0 is not killed, a process has at most 50 arguments, and the stack
pointer that the scheduler saves lies in the slot of the process. -/
def EventOk (s : StackSystem) (e : Event) : Prop :=
  e.call ≠ .kill 0 ∧ argcOk e.call = true ∧
    (s.kernel.toCore.schedules e.call = true → e.call ≠ .exit → s.kernel.currentRunning ≠ 0 →
      InSlot (s.slot s.kernel.currentRunning) e.sp)

instance (s : StackSystem) (e : Event) : Decidable (s.EventOk e) :=
  inferInstanceAs (Decidable (_ ∧ _ ∧ (_ → _ → _ → _)))

/-- The system after initialisation. -/
def boot (barrier : BarrierId → Barrier) (tables : Nat → Nat → Nat) : StackSystem where
  kernel := bootKernel barrier tables
  slot := fun _ => 0

/-- The kernel follows a list kernel with the invariant. -/
structure Inv (s : StackSystem) (a : Kernel ListQueues) : Prop where
  follows : Follows a s.kernel
  run : RunInv a
  owned : StackInv s.slot a

section Runs

variable {s s' : StackSystem} {a : Kernel ListQueues} {e : Event}

theorem inv_boot (barrier : BarrierId → Barrier) (tables : Nat → Nat → Nat) :
    (boot barrier tables).Inv (bootLists barrier tables) := by
  have hnone : ∀ i, ¬ (bootLists barrier tables).toCore.Lives none i := by
    intro i hi
    have hstatus : ((bootCore barrier tables).pcb i).status = .none := by
      unfold bootCore
      dsimp only
      split <;> rfl
    exact hi.2.1 hstatus
  refine ⟨bootLists_follows barrier tables, bootLists_runInv barrier tables,
    ⟨fun i hi => absurd hi (hnone i), fun i _ hi => absurd hi (hnone i), fun m hpos _ => ?_,
      ⟨rfl, fun i hi => absurd hi (hnone i), rfl⟩⟩⟩
  apply iff_of_false
  · show ¬ decide (m = 0) = true
    simpa using Nat.pos_iff_ne_zero.mp hpos
  · rintro ⟨i, hi, _⟩
    exact hnone i hi

/-- Who dies in an event was alive, and the others live on. -/
theorem lives_after {a' : Kernel ListQueues} (hrun : RunInv a) (hkill : e.call ≠ .kill 0)
    (hspawn : ∀ argc, e.call ≠ .spawn argc) (hstep : kernelStep a e = .ok a') (i : Task) :
    a'.toCore.Lives none i ↔ a.toCore.Lives none i ∧ a.toCore.dying e.call ≠ some i := by
  obtain ⟨_, hmoves⟩ := (hrun.step hkill).of_ok hstep
  have hlives := hmoves.lifecycle
  simp only [lives_none]
  constructor
  · rintro ⟨hi0, hlive'⟩
    refine ⟨⟨hi0, fun hnone => ?_⟩, fun hdying => ?_⟩
    · obtain ⟨⟨argc, hcall⟩, _⟩ := hlives.born i hi0 hnone hlive'
      exact hspawn argc hcall
    · exact hlive' ((hrun.dying_freed hkill hdying).of_ok hstep)
  · rintro ⟨⟨hi0, hlive⟩, hdying⟩
    exact ⟨hi0, hlives.living i hi0 hlive hdying⟩

/-- The task that dies in a call is alive, unless it is PCB 0. -/
theorem dying_lives (hrun : RunInv a) {call : Call} (hkill : call ≠ .kill 0) {i : Task}
    (hdying : a.toCore.dying call = some i) (hi0 : i ≠ 0) : a.toCore.Lives none i := by
  rw [lives_none]
  refine ⟨hi0, ?_⟩
  have hcurrent : i = a.currentRunning → (a.pcb i).status ≠ .none := by
    rintro rfl
    exact hrun.current_live hi0
  have hmove := Core.eq_deathOf_of_dying hdying
  cases call with
  | exit =>
    apply hcurrent
    exact (LockMove.death.inj hmove).1.symm
  | yield =>
    apply hcurrent
    simp only [Core.lockMove] at hmove
    split at hmove
    · exact (LockMove.death.inj hmove).1.symm
    · cases hmove
  | timer count =>
    apply hcurrent
    simp only [Core.lockMove] at hmove
    split at hmove
    · exact (LockMove.death.inj hmove).1.symm
    · cases hmove
  | kill pid =>
    simp only [Core.lockMove] at hmove
    cases hfind : a.toCore.findPid pid with
    | none =>
      rw [hfind] at hmove
      cases hmove
    | some j =>
      simp only [hfind] at hmove
      split at hmove
      · cases hmove
      · have hji : j = i := (LockMove.death.inj hmove).1
        subst hji
        intro hnone
        apply hkill
        rw [← Core.findPid_eq_some hfind]
        exact congrArg Call.kill ((hrun.pid_live j hi0).mp hnone)
  | acquire lock =>
    simp only [Core.lockMove] at hmove
    split at hmove <;> cases hmove
  | _ => cases hmove

/-- The slots of the PCBs change in `do_spawn` only. -/
theorem slotAfter_eq (s : StackSystem) {call : Call} (hspawn : ∀ argc, call ≠ .spawn argc) :
    s.slotAfter call = s.slot := by
  cases call with
  | spawn argc => exact absurd rfl (hspawn argc)
  | _ => rfl

/-- One event.  Besides the invariant, who dies clears its own slot. -/
theorem Inv.step (h : s.Inv a) (hok : s.EventOk e) (hstep : s.step e = some s') :
    ∃ a', s'.Inv a' ∧ ∀ d, s.kernel.toCore.dying e.call = some d →
      s'.kernel.kernelStackUsed = Function.update s.kernel.kernelStackUsed (s.slot d) false := by
  obtain ⟨hfollows, hrun, howned⟩ := h
  obtain ⟨k', hk', rfl⟩ := Option.map_eq_some_iff.mp hstep
  obtain ⟨hkill, hargc, hsp⟩ := hok
  rw [hfollows.core] at hsp
  have hrange : ∀ i, a.toCore.Lives none i → s.slot i < numMaxTask :=
    fun i hi => (howned.range i hi).2
  obtain ⟨a', ha', hfollows', hrun', _⟩ := (kernelStep_sim hfollows e).of_ok (hrun.step hkill)
    (kernelRun_eq_some.mp hk')
  rw [hfollows.core]
  refine ⟨a', ⟨hfollows', hrun', ?_⟩, ?_⟩
  · show StackInv (s.slotAfter e.call) a'
    by_cases hspawn : ∃ argc, e.call = .spawn argc
    · obtain ⟨argc, hcall⟩ := hspawn
      simp only [kernelStep, hcall] at ha'
      rw [hcall] at hargc ⊢
      cases halloc : a.toCore.allocPcb with
      | none =>
        have hslot : s.slotAfter (.spawn argc) = s.slot := by
          simp only [slotAfter, hfollows.core, halloc]
        rw [Kernel.doSpawn, halloc] at ha'
        obtain rfl := Except.ok.inj ha'
        rw [hslot]
        exact howned
      | some i =>
        obtain ⟨hi0, hnone⟩ := Core.allocPcb_eq_some halloc
        obtain ⟨m, hpos, hlt, hfree, hnew⟩ := howned.exists_free hi0 hnone
        have hslot : s.slotAfter (.spawn argc) = Function.update s.slot i m := by
          simp only [slotAfter, hfollows.core, halloc, hnew]
          rw [slot_newKernelStack hlt]
        have hoff : a.queues.owner i = none := by
          have hfits := hrun.fits i
          rw [hnone] at hfits
          exact hfits
        by_cases hpid : a.nextPid + 1 < 2 ^ 63
        · rw [Kernel.doSpawn_eq halloc hoff argc hpid] at ha'
          obtain rfl := Except.ok.inj ha'
          rw [hslot]
          exact howned.spawned halloc hoff (by simpa [argcOk] using hargc) hpos hlt hfree hnew
        · simp only [Kernel.doSpawn, halloc, if_neg hpid] at ha'
          cases ha'
    · have hnot : ∀ argc, e.call ≠ .spawn argc := fun argc hc => hspawn ⟨argc, hc⟩
      rw [slotAfter_eq s hnot]
      exact howned.cleared (lives_after hrun hkill hnot ha')
        (fun i hdying hi0 => dying_lives hrun hkill hdying hi0)
        ((howned.stacked.step hrun (fun _ => Iff.rfl) hrange hkill hnot hsp).of_ok ha')
  · intro d hdying
    have hnot : ∀ argc, e.call ≠ .spawn argc := by
      intro argc hc
      rw [hc] at hdying
      cases hdying
    have hcleared := (howned.stacked.step hrun (fun _ => Iff.rfl) hrange hkill hnot hsp).of_ok ha'
    rw [hdying] at hcleared
    rw [hfollows'.core]
    exact hcleared.used_eq

/-- In every run from boot that keeps the saved stack pointers in their slots,
the live processes own distinct stack slots, and the slots in use are theirs.
The slot of the process that is freed, and no other, is cleared.  When
`alloc_pcb` finds a PCB, `new_kernel_stack` finds a slot. -/
theorem kernel_stacks_exclusive (barrier : BarrierId → Barrier) (tables : Nat → Nat → Nat)
    (h : Reaches step EventOk (boot barrier tables) s) :
    (∀ i, s.kernel.toCore.Lives none i → 0 < s.slot i ∧ s.slot i < numMaxTask ∧
      InSlot (s.slot i) (s.kernel.pcb i).kernelSp) ∧
    (∀ i j, s.kernel.toCore.Lives none i → s.kernel.toCore.Lives none j →
      s.slot i = s.slot j → i = j) ∧
    (∀ m, 0 < m → m < numMaxTask → (s.kernel.kernelStackUsed m = true ↔
      ∃ i, s.kernel.toCore.Lives none i ∧ s.slot i = m)) ∧
    (∀ e s' d, s.EventOk e → s.step e = some s' → s.kernel.toCore.dying e.call = some d →
      s'.kernel.kernelStackUsed = Function.update s.kernel.kernelStackUsed (s.slot d) false) ∧
    (∀ i, s.kernel.toCore.allocPcb = some i → (newKernelStack s.kernel.kernelStackUsed).1 ≠ 0) := by
  have hinv : ∃ a, s.Inv a := by
    apply h.invariant (fun s => ∃ a, s.Inv a) ⟨_, inv_boot barrier tables⟩
    intro s e s' hinv hok hstep
    obtain ⟨a, hinv⟩ := hinv
    obtain ⟨a', hinv', _⟩ := hinv.step hok hstep
    exact ⟨a', hinv'⟩
  obtain ⟨a, hinv⟩ := hinv
  have hcore := hinv.follows.core
  refine ⟨fun i hi => ?_, ?_, ?_, fun e s' d hok hstep hdying => ?_, fun i halloc => ?_⟩
  · rw [hcore] at hi ⊢
    obtain ⟨hpos, hlt⟩ := hinv.owned.range i hi
    exact ⟨hpos, hlt, hinv.owned.stacked.inSlot i hi⟩
  · rw [hcore]
    exact hinv.owned.inj
  · rw [hcore]
    exact hinv.owned.used_iff
  · obtain ⟨_, _, hcleared⟩ := hinv.step hok hstep
    exact hcleared d hdying
  · rw [hcore] at halloc ⊢
    obtain ⟨hi0, hnone⟩ := Core.allocPcb_eq_some halloc
    obtain ⟨m, _, hlt, _, hnew⟩ := hinv.owned.exists_free hi0 hnone
    rw [hnew]
    simp only [stackTop, stackSize, numMaxTask] at hlt ⊢
    omega

/-- The shell runs in slot 1, starts a process in slot 2, kills it and yields. -/
theorem blank_slot_recycled :
    ∃ s, runIf step EventOk (boot (fun _ => { goal := 0, now := 0 }) fun _ _ => 0)
        [⟨stackTop, .spawn 0⟩, ⟨stackTop, .yield⟩, ⟨0, .spawn 50⟩, ⟨0, .kill 2⟩,
          ⟨stackTop - stackSize - 800, .yield⟩] = some s ∧
      s.kernel.kernelStackUsed 1 = true ∧
      ∃ i, s.kernel.toCore.Lives none i ∧ s.slot i = 1 := by
  have hrun : (runIf step EventOk (boot (fun _ => { goal := 0, now := 0 }) fun _ _ => 0)
      [⟨stackTop, .spawn 0⟩, ⟨stackTop, .yield⟩, ⟨0, .spawn 50⟩, ⟨0, .kill 2⟩,
          ⟨stackTop - stackSize - 800, .yield⟩]).map
        (fun s => (s.kernel.kernelStackUsed 1)) = some true := by
    decide +kernel
  obtain ⟨s, hs, hused⟩ := Option.map_eq_some_iff.mp hrun
  refine ⟨s, hs, hused, ?_⟩
  obtain ⟨_, _, hiff, _⟩ := kernel_stacks_exclusive _ _ (reaches_of_runIf hs)
  exact (hiff 1 (by decide) (by decide)).mp hused

end Runs

end StackSystem

end MipsOs.Sched
