import MipsOs.Sched.TlbSystem

/-!
# Stale TLB entries

The TLB tells address spaces apart by the low 8 bits of the pid, and nothing is
flushed when a process dies.  An entry that a process left behind is valid for
the next process with the same low bits.

`Traced` adds to the system the pid of the process that loaded each entry.  A
switch is clean when the valid halves with the ASID of the process that is first
in line were loaded by that process.  `coherent_of_clean` is the result: as long as all
switches are clean, the running process finds its own frames in the TLB.
`pid_257_finds_frame_of_pid_1` is a run in which they are not.
-/

namespace MipsOs.Sched

open MipsOs.Lib MipsOs.Mm

namespace TlbSystem

variable {n : Nat}

/-- Every valid half with the ASID of the running process maps its page to the
frame in the page table of that process.  The boot task has no page table. -/
def Coherent (s : TlbSystem n) : Prop :=
  s.kernel.mm.currentPgd ≠ 0 → ∀ i half, pteValid ((s.tlb i).lo half) →
    (s.tlb i).asid = asidOf s.kernel.currentPid →
      pteValid (s.kernel.toCore.pteOf s.kernel.currentRunning (s.tlb i).vpn2 half) ∧
        frameOf ((s.tlb i).lo half) =
          frameOf (s.kernel.toCore.pteOf s.kernel.currentRunning (s.tlb i).vpn2 half)

/-- The entry that an event writes. -/
def written (s : TlbSystem n) : TlbEvent n → Option (Fin n)
  | .kernel _ => none
  | .refill _ _ random => some random
  | .invalid addr random =>
    some ((s.tlb.probe (addr >>> 13) (asidOf s.kernel.currentPid)).getD random)
  | .tlbRefill addr random =>
    some ((s.tlb.probe (addr >>> 13) (asidOf s.kernel.currentPid)).getD random)

end TlbSystem

/-- The system, and the pid of the process that loaded each entry since boot. -/
structure Traced (n : Nat) extends TlbSystem n where
  loader : Fin n → Option Int

namespace Traced

variable {n : Nat}

/-- One event. -/
def step (t : Traced n) (e : TlbEvent n) : Option (Traced n) :=
  (t.toTlbSystem.step e).map fun s =>
    { toTlbSystem := s
      loader := match t.written e with
        | none => t.loader
        | some i => Function.update t.loader i (some s.kernel.currentPid) }

/-- The valid halves with the ASID of a process were loaded by that process. -/
def CleanFor (t : Traced n) (pid : Int) : Prop :=
  ∀ i half, pteValid ((t.tlb i).lo half) → (t.tlb i).asid = asidOf pid → t.loader i = some pid

/-- When the first in line is another process and the event switches to it, the TLB is
clean for it. -/
def CleanSwitch (t : Traced n) : TlbEvent n → Prop
  | .kernel e => ∀ i ∈ t.kernel.next e.call, (t.kernel.pcb i).pid ≠ t.kernel.currentPid →
    (t.kernel.pcb i).pageTable ≠ 0 → t.CleanFor (t.kernel.pcb i).pid
  | _ => True

instance decidableCleanFor (t : Traced n) (pid : Int) : Decidable (t.CleanFor pid) :=
  inferInstanceAs (Decidable (∀ _ _, _ → _ → _))

instance decidableCleanSwitch (t : Traced n) (e : TlbEvent n) : Decidable (t.CleanSwitch e) :=
  match e with
  | .kernel _ => inferInstanceAs (Decidable (∀ i ∈ _, _ → _ → _))
  | .refill _ _ _ => isTrue trivial
  | .invalid _ _ => isTrue trivial
  | .tlbRefill _ _ => isTrue trivial

/-- The system after boot.  No process has loaded an entry. -/
def boot (barrier : BarrierId → Barrier) (tables : Nat → Nat → Nat) (tlb : Tlb n)
    (entryHi : Nat) : Traced n where
  toTlbSystem := TlbSystem.boot barrier tables tlb entryHi
  loader := fun _ => none

/-! ## The invariant -/

/-- The entries that live processes loaded are as in their page tables, and the TLB is
clean for the running process. -/
structure Inv (t : Traced n) (a : Kernel ListQueues) : Prop extends t.toTlbSystem.Inv a where
  past : ∀ i pid, t.loader i = some pid → pid < a.nextPid
  /-- A valid half that a live process loaded is as in its page table. -/
  word : ∀ i j half, a.toCore.Lives none j → t.loader i = some (a.pcb j).pid →
    pteValid ((t.tlb i).lo half) → (t.tlb i).lo half = a.toCore.pteOf j (t.tlb i).vpn2 half
  clean : a.mm.currentPgd ≠ 0 → t.CleanFor a.currentPid

theorem Inv.coherent {t : Traced n} {a : Kernel ListQueues} (h : t.Inv a) : t.Coherent := by
  intro hpgd i half hvalid hasid
  rw [h.follows.core] at hpgd hasid ⊢
  have hlives := h.kernel.spaces.current_lives h.kernel.current_space h.kernel.toSchedInv hpgd
  have hloader := h.clean hpgd i half hvalid hasid
  rw [h.kernel.current_pid] at hloader
  have hword := h.word i _ half hlives hloader hvalid
  rw [← hword]
  exact ⟨hvalid, rfl⟩

section Steps

variable {t t' : Traced n} {a a' : Kernel ListQueues} {addr : Nat} {random i : Fin n}

/-- The entries that live processes loaded stay as in their page tables. -/
theorem Inv.word_kept (h : t.Inv a) {e : Event} (hkept : Kept a a' e) (i : Fin n) (j : Task)
    (half : Fin 2) (hlive : a'.toCore.Lives none j)
    (hloader : t.loader i = some (a'.pcb j).pid) (hvalid : pteValid ((t.tlb i).lo half)) :
    (t.tlb i).lo half = a'.toCore.pteOf j (t.tlb i).vpn2 half := by
  by_cases hold : a.toCore.Lives none j
  · obtain ⟨hpid, hevolves⟩ := hkept.inherits.kept j hold hlive
    rw [hpid] at hloader
    have hword := h.word i j half hold hloader hvalid
    rw [hword] at hvalid ⊢
    exact ((hevolves _ _).of_valid hvalid).symm
  · have hnew := (hkept.inherits.born j hold hlive).1
    have hlt := h.past i _ hloader
    omega

/-- After a switch from a process to itself the TLB is still clean. -/
theorem Inv.clean_kept (h : t.Inv a) (h' : KernelInv a') (hpgd : a'.mm.currentPgd ≠ 0)
    (hpid : a'.currentPid = a.currentPid) : t.CleanFor a.currentPid := by
  have hlives := h'.spaces.current_lives h'.current_space h'.toSchedInv hpgd
  have hne : (a'.pcb a'.currentRunning).pid ≠ 0 := fun hzero =>
    hlives.2.1 ((h'.pid_live _ hlives.1).mpr hzero)
  have hcur : a.cur.pid ≠ 0 := by
    rw [← h.kernel.current_pid, ← hpid, h'.current_pid]
    exact hne
  have hc0 : a.currentRunning ≠ 0 := by
    intro hc
    rw [Kernel.cur, hc, h.kernel.pid_zero] at hcur
    exact hcur rfl
  have hold : a.toCore.Lives none a.currentRunning :=
    lives_none.mpr ⟨hc0, h.kernel.current_live hc0⟩
  refine h.clean ?_
  rw [h.kernel.current_space]
  exact h.kernel.spaces.pgd_ne_zero hold

/-- The running process loads a pair of its page table over an entry. -/
theorem Inv.load (h : t.Inv a) (addr : Nat) (hpgd : t.kernel.mm.currentPgd ≠ 0)
    {s : TlbSystem n} (hs : s.Inv a) (htlb : s.tlb = t.tlb.write i (t.loaded addr)) :
    Inv ⟨s, Function.update t.loader i (some t.kernel.currentPid)⟩ a := by
  have hcore := h.follows.core
  rw [hcore] at hpgd ⊢
  have hlives := h.kernel.spaces.current_lives h.kernel.current_space h.kernel.toSchedInv hpgd
  have hself : s.tlb i = t.loaded addr := by
    rw [htlb]
    exact Function.update_self ..
  have hother : ∀ l, l ≠ i → s.tlb l = t.tlb l := by
    intro l hl
    rw [htlb]
    exact Function.update_of_ne hl ..
  generalize hloader : Function.update t.loader i (some a.currentPid) = loader
  have hnew : loader i = some a.currentPid := by
    rw [← hloader]
    exact Function.update_self ..
  have hold : ∀ l, l ≠ i → loader l = t.loader l := by
    intro l hl
    rw [← hloader]
    exact Function.update_of_ne hl ..
  refine ⟨hs, fun l pid (hl : loader l = some pid) => ?_,
    fun l j half hj (hl : loader l = some (a.pcb j).pid) (hvalid : pteValid ((s.tlb l).lo half)) =>
      ?_, fun _ l half (hvalid : pteValid ((s.tlb l).lo half)) hasid => ?_⟩
  · by_cases hli : l = i
    · subst hli
      obtain rfl := Option.some.inj (hnew.symm.trans hl)
      rw [h.kernel.current_pid]
      exact h.kernel.pid_lt _
    · rw [hold l hli] at hl
      exact h.past l pid hl
  · show (s.tlb l).lo half = a.toCore.pteOf j (s.tlb l).vpn2 half
    by_cases hli : l = i
    · subst hli
      have hpid : (a.pcb j).pid ≠ 0 := fun hzero => hj.2.1 ((h.kernel.pid_live j hj.1).mpr hzero)
      have heq := Option.some.inj (hl.symm.trans hnew)
      rw [h.kernel.current_pid] at heq
      obtain rfl : j = a.currentRunning := h.kernel.pid_inj _ _ heq hpid
      rw [hself, TlbSystem.loaded, hcore]
      revert half
      exact Fin.forall_fin_two.mpr ⟨fun _ => rfl, fun _ => rfl⟩
    · rw [hold l hli] at hl
      rw [hother l hli] at hvalid ⊢
      exact h.word l j half hj hl hvalid
  · show loader l = some a.currentPid
    by_cases hli : l = i
    · subst hli
      exact hnew
    · have hasid' : (s.tlb l).asid = asidOf a.currentPid := hasid
      rw [hother l hli] at hvalid hasid'
      rw [hold l hli]
      exact h.clean hpgd l half hvalid hasid'

/-- An event of the kernel leaves the TLB. -/
theorem Inv.kernel_kept (h : t.Inv a) {e : Event} (hkept : Kept a a' e) {s : TlbSystem n}
    (hs : s.Inv a') (htlb : s.tlb = t.tlb)
    (hclean : a'.mm.currentPgd ≠ 0 → a'.currentPid ≠ a.currentPid → t.CleanFor a'.currentPid) :
    Inv ⟨s, t.loader⟩ a' := by
  refine ⟨hs, fun i pid hi => ?_, fun i j half hj hi hvalid => ?_,
    fun hpgd i half hvalid hasid => ?_⟩
  · have hlt := h.past i pid hi
    have hnext := hkept.next
    omega
  · have hvalid' : pteValid ((s.tlb i).lo half) := hvalid
    show (s.tlb i).lo half = a'.toCore.pteOf j (s.tlb i).vpn2 half
    rw [htlb] at hvalid' ⊢
    exact h.word_kept hkept i j half hj hi hvalid'
  · have hvalid' : pteValid ((s.tlb i).lo half) := hvalid
    have hasid' : (s.tlb i).asid = asidOf a'.currentPid := hasid
    rw [htlb] at hvalid' hasid'
    by_cases hpid : a'.currentPid = a.currentPid
    · have hsame := h.clean_kept hkept.inv hpgd hpid
      rw [← hpid] at hsame
      exact hsame i half hvalid' hasid'
    · exact hclean hpgd hpid i half hvalid' hasid'

/-- A handler in C loads the pair that it has filled. -/
theorem Inv.handled (h : t.Inv a) {s u : TlbSystem n} (hutlb : u.tlb = t.tlb)
    (hh : u.Handled addr random s a a')
    (hi : i = (t.tlb.probe (addr >>> 13) (asidOf t.kernel.currentPid)).getD random) :
    Inv ⟨s, Function.update t.loader i (some s.kernel.currentPid)⟩ a' := by
  have hcore := h.follows.core
  have hcore' := hh.follows.core
  obtain ⟨_, hpid, _⟩ := hh.kept.same rfl
  have hmid : s.Inv a' := hh.inv
  have hmid' : Inv ⟨{ s with tlb := t.tlb }, t.loader⟩ a' :=
    h.kernel_kept hh.kept ⟨hmid.follows, hmid.kernel, hmid.asid⟩ rfl fun _ hne =>
      absurd hpid hne
  refine hmid'.load addr hh.pgd hmid ?_
  rw [hh.tlb, Tlb.replace, hutlb, hi]
  have hasid : asidOf s.kernel.currentPid = asidOf t.kernel.currentPid := by
    rw [hcore', hpid, hcore]
  show t.tlb.write ((t.tlb.probe (addr >>> 13) (asidOf s.kernel.currentPid)).getD random) _ = _
  rw [hasid]
  rfl

theorem Inv.step (h : t.Inv a) {e : TlbEvent n} (hraised : t.Raised e) (hclean : t.CleanSwitch e)
    (hstep : t.step e = some t') : ∃ a', t'.Inv a' := by
  obtain ⟨s, hs, rfl⟩ := Option.map_eq_some_iff.mp hstep
  cases e with
  | kernel e =>
    obtain ⟨a', hfollows', hkept, htlb, hasid⟩ := h.kernelEvent hraised.1 hs
    refine ⟨a', h.kernel_kept hkept ⟨hfollows', hkept.inv, hasid⟩ htlb fun hpgd hpid => ?_⟩
    obtain ⟨hsched, i, hfirst, hsame, hspace⟩ := hkept.first hpgd hpid
    have hcore := h.follows.core
    rw [← hsame, ← hcore] at hpid
    rw [← hcore] at hspace
    rw [← hsame, ← hcore]
    exact hclean i ((next_eq h.follows hsched).trans hfirst) hpid hspace
  | refill addr pteBase random =>
    obtain ⟨hpgd, rfl⟩ := h.refill hraised.1 hs
    have hraise := h.raise addr
    exact ⟨a, h.load addr hpgd ⟨hraise.follows, hraise.kernel, hraise.asid⟩ rfl⟩
  | invalid addr random =>
    obtain ⟨a', hh⟩ := (h.raise addr).handled hraised.1 hs
    exact ⟨a', h.handled (u := t.raise addr) rfl hh rfl⟩
  | tlbRefill addr random =>
    obtain ⟨a', hh⟩ := h.toInv.handled hraised hs
    exact ⟨a', h.handled rfl hh rfl⟩

end Steps

theorem boot_inv (barrier : BarrierId → Barrier) (tables : Nat → Nat → Nat) (tlb : Tlb n)
    (entryHi : Nat) : (boot barrier tables tlb entryHi).Inv (bootLists barrier tables) where
  toInv := TlbSystem.boot_inv barrier tables tlb entryHi
  past _ _ hi := by cases hi
  word _ _ _ _ hi := by cases hi
  clean hpgd := absurd rfl hpgd

/-- As long as every switch finds the TLB clean for the next process, the running
process finds its own frames in the TLB. -/
theorem coherent_of_clean (barrier : BarrierId → Barrier) (tables : Nat → Nat → Nat)
    (tlb : Tlb n) (entryHi : Nat) {t : Traced n}
    (h : Reaches step (fun t e => t.Raised e ∧ t.CleanSwitch e)
      (boot barrier tables tlb entryHi) t) : t.Coherent := by
  obtain ⟨a, hinv⟩ := h.invariant (fun t => ∃ a, t.Inv a)
    ⟨_, boot_inv barrier tables tlb entryHi⟩ (by
    rintro t e t' ⟨a, hinv⟩ ⟨hraised, hclean⟩ hstep
    exact hinv.step hraised hclean hstep)
  exact hinv.coherent

/-- Two processes with ASIDs of their own take turns. -/
theorem blankKernel_two_processes_coherent :
    ∃ t : Traced 64, runIf step (fun t e => t.Raised e ∧ t.CleanSwitch e)
        (boot (fun _ => ⟨0, 0⟩) (fun _ _ => 0) TlbSystem.blankTlb 0)
        [.kernel ⟨0, .spawn 0⟩, .kernel ⟨0, .spawn 0⟩, .kernel ⟨0, .timer 5⟩,
          .tlbRefill 0x10000 3, .kernel ⟨0, .yield⟩, .tlbRefill 0x10000 4] = some t ∧
      t.Coherent := by
  have hrun : (runIf step (fun t e => t.Raised e ∧ t.CleanSwitch e)
      (boot (fun _ => ⟨0, 0⟩) (fun _ _ => 0) TlbSystem.blankTlb 0)
      [.kernel ⟨0, .spawn 0⟩, .kernel ⟨0, .spawn 0⟩, .kernel ⟨0, .timer 5⟩,
        .tlbRefill 0x10000 3, .kernel ⟨0, .yield⟩, .tlbRefill 0x10000 4]).isSome = true := by
    decide +kernel
  obtain ⟨t, ht⟩ := Option.isSome_iff_exists.mp hrun
  exact ⟨t, ht, coherent_of_clean _ _ _ _ (reaches_of_runIf ht)⟩

end Traced

/-! ## A process that comes and goes -/

/-- Process 1 runs, and nobody else. -/
structure Alone (a : Kernel ListQueues) (pid : Int) : Prop where
  inv : KernelInv a
  current : a.currentRunning = 1
  running : (a.pcb 1).status = .running
  pid_one : (a.pcb 1).pid = 1
  free : ∀ i, i ≠ 1 → (a.pcb i).status = .none
  next : a.nextPid = pid
  range : a.mm.InRange

section Alone

variable {a : Kernel ListQueues} {pid : Int}

theorem Alone.owner (h : Alone a pid) (i : Task) : a.queues.owner i = none := by
  have hfits := h.inv.fits i
  by_cases hi : i = 1
  · subst hi
    rw [h.running] at hfits
    exact hfits
  · rw [h.free i hi] at hfits
    exact hfits

theorem finRange_task :
    List.finRange numMaxTask = 0 :: 1 :: 2 :: (List.finRange numMaxTask).drop 3 := by
  decide

theorem Alone.allocPcb (h : Alone a pid) : a.toCore.allocPcb = some 2 := by
  have h1 := h.running
  have h2 := h.free 2 (by decide)
  rw [Core.allocPcb, finRange_task]
  simp [h1, h2]

theorem Alone.spawn (h : Alone a pid) (hpid : pid + 1 < 2 ^ 63) :
    kernelStep a ⟨0, .spawn 0⟩ = .ok (a.spawned 2 0 (h.owner 2)) := by
  simp only [kernelStep]
  rw [Kernel.doSpawn_eq h.allocPcb (h.owner 2) 0 (by rw [h.next]; exact hpid)]
  rfl

/-- The invariants hold after `do_spawn`, and the new page table is empty. -/
theorem Alone.spawn_kept (h : Alone a pid) (hpid : pid + 1 < 2 ^ 63) :
    Kept a (a.spawned 2 0 (h.owner 2)) ⟨0, .spawn 0⟩ :=
  (h.inv.step (e := ⟨0, .spawn 0⟩) (by simp)).of_ok (h.spawn hpid) h.range

theorem Alone.spawned_lives (h : Alone a pid) :
    (a.spawned 2 0 (h.owner 2)).toCore.Lives none 2 := by
  rw [lives_none, Kernel.spawned_pcb_self]
  exact ⟨by decide, by simp⟩

theorem Alone.spawned_pgd (h : Alone a pid) (hpid : pid + 1 < 2 ^ 63) :
    ((a.spawned 2 0 (h.owner 2)).pcb 2).pageTable ≠ 0 :=
  (h.spawn_kept hpid).inv.spaces.pgd_ne_zero h.spawned_lives

/-- `free_proc` of a process that holds no lock and that nobody waits for. -/
theorem freeProc_alone {i : Task} (hpgd : (a.pcb i).pageTable ≠ 0)
    (hlocks : ∀ j, (a.pcb i).locksGot j = none) (hwait : a.queues.items .waitpid = []) :
    a.freeProc i = .ok (Kernel.freePcb { a with toCore := a.toCore.freeMemory i } i) := by
  have hrelease : ∀ l, Kernel.releaseLocks i l
      ({ a with toCore := a.toCore.freeMemory i } : Kernel ListQueues) =
        .ok { a with toCore := a.toCore.freeMemory i } := by
    intro l
    induction l with
    | nil => rfl
    | cons j l ih =>
      have hj : (({ a with toCore := a.toCore.freeMemory i } : Kernel ListQueues).pcb i).locksGot
          j = none := hlocks j
      rw [Kernel.releaseLocks, hj]
      exact ih
  have hempty : QueueOps.isEmpty a.queues .waitpid = true := List.isEmpty_iff.mpr hwait
  simp only [Kernel.freeProc]
  rw [if_neg hpgd, hrelease]
  show Kernel.wakeWaiting { a with toCore := a.toCore.freeMemory i } _ >>= _ = _
  rw [Kernel.wakeWaiting, if_pos hempty]
  rfl

/-- A page directory without page tables gives back nothing else. -/
theorem freeTables_empty {m : Memory} {pgd : Nat}
    (hempty : ∀ i, m.tables pgd i = m.globalEmptyPt) (k : Nat) : m.freeTables pgd k = m := by
  induction k with
  | zero => rfl
  | succ k ih => rw [freeTables_succ, ih, freeTable_eq, if_neg (not_not.mpr (hempty k))]

theorem Alone.spawned_findPid (h : Alone a pid) (hpos : 1 < pid) :
    (a.spawned 2 0 (h.owner 2)).toCore.findPid pid = some 2 := by
  have h0 : ((a.spawned 2 0 (h.owner 2)).pcb 0).pid = 0 := by
    rw [Kernel.spawned_pcb_of_ne _ (by decide)]
    exact h.inv.pid_zero
  have h1 : ((a.spawned 2 0 (h.owner 2)).pcb 1).pid = 1 := by
    rw [Kernel.spawned_pcb_of_ne _ (by decide)]
    exact h.pid_one
  have h2 : ((a.spawned 2 0 (h.owner 2)).pcb 2).pid = pid := by
    rw [Kernel.spawned_pcb_self]
    exact h.next
  have hne0 : ¬ (0 : Int) = pid := by omega
  have hne1 : ¬ (1 : Int) = pid := by omega
  rw [Core.findPid, finRange_task]
  simp [h0, h1, h2, hne0, hne1]

/-- The new process has a page directory without page tables. -/
theorem Alone.freePgd_spawned (h : Alone a pid) :
    ((a.spawned 2 0 (h.owner 2)).mm.freePgd
      ((a.spawned 2 0 (h.owner 2)).pcb 2).pageTable).InRange := by
  rw [Kernel.spawned_pcb_self, freePgd_eq, freeTables_empty]
  · exact h.range
  · intro i
    show a.mm.spawnPgd.tables (allocPage a.mm.pageCtrlPgd).1 i = a.mm.spawnPgd.globalEmptyPt
    simp [Memory.spawnPgd, Memory.initPgd]

/-- The new process is killed before it runs. -/
theorem Alone.kill (h : Alone a pid) (hpos : 1 < pid) (hpid : pid + 1 < 2 ^ 63) :
    ∃ a', kernelStep (a.spawned 2 0 (h.owner 2)) ⟨0, .kill pid⟩ = .ok a' ∧
      Alone a' (pid + 1) := by
  have hfind := h.spawned_findPid hpos
  have hinv := (h.spawn_kept hpid).inv
  have hpgd := h.spawned_pgd hpid
  have hrange := h.freePgd_spawned
  have hother : ∀ j, j ≠ 2 → (a.spawned 2 0 (h.owner 2)).pcb j = a.pcb j := fun j hj =>
    Kernel.spawned_pcb_of_ne _ hj
  have hlocks : ∀ j, ((a.spawned 2 0 (h.owner 2)).pcb 2).locksGot j = none := by
    intro j
    rw [Kernel.spawned_pcb_self]
  have howner : ∀ j, j ≠ 2 → (a.spawned 2 0 (h.owner 2)).queues.owner j = none := by
    intro j hj
    rw [Kernel.spawned_owner, if_neg hj]
    exact h.owner j
  have hcur : (a.spawned 2 0 (h.owner 2)).currentRunning = 1 := h.current
  have hnext : (a.spawned 2 0 (h.owner 2)).nextPid = pid + 1 := congrArg (· + 1) h.next
  generalize a.spawned 2 0 (h.owner 2) = b at *
  have hrun : b.cur.status ≠ .exited := by
    rw [Kernel.cur, hcur, hother 1 (by decide), h.running]
    decide
  rcases hinv.doKill_cases (fun _ => hrun) (by omega : pid ≠ 0) with ⟨hnone, _⟩ |
    ⟨hself, _⟩ | ⟨i, q, hq, hfind', _, _, _, _, _, _, heq⟩
  · rw [hfind] at hnone
    cases hnone
  · rw [hfind, hcur] at hself
    exact absurd (Option.some.inj hself) (by decide)
  · obtain rfl := Option.some.inj (hfind.symm.trans hfind')
    have hkilled := Kernel.killed_pcb_self hq
    have hwait : (b.killed 2 q hq).queues.items .waitpid = [] := by
      refine List.eq_nil_iff_forall_not_mem.mpr fun w hw => ?_
      have hin := ((b.killed 2 q hq).queues.mem_iff .waitpid w).mp hw
      have htaken : (b.killed 2 q hq).queues.owner w = if w = 2 then none else b.queues.owner w :=
        Kernel.taken_owner hq w
      rw [htaken] at hin
      split at hin
      · cases hin
      · rename_i hw2
        rw [howner w hw2] at hin
        cases hin
    have hfree := freeProc_alone (a := b.killed 2 q hq) (i := 2) (by rw [hkilled]; exact hpgd)
      (by rw [hkilled]; exact hlocks) hwait
    have hstep : kernelStep b ⟨0, .kill pid⟩ =
        .ok (Kernel.freePcb { b.killed 2 q hq with
          toCore := (b.killed 2 q hq).toCore.freeMemory 2 } 2) := by
      simp only [kernelStep, heq, hfree]
      rfl
    have hmm : ((b.killed 2 q hq).toCore.freeMemory 2).mm.InRange := by
      show (b.mm.freePgd ((b.killed 2 q hq).pcb 2).pageTable).InRange
      rw [hkilled]
      exact hrange
    have hpcb : ∀ j, j ≠ 2 → ((Kernel.freePcb { b.killed 2 q hq with
        toCore := (b.killed 2 q hq).toCore.freeMemory 2 } 2).pcb j) = a.pcb j := by
      intro j hj
      rw [Kernel.freePcb, Kernel.setPcb_pcb_of_ne hj]
      exact (Kernel.killed_pcb_of_ne hq hj).trans (hother j hj)
    have hkept := (hinv.step (e := ⟨0, .kill pid⟩)
      (by simp only [ne_eq, Call.kill.injEq]; omega)).of_ok hstep hmm
    refine ⟨_, hstep, hkept.inv, hcur, ?_, ?_, fun j hj => ?_, hnext, hmm⟩
    · rw [hpcb 1 (by decide)]
      exact h.running
    · rw [hpcb 1 (by decide)]
      exact h.pid_one
    · by_cases hj2 : j = 2
      · subst hj2
        simp [Kernel.freePcb]
      · rw [hpcb j hj2]
        exact h.free j hj

theorem dispatch_eq {i : Task} {rest : List Task} (h : a.queues.items .ready = i :: rest) :
    a.dispatch = .ok (a.dispatched i (Lists.owner_of_cons h)) := by
  rw [Kernel.dispatch, Kernel.dequeue_cons h]
  rfl

/-- The new process runs next, with an empty page table. -/
theorem Alone.switch (h : Alone a pid) (hpid : pid + 1 < 2 ^ 63) :
    ∃ a', kernelStep (a.spawned 2 0 (h.owner 2)) ⟨0, .yield⟩ = .ok a' ∧ a'.mm.InRange ∧
      a'.currentRunning = 2 ∧ a'.currentPid = pid ∧ a'.mm.currentPgd ≠ 0 ∧
      ∀ vpn2 half, a'.toCore.pteOf 2 vpn2 half = 0 := by
  have hpgd := h.spawned_pgd hpid
  have hempty : ∀ vpn2 half, (a.spawned 2 0 (h.owner 2)).toCore.pteOf 2 vpn2 half = 0 := by
    refine ((h.spawn_kept hpid).inherits.born 2 ?_ h.spawned_lives).2
    rw [lives_none, h.free 2 (by decide)]
    simp
  have hrange : (a.spawned 2 0 (h.owner 2)).mm.InRange := h.range
  have hone : (a.spawned 2 0 (h.owner 2)).pcb 1 = a.pcb 1 :=
    Kernel.spawned_pcb_of_ne _ (by decide)
  have htwo : ((a.spawned 2 0 (h.owner 2)).pcb 2).pid = pid := by
    rw [Kernel.spawned_pcb_self]
    exact h.next
  have hnobody : ∀ q, a.queues.items q = [] := by
    intro q
    refine List.eq_nil_iff_forall_not_mem.mpr fun w hw => ?_
    rw [a.queues.mem_iff, h.owner w] at hw
    cases hw
  have hready : (a.spawned 2 0 (h.owner 2)).queues.items .ready = [2] := by
    simp [Kernel.spawned, Kernel.born, Lists.pushed, hnobody]
  have hsleep : (a.spawned 2 0 (h.owner 2)).queues.items .sleep = [] := by
    simp [Kernel.spawned, Kernel.born, Lists.pushed, hnobody]
  have howner : (a.spawned 2 0 (h.owner 2)).queues.owner 1 = none := by
    rw [Kernel.spawned_owner, if_neg (by decide)]
    exact h.owner 1
  have hcur : (a.spawned 2 0 (h.owner 2)).currentRunning = 1 := h.current
  generalize a.spawned 2 0 (h.owner 2) = b at *
  set b₁ := b.setPcb b.currentRunning { b.cur with kernelSp := 0 } with hb₁
  have hcur₁ : b₁.currentRunning = 1 := hcur
  have howner₁ : b₁.queues.owner 1 = none := howner
  have hpcb₁ : b₁.pcb 1 = { b.pcb 1 with kernelSp := 0 } := by
    rw [hb₁, Kernel.cur, hcur, Kernel.setPcb_pcb_self]
  have hwake : b₁.checkSleeping = .ok b₁ := by
    have hnone : QueueOps.isEmpty b₁.queues .sleep = true := List.isEmpty_iff.mpr hsleep
    simp only [Kernel.checkSleeping]
    rw [if_pos hnone]
  have hretire : b₁.retire = .ok (b₁.enqueued .ready 1 .ready howner₁) := by
    have hrun : b₁.cur.pid ≠ 0 ∧ b₁.cur.status = .running := by
      rw [Kernel.cur, hcur₁, hpcb₁, hone]
      refine ⟨?_, h.running⟩
      show (a.pcb 1).pid ≠ 0
      rw [h.pid_one]
      decide
    rw [Kernel.retire, if_pos hrun, hcur₁]
    exact Kernel.enqueue_eq howner₁
  set b₂ := b₁.enqueued .ready 1 .ready howner₁ with hb₂
  have hitems : b₂.queues.items .ready = 2 :: [1] := by
    have hpushed := Kernel.enqueued_items (k := b₁) (q := .ready) (s := .ready) howner₁ .ready
    rw [if_pos rfl] at hpushed
    rw [hb₂, hpushed]
    exact congrArg (· ++ [(1 : Task)]) hready
  have hpcb₂ : b₂.pcb 2 = b.pcb 2 := by
    rw [hb₂, Kernel.enqueued_pcb_of_ne howner₁ (by decide), hb₁,
      Kernel.setPcb_pcb_of_ne (by rw [hcur]; decide)]
  have hself := Kernel.dispatched_pcb_self (Lists.owner_of_cons hitems)
  refine ⟨b₂.dispatched 2 (Lists.owner_of_cons hitems), ?_, hrange, rfl, ?_, ?_, ?_⟩
  · show b.doScheduler 0 = _
    rw [Kernel.doScheduler, ← hb₁, Kernel.scheduler, hwake]
    show b₁.retire >>= _ = _
    rw [hretire]
    exact dispatch_eq hitems
  · show (b₂.pcb 2).pid = pid
    rw [hpcb₂]
    exact htwo
  · show (b₂.pcb 2).pageTable ≠ 0
    rw [hpcb₂]
    exact hpgd
  · intro vpn2 half
    rw [Core.pteOf, hself, hpcb₂]
    exact hempty vpn2 half

end Alone

namespace TlbSystem

variable {n : Nat} {s : TlbSystem n} {a a' : Kernel ListQueues} {pid : Int}

/-- The system follows an event of the list kernel. -/
theorem step_of_list (hfollows : Follows a s.kernel) {e : Event}
    (hstep : kernelStep a e = .ok a') (hr : a'.mm.InRange) :
    ∃ k', memoryRun s.kernel e = some k' ∧ Follows a' k' := by
  have hsim := kernelStep_sim hfollows e
  rw [hstep] at hsim
  obtain ⟨k', hk', hfollows'⟩ := hsim
  refine ⟨k', Option.filter_eq_some_iff.mpr ⟨kernelRun_eq_some.mpr hk', ?_⟩, hfollows'⟩
  rw [hfollows'.core]
  exact decide_eq_true hr

theorem kernel_of_list (hfollows : Follows a s.kernel) {e : Event}
    (hok : e.call ≠ .kill 0 ∧ e.call.isFault = false) (hstep : kernelStep a e = .ok a')
    (hr : a'.mm.InRange) :
    ∃ s', Reaches step Raised s s' ∧ Follows a' s'.kernel ∧ s'.tlb = s.tlb := by
  obtain ⟨k', hrun, hfollows'⟩ := step_of_list hfollows hstep hr
  have hstep' : s.step (.kernel e) = some { s with
      kernel := k'
      entryHi := if s.kernel.toCore.schedules e.call then pidWord k'.currentPid
        else s.entryHi } := by
    simp only [step, hrun, Option.map_some]
  exact ⟨_, (Reaches.refl s).snoc (e := .kernel e) hok hstep', hfollows', rfl⟩

/-- Processes come and go, and the TLB stays. -/
theorem alone_run (m : Nat) (hfollows : Follows a s.kernel) (h : Alone a pid) (hpos : 1 < pid)
    (hpid : pid + m < 2 ^ 63) :
    ∃ s' a', Reaches step Raised s s' ∧ Follows a' s'.kernel ∧ Alone a' (pid + m) ∧
      s'.tlb = s.tlb := by
  induction m with
  | zero => exact ⟨s, a, .refl s, hfollows, by simpa using h, rfl⟩
  | succ m ih =>
    obtain ⟨s₁, a₁, hreach₁, hfollows₁, h₁, htlb₁⟩ := ih (by omega)
    have hlt : pid + m + 1 < 2 ^ 63 := by omega
    obtain ⟨s₂, hreach₂, hfollows₂, htlb₂⟩ :=
      kernel_of_list hfollows₁ (by simp [Call.isFault]) (h₁.spawn hlt) h₁.range
    obtain ⟨a₃, hstep₃, h₃⟩ := h₁.kill (by omega) hlt
    obtain ⟨s₃, hreach₃, hfollows₃, htlb₃⟩ := kernel_of_list hfollows₂
      (by refine ⟨?_, rfl⟩; simp only [ne_eq, Call.kill.injEq]; omega) hstep₃ h₃.range
    refine ⟨s₃, a₃, (hreach₁.trans hreach₂).trans hreach₃, hfollows₃, ?_,
      htlb₃.trans (htlb₂.trans htlb₁)⟩
    have hcast : pid + ((m + 1 : Nat) : Int) = pid + m + 1 := by omega
    rw [hcast]
    exact h₃

/-- A process with the low bits of the pid of an entry's process finds the
entry. -/
theorem stale_of_alone (hfollows : Follows a s.kernel) (h : Alone a pid)
    (hpid : pid + 1 < 2 ^ 63) {i : Fin n} {half : Fin 2} (hvalid : pteValid ((s.tlb i).lo half))
    (hasid : (s.tlb i).asid = asidOf pid) :
    ∃ s', Reaches step Raised s s' ∧ s'.kernel.currentPid = pid ∧ ¬ s'.Coherent := by
  obtain ⟨s₁, hreach₁, hfollows₁, htlb₁⟩ :=
    kernel_of_list hfollows (by simp [Call.isFault]) (h.spawn hpid) h.range
  obtain ⟨a₂, hstep₂, hr₂, hcur₂, hpid₂, hpgd₂, hempty₂⟩ := h.switch hpid
  obtain ⟨s₂, hreach₂, hfollows₂, htlb₂⟩ :=
    kernel_of_list hfollows₁ (by simp [Call.isFault]) hstep₂ hr₂
  have hcore := hfollows₂.core
  refine ⟨s₂, hreach₁.trans hreach₂, by rw [hcore]; exact hpid₂, fun hcoherent => ?_⟩
  rw [← htlb₁, ← htlb₂] at hvalid hasid
  obtain ⟨hpte, _⟩ := hcoherent (by rw [hcore]; exact hpgd₂) i half hvalid
    (by rw [hcore, hpid₂]; exact hasid)
  rw [hcore, hcur₂, hempty₂] at hpte
  exact not_pteValid_zero hpte

/-- Process 1 runs alone, and has loaded its first pair. -/
theorem first_pair_loaded :
    ∃ (s : TlbSystem 64) (a : Kernel ListQueues),
      Reaches step Raised (boot (fun _ => ⟨0, 0⟩) (fun _ _ => 0) blankTlb 0) s ∧
      Follows a s.kernel ∧ Alone a 2 ∧
      ∃ i, pteValid ((s.tlb i).lo 0) ∧ (s.tlb i).asid = asidOf 1 := by
  have hrun : (do
      let a₁ ← kernelStep (bootLists (fun _ => ⟨0, 0⟩) (fun _ _ => 0)) ⟨0, .spawn 0⟩
      let a₂ ← kernelStep a₁ ⟨0, .yield⟩
      let a₃ ← kernelStep a₂ ⟨0, .pageFault 0x10000⟩
      return decide ((a₁.mm.InRange ∧ a₂.mm.InRange ∧ a₃.mm.InRange) ∧
        a₃.currentRunning = 1 ∧ (a₃.pcb 1).status = .running ∧ (a₃.pcb 1).pid = 1 ∧
        (∀ i, i ≠ 1 → (a₃.pcb i).status = .none) ∧ a₃.nextPid = 2) : Except Fault Bool).toOption =
      some true := by
    decide +kernel
  obtain ⟨a₁, hstep₁, hrun₁⟩ := bind_eq_ok.mp (toOption_eq_some.mp hrun)
  obtain ⟨a₂, hstep₂, hrun₂⟩ := bind_eq_ok.mp hrun₁
  obtain ⟨a₃, hstep₃, hrun₃⟩ := bind_eq_ok.mp hrun₂
  obtain ⟨⟨hr₁, hr₂, hr₃⟩, hcur, hrunning, hpid, hfree, hnext⟩ :=
    of_decide_eq_true (Except.ok.inj hrun₃)
  have hinv₁ := (((bootLists_kernelInv _ _).step (by simp)).of_ok hstep₁ hr₁).inv
  have hinv₂ := ((hinv₁.step (by simp)).of_ok hstep₂ hr₂).inv
  have hinv₃ := ((hinv₂.step (by simp)).of_ok hstep₃ hr₃).inv
  obtain ⟨s₁, hreach₁, hfollows₁, _⟩ := kernel_of_list
    (s := boot (fun _ => ⟨0, 0⟩) (fun _ _ => 0) blankTlb 0) (bootLists_follows _ _)
    (by simp [Call.isFault]) hstep₁ hr₁
  obtain ⟨s₂, hreach₂, hfollows₂, _⟩ :=
    kernel_of_list hfollows₁ (by simp [Call.isFault]) hstep₂ hr₂
  obtain ⟨k₃, hk₃, hfollows₃⟩ := step_of_list hfollows₂ hstep₃ hr₃
  obtain ⟨b, hb, _⟩ := reaches_inv (hreach₁.trans hreach₂)
  have hload : ∃ s₃, s₂.doTlbRefill 0x10000 0 = some s₃ ∧ s₃.kernel = k₃ := by
    simp only [doTlbRefill, hk₃, Option.map_some]
    exact ⟨_, rfl, rfl⟩
  obtain ⟨s₃, hstep, rfl⟩ := hload
  obtain ⟨b', hh⟩ := hb.handled (by decide) hstep
  have hreach₃ : Reaches step Raised s₂ s₃ :=
    (Reaches.refl s₂).snoc (e := .tlbRefill 0x10000 0) (show 0x10000 < 2 ^ 32 by decide) hstep
  refine ⟨s₃, a₃, (hreach₁.trans hreach₂).trans hreach₃, hfollows₃,
    ⟨hinv₃, hcur, hrunning, hpid, hfree, hnext, hr₃⟩, ?_⟩
  obtain ⟨i, hi⟩ := Tlb.replace_self s₂.tlb (s₃.loaded 0x10000) 0
  rw [← hh.tlb] at hi
  refine ⟨i, ?_, ?_⟩
  · rw [hi]
    exact hh.valid 0
  · rw [hi, loaded, hfollows₃.core, hinv₃.current_pid, Kernel.cur, hcur, hpid]

/-- The entry of process 1 is valid for process 257. -/
theorem pid_257_finds_frame_of_pid_1 :
    ∃ s : TlbSystem 64, Reaches step Raised
        (boot (fun _ => ⟨0, 0⟩) (fun _ _ => 0) blankTlb 0) s ∧
      s.kernel.currentPid = 257 ∧ ¬ s.Coherent := by
  obtain ⟨s, a, hreach, hfollows, halone, i, hvalid, hasid⟩ := first_pair_loaded
  obtain ⟨s₁, a₁, hreach₁, hfollows₁, halone₁, htlb₁⟩ :=
    alone_run 255 hfollows halone (by decide) (by decide)
  rw [← htlb₁] at hvalid hasid
  obtain ⟨s₂, hreach₂, hpid₂, hstale⟩ :=
    stale_of_alone hfollows₁ halone₁ (by decide) hvalid (hasid.trans (by decide))
  exact ⟨s₂, (hreach.trans hreach₁).trans hreach₂, hpid₂, hstale⟩

end TlbSystem

end MipsOs.Sched
