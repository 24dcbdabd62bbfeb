import MipsOs.Mm.Translation
import MipsOs.Sched.AddressSpaces
import MipsOs.Sched.Starvation

/-!
# The page tables over an event

An event keeps the pid and the valid page table entries of every process that
lives on, and a new process has a new pid and an empty page table
(`Inherits`).  Only a call that schedules changes the registers `current_pid`
and `current_pgd`, and `current_pid` is the pid of the running process after
every event.

`KernelInv` collects the invariants of the list kernel that a look into the
page tables needs.
-/

namespace MipsOs.Sched

open MipsOs.Lib MipsOs.Mm

/-- The page table entry of a process for a page. -/
def Core.pteOf (c : Core) (i : Task) (vpn2 : Nat) (half : Fin 2) : Nat :=
  c.mm.pte (c.pcb i).pageTable vpn2 half

section Tables

variable {c : Core} {call : Call} {a b k k' : Kernel ListQueues}

/-- A page table is empty, or it was written by `do_page_fault`. -/
def Plain (k : Kernel ListQueues) : Prop :=
  ∀ i, k.toCore.Lives none i → ∀ vpn2 half,
    k.toCore.pteOf i vpn2 half = 0 ∨ Filled (k.toCore.pteOf i vpn2 half)

/-- What an event leaves of the processes and of their page tables. -/
structure Inherits (k k' : Kernel ListQueues) : Prop where
  kept : ∀ i, k.toCore.Lives none i → k'.toCore.Lives none i →
    (k'.pcb i).pid = (k.pcb i).pid ∧
      ∀ vpn2 half, Evolves (k.toCore.pteOf i vpn2 half) (k'.toCore.pteOf i vpn2 half)
  born : ∀ i, ¬ k.toCore.Lives none i → k'.toCore.Lives none i →
    (k'.pcb i).pid = k.nextPid ∧ ∀ vpn2 half, k'.toCore.pteOf i vpn2 half = 0

/-- An event that is no page fault writes to no page table in use. -/
structure KeepsTables (k k' : Kernel ListQueues) : Prop where
  kept : ∀ i, k.toCore.Lives none i → k'.toCore.Lives none i →
    (k'.pcb i).pid = (k.pcb i).pid ∧
      ∀ vpn2 half, k'.toCore.pteOf i vpn2 half = k.toCore.pteOf i vpn2 half
  born : ∀ i, ¬ k.toCore.Lives none i → k'.toCore.Lives none i →
    (k'.pcb i).pid = k.nextPid ∧ ∀ vpn2 half, k'.toCore.pteOf i vpn2 half = 0

theorem KeepsTables.inherits (h : KeepsTables k k') : Inherits k k' := by
  refine ⟨fun i hlive hlive' => ?_, h.born⟩
  obtain ⟨hpid, hpte⟩ := h.kept i hlive hlive'
  exact ⟨hpid, fun vpn2 half => Or.inl (hpte vpn2 half)⟩

theorem Plain.inherits (h : Plain k) (hinh : Inherits k k') : Plain k' := by
  intro i hlive' vpn2 half
  by_cases hlive : k.toCore.Lives none i
  · rcases (hinh.kept i hlive hlive').2 vpn2 half with heq | ⟨_, hfilled⟩
    · rw [heq]
      exact h i hlive vpn2 half
    · exact Or.inr hfilled
  · exact Or.inl ((hinh.born i hlive hlive').2 vpn2 half)

/-! ## Page tables -/

/-- Only `do_spawn` and a page fault write to the table pages. -/
theorem Move.tables (hmove : Move c call a b) (hspawn : ∀ argc, call ≠ .spawn argc)
    (hfault : ∀ addr, call ≠ .pageFault addr) : b.mm.tables = a.mm.tables := by
  cases hmove with
  | aside hpcb hqueues hcur hpid hnext hmm => rw [hmm]
  | freeMemory hdying hoff hpgd => exact freePgd_tables _ _
  | spawn hcall hstart halloc hcur hoff => exact absurd hcall (hspawn _)
  | fault hcall hstart hpgd => exact absurd hcall (hfault _)
  | _ => rfl

/-- Pids are handed out in order. -/
theorem Moves.nextPid_le (h : Moves c call k k') : k.nextPid ≤ k'.nextPid := by
  refine h.invariant (fun b => k.nextPid ≤ b.nextPid) le_rfl fun a b _ hmove ha => ?_
  cases hmove with
  | aside hpcb hqueues hcur hpid hnext hmm => rw [hnext]; exact ha
  | spawn hcall hstart halloc hcur hoff =>
    have hsucc : a.nextPid ≤ a.nextPid + 1 := by omega
    exact ha.trans hsucc
  | _ => exact ha

theorem lives_none {c : Core} {i : Task} :
    c.Lives none i ↔ i ≠ 0 ∧ (c.pcb i).status ≠ .none := by
  simp [Core.Lives]

theorem KeepsTables.refl (k : Kernel ListQueues) : KeepsTables k k where
  kept _ _ _ := ⟨rfl, fun _ _ => rfl⟩
  born _ h h' := absurd h' h

/-- An event that makes no process and is no page fault. -/
theorem Moves.keepsTables (h : Moves k.toCore call k k') (hspawn : ∀ argc, call ≠ .spawn argc)
    (hfault : ∀ addr, call ≠ .pageFault addr) : KeepsTables k k' := by
  have hlife := h.lifecycle
  have htables : k'.mm.tables = k.mm.tables := by
    refine h.invariant (fun b => b.mm.tables = k.mm.tables) rfl fun a b _ hmove ha => ?_
    rw [hmove.tables hspawn hfault, ha]
  refine ⟨fun i hlive hlive' => ?_, fun i hlive hlive' => ?_⟩
  · obtain ⟨hi0, hs⟩ := lives_none.mp hlive
    obtain ⟨hpid, hpgd⟩ := hlife.kept i hi0 hs (lives_none.mp hlive').2
    refine ⟨hpid, fun vpn2 half => ?_⟩
    rw [Core.pteOf, Core.pteOf, hpgd, Memory.pte, Memory.pte, Memory.word, Memory.word, htables]
  · obtain ⟨hi0, hs'⟩ := lives_none.mp hlive'
    have hs : (k.pcb i).status = .none := by
      by_contra hne
      exact hlive (lives_none.mpr ⟨hi0, hne⟩)
    obtain ⟨⟨argc, hcall⟩, _⟩ := hlife.born i hi0 hs hs'
    exact absurd hcall (hspawn argc)

/-- A new process has an empty page table of its own. -/
theorem Spaces.keepsTables_spawned (h : Spaces none k) {i : Task} (argc : Nat)
    (halloc : k.toCore.allocPcb = some i) (hoff : k.queues.owner i = none) :
    KeepsTables k (k.spawned i argc hoff) := by
  obtain ⟨hi0, hnone⟩ := Core.allocPcb_eq_some halloc
  have hcard := card_livePgds_le hi0 hnone
  have hmm : (k.spawned i argc hoff).mm = k.mm.spawnPgd := rfl
  refine ⟨fun j hlive _ => ?_, fun j hlive hlive' => ?_⟩
  · have hji : j ≠ i := by
      rintro rfl
      exact hlive.2.1 hnone
    have hpcb : (k.spawned i argc hoff).pcb j = k.pcb j := Kernel.spawned_pcb_of_ne hoff hji
    have hpgd : (k.pcb j).pageTable ∈ k.toCore.livePgds none := mem_livePgds.mpr ⟨j, hlive, rfl⟩
    refine ⟨by rw [hpcb], fun vpn2 half => ?_⟩
    rw [Core.pteOf, Core.pteOf, hpcb, hmm]
    exact (h.owns.word_spawnPgd hcard _ _ _).1 hpgd (dirIndex_lt vpn2)
  · have hji : j = i := by
      by_contra hne
      rw [lives_none, Kernel.spawned_pcb_of_ne hoff hne, ← lives_none] at hlive'
      exact hlive hlive'
    subst hji
    refine ⟨by rw [Kernel.spawned_pcb_self], fun vpn2 half => ?_⟩
    rw [Core.pteOf, Kernel.spawned_pcb_self, hmm]
    exact (h.owns.word_spawnPgd hcard _ _ _).2 rfl

/-- The running process, when there is a page directory. -/
theorem Spaces.current_lives (h : Spaces none k) (hcur : CurrentSpace k) (hinv : SchedInv k)
    (hpgd : k.mm.currentPgd ≠ 0) : k.toCore.Lives none k.currentRunning := by
  have hc0 : k.currentRunning ≠ 0 := by
    intro hc
    rw [CurrentSpace, hc, h.zero] at hcur
    exact hpgd hcur
  exact ⟨hc0, hinv.current_live hc0, by simp⟩

theorem Spaces.pgd_ne_zero (h : Spaces none k) {i : Task} (hlive : k.toCore.Lives none i) :
    (k.pcb i).pageTable ≠ 0 :=
  h.owns.ne_zero (mem_livePgds.mpr ⟨i, hlive, rfl⟩)

/-- A page fault of the running process. -/
theorem Spaces.inherits_fault (h : Spaces none k) (hcur : CurrentSpace k) (hinv : SchedInv k)
    (hpgd : k.mm.currentPgd ≠ 0) {addr : Nat} (hr : (k.mm.doTlbRefill addr).InRange) :
    Inherits k { k with mm := k.mm.doTlbRefill addr } := by
  have hmem : k.mm.currentPgd ∈ k.toCore.livePgds none :=
    mem_livePgds.mpr ⟨_, h.current_lives hcur hinv hpgd, hcur.symm⟩
  have hgrows := (h.owns.grows_doTlbRefill hmem hr).1
  refine ⟨fun i hlive _ => ⟨rfl, fun vpn2 half => ?_⟩, fun i hlive hlive' => absurd hlive' hlive⟩
  exact hgrows.pte (mem_livePgds.mpr ⟨i, hlive, rfl⟩) vpn2 half

/-- What an event that is no page fault leaves of the page tables. -/
theorem RunInv.keepsTables (h : RunInv k) (hspaces : Spaces none k) {e : Event}
    (hkill : e.call ≠ .kill 0) (hfault : ∀ addr, e.call ≠ .pageFault addr) :
    Safe (kernelStep k e) (KeepsTables k) := by
  by_cases hspawn : ∃ argc, e.call = .spawn argc
  · obtain ⟨argc, hcall⟩ := hspawn
    rcases h.doSpawn_cases argc with heq | heq | ⟨i, hoff, halloc, heq⟩
    · simp only [kernelStep, hcall, heq]
      exact .refl k
    · simp only [kernelStep, hcall, heq]
      trivial
    · simp only [kernelStep, hcall, heq]
      exact hspaces.keepsTables_spawned argc halloc hoff
  · refine (h.step hkill).mono fun k' hk' => hk'.2.keepsTables ?_ hfault
    exact fun argc hcall => hspawn ⟨argc, hcall⟩

/-- What every event leaves of the processes and of their page tables. -/
theorem RunInv.inherits (h : RunInv k) (hspaces : Spaces none k) (hcur : CurrentSpace k)
    {e : Event} (hkill : e.call ≠ .kill 0) :
    Safe (kernelStep k e) fun k' => k'.mm.InRange → Inherits k k' := by
  by_cases hfault : ∃ addr, e.call = .pageFault addr
  · obtain ⟨addr, hcall⟩ := hfault
    simp only [kernelStep, hcall, Kernel.pageFault]
    split
    · trivial
    · rename_i hpgd
      exact fun hr => hspaces.inherits_fault hcur h.toSchedInv hpgd hr
  · refine (h.keepsTables hspaces hkill ?_).mono fun k' hk' _ => hk'.inherits
    exact fun addr hcall => hfault ⟨addr, hcall⟩

end Tables

/-! ## The registers -/

section Registers

variable {c : Core} {call : Call} {a b k k' : Kernel ListQueues}

/-- The running process and the registers `current_pid` and `current_pgd`. -/
def SameCurrent (k k' : Kernel ListQueues) : Prop :=
  k'.currentRunning = k.currentRunning ∧ k'.currentPid = k.currentPid ∧
    k'.mm.currentPgd = k.mm.currentPgd

theorem SameCurrent.quiet (k : Kernel ListQueues) : Quiet (SameCurrent k) where
  locks _ _ _ h := h
  lock _ _ _ h := h
  woken _ _ _ _ h := h

/-- A call that does not schedule leaves the registers. -/
theorem RunInv.sameCurrent (h : RunInv k) {e : Event} (hkill : e.call ≠ .kill 0)
    (hsched : k.toCore.schedules e.call = false) : Safe (kernelStep k e) (SameCurrent k) := by
  have hnow : SameCurrent k k := ⟨rfl, rfl, rfl⟩
  have hquiet := SameCurrent.quiet k
  obtain ⟨sp, call⟩ := e
  cases call with
  | spawn argc =>
    rcases h.doSpawn_cases argc with heq | heq | ⟨i, hoff, halloc, heq⟩
    · simp only [kernelStep, heq]
      exact hnow
    · simp only [kernelStep, heq]
      trivial
    · simp only [kernelStep, heq]
      exact ⟨rfl, rfl, rfl⟩
  | unblockOne queue => exact hquiet.doUnblockOne hnow queue
  | unblockAll queue => exact hquiet.doUnblockAll hnow queue
  | waitpid pid =>
    simp only [kernelStep, Kernel.doWaitpid]
    rw [if_neg (by simpa [Core.schedules] using hsched)]
    exact hnow
  | kill pid =>
    have hpid : pid ≠ 0 := by
      rintro rfl
      exact hkill rfl
    exact h.kill_rule hpid sp (fun _ => hnow) (fun _ _ => ⟨rfl, rfl, rfl⟩) fun i q hq _ _ _ _ =>
      hquiet.freeProc (fun _ => ⟨rfl, rfl, freePgd_currentPgd _ _⟩) fun _ h' => h'
  | acquire lock =>
    simp only [kernelStep, Kernel.doMutexLockAcquire]
    have hunlocked : k.lockStatus lock = .unlocked := by
      cases hs : k.lockStatus lock with
      | unlocked => rfl
      | locked => simp [Core.schedules, hs] at hsched
    rw [if_pos hunlocked]
    exact hquiet.lock _ lock _ (hquiet.procGetLock hnow lock)
  | release lock => exact hquiet.doMutexLockRelease hnow lock
  | barrierWait b =>
    simp only [kernelStep, Kernel.doBarrierWait]
    have hlast : ¬ (k.barrier b).now + 1 < (k.barrier b).goal := by
      simpa [Core.schedules] using hsched
    have hnow' : SameCurrent k (k.setBarrierNow b ((k.barrier b).now + 1)) := hnow
    rw [if_neg (by simpa [Kernel.setBarrierNow] using hlast)]
    exact (hquiet.doUnblockAll hnow' _).bind fun _ h' => h'
  | pageFault addr =>
    simp only [kernelStep, Kernel.pageFault]
    split
    · trivial
    · exact ⟨rfl, rfl, doTlbRefill_currentPgd _ _⟩
  | _ => cases hsched

/-- `current_pid` is the pid of the running process, unless the process has been
buried on the way to the switch. -/
def PidField (c : Core) (call : Call) (k : Kernel ListQueues) : Prop :=
  k.currentPid = k.cur.pid ∨ k.currentRunning ≠ 0 ∧ c.dying call = some k.currentRunning

theorem PidField.of_same (h : PidField c call a) (hpid : b.currentPid = a.currentPid)
    (hcur : b.currentRunning = a.currentRunning)
    (hpcb : (b.pcb a.currentRunning).pid = (a.pcb a.currentRunning).pid) :
    PidField c call b := by
  rw [PidField, Kernel.cur, hpid, hcur, hpcb]
  exact h

/-- A change of one PCB that keeps its pid. -/
theorem PidField.of_one (h : PidField c call a) {i : Task} (hpid : b.currentPid = a.currentPid)
    (hcur : b.currentRunning = a.currentRunning) (hself : (b.pcb i).pid = (a.pcb i).pid)
    (hother : ∀ j, j ≠ i → b.pcb j = a.pcb j) : PidField c call b := by
  refine h.of_same hpid hcur ?_
  by_cases hi : a.currentRunning = i
  · rw [hi, hself]
  · rw [hother _ hi]

theorem Move.pidField (hcons : Consistent (c.dying call) a) (hmove : Move c call a b)
    (h : PidField c call a) : PidField c call b := by
  cases hmove with
  | record hpid hstatus hqueue hwait hpgd =>
    exact h.of_one rfl rfl (by rw [Kernel.setPcb_pcb_self, hpid]) fun j hj =>
      Kernel.setPcb_pcb_of_ne hj _
  | aside hpcb hqueues hcur hpid hnext hmm => exact h.of_same hpid hcur (by rw [hpcb])
  | target hoff =>
    exact h.of_one rfl rfl (by rw [Kernel.setPcb_pcb_self]; rfl) fun j hj =>
      Kernel.setPcb_pcb_of_ne hj _
  | wake hi hq hwait =>
    exact h.of_one rfl rfl (by rw [Kernel.woken_pcb_self]) fun j hj =>
      Kernel.woken_pcb_of_ne hi hj
  | join hoff hfits hcall hcur hlive hwait =>
    exact h.of_one rfl rfl (by rw [Kernel.enqueued_pcb_self]) fun j hj =>
      Kernel.enqueued_pcb_of_ne hoff hj
  | preempt hoff hrun =>
    exact h.of_one rfl rfl (by rw [Kernel.enqueued_pcb_self]) fun j hj =>
      Kernel.enqueued_pcb_of_ne hoff hj
  | exit hoff hcur hlive =>
    exact h.of_one rfl rfl (by rw [Kernel.setPcb_pcb_self]; rfl) fun j hj =>
      Kernel.setPcb_pcb_of_ne hj _
  | kill hi hdying hcur =>
    exact h.of_one rfl rfl (by rw [Kernel.killed_pcb_self]) fun j hj =>
      Kernel.killed_pcb_of_ne hi hj
  | freeMemory hdying hoff hpgd => exact h
  | @bury i hdying hoff hwaiters =>
    by_cases hi : i = a.currentRunning
    · by_cases h0 : i = 0
      · subst h0
        refine h.of_same rfl rfl ?_
        rw [← hi, hcons.pid_zero]
        simp [Kernel.freePcb]
      · refine Or.inr ⟨?_, ?_⟩
        · show a.currentRunning ≠ 0
          rw [← hi]
          exact h0
        · show c.dying call = some a.currentRunning
          rw [← hi]
          exact hdying
    · refine h.of_same rfl rfl ?_
      rw [Kernel.freePcb, Kernel.setPcb_pcb_of_ne (Ne.symm hi)]
  | @dispatch i hi =>
    refine Or.inl ?_
    show (a.pcb i).pid = ((a.dispatched i hi).pcb i).pid
    rw [Kernel.dispatched_pcb_self]
  | @spawn i argc hcall hstart halloc hcur hoff =>
    refine h.of_same rfl rfl ?_
    rw [Kernel.spawned_pcb_of_ne hoff (Ne.symm hcur)]
  | fault hcall hstart hpgd => exact h

/-- `current_pid` is the pid of the running process after every event. -/
theorem RunInv.current_pid (h : RunInv k) {e : Event} (hkill : e.call ≠ .kill 0)
    (hpid : k.currentPid = k.cur.pid) :
    Safe (kernelStep k e) fun k' => k'.currentPid = k'.cur.pid := by
  have hfreed : Safe (kernelStep k e) fun k' =>
      ∀ p, k.toCore.dying e.call = some p → (k'.pcb p).status = .none := by
    cases hdying : k.toCore.dying e.call with
    | none => exact (h.step hkill).mono fun _ _ p hp => by cases hp
    | some p =>
      refine (h.dying_freed hkill hdying).mono fun k' hk' q hq => ?_
      obtain rfl := Option.some.inj hq
      exact hk'
  refine ((h.step hkill).and hfreed).mono ?_
  rintro k' ⟨⟨hinv', hmoves⟩, hnone⟩
  have hfield := hmoves.invariant (PidField k.toCore e.call) (Or.inl hpid)
    fun a b hcons hmove ha => hmove.pidField hcons ha
  rcases hfield with heq | ⟨hc0, hdying⟩
  · exact heq
  · exact absurd (hnone _ hdying) (hinv'.current_live hc0)

end Registers

/-! ## All of it -/

/-- The invariants of the list kernel that a look into the page tables needs. -/
structure KernelInv (k : Kernel ListQueues) : Prop extends RunInv k where
  spaces : Spaces none k
  current_space : CurrentSpace k
  current_pid : k.currentPid = k.cur.pid
  plain : Plain k

theorem bootLists_kernelInv (barrier : BarrierId → Barrier) (tables : Nat → Nat → Nat) :
    KernelInv (bootLists barrier tables) where
  toRunInv := bootLists_runInv barrier tables
  spaces := (bootLists_spaces barrier tables).1
  current_space := (bootLists_spaces barrier tables).2
  current_pid := rfl
  plain := by
    intro i hlive
    have hnone : ((bootLists barrier tables).pcb i).status = .none := by
      simp only [bootLists, bootCore]
      split <;> rfl
    exact absurd hnone (lives_none.mp hlive).2

/-- What one event does to a kernel with the invariants. -/
structure Kept (a a' : Kernel ListQueues) (e : Event) : Prop where
  inv : KernelInv a'
  inherits : Inherits a a'
  same : a.toCore.schedules e.call = false → SameCurrent a a'
  next : a.nextPid ≤ a'.nextPid
  life : Lifecycle a.toCore e.call a a'
  switch : a.toCore.schedules e.call = true →
    (a.line a.queues.items e.call).head? = some a'.currentRunning

/-- A call that switches to another process takes the first in line, which has been there
before. -/
theorem Kept.first {a a' : Kernel ListQueues} {e : Event} (h : Kept a a' e)
    (hpgd : a'.mm.currentPgd ≠ 0) (hpid : a'.currentPid ≠ a.currentPid) :
    a.toCore.schedules e.call = true ∧ ∃ i, (a.line a.queues.items e.call).head? = some i ∧
      (a.pcb i).pid = a'.currentPid ∧ (a.pcb i).pageTable ≠ 0 := by
  have hsched : a.toCore.schedules e.call = true := by
    by_contra hnot
    exact hpid (h.same (Bool.not_eq_true _ ▸ hnot)).2.1
  have hlives := h.inv.spaces.current_lives h.inv.current_space h.inv.toSchedInv hpgd
  obtain ⟨hc0, hlive⟩ := lives_none.mp hlives
  have hold : (a.pcb a'.currentRunning).status ≠ .none := by
    intro hnone
    obtain ⟨⟨argc, hcall⟩, _⟩ := h.life.born _ hc0 hnone hlive
    rw [hcall] at hsched
    cases hsched
  obtain ⟨hsame, hspace⟩ := h.life.kept _ hc0 hold hlive
  refine ⟨hsched, _, h.switch hsched, ?_, ?_⟩
  · rw [← hsame, h.inv.current_pid]
    rfl
  · rw [← hspace, ← h.inv.current_space]
    exact hpgd

theorem KernelInv.step {a : Kernel ListQueues} {e : Event} (h : KernelInv a)
    (hkill : e.call ≠ .kill 0) :
    Safe (kernelStep a e) fun a' => a'.mm.InRange → Kept a a' e := by
  have hrun := h.toRunInv.step hkill
  have hspaces : Safe (kernelStep a e) fun a' =>
      a'.mm.InRange → Spaces none a' ∧ CurrentSpace a' := by
    by_cases htwice : ∃ pid, e.call = .kill pid ∧
        a.toCore.findPid pid = some a.currentRunning ∧ a.cur.status = .exited
    · obtain ⟨pid, hcall, hfind, hex⟩ := htwice
      rw [h.toRunInv.kill_twice hcall hfind hex]
      trivial
    · refine h.spaces.step_of h.current_space h.toSchedInv fun pid hcall => ⟨?_, ?_⟩
      · rintro rfl
        exact hkill hcall
      · exact fun hfind hex => htwice ⟨pid, hcall, hfind, hex⟩
  have hsame : Safe (kernelStep a e) fun a' =>
      a.toCore.schedules e.call = false → SameCurrent a a' := by
    cases hsched : a.toCore.schedules e.call with
    | true => exact hrun.mono fun _ _ heq => by cases heq
    | false => exact (h.toRunInv.sameCurrent hkill hsched).mono fun _ h' _ => h'
  have hinherits := h.toRunInv.inherits h.spaces h.current_space hkill
  have hswitch : Safe (kernelStep a e) fun a' => a.toCore.schedules e.call = true →
      (a.line a.queues.items e.call).head? = some a'.currentRunning := by
    cases hsched : a.toCore.schedules e.call with
    | true => exact (h.toSchedInv.line_head hsched).mono fun _ hhead _ => hhead
    | false => exact hrun.mono fun _ _ heq => by cases heq
  refine (((hrun.and hspaces).and hinherits).and
    (((h.toRunInv.current_pid hkill h.current_pid).and hsame).and hswitch)).mono ?_
  rintro a' ⟨⟨⟨⟨hinv, hmoves⟩, hspaces'⟩, hinherits'⟩, ⟨hpid, hsame'⟩, hswitch'⟩ hr
  exact ⟨⟨hinv, (hspaces' hr).1, (hspaces' hr).2, hpid, h.plain.inherits (hinherits' hr)⟩,
    hinherits' hr, hsame', hmoves.nextPid_le, hmoves.lifecycle, hswitch'⟩

/-- One event of a pointer kernel that follows a list kernel. -/
theorem KernelInv.follow {a : Kernel ListQueues} {k k' : Kernel PtrQueues} {e : Event}
    (h : KernelInv a) (hfollows : Follows a k) (hkill : e.call ≠ .kill 0)
    (hrun : memoryRun k e = some k') : ∃ a', Follows a' k' ∧ Kept a a' e := by
  obtain ⟨hstep, hrange⟩ := Option.filter_eq_some_iff.mp hrun
  obtain ⟨a', _, hfollows', hkept⟩ :=
    (kernelStep_sim hfollows e).of_ok (h.step hkill) (kernelRun_eq_some.mp hstep)
  refine ⟨a', hfollows', hkept ?_⟩
  rw [← hfollows'.core]
  exact of_decide_eq_true hrange

end MipsOs.Sched
