import MipsOs.Sched.Kernel
import MipsOs.Lib.Run

/-!
# The pointer kernel follows the list kernel

`Follows a c` relates a kernel over lists to a kernel over pointers: they
agree on everything but the queues, and the pointers represent the lists.

Every function of the kernel takes related kernels to related kernels, one
lemma for each function.  `kernelStep_sim` is the result for one event.  The
theorems about the list kernel then hold of the pointer kernel, as long as
the list kernel never misuses its queues; `Sched/Invariant.lean` proves that
it does not.
-/

namespace MipsOs.Sched

open MipsOs.Lib MipsOs.Mm

/-- The kernel over pointers follows the kernel over lists. -/
structure Follows (a : Kernel ListQueues) (c : Kernel PtrQueues) : Prop where
  core : c.toCore = a.toCore
  queues : Represents c.queues a.queues

variable {a : Kernel ListQueues} {c : Kernel PtrQueues}

namespace Kernel

theorem enqueue_sim (h : Follows a c) (q : QueueId) (i : Task) (s : TaskStatus) :
    Sim Follows (a.enqueue q i s) (c.enqueue q i s) := by
  obtain ⟨core, aq⟩ := a
  obtain ⟨_, cq⟩ := c
  obtain ⟨rfl, hq⟩ := h
  exact (hq.push q i).bind fun _ _ hpush => Sim.ok ⟨rfl, hpush⟩

theorem wakeOne_sim (q : QueueId) (due : Pcb → Bool) (item : Task) (h : Follows a c) :
    Sim (fun r r' => r.1 = r'.1 ∧ Follows r.2 r'.2) (wakeOne q due item a)
      (wakeOne q due item c) := by
  have hpcb : c.pcb = a.pcb := by rw [h.core]
  simp only [wakeOne, hpcb]
  split
  · refine (h.queues.remove q item).bind ?_
    rintro ⟨next, aq⟩ ⟨next', cq⟩ ⟨rfl, hq⟩
    exact (enqueue_sim (a := { a with queues := aq }) (c := { c with queues := cq })
      ⟨h.core, hq⟩ .ready item .ready).bind fun a' c' h' => Sim.ok ⟨rfl, h'⟩
  · refine (h.queues.next item).bind ?_
    rintro next _ rfl
    exact Sim.ok ⟨rfl, h⟩

theorem wakeVisits_sim (q : QueueId) (due : Pcb → Bool) (fuel : Nat) (item : Option Task)
    (h : Follows a c) :
    Sim (fun r r' => r.1 = r'.1 ∧ Follows r.2 r'.2) (wakeVisits q due fuel item a)
      (wakeVisits q due fuel item c) := by
  induction fuel generalizing item a c with
  | zero =>
    cases item with
    | none => exact Sim.ok ⟨rfl, h⟩
    | some item => trivial
  | succ fuel ih =>
    cases item with
    | none => exact Sim.ok ⟨rfl, h⟩
    | some item =>
      simp only [wakeVisits]
      refine (wakeOne_sim q due item h).bind ?_
      rintro ⟨next, a'⟩ ⟨next', c'⟩ ⟨rfl, h'⟩
      refine (ih next h').bind ?_
      rintro ⟨visited, a''⟩ ⟨visited', c''⟩ ⟨rfl, h''⟩
      exact Sim.ok ⟨rfl, h''⟩

theorem wakeAll_sim (q : QueueId) (due : Pcb → Bool) (fuel : Nat) (item : Option Task)
    (h : Follows a c) : Sim Follows (wakeAll q due fuel item a) (wakeAll q due fuel item c) := by
  rw [wakeAll_eq, wakeAll_eq]
  exact (wakeVisits_sim q due fuel item h).bind fun _ _ h' => Sim.ok h'.2

theorem checkSleeping_sim (h : Follows a c) :
    Sim Follows a.checkSleeping c.checkSleeping := by
  have htime : c.getTimer = a.getTimer := by simp only [getTimer, h.core]
  simp only [checkSleeping, h.queues.isEmpty, h.queues.head_eq, htime]
  split
  · exact Sim.ok h
  · exact wakeAll_sim _ _ _ _ h

theorem wakeWaiting_sim (h : Follows a c) (pid : Int) :
    Sim Follows (a.wakeWaiting pid) (c.wakeWaiting pid) := by
  simp only [wakeWaiting, h.queues.isEmpty, h.queues.head_eq]
  split
  · exact Sim.ok h
  · exact wakeAll_sim _ _ _ _ h

theorem doUnblockOne_sim (h : Follows a c) (queue : BlockQueue) :
    Sim Follows (a.doUnblockOne queue) (c.doUnblockOne queue) := by
  refine (h.queues.dequeue _).bind ?_
  rintro ⟨item, aq⟩ ⟨item', cq⟩ ⟨rfl, hq⟩
  exact enqueue_sim (a := { a with queues := aq }) (c := { c with queues := cq })
    ⟨h.core, hq⟩ .ready item .ready

theorem unblockLoop_sim (queue : BlockQueue) (fuel : Nat) (h : Follows a c) :
    Sim Follows (unblockLoop queue fuel a) (unblockLoop queue fuel c) := by
  induction fuel generalizing a c with
  | zero =>
    simp only [unblockLoop, h.queues.isEmpty]
    split
    · exact Sim.ok h
    · trivial
  | succ fuel ih =>
    rw [unblockLoop, unblockLoop, h.queues.isEmpty]
    split
    · exact Sim.ok h
    · exact (doUnblockOne_sim h queue).bind fun _ _ h' => ih h'

theorem procGetLock_follows (h : Follows a c) (lock : LockId) :
    Follows (a.procGetLock lock) (c.procGetLock lock) := by
  obtain ⟨core, aq⟩ := a
  obtain ⟨_, cq⟩ := c
  obtain ⟨rfl, hq⟩ := h
  exact ⟨rfl, hq⟩

theorem procLoseLock_follows (h : Follows a c) (lock : LockId) :
    Follows (a.procLoseLock lock) (c.procLoseLock lock) := by
  obtain ⟨core, aq⟩ := a
  obtain ⟨_, cq⟩ := c
  obtain ⟨rfl, hq⟩ := h
  exact ⟨rfl, hq⟩

theorem setPcb_follows (h : Follows a c) (i : Task) (p : Pcb) :
    Follows (a.setPcb i p) (c.setPcb i p) := by
  obtain ⟨core, aq⟩ := a
  obtain ⟨_, cq⟩ := c
  obtain ⟨rfl, hq⟩ := h
  exact ⟨rfl, hq⟩

theorem setLockStatus_follows (h : Follows a c) (lock : LockId) (s : LockStatus) :
    Follows (a.setLockStatus lock s) (c.setLockStatus lock s) := by
  obtain ⟨core, aq⟩ := a
  obtain ⟨_, cq⟩ := c
  obtain ⟨rfl, hq⟩ := h
  exact ⟨rfl, hq⟩

theorem doMutexLockRelease_sim (h : Follows a c) (lock : LockId) :
    Sim Follows (a.doMutexLockRelease lock) (c.doMutexLockRelease lock) := by
  have hlose := procLoseLock_follows h lock
  simp only [doMutexLockRelease, hlose.queues.isEmpty]
  split
  · exact Sim.ok (setLockStatus_follows hlose lock _)
  · exact doUnblockOne_sim (procGetLock_follows hlose lock) _

theorem releaseLocks_sim (i : Task) (js : List (Fin maxLock)) (h : Follows a c) :
    Sim Follows (releaseLocks i js a) (releaseLocks i js c) := by
  induction js generalizing a c with
  | nil => exact Sim.ok h
  | cons j rest ih =>
    have hpcb : c.pcb = a.pcb := by rw [h.core]
    simp only [releaseLocks, hpcb]
    split
    · exact ih h
    · refine (doMutexLockRelease_sim h _).bind fun a' c' h' => ?_
      have hpcb' : c'.pcb = a'.pcb := by rw [h'.core]
      rw [hpcb']
      exact ih (setPcb_follows h' i _)

theorem freeProc_sim (h : Follows a c) (i : Task) :
    Sim Follows (a.freeProc i) (c.freeProc i) := by
  have hpcb : c.pcb = a.pcb := by rw [h.core]
  simp only [freeProc, hpcb]
  split
  · rfl
  · have hfree : Follows { a with toCore := a.toCore.freeMemory i }
        { c with toCore := c.toCore.freeMemory i } := ⟨by rw [h.core], h.queues⟩
    refine (releaseLocks_sim i _ hfree).bind fun a₁ c₁ h₁ => ?_
    refine (wakeWaiting_sim h₁ _).bind fun a₂ c₂ h₂ => ?_
    have hpcb : c₂.pcb = a₂.pcb := by rw [h₂.core]
    refine Sim.ok ?_
    simp only [freePcb, hpcb]
    exact setPcb_follows h₂ i _

theorem retire_sim (h : Follows a c) : Sim Follows a.retire c.retire := by
  have hcur : c.cur = a.cur := by simp only [cur, h.core]
  have hrun : c.currentRunning = a.currentRunning := by rw [h.core]
  simp only [retire, hcur, hrun]
  split
  · exact enqueue_sim h _ _ _
  · split
    · exact freeProc_sim h _
    · exact Sim.ok h

theorem dispatch_sim (h : Follows a c) : Sim Follows a.dispatch c.dispatch := by
  obtain ⟨core, aq⟩ := a
  obtain ⟨_, cq⟩ := c
  obtain ⟨rfl, hq⟩ := h
  refine (hq.dequeue _).bind ?_
  rintro ⟨next, aq'⟩ ⟨next', cq'⟩ ⟨rfl, hq'⟩
  exact Sim.ok ⟨rfl, hq'⟩

theorem doScheduler_sim (h : Follows a c) (sp : Nat) :
    Sim Follows (a.doScheduler sp) (c.doScheduler sp) := by
  have hcur : c.cur = a.cur := by simp only [cur, h.core]
  have hrun : c.currentRunning = a.currentRunning := by rw [h.core]
  simp only [doScheduler, scheduler, hcur, hrun]
  exact (checkSleeping_sim (setPcb_follows h _ _)).bind fun _ _ h₁ =>
    (retire_sim h₁).bind fun _ _ h₂ => dispatch_sim h₂

/-- Queueing the running task and scheduling, as every blocking call ends. -/
theorem enqueue_doScheduler_sim (h : Follows a c) (sp : Nat) (q : QueueId)
    (s : TaskStatus) :
    Sim Follows (a.enqueue q a.currentRunning s >>= fun k => k.doScheduler sp)
      (c.enqueue q c.currentRunning s >>= fun k => k.doScheduler sp) := by
  have hrun : c.currentRunning = a.currentRunning := by rw [h.core]
  rw [hrun]
  exact (enqueue_sim h q _ s).bind fun _ _ h' => doScheduler_sim h' sp

theorem doSleep_sim (h : Follows a c) (sp time : Nat) :
    Sim Follows (a.doSleep sp time) (c.doSleep sp time) := by
  obtain ⟨core, aq⟩ := a
  obtain ⟨_, cq⟩ := c
  obtain ⟨rfl, hq⟩ := h
  exact enqueue_doScheduler_sim (setPcb_follows ⟨rfl, hq⟩ _ _) sp _ _

theorem doExit_sim (h : Follows a c) (sp : Nat) :
    Sim Follows (a.doExit sp) (c.doExit sp) := by
  obtain ⟨core, aq⟩ := a
  obtain ⟨_, cq⟩ := c
  obtain ⟨rfl, hq⟩ := h
  exact (freeProc_sim (setPcb_follows ⟨rfl, hq⟩ _ _) _).bind fun _ _ h' =>
    doScheduler_sim h' sp

theorem doKill_sim (h : Follows a c) (pid : Int) :
    Sim (fun r r' => r.1 = r'.1 ∧ Follows r.2 r'.2) (a.doKill pid) (c.doKill pid) := by
  obtain ⟨core, aq⟩ := a
  obtain ⟨_, cq⟩ := c
  obtain ⟨rfl, hq⟩ := h
  simp only [doKill]
  split
  · exact Sim.ok ⟨rfl, rfl, hq⟩
  · rename_i i _
    split
    · exact Sim.ok ⟨rfl, setPcb_follows ⟨rfl, hq⟩ _ _⟩
    · simp only [setPcb]
      split
      · rfl
      · refine (hq.remove _ i).bind ?_
        rintro ⟨_, aq'⟩ ⟨_, cq'⟩ ⟨_, hq'⟩
        exact (freeProc_sim ⟨rfl, hq'⟩ i).bind fun _ _ h' => Sim.ok ⟨rfl, h'⟩

theorem doBlock_sim (h : Follows a c) (sp : Nat) (queue : BlockQueue) :
    Sim Follows (a.doBlock sp queue) (c.doBlock sp queue) :=
  enqueue_doScheduler_sim h sp _ _

theorem doWaitpid_sim (h : Follows a c) (sp : Nat) (pid : Int) :
    Sim Follows (a.doWaitpid sp pid) (c.doWaitpid sp pid) := by
  obtain ⟨core, aq⟩ := a
  obtain ⟨_, cq⟩ := c
  obtain ⟨rfl, hq⟩ := h
  simp only [doWaitpid]
  split
  · exact enqueue_doScheduler_sim (setPcb_follows ⟨rfl, hq⟩ _ _) sp _ _
  · exact Sim.ok ⟨rfl, hq⟩

theorem doMutexLockAcquire_sim (h : Follows a c) (sp : Nat) (lock : LockId) :
    Sim Follows (a.doMutexLockAcquire sp lock) (c.doMutexLockAcquire sp lock) := by
  have hlock : c.lockStatus = a.lockStatus := by rw [h.core]
  simp only [doMutexLockAcquire, hlock]
  split
  · exact Sim.ok (setLockStatus_follows (procGetLock_follows h lock) lock _)
  · exact doBlock_sim h sp _

theorem doBarrierWait_sim (h : Follows a c) (sp : Nat) (b : BarrierId) :
    Sim Follows (a.doBarrierWait sp b) (c.doBarrierWait sp b) := by
  have hset : ∀ {a : Kernel ListQueues} {c : Kernel PtrQueues} (now : Int), Follows a c →
      Follows (a.setBarrierNow b now) (c.setBarrierNow b now) := by
    rintro ⟨core, aq⟩ ⟨_, cq⟩ now ⟨rfl, hq⟩
    exact ⟨rfl, hq⟩
  have hbar : c.barrier = a.barrier := by rw [h.core]
  have h₁ := hset ((a.barrier b).now + 1) h
  have hbar₁ : (c.setBarrierNow b ((a.barrier b).now + 1)).barrier =
      (a.setBarrierNow b ((a.barrier b).now + 1)).barrier := by rw [h₁.core]
  simp only [doBarrierWait, hbar, hbar₁]
  split
  · exact doBlock_sim h₁ sp _
  · exact (unblockLoop_sim _ _ h₁).bind fun _ _ h₂ => Sim.ok (hset 0 h₂)

theorem setPcbReady_sim (h : Follows a c) (i : Task) (pid : Int) (sp pt : Nat) :
    Sim Follows (a.setPcbReady i pid sp pt) (c.setPcbReady i pid sp pt) := by
  have hpcb : c.pcb = a.pcb := by rw [h.core]
  simp only [setPcbReady, hpcb]
  refine (enqueue_sim (setPcb_follows h i _) _ _ _).bind fun a' c' h' => ?_
  have hpcb' : c'.pcb = a'.pcb := by rw [h'.core]
  rw [hpcb']
  exact Sim.ok (setPcb_follows h' i _)

theorem doSpawn_sim (h : Follows a c) (argc : Nat) :
    Sim (fun r r' => r.1 = r'.1 ∧ Follows r.2 r'.2) (a.doSpawn argc) (c.doSpawn argc) := by
  simp only [doSpawn, h.core]
  generalize a.toCore.newProcess argc = made
  cases a.toCore.allocPcb with
  | none => exact Sim.ok ⟨rfl, h⟩
  | some i =>
    by_cases hpid : a.nextPid + 1 < 2 ^ 63
    · simp only [if_pos hpid]
      have hmade : Follows { a with toCore := made.2.2 } { c with toCore := made.2.2 } :=
        ⟨rfl, h.queues⟩
      exact (setPcbReady_sim hmade i _ _ _).bind fun _ _ h' => Sim.ok ⟨rfl, h'⟩
    · simp only [if_neg hpid]
      exact rfl

theorem updateTimeElapsed_follows (h : Follows a c) (count : Nat) :
    Follows (a.updateTimeElapsed count) (c.updateTimeElapsed count) := by
  obtain ⟨core, aq⟩ := a
  obtain ⟨_, cq⟩ := c
  obtain ⟨rfl, hq⟩ := h
  exact ⟨rfl, hq⟩

theorem pageFault_sim (h : Follows a c) (addr : Nat) :
    Sim Follows (a.pageFault addr) (c.pageFault addr) := by
  obtain ⟨core, aq⟩ := a
  obtain ⟨_, cq⟩ := c
  obtain ⟨rfl, hq⟩ := h
  simp only [pageFault]
  split
  · rfl
  · exact Sim.ok ⟨rfl, hq⟩

end Kernel

/-- One event: the pointer kernel follows the list kernel. -/
theorem kernelStep_sim (h : Follows a c) (e : Event) :
    Sim Follows (kernelStep a e) (kernelStep c e) := by
  obtain ⟨sp, call⟩ := e
  cases call with
  | spawn argc => exact (Kernel.doSpawn_sim h argc).bind fun _ _ h' => Sim.ok h'.2
  | yield => exact Kernel.doScheduler_sim h sp
  | timer count =>
    exact Kernel.doScheduler_sim (Kernel.updateTimeElapsed_follows h count) sp
  | sleep time => exact Kernel.doSleep_sim h sp time
  | block queue => exact Kernel.doBlock_sim h sp queue
  | unblockOne queue => exact Kernel.doUnblockOne_sim h queue
  | unblockAll queue => exact Kernel.unblockLoop_sim queue _ h
  | waitpid pid => exact Kernel.doWaitpid_sim h sp pid
  | exit => exact Kernel.doExit_sim h sp
  | kill pid => exact (Kernel.doKill_sim h pid).bind fun _ _ h' => Sim.ok h'.2
  | acquire lock => exact Kernel.doMutexLockAcquire_sim h sp lock
  | release lock => exact Kernel.doMutexLockRelease_sim h lock
  | barrierWait b => exact Kernel.doBarrierWait_sim h sp b
  | pageFault addr => exact Kernel.pageFault_sim h addr

end MipsOs.Sched
