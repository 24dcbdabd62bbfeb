import MipsOs.Sched.Starvation

/-!
# The boot code

`_start` runs as PCB 0.  It spawns the shell and calls the scheduler, and it
never sleeps, blocks or waits.  So PCB 0 is in no queue in any state, and
`do_kill(0)`, which finds PCB 0 by its pid, dereferences the null pointer in its
field `in_queue`.

`BootOk` is the condition on the events, and `BootInv.step` the step of the
invariant: every event is a sequence of moves, and nothing else is asked of it.
-/

namespace MipsOs.Sched

open MipsOs.Lib

/-- The boot code does not call what puts the running task into a queue. -/
def BootOk (c : Core) (e : Event) : Prop :=
  c.currentRunning = 0 → e.call.joins = none

instance (c : Core) (e : Event) : Decidable (BootOk c e) :=
  inferInstanceAs (Decidable (_ → _))

/-- PCB 0 is in no queue and is not put back into the ready queue. -/
def Parked (k : Kernel ListQueues) : Prop :=
  k.queues.owner 0 = none ∧ (k.pcb 0).status ≠ .running ∧ (k.pcb 0).inQueue = none

section Moves

variable {c : Core} {call : Call} {a b k k' : Kernel ListQueues} {e : Event}

/-- A change of another task keeps PCB 0 parked. -/
theorem Parked.of_ne {i : Task} {o : Option QueueId} (h : Parked a) (hi : i ≠ 0)
    (howner : ∀ j, b.queues.owner j = if j = i then o else a.queues.owner j)
    (hpcb : ∀ j, j ≠ i → b.pcb j = a.pcb j) : Parked b := by
  unfold Parked
  rw [howner, if_neg hi.symm, hpcb 0 hi.symm]
  exact h

/-- A change of a PCB that does not start to run. -/
theorem Parked.setPcb {i : Task} {p : Pcb} (h : Parked a)
    (hstatus : (a.pcb i).status ≠ .running → p.status ≠ .running)
    (hqueue : p.inQueue = (a.pcb i).inQueue) : Parked (a.setPcb i p) := by
  obtain ⟨howner, hrun, hnone⟩ := h
  unfold Parked
  by_cases hi : 0 = i
  · subst hi
    rw [Kernel.setPcb_pcb_self, hqueue]
    exact ⟨howner, hstatus hrun, hnone⟩
  · rw [Kernel.setPcb_pcb_of_ne hi]
    exact ⟨howner, hrun, hnone⟩

theorem Move.parked (hmove : Move c call a b) (hok : c.currentRunning = 0 → call.joins = none)
    (h : Parked a) : Parked b := by
  have hqueued : ∀ {i : Task} {q : QueueId}, a.queues.owner i = some q → i ≠ 0 := by
    rintro i q hi rfl
    rw [h.1] at hi
    cases hi
  cases hmove with
  | record hpid hstatus hqueue hwait hpgd =>
    apply h.setPcb _ hqueue
    rw [hstatus]
    exact id
  | aside hpcb hqueues hcur hpid hnext hmm =>
    unfold Parked
    rw [hpcb, hqueues]
    exact h
  | target hoff => exact h.setPcb id rfl
  | wake hi hq hwait =>
    exact h.of_ne (hqueued hi) (Kernel.woken_owner hi) fun j hj => Kernel.woken_pcb_of_ne hi hj
  | join hoff hfits hcall hcur hlive hwait =>
    apply h.of_ne _ (Kernel.enqueued_owner hoff) fun j hj => Kernel.enqueued_pcb_of_ne hoff hj
    intro hzero
    rw [hok (hcur.symm.trans hzero)] at hcall
    cases hcall
  | preempt hoff hrun =>
    apply h.of_ne _ (Kernel.enqueued_owner hoff) fun j hj => Kernel.enqueued_pcb_of_ne hoff hj
    intro hzero
    rw [Kernel.cur, hzero] at hrun
    exact h.2.1 hrun
  | exit hoff hcur hlive => exact h.setPcb (fun _ => by simp) rfl
  | kill hi hdying hcur =>
    exact h.of_ne (hqueued hi) (Kernel.taken_owner _) fun j hj => Kernel.killed_pcb_of_ne hi hj
  | freeMemory hdying hoff hpgd => exact h
  | bury hdying hoff hwaiters => exact h.setPcb (fun _ => by simp) rfl
  | dispatch hi =>
    exact h.of_ne (hqueued hi) (Kernel.dispatched_owner hi) fun j hj =>
      Kernel.dispatched_pcb_of_ne hi hj
  | spawn hcall hstart halloc hcur hoff =>
    exact h.of_ne (Core.allocPcb_eq_some halloc).1 (Kernel.spawned_owner hoff) fun j hj =>
      Kernel.spawned_pcb_of_ne hoff hj
  | fault hcall hstart hpgd => exact h

/-- The invariant of a kernel whose boot code does not wait. -/
structure BootInv (k : Kernel ListQueues) : Prop extends RunInv k where
  parked : Parked k

/-- `do_kill(0)` takes PCB 0 out of no queue. -/
theorem BootInv.kill_zero (h : BootInv k) (hcall : e.call = .kill 0) :
    kernelStep k e = .error .null := by
  have hfind : k.toCore.findPid 0 = some 0 := by
    simp [Core.findPid, numMaxTask, List.finRange_succ, h.pid_zero]
  obtain ⟨_, hrun, hqueue⟩ := h.parked
  have hnone : ((k.setPcb 0 { k.pcb 0 with status := .exited }).pcb 0).inQueue = none := by
    rw [Kernel.setPcb_pcb_self]
    exact hqueue
  simp only [kernelStep, hcall, Kernel.doKill, hfind, if_neg hrun, hnone]
  rfl

/-- One event keeps the invariant and is a sequence of moves. -/
theorem BootInv.step (h : BootInv k) (hok : BootOk k.toCore e) :
    Safe (kernelStep k e) fun k' => BootInv k' ∧ Moves k.toCore e.call k k' := by
  by_cases hkill : e.call = .kill 0
  · rw [h.kill_zero hkill]
    trivial
  · refine (h.toRunInv.step hkill).mono fun k' hk' => ?_
    obtain ⟨hinv, hmoves⟩ := hk'
    have hparked : Parked k' := hmoves.invariant Parked h.parked fun a b _ hmove ha =>
      hmove.parked hok ha
    exact ⟨⟨hinv, hparked⟩, hmoves⟩

end Moves

/-! ## The pointer kernel -/

section Pointers

variable {a : Kernel ListQueues} {k k' : Kernel PtrQueues} {e : Event}

theorem BootInv.follow (h : BootInv a) (hfollows : Follows a k) (hok : BootOk k.toCore e)
    (hstep : kernelRun k e = some k') :
    ∃ a', Follows a' k' ∧ BootInv a' ∧ kernelStep a e = .ok a' ∧
      Moves a.toCore e.call a a' := by
  rw [hfollows.core] at hok
  obtain ⟨a', ha', hfollows', hinv', hmoves⟩ := (kernelStep_sim hfollows e).of_ok (h.step hok)
    (kernelRun_eq_some.mp hstep)
  exact ⟨a', hfollows', hinv', ha', hmoves⟩

theorem bootLists_bootInv (barrier : BarrierId → Barrier) (tables : Nat → Nat → Nat) :
    BootInv (bootLists barrier tables) where
  toRunInv := bootLists_runInv barrier tables
  parked := by
    refine ⟨rfl, ?_, rfl⟩
    show ((bootCore barrier tables).pcb 0).status ≠ .running
    simp [bootCore, bootPcb]

/-- A pointer kernel that is reached from boot follows a list kernel with the
invariant. -/
theorem reaches_bootInv (barrier : BarrierId → Barrier) (tables : Nat → Nat → Nat)
    (h : Reaches kernelRun (fun k e => BootOk k.toCore e) (bootKernel barrier tables) k) :
    ∃ a, Follows a k ∧ BootInv a := by
  apply h.invariant (fun k => ∃ a, Follows a k ∧ BootInv a)
  · exact ⟨_, bootLists_follows barrier tables, bootLists_bootInv barrier tables⟩
  · intro k e k' hinv hok hstep
    obtain ⟨a, hfollows, hinv⟩ := hinv
    obtain ⟨a', hfollows', hinv', _⟩ := hinv.follow hfollows hok hstep
    exact ⟨a', hfollows', hinv'⟩

end Pointers

end MipsOs.Sched
