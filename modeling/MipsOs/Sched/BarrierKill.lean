import MipsOs.Sched.Barrier
import MipsOs.Sched.BootTask

/-!
# Killing a task that waits at a barrier

`do_kill` takes a task out of its queue by `in_queue`, whatever queue that is.
For the block queue of a barrier nobody takes the task out of `now` as well.

The runs here are those of `Sched/Barrier.lean` with kills.  A kill that
hits nobody at the barrier leaves it alone, so the generations stay as they are.
A kill that hits a waiting task leaves `now` one too high.
`barrier_kill_iff` is the result.
-/

namespace MipsOs.Sched

open MipsOs.Lib

namespace Core

/-- The task waits at the barrier. -/
def waitsAt (c : Core) (b : BarrierId) (i : Task) : Bool :=
  (c.pcb i).status = .blocked ∧ (c.pcb i).inQueue = some (.block (.barrier b))

/-- The call kills a task that waits at the barrier. -/
def killsWaiter (c : Core) (b : BarrierId) : Call → Bool
  | .kill pid => (c.findPid pid).any (c.waitsAt b)
  | _ => false

end Core

/-- The block queue of the barrier is used by `do_barrier_wait` and `do_kill` alone. -/
def Call.leavesBarrier (b : BarrierId) : Call → Bool
  | .kill _ => true
  | call => call.respects b

section Lists

variable {b : BarrierId} {k : Kernel ListQueues} {i : Task}

theorem SchedInv.waitsAt_iff (h : SchedInv k) :
    k.toCore.waitsAt b i = true ↔ i ∈ k.queues.items (.block (.barrier b)) := by
  rw [k.queues.mem_iff, Core.waitsAt, decide_eq_true_iff]
  constructor
  · rintro ⟨hs, hqueue⟩
    have hname : ∀ q, k.queues.owner i = some q → q = .block (.barrier b) := fun q hq =>
      Option.some.inj ((h.names i q hq).symm.trans hqueue)
    rcases (fits_blocked_iff (h.fits i)).mp hs with hq | ⟨p, hq⟩
    · rw [hq, hname _ hq]
    · rw [hq, hname _ hq]
  · intro hq
    exact ⟨(fits_blocked_iff (h.fits i)).mpr (Or.inr ⟨_, hq⟩), h.names i _ hq⟩

theorem killed_items {q : QueueId} (hq : k.queues.owner i = some q) (p : QueueId) :
    (k.killed i q hq).queues.items p =
      if p = q then (k.queues.items q).erase i else k.queues.items p :=
  Kernel.taken_items (k := k.setPcb i { k.pcb i with status := .exited }) hq p

/-- The tasks at the barrier after `do_kill`. -/
def afterKill (k : Kernel ListQueues) (b : BarrierId) (pid : Int) : List Task :=
  match k.toCore.findPid pid with
  | none => k.queues.items (.block (.barrier b))
  | some i => (k.queues.items (.block (.barrier b))).erase i

/-- `do_kill` takes the process out of the queue and leaves `now`. -/
theorem gathers_kill (h : RunInv k) {pid : Int} (hpid : pid ≠ 0) (sp : Nat) :
    Safe (kernelStep k ⟨sp, .kill pid⟩) (Gathers b (k.barrier b) (afterKill k b pid)) := by
  refine h.kill_rule hpid sp (fun hfind => ?_) (fun hfind _ => ?_) fun i q hq hfind _ _ _ => ?_
  · simp only [afterKill, hfind]
    exact ⟨rfl, rfl⟩
  · simp only [afterKill, hfind]
    exact ⟨rfl, (List.erase_of_not_mem (h.current_not_mem _)).symm⟩
  · simp only [afterKill, hfind]
    have hkilled : Gathers b (k.barrier b) ((k.queues.items (.block (.barrier b))).erase i)
        (k.killed i q hq) := by
      refine ⟨rfl, ?_⟩
      rw [killed_items]
      split
      · rename_i hqueue
        rw [← hqueue]
      · rename_i hqueue
        refine (List.erase_of_not_mem fun hmem => hqueue ?_).symm
        rw [k.queues.mem_iff, hq] at hmem
        exact (Option.some.inj hmem).symm
    exact hkilled.freeProc i

/-- A kill that hits nobody at the barrier leaves the queue alone. -/
theorem afterKill_eq (h : SchedInv k) {pid : Int}
    (hspared : k.toCore.killsWaiter b (.kill pid) = false) :
    afterKill k b pid = k.queues.items (.block (.barrier b)) := by
  rw [Core.killsWaiter] at hspared
  rw [afterKill]
  cases hfind : k.toCore.findPid pid with
  | none => rfl
  | some i =>
    rw [hfind, Option.any_some, ← Bool.not_eq_true, h.waitsAt_iff] at hspared
    exact List.erase_of_not_mem hspared

/-- A kill that hits a task at the barrier makes the queue shorter. -/
theorem length_afterKill (h : SchedInv k) {pid : Int}
    (hhit : k.toCore.killsWaiter b (.kill pid) = true) :
    (afterKill k b pid).length + 1 = (k.queues.items (.block (.barrier b))).length := by
  rw [Core.killsWaiter] at hhit
  rw [afterKill]
  cases hfind : k.toCore.findPid pid with
  | none =>
    rw [hfind] at hhit
    cases hhit
  | some i =>
    rw [hfind, Option.any_some, h.waitsAt_iff] at hhit
    have hpos := List.length_pos_of_mem hhit
    show ((k.queues.items (.block (.barrier b))).erase i).length + 1 = _
    rw [List.length_erase_of_mem hhit]
    omega

/-- The boot code is parked in every list kernel that a pointer kernel follows. -/
theorem Parked.of_follows {a a' : Kernel ListQueues} {c : Kernel PtrQueues} (h : Parked a)
    (hfollows : Follows a c) (hfollows' : Follows a' c) (hinv : SchedInv a') : Parked a' := by
  obtain ⟨_, hrun, hqueue⟩ := h
  have hpcb : a'.pcb 0 = a.pcb 0 := by
    rw [← congrArg Core.pcb hfollows.core, ← congrArg Core.pcb hfollows'.core]
  rw [← hpcb] at hrun hqueue
  refine ⟨?_, hrun, hqueue⟩
  cases howner : a'.queues.owner 0 with
  | none => rfl
  | some q =>
    have hname := hinv.names 0 q howner
    rw [hqueue] at hname
    cases hname

end Lists

namespace BarrierSystem

/-- What a call of a run may be. -/
def CallOk (b : BarrierId) (s : BarrierSystem) (e : Event) : Prop :=
  BootOk s.kernel.toCore e ∧ e.call.leavesBarrier b = true

/-- Nobody who waits at the barrier is killed. -/
def SparesWaiters (b : BarrierId) (s : BarrierSystem) (e : Event) : Prop :=
  s.CallOk b e ∧ s.kernel.toCore.killsWaiter b e.call = false

instance (b : BarrierId) (s : BarrierSystem) (e : Event) : Decidable (s.SparesWaiters b e) :=
  inferInstanceAs (Decidable ((BootOk _ _ ∧ _ = _) ∧ _ = _))

section Runs

variable {b : BarrierId} {n : Nat} {s s' : BarrierSystem} {a : Kernel ListQueues} {e : Event}

/-- A kill leaves the generations alone, or it makes the queue shorter than
`now` says. -/
theorem Inv.kill (h : s.Inv b n a) (hboot : BootInv a) {pid : Int} {sp : Nat}
    (hok : BootOk s.kernel.toCore ⟨sp, .kill pid⟩)
    (hstep : s.step b ⟨sp, .kill pid⟩ = some s') :
    ∃ a', Follows a' s'.kernel ∧ RunInv a' ∧
      (s.kernel.toCore.killsWaiter b (.kill pid) = false → s'.Inv b n a') ∧
      (s.kernel.toCore.killsWaiter b (.kill pid) = true →
        (s'.kernel.barrier b).now = (a'.queues.items (.block (.barrier b))).length + 1) := by
  obtain ⟨k', hk, rfl⟩ := Option.map_eq_some_iff.mp hstep
  have hcore := h.follows.core
  obtain ⟨a₁, _, _, ha₁, _⟩ := hboot.follow h.follows hok hk
  have hpid : pid ≠ 0 := by
    rintro rfl
    rw [hboot.kill_zero rfl] at ha₁
    cases ha₁
  have hrun := h.run.step (e := ⟨sp, .kill pid⟩) (by simpa using hpid)
  obtain ⟨a', _, hfollows', ⟨hrun', _⟩, hgathers⟩ := (kernelStep_sim h.follows _).of_ok
    (hrun.and (gathers_kill (b := b) h.run hpid sp)) (kernelRun_eq_some.mp hk)
  refine ⟨a', hfollows', hrun', fun hspared => ?_, fun hhit => ?_⟩
  · have hlast : ¬ s.Last b ⟨sp, .kill pid⟩ := by
      rintro ⟨hcall, _⟩
      cases hcall
    have hnocall : ¬ Call.kill pid = .barrierWait b := by simp
    rw [hcore] at hspared
    rw [afterKill_eq h.run.toSchedInv hspared] at hgathers
    rw [if_neg hlast, if_neg hnocall]
    exact h.stays hfollows' hrun' hgathers
  · rw [hcore] at hhit
    have hlength := length_afterKill h.run.toSchedInv hhit
    show (k'.barrier b).now = _
    rw [hfollows'.core, hgathers.1, hgathers.2, h.now, ← hlength]
    exact Nat.cast_succ _

/-- One event, and whether the count is right after it. -/
theorem Inv.spares (h : s.Inv b n a) (hparked : Parked a) (hok : s.CallOk b e)
    (hstep : s.step b e = some s') :
    ∃ a', Follows a' s'.kernel ∧ Parked a' ∧
      (s.kernel.toCore.killsWaiter b e.call = false → s'.Inv b n a') ∧
      (s.kernel.toCore.killsWaiter b e.call = true →
        (s'.kernel.barrier b).now = (a'.queues.items (.block (.barrier b))).length + 1) := by
  have hboot : BootInv a := ⟨h.run, hparked⟩
  obtain ⟨k', hk, hs'⟩ := Option.map_eq_some_iff.mp hstep
  obtain ⟨a₁, hfollows₁, hboot₁, _, _⟩ := hboot.follow h.follows hok.1 hk
  have hkernel : s'.kernel = k' := by rw [← hs']
  rw [← hkernel] at hfollows₁
  obtain ⟨sp, call⟩ := e
  by_cases hkill : ∃ pid, call = .kill pid
  · obtain ⟨pid, rfl⟩ := hkill
    obtain ⟨a', hfollows', hrun', hspared, hhit⟩ := h.kill hboot hok.1 hstep
    exact ⟨a', hfollows', hboot₁.parked.of_follows hfollows₁ hfollows' hrun'.toSchedInv, hspared,
      hhit⟩
  · have hrespects : EventOk b s ⟨sp, call⟩ := by
      have hleaves := hok.2
      cases call with
      | kill pid => exact absurd ⟨pid, rfl⟩ hkill
      | _ => exact hleaves
    have hspared : s.kernel.toCore.killsWaiter b call = false := by
      cases call with
      | kill pid => exact absurd ⟨pid, rfl⟩ hkill
      | _ => rfl
    obtain ⟨a', hinv', _⟩ := h.step hrespects hstep
    refine ⟨a', hinv'.follows, hboot₁.parked.of_follows hfollows₁ hinv'.follows
      hinv'.run.toSchedInv, fun _ => hinv', fun hhit => ?_⟩
    rw [hspared] at hhit
    cases hhit

/-- While nobody who waits is killed, the generations stay as they are. -/
theorem reaches_spares_inv (barrier : BarrierId → Barrier) (tables : Nat → Nat → Nat)
    (hn : 1 ≤ n) (hb : barrier b = { goal := n, now := 0 })
    (h : Reaches (BarrierSystem.step b) (SparesWaiters b) (boot barrier tables) s) :
    ∃ a, s.Inv b n a ∧ Parked a := by
  apply h.invariant (fun s => ∃ a, s.Inv b n a ∧ Parked a)
  · exact ⟨_, inv_boot barrier tables hn hb, (bootLists_bootInv barrier tables).parked⟩
  · intro s e s' ha hok hstep
    obtain ⟨a, hinv, hparked⟩ := ha
    obtain ⟨a', _, hparked', hspared, _⟩ := hinv.spares hparked hok.1 hstep
    exact ⟨a', hspared hok.2, hparked'⟩

/-- For a barrier with goal `n`, in every state that is reached from boot while
nobody who waits at the barrier is killed: `now` is the number of tasks that
wait, and they are alive and have arrived since the last completion; the arrival
that completes the barrier finds `n - 1` others; and after the next event `now` is
the number of tasks that wait exactly when the event spares those who wait. -/
theorem barrier_kill_iff (barrier : BarrierId → Barrier) (tables : Nat → Nat → Nat)
    (hn : 1 ≤ n) (hb : barrier b = { goal := n, now := 0 })
    (h : Reaches (BarrierSystem.step b) (SparesWaiters b) (boot barrier tables) s) :
    ∃ L, Represents s.kernel.queues L ∧
      (s.kernel.barrier b).now = (L.items (.block (.barrier b))).length ∧
      L.items (.block (.barrier b)) = s.arrivals.drop (s.completions * n) ∧
      (∀ i ∈ L.items (.block (.barrier b)), (s.kernel.pcb i).status = .blocked) ∧
      (∀ e, s.Last b e → (L.items (.block (.barrier b))).length + 1 = n) ∧
      ∀ e s', s.CallOk b e → s.step b e = some s' →
        ∃ L', Represents s'.kernel.queues L' ∧
          ((s'.kernel.barrier b).now = (L'.items (.block (.barrier b))).length ↔
            s.kernel.toCore.killsWaiter b e.call = false) := by
  obtain ⟨a, hinv, hparked⟩ := reaches_spares_inv barrier tables hn hb h
  have hcore := hinv.follows.core
  have hnow := hinv.now
  refine ⟨a.queues, hinv.follows.queues, ?_, hinv.waiting, fun i hi => ?_, ?_, ?_⟩
  · rw [hcore]
    exact hnow
  · have hwaits := hinv.run.waitsAt_iff.mpr hi
    rw [← hcore, Core.waitsAt, decide_eq_true_iff] at hwaits
    exact hwaits.1
  · rintro e ⟨_, hlast⟩
    have hlt := hinv.now_lt
    rw [hcore, hinv.goal, hnow] at hlast
    omega
  · intro e s' hok hstep
    obtain ⟨a', hfollows', _, hspared, hhit⟩ := hinv.spares hparked hok hstep
    refine ⟨a'.queues, hfollows'.queues, fun heq => ?_, fun hfalse => ?_⟩
    · by_contra hkills
      rw [hhit (by simpa using hkills)] at heq
      omega
    · rw [hfollows'.core]
      exact (hspared hfalse).now

/-- The system over cleared tables, with goal 2 at every barrier. -/
def pair : BarrierSystem := boot (fun _ => { goal := 2, now := 0 }) fun _ _ => 0

/-- Task 1 waits, and task 2 kills task 3, which has not arrived. -/
theorem pair_bystander_killed :
    ∃ s, runIf (BarrierSystem.step 7) (SparesWaiters 7) pair
        [⟨0, .spawn 0⟩, ⟨0, .spawn 0⟩, ⟨0, .spawn 0⟩, ⟨0, .yield⟩, ⟨0, .barrierWait 7⟩,
          ⟨0, .kill 3⟩] = some s ∧
      ∃ L, Represents s.kernel.queues L ∧
        (s.kernel.barrier 7).now = (L.items (.block (.barrier 7))).length := by
  have hrun : (runIf (BarrierSystem.step 7) (SparesWaiters 7) pair
      [⟨0, .spawn 0⟩, ⟨0, .spawn 0⟩, ⟨0, .spawn 0⟩, ⟨0, .yield⟩, ⟨0, .barrierWait 7⟩,
        ⟨0, .kill 3⟩]).isSome = true := by
    decide +kernel
  obtain ⟨s, hs⟩ := Option.isSome_iff_exists.mp hrun
  obtain ⟨L, hL, hnow, _⟩ :=
    barrier_kill_iff (n := 2) _ _ (by decide) rfl (reaches_of_runIf hs)
  exact ⟨s, hs, L, hL, hnow⟩

/-- Task 1 waits, and task 2 kills it. -/
theorem pair_waiter_killed :
    ¬ ∀ (s : BarrierSystem) (L : Lists QueueId Task),
      Reaches (BarrierSystem.step 7) (CallOk 7) pair s → Represents s.kernel.queues L →
        (s.kernel.barrier 7).now = (L.items (.block (.barrier 7))).length := by
  intro hall
  have hrun : (runIf (BarrierSystem.step 7) (SparesWaiters 7) pair
      [⟨0, .spawn 0⟩, ⟨0, .spawn 0⟩, ⟨0, .yield⟩, ⟨0, .barrierWait 7⟩]).map (fun s =>
        (decide (BootOk s.kernel.toCore ⟨0, .kill 1⟩),
          s.kernel.toCore.killsWaiter 7 (.kill 1), (s.step 7 ⟨0, .kill 1⟩).isSome)) =
      some (true, true, true) := by
    decide +kernel
  obtain ⟨s, hs, htriple⟩ := Option.map_eq_some_iff.mp hrun
  obtain ⟨hboot, hpair⟩ := Prod.mk.inj htriple
  obtain ⟨hhit, hsome⟩ := Prod.mk.inj hpair
  obtain ⟨s', hs'⟩ := Option.isSome_iff_exists.mp hsome
  have hreach := reaches_of_runIf hs
  have hok : s.CallOk 7 ⟨0, .kill 1⟩ := ⟨of_decide_eq_true hboot, rfl⟩
  obtain ⟨a, hinv, hparked⟩ := reaches_spares_inv (n := 2) _ _ (by decide) rfl hreach
  obtain ⟨a', hfollows', _, _, hdrift⟩ := hinv.spares hparked hok hs'
  have hreach' := (hreach.mono fun _ _ h => h.1).snoc hok hs'
  have heq := hall s' a'.queues hreach' hfollows'.queues
  rw [hdrift hhit] at heq
  omega

end Runs

end BarrierSystem

end MipsOs.Sched
