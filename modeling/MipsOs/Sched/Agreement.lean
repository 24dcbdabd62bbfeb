import MipsOs.Sched.Invariant
import MipsOs.Sched.Refine

/-!
# The queues of the pointer kernel agree with its tasks

The pointer kernel runs from boot over any sequence of events.  Every state
it reaches follows a list kernel with the scheduler invariant, because the
list kernel never misuses its queues.  So the pointers of every queue form a
list, and the lists, the statuses, the fields `in_queue` and the pids agree.
-/

namespace MipsOs.Sched

open MipsOs.Lib

/-- One event of the pointer kernel.  A fault has no next state. -/
def kernelRun (k : Kernel PtrQueues) (e : Event) : Option (Kernel PtrQueues) :=
  (kernelStep k e).toOption

theorem kernelRun_eq_some {k k' : Kernel PtrQueues} {e : Event} :
    kernelRun k e = some k' ↔ kernelStep k e = .ok k' :=
  toOption_eq_some

/-- The kernel after initialisation, with empty queues. -/
def bootKernel (barrier : BarrierId → Barrier) (tables : Nat → Nat → Nat) :
    Kernel PtrQueues where
  toCore := bootCore barrier tables
  queues := Heap.empty

/-- The list kernel after initialisation. -/
def bootLists (barrier : BarrierId → Barrier) (tables : Nat → Nat → Nat) :
    Kernel ListQueues where
  toCore := bootCore barrier tables
  queues := Lists.empty

theorem bootLists_follows (barrier : BarrierId → Barrier) (tables : Nat → Nat → Nat) :
    Follows (bootLists barrier tables) (bootKernel barrier tables) :=
  ⟨rfl, represents_empty⟩

theorem bootLists_inv (barrier : BarrierId → Barrier) (tables : Nat → Nat → Nat) :
    SchedInv (bootLists barrier tables) := by
  have hpcb : ∀ i, ((bootLists barrier tables).pcb i).status = .none ∧
      ((bootLists barrier tables).pcb i).pid = 0 := by
    intro i
    simp only [bootLists, bootCore]
    split <;> exact ⟨rfl, rfl⟩
  refine ⟨⟨?_, ?_, ?_, ?_, (hpcb 0).2, ?_, ?_, ?_, Int.one_pos⟩, Or.inr (Or.inr ⟨rfl, rfl⟩)⟩
  · intro i
    rw [(hpcb i).1]
    rfl
  · intro i q hq
    cases hq
  · intro i _ hs
    rw [(hpcb i).1] at hs
    cases hs
  · intro i hs
    rw [(hpcb i).1] at hs
    cases hs
  · intro i _
    exact iff_of_true (hpcb i).1 (hpcb i).2
  · intro i
    rw [(hpcb i).2]
    exact Int.one_pos
  · intro i j _ hne
    exact absurd (hpcb i).2 hne

/-- A pointer kernel that the events reach follows a list kernel with the
invariant. -/
theorem kernelRun_follows (barrier : BarrierId → Barrier) (tables : Nat → Nat → Nat)
    {k : Kernel PtrQueues}
    (h : Reaches kernelRun (fun k e => Allowed k.toCore e) (bootKernel barrier tables) k) :
    ∃ a, Follows a k ∧ SchedInv a := by
  refine h.invariant (fun k => ∃ a, Follows a k ∧ SchedInv a)
    ⟨bootLists barrier tables, bootLists_follows barrier tables,
      bootLists_inv barrier tables⟩ ?_
  rintro k e k' ⟨a, hfollows, hinv⟩ hallowed hstep
  rw [hfollows.core] at hallowed
  obtain ⟨a', _, hfollows', hinv'⟩ := (kernelStep_sim hfollows e).of_ok
    (hinv.step hallowed) (kernelRun_eq_some.mp hstep)
  exact ⟨a', hfollows', hinv'⟩

/-- What the statuses, the fields `in_queue`, the pids and the lists of the
queues have to do with each other. -/
structure QueuesAgree (k : Core) (items : QueueId → List Task) : Prop where
  once : ∀ i q, (items q).count i ≤ 1
  one_queue : ∀ i p q, i ∈ items p → i ∈ items q → p = q
  ready : ∀ i, i ≠ 0 → ((k.pcb i).status = .ready ↔ i ∈ items .ready)
  sleeping : ∀ i, i ≠ 0 → ((k.pcb i).status = .sleeping ↔ i ∈ items .sleep)
  blocked : ∀ i, i ≠ 0 → ((k.pcb i).status = .blocked ↔
    i ∈ items .waitpid ∨ ∃ b, i ∈ items (.block b))
  names : ∀ i, i ≠ 0 → ∀ q, i ∈ items q → (k.pcb i).inQueue = some q
  idle : ∀ i, i ≠ 0 → (k.pcb i).status = .none ∨ (k.pcb i).status = .running ∨
    (k.pcb i).status = .exited → ∀ q, i ∉ items q
  current : ∀ i, i ≠ 0 → (k.pcb i).status = .running ∨ (k.pcb i).status = .exited →
    i = k.currentRunning
  pid_ne_zero : ∀ i, i ≠ 0 → (k.pcb i).status ≠ .none → (k.pcb i).pid ≠ 0
  pid_inj : ∀ i j, i ≠ 0 → j ≠ 0 → (k.pcb i).status ≠ .none → (k.pcb j).status ≠ .none →
    (k.pcb i).pid = (k.pcb j).pid → i = j

theorem SchedInv.queuesAgree {a : Kernel ListQueues} (h : SchedInv a) :
    QueuesAgree a.toCore a.queues.items := by
  have hmem := a.queues.mem_iff
  have hfits := h.fits
  have hlive : ∀ i, i ≠ 0 → (a.pcb i).status ≠ .none → (a.pcb i).pid ≠ 0 :=
    fun i hi hs hp => hs ((h.pid_live i hi).mpr hp)
  refine ⟨?_, ?_, ?_, ?_, ?_, ?_, ?_, ?_, hlive, ?_⟩
  · intro i q
    exact List.nodup_iff_count_le_one.mp (a.queues.nodup q) i
  · intro i p q hp hq
    rw [hmem] at hp hq
    exact Option.some.inj (hp.symm.trans hq)
  · intro i _
    rw [hmem]
    exact fits_ready_iff (hfits i)
  · intro i _
    rw [hmem]
    exact fits_sleeping_iff (hfits i)
  · intro i _
    simp only [hmem]
    exact fits_blocked_iff (hfits i)
  · intro i _ q hq
    exact h.names i q ((hmem q i).mp hq)
  · intro i _ hs q hq
    rw [hmem] at hq
    have := hfits i
    rw [hq] at this
    rcases hs with hs | hs | hs <;> rw [hs] at this <;> cases this
  · intro i hi hs
    rcases hs with hs | hs
    · exact h.running i hi hs
    · exact (h.exited i hs).resolve_right (by simp)
  · intro i j hi _ hsi _ hij
    exact h.pid_inj i j hij (hlive i hi hsi)

/-- In every state that the events reach from boot, the pointers of the queues
form lists, and the lists agree with the tasks.  No loop of the kernel runs for
ever in such a state. -/
theorem reachable_queues_agree (barrier : BarrierId → Barrier) (tables : Nat → Nat → Nat)
    {k : Kernel PtrQueues}
    (h : Reaches kernelRun (fun k e => Allowed k.toCore e) (bootKernel barrier tables) k) :
    (∃ L : Lists QueueId Task, Represents k.queues L ∧ QueuesAgree k.toCore L.items) ∧
      ∀ e, Allowed k.toCore e → kernelStep k e ≠ .error .diverges := by
  obtain ⟨a, hfollows, hinv⟩ := kernelRun_follows barrier tables h
  refine ⟨⟨a.queues, hfollows.queues, ?_⟩, ?_⟩
  · rw [hfollows.core]
    exact hinv.queuesAgree
  · intro e hallowed herror
    rw [hfollows.core] at hallowed
    obtain ⟨_, hkind⟩ := (kernelStep_sim hfollows e).error (hinv.step hallowed) herror
    rcases hkind with hkind | hkind <;> cases hkind

/-- A kernel over cleared tables and barriers that nobody waits at. -/
def blankKernel : Kernel PtrQueues :=
  bootKernel (fun _ => { goal := 1, now := 0 }) fun _ _ => 0

/-- Of four tasks the first takes a lock and sleeps, the second blocks on the lock, the
third waits for the second, and the fourth kills the second. -/
def fourTasks : List Event :=
  [⟨0, .spawn 0⟩, ⟨0, .spawn 0⟩, ⟨0, .spawn 0⟩, ⟨0, .spawn 0⟩, ⟨0, .timer 5⟩, ⟨0, .acquire 1⟩,
    ⟨0, .sleep 3⟩, ⟨0, .acquire 1⟩, ⟨0, .waitpid 2⟩, ⟨0, .kill 2⟩]

/-- The agreement when one task sleeps, the third is ready again and the fourth runs. -/
theorem fourTasks_queues_agree :
    ∃ k, runIf kernelRun (fun k e => Allowed k.toCore e) blankKernel fourTasks = some k ∧
      (k.currentRunning = 4 ∧ (k.pcb 1).status = .sleeping ∧ (k.pcb 2).status = .none ∧
        (k.pcb 3).status = .ready) ∧
      (∃ L : Lists QueueId Task, Represents k.queues L ∧ QueuesAgree k.toCore L.items) ∧
      ∀ e, Allowed k.toCore e → kernelStep k e ≠ .error .diverges := by
  have hrun : (runIf kernelRun (fun k e => Allowed k.toCore e) blankKernel fourTasks).map
      (fun k => decide (k.currentRunning = 4 ∧ (k.pcb 1).status = .sleeping ∧
        (k.pcb 2).status = .none ∧ (k.pcb 3).status = .ready)) = some true := by
    decide +kernel
  obtain ⟨k, hk, hstate⟩ := Option.map_eq_some_iff.mp hrun
  exact ⟨k, hk, of_decide_eq_true hstate, reachable_queues_agree _ _ (reaches_of_runIf hk)⟩

end MipsOs.Sched
