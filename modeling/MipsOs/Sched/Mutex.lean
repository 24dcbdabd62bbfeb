import MipsOs.Sched.LockSteps
import MipsOs.Sched.Agreement

/-!
# Who holds a mutex

The kernel does not record who holds a mutex: `locks_got` is kept through
`current_running`, and a release that hands a mutex over records it for the
releaser.  `MutexSystem` runs the pointer kernel beside the list of the true
holders.  A task holds a mutex from the moment its acquire succeeds, at once
or because a release hands the mutex over, until it releases the mutex or is
freed.

Both results are about whole runs from boot.  `mutex_exclusive` says when
a mutex never has two holders, and `locked_mutex_attended` when a locked
mutex always has one.
-/

namespace MipsOs.Sched

open MipsOs.Lib

/-- The lock that a task is blocked for. -/
def Core.waitsFor (c : Core) (p : Task) : Option LockId :=
  match (c.pcb p).status, (c.pcb p).inQueue with
  | .blocked, some (.block (.lock l)) => some l
  | _, _ => none

/-- The tasks that left the queue of a lock alive, each with its lock. -/
def obtained (c c' : Core) : List (LockId × Task) :=
  (List.finRange numMaxTask).filterMap fun p =>
    match c.waitsFor p with
    | none => none
    | some l => if c'.waitsFor p ≠ some l ∧ c'.alive p = true then some (l, p) else none

/-- The lock that an acquire takes at once. -/
def Core.taken (c : Core) : Call → List (LockId × Task)
  | .acquire l => if c.lockStatus l = .unlocked then [(l, c.currentRunning)] else []
  | _ => []

/-- The holders after a call took the kernel from `c` to `c'`. -/
def heldAfter (c c' : Core) (call : Call) (held : List (LockId × Task)) :
    List (LockId × Task) :=
  (held.filter fun h => c'.alive h.2 && !(call = .release h.1 && h.2 = c.currentRunning)) ++
    obtained c c' ++ c.taken call

/-- The pointer kernel and the pairs of a lock and its holder. -/
structure MutexSystem where
  kernel : Kernel PtrQueues
  held : List (LockId × Task)

namespace MutexSystem

/-- One event, with the holders after it. -/
def step (s : MutexSystem) (e : Event) : Option MutexSystem :=
  (kernelRun s.kernel e).map fun k' =>
    { kernel := k', held := heldAfter s.kernel.toCore k'.toCore e.call s.held }

/-- The kernel after initialisation.  Nobody holds a lock. -/
def boot (barrier : BarrierId → Barrier) (tables : Nat → Nat → Nat) : MutexSystem where
  kernel := bootKernel barrier tables
  held := []

/-- Locks are acquired by processes and released by their holders. -/
def callerOk (s : MutexSystem) : Call → Bool
  | .acquire _ => s.kernel.currentRunning ≠ 0
  | .release l => (l, s.kernel.currentRunning) ∈ s.held
  | _ => true

/-- An event that goes through the operations of the locks. -/
def EventOk (s : MutexSystem) (e : Event) : Prop :=
  Allowed s.kernel.toCore e ∧ e.call.touchesLockQueue = false ∧ s.callerOk e.call = true

instance (s : MutexSystem) (e : Event) : Decidable (s.EventOk e) :=
  inferInstanceAs (Decidable (_ ∧ _ ∧ _))

end MutexSystem

/-- The task that a call frees. -/
def Core.dying (c : Core) (call : Call) : Option Task := (c.lockMove call).dying

/-- A switch buries the task that has killed itself, and nobody else. -/
theorem Core.dying_switch (c : Core) {call : Call} (h : call.isSwitch = true) :
    c.dying call =
      if (c.pcb c.currentRunning).status = .exited then some c.currentRunning else none := by
  cases call with
  | yield =>
    show (if (c.pcb c.currentRunning).status = .exited then _ else _ : LockMove).dying = _
    split <;> rfl
  | timer count =>
    show (if (c.pcb c.currentRunning).status = .exited then _ else _ : LockMove).dying = _
    split <;> rfl
  | _ => cases h

section Kill

variable {c : Core} {pid : Int} {i : Task}

theorem Core.dying_kill_none (hfind : c.findPid pid = none) : c.dying (.kill pid) = none := by
  simp only [Core.dying, Core.lockMove, hfind]
  rfl

/-- The running task is not freed before it leaves the processor. -/
theorem Core.dying_kill_running (hfind : c.findPid pid = some i)
    (hrun : (c.pcb i).status = .running) : c.dying (.kill pid) = none := by
  simp only [Core.dying, Core.lockMove, hfind, if_pos hrun]
  rfl

theorem Core.dying_kill_other (hfind : c.findPid pid = some i)
    (hrun : (c.pcb i).status ≠ .running) : c.dying (.kill pid) = some i := by
  simp only [Core.dying, Core.lockMove, hfind, if_neg hrun]
  rfl

end Kill

/-! ## The holders follow the table of locks -/

/-- The holders as a predicate. -/
def holdsOf (held : List (LockId × Task)) : Holds LockId Task := fun l p => (l, p) ∈ held

/-- Who gives a lock back in a move. -/
def LockMove.gives : LockMove → LockId → Task → Bool
  | .release l p => only l p
  | _ => noOne

/-- Who takes an open lock in a move. -/
def LockMove.takes : LockMove → LockId → Task → Bool
  | .lock l p => only l p
  | _ => noOne

section Holders

variable {a a' : Kernel ListQueues} {l : LockId} {p : Task}

theorem SchedInv.waitsFor_iff (h : SchedInv a) :
    a.toCore.waitsFor p = some l ↔ p ∈ a.lockTable.queue l := by
  have hmem : p ∈ a.lockTable.queue l ↔ a.queues.owner p = some (.block (.lock l)) :=
    a.queues.mem_iff _ p
  have hfits := h.fits p
  rw [hmem, Core.waitsFor]
  constructor
  · intro hw
    split at hw
    · rename_i m hblocked hname
      obtain rfl := Option.some.inj hw
      rw [hblocked] at hfits
      rcases hfits with howner | ⟨b, howner⟩
      · rw [h.names p _ howner] at hname
        cases hname
      · rw [h.names p _ howner] at hname
        rw [howner, hname]
    · cases hw
  · intro howner
    have hblocked : (a.pcb p).status = .blocked :=
      (fits_blocked_iff hfits).mpr (Or.inr ⟨_, howner⟩)
    rw [hblocked, h.names p _ howner]

theorem SchedInv.orderly (h : SchedInv a) : Orderly a.lockTable a.toCore.alive := by
  refine ⟨fun l => a.queues.nodup _, fun l p hp => ?_⟩
  have howner := (a.queues.mem_iff _ p).mp hp
  have hblocked : (a.pcb p).status = .blocked :=
    (fits_blocked_iff (h.fits p)).mpr (Or.inr ⟨_, howner⟩)
  simp [Core.alive, hblocked]

theorem mem_obtained {c c' : Core} :
    (l, p) ∈ obtained c c' ↔
      c.waitsFor p = some l ∧ c'.waitsFor p ≠ some l ∧ c'.alive p = true := by
  simp only [obtained, List.mem_filterMap, List.mem_finRange, true_and]
  constructor
  · rintro ⟨q, hq⟩
    split at hq
    · cases hq
    · rename_i m hm
      split at hq
      · rename_i hcond
        obtain ⟨rfl, rfl⟩ := Prod.mk.inj (Option.some.inj hq)
        exact ⟨hm, hcond⟩
      · cases hq
  · rintro ⟨hw, hrest⟩
    exact ⟨p, by simp only [hw]; rw [if_pos hrest]⟩

/-- The call acquires or releases a lock. -/
def Call.isLock : Call → Bool
  | .acquire _ => true
  | .release _ => true
  | _ => false

/-- Every move and the calls that make it. -/
theorem Core.lockMove_cases (c : Core) (call : Call) :
    (∃ l, call = .acquire l ∧ c.lockStatus l = .unlocked ∧
        c.lockMove call = .lock l c.currentRunning) ∨
      (∃ l, call = .acquire l ∧ c.lockStatus l = .locked ∧
        c.lockMove call = .block l c.currentRunning) ∨
      (∃ l, call = .release l ∧ c.lockMove call = .release l c.currentRunning) ∨
      call.isLock = false ∧ (c.lockMove call = .stay ∨ ∃ p, c.lockMove call = c.deathOf p) := by
  have hif : ∀ {q : Prop} [Decidable q] {p : Task},
      (if q then c.deathOf p else .stay) = LockMove.stay ∨
        ∃ p', (if q then c.deathOf p else .stay) = c.deathOf p' := by
    intro q _ p
    split
    · exact Or.inr ⟨p, rfl⟩
    · exact Or.inl rfl
  cases call with
  | acquire l =>
    simp only [Core.lockMove]
    cases hs : c.lockStatus l with
    | unlocked => exact Or.inl ⟨l, rfl, hs, rfl⟩
    | locked => exact Or.inr (Or.inl ⟨l, rfl, hs, rfl⟩)
  | release l => exact Or.inr (Or.inr (Or.inl ⟨l, rfl, rfl⟩))
  | exit => exact Or.inr (Or.inr (Or.inr ⟨rfl, Or.inr ⟨_, rfl⟩⟩))
  | yield => exact Or.inr (Or.inr (Or.inr ⟨rfl, hif⟩))
  | timer count => exact Or.inr (Or.inr (Or.inr ⟨rfl, hif⟩))
  | kill pid =>
    refine Or.inr (Or.inr (Or.inr ⟨rfl, ?_⟩))
    simp only [Core.lockMove]
    split
    · exact Or.inl rfl
    · rename_i i _
      split
      · exact Or.inl rfl
      · exact Or.inr ⟨i, rfl⟩
  | _ => exact Or.inr (Or.inr (Or.inr ⟨rfl, Or.inl rfl⟩))

theorem Core.lockMove_gives (c : Core) (call : Call) (l : LockId) (p : Task) :
    (c.lockMove call).gives l p = false ↔ ¬ (call = .release l ∧ p = c.currentRunning) := by
  rcases c.lockMove_cases call with ⟨m, rfl, _, hm⟩ | ⟨m, rfl, _, hm⟩ | ⟨m, rfl, hm⟩ |
    ⟨hlock, hm | ⟨q, hm⟩⟩
  · simp [hm, LockMove.gives, noOne]
  · simp [hm, LockMove.gives, noOne]
  · simp [hm, LockMove.gives, only, eq_comm (a := l)]
  · rw [hm]
    refine iff_of_true rfl ?_
    rintro ⟨rfl, _⟩
    cases hlock
  · rw [hm]
    refine iff_of_true rfl ?_
    rintro ⟨rfl, _⟩
    cases hlock

theorem Core.mem_taken (c : Core) (call : Call) (l : LockId) (p : Task) :
    (l, p) ∈ c.taken call ↔ (c.lockMove call).takes l p = true := by
  rcases c.lockMove_cases call with ⟨m, rfl, hs, hm⟩ | ⟨m, rfl, hs, hm⟩ | ⟨m, rfl, hm⟩ |
    ⟨hlock, hm⟩
  · simp [hm, Core.taken, hs, LockMove.takes, only]
  · simp [hm, Core.taken, hs, LockMove.takes, noOne]
  · simp [hm, Core.taken, LockMove.takes, noOne]
  · have hnone : c.taken call = [] := by
      cases call <;> first | rfl | cases hlock
    rw [hnone]
    refine iff_of_false (by simp) ?_
    rcases hm with hm | ⟨q, hm⟩ <;> rw [hm] <;> simp [LockMove.takes, noOne, Core.deathOf]

/-- The list of holders makes the same step as the table. -/
theorem holdsOf_heldAfter (h : SchedInv a) (h' : SchedInv a') (call : Call)
    (held : List (LockId × Task)) :
    holdsOf (heldAfter a.toCore a'.toCore call held) =
      (holdsOf held).next a.lockTable a'.lockTable a'.toCore.alive
        (a.toCore.lockMove call).gives (a.toCore.lockMove call).takes := by
  funext l p
  rw [Bool.eq_iff_iff, Holds.next_iff, Core.lockMove_gives, ← Core.mem_taken,
    ← h.waitsFor_iff, ← h'.waitsFor_iff]
  simp only [holdsOf, heldAfter, decide_eq_true_eq, List.mem_append, List.mem_filter,
    mem_obtained, Bool.and_eq_true, Bool.not_eq_true', Bool.and_eq_false_iff,
    decide_eq_false_iff_not, not_and_or, or_assoc]

end Holders

/-! ## One event -/

/-- What an event does to the locks, the living and the holders. -/
structure LockStep (s s' : MutexSystem) (m : LockMove) (a a' : Kernel ListQueues) : Prop where
  follows : Follows a' s'.kernel
  inv : SchedInv a'
  moved : Moved a m a'
  holds : holdsOf s'.held = (holdsOf s.held).next a.lockTable (m.apply a.lockTable)
    a'.toCore.alive m.gives m.takes

theorem MutexSystem.step_lockStep {s s' : MutexSystem} {e : Event} {a : Kernel ListQueues}
    (hfollows : Follows a s.kernel) (hinv : SchedInv a) (hok : s.EventOk e)
    (hstep : s.step e = some s') :
    ∃ a', LockStep s s' (s.kernel.toCore.lockMove e.call) a a' := by
  obtain ⟨k', hk, rfl⟩ := Option.map_eq_some_iff.mp hstep
  obtain ⟨hallowed, hdirect, _⟩ := hok
  rw [hfollows.core] at hallowed
  obtain ⟨a', _, hfollows', hinv', hmoved⟩ := (kernelStep_sim hfollows e).of_ok
    ((hinv.step hallowed).and (lockMove_step hinv hallowed hdirect)) (kernelRun_eq_some.mp hk)
  rw [hfollows.core]
  refine ⟨a', hfollows', hinv', hmoved, ?_⟩
  rw [← hmoved.1]
  simp only [hfollows'.core]
  exact holdsOf_heldAfter hinv hinv' e.call s.held

theorem Core.eq_deathOf_of_dying {c : Core} {call : Call} {p : Task}
    (h : c.dying call = some p) : c.lockMove call = c.deathOf p := by
  rw [Core.dying] at h
  rcases c.lockMove_cases call with ⟨l, _, _, hm⟩ | ⟨l, _, _, hm⟩ | ⟨l, _, hm⟩ |
    ⟨_, hm | ⟨q, hm⟩⟩
  all_goals rw [hm] at h
  · cases h
  · cases h
  · cases h
  · cases h
  · obtain rfl : q = p := Option.some.inj h
    exact hm

/-- A move that frees nobody leaves the living alive. -/
theorem Moved.alive {a a' : Kernel ListQueues} {m : LockMove} (h : Moved a m a')
    (hm : m.dying = none) (p : Task) (hp : a.toCore.alive p = true) :
    a'.toCore.alive p = true :=
  h.2.1 p hp (by rw [hm]; simp)

/-- A death leaves the others alive. -/
theorem Moved.alive_death {a a' : Kernel ListQueues} {p : Task}
    (h : Moved a (a.toCore.deathOf p) a') (q : Task) (hq : q ≠ p)
    (halive : a.toCore.alive q = true) : a'.toCore.alive q = true :=
  h.2.1 q halive fun heq => hq (Option.some.inj heq).symm

/-! ## At most one holder -/

namespace MutexSystem

/-- Every locked mutex that `free_proc` would release for the task is held by
the task, and is recorded once or has no other waiter. -/
def OwnRecord (s : MutexSystem) (p : Task) : Prop :=
  ∀ l ∈ (s.kernel.pcb p).recorded, s.kernel.lockStatus l = .locked →
    (l, p) ∈ s.held ∧ ((s.kernel.pcb p).recorded.count l ≤ 1 ∨
      ∀ q, q ≠ p → s.kernel.toCore.waitsFor q ≠ some l)

instance (s : MutexSystem) (p : Task) : Decidable (s.OwnRecord p) :=
  inferInstanceAs (Decidable (∀ l ∈ _, _))

/-- A task that dies has a record of its own locks only. -/
def DiesClean (s : MutexSystem) (e : Event) : Prop :=
  s.EventOk e ∧ ∀ p, s.kernel.toCore.dying e.call = some p → s.OwnRecord p

instance (s : MutexSystem) (e : Event) : Decidable (s.DiesClean e) :=
  inferInstanceAs (Decidable (_ ∧ ∀ _, _))

/-- The holders are exclusive. -/
def ExclusiveInv (s : MutexSystem) : Prop :=
  ∃ a, Follows a s.kernel ∧ SchedInv a ∧
    Exclusive a.lockTable a.toCore.alive (holdsOf s.held)

theorem exclusive_boot (barrier : BarrierId → Barrier) (tables : Nat → Nat → Nat) :
    Exclusive (bootLists barrier tables).lockTable (bootLists barrier tables).toCore.alive
      (holdsOf []) := by
  refine ⟨?_, ?_, fun _ _ => rfl, ?_⟩
  · intro l p q hp
    cases of_decide_eq_true hp
  · intro l p hp
    cases of_decide_eq_true hp
  · intro l p hp
    cases of_decide_eq_true hp

theorem exclusiveInv_boot (barrier : BarrierId → Barrier) (tables : Nat → Nat → Nat) :
    (boot barrier tables).ExclusiveInv :=
  ⟨bootLists barrier tables, bootLists_follows barrier tables, bootLists_inv barrier tables,
    exclusive_boot barrier tables⟩

/-- What the condition on the record says of the table. -/
theorem OwnRecord.listed {s : MutexSystem} {a : Kernel ListQueues} {p : Task}
    (h : s.OwnRecord p) (hfollows : Follows a s.kernel) (hinv : SchedInv a)
    (hexcl : Exclusive a.lockTable a.toCore.alive (holdsOf s.held)) :
    ∀ l ∈ (a.pcb p).recorded, (∀ q, holdsOf s.held l q = true → q = p) ∧
      ((a.pcb p).recorded.count l ≤ 1 ∨ (a.lockTable.queue l).erase p = []) := by
  intro l hl
  cases hlocked : a.lockTable.locked l with
  | false =>
    refine ⟨fun q hq => ?_, Or.inr ?_⟩
    · rw [hexcl.held_locked l q hq] at hlocked
      cases hlocked
    · rw [hexcl.open_empty l hlocked]
      rfl
  | true =>
    unfold OwnRecord at h
    rw [hfollows.core] at h
    obtain ⟨hheld, hwait⟩ := h l hl ((a.lockTable_locked l).mp hlocked)
    refine ⟨fun q hq => hexcl.unique l q p hq (decide_eq_true hheld), hwait.imp_right ?_⟩
    intro hnone
    refine List.eq_nil_iff_forall_not_mem.mpr fun q hq => ?_
    have hq' := (hinv.orderly.nodup l).mem_erase_iff.mp hq
    exact hnone q hq'.1 (hinv.waitsFor_iff.mpr hq'.2)

/-- Exclusion over one event.  The death of a task is the only case that needs
a condition. -/
theorem exclusive_lockStep {s s' : MutexSystem} {e : Event} {a a' : Kernel ListQueues}
    (hfollows : Follows a s.kernel) (hinv : SchedInv a) (hok : s.DiesClean e)
    (hlock : LockStep s s' (s.kernel.toCore.lockMove e.call) a a')
    (hexcl : Exclusive a.lockTable a.toCore.alive (holdsOf s.held)) :
    Exclusive a'.lockTable a'.toCore.alive (holdsOf s'.held) := by
  obtain ⟨⟨_, _, hcaller⟩, hown⟩ := hok
  obtain ⟨_, _, hmoved, hholds⟩ := hlock
  rw [hholds, hmoved.1]
  simp only [Core.dying, callerOk, hfollows.core] at hown hcaller hmoved ⊢
  rcases a.toCore.lockMove_cases e.call with ⟨l, hcall, hs, hm⟩ | ⟨l, hcall, hs, hm⟩ |
    ⟨l, hcall, hm⟩ | ⟨_, hm | ⟨p, hm⟩⟩
  all_goals rw [hm] at hmoved ⊢
  · rw [hcall] at hcaller
    have hlive : a.toCore.alive a.currentRunning = true :=
      decide_eq_true (hinv.current_live (by simpa using hcaller))
    exact hexcl.lock (hmoved.alive rfl) ((a.lockTable_open l).mpr hs)
      (hmoved.alive rfl _ hlive)
  · exact hexcl.block (hmoved.alive rfl) ((a.lockTable_locked l).mpr hs)
  · rw [hcall] at hcaller
    exact hexcl.release hinv.orderly (hmoved.alive rfl) hcaller
  · exact hexcl.stay (hmoved.alive rfl)
  · rw [hm] at hown
    exact hexcl.death hinv.orderly (hmoved.2.2 p rfl) hmoved.alive_death
      ((hown p rfl).listed hfollows hinv hexcl)

theorem ExclusiveInv.step {s s' : MutexSystem} {e : Event} (h : s.ExclusiveInv)
    (hok : s.DiesClean e) (hstep : s.step e = some s') : s'.ExclusiveInv := by
  obtain ⟨a, hfollows, hinv, hexcl⟩ := h
  obtain ⟨a', hlock⟩ := step_lockStep hfollows hinv hok.1 hstep
  exact ⟨a', hlock.follows, hlock.inv, exclusive_lockStep hfollows hinv hok hlock hexcl⟩

/-- A run in which every task that dies has a record of its own locks only:
a mutex has at most one holder, who is alive, and a task that dies unlocks only
what it holds. -/
theorem mutex_exclusive (barrier : BarrierId → Barrier) (tables : Nat → Nat → Nat)
    {s : MutexSystem} (h : Reaches MutexSystem.step DiesClean (boot barrier tables) s) :
    (∀ l p q, (l, p) ∈ s.held → (l, q) ∈ s.held → p = q) ∧
      (∀ l p, (l, p) ∈ s.held →
        s.kernel.toCore.alive p = true ∧ s.kernel.lockStatus l = .locked) ∧
      ∀ e s' p l, s.DiesClean e → s.step e = some s' →
        s.kernel.toCore.dying e.call = some p → s.kernel.lockStatus l = .locked →
        s'.kernel.lockStatus l = .unlocked → (l, p) ∈ s.held := by
  obtain ⟨a, hfollows, hinv, hexcl⟩ := h.invariant _ (exclusiveInv_boot barrier tables)
    fun s e s' h => h.step
  refine ⟨?_, ?_, ?_⟩
  · intro l p q hp hq
    exact hexcl.unique l p q (decide_eq_true hp) (decide_eq_true hq)
  · intro l p hp
    rw [hfollows.core]
    refine ⟨hexcl.held_alive l p (decide_eq_true hp), ?_⟩
    exact (a.lockTable_locked l).mp (hexcl.held_locked l p (decide_eq_true hp))
  · rintro e s' p l ⟨hevent, hown⟩ hstep hdying hlocked hopen
    obtain ⟨a', hfollows', _, hmoved, _⟩ := step_lockStep hfollows hinv hevent hstep
    refine (hown p hdying l ?_ hlocked).1
    by_contra hnot
    have hdeath := Core.eq_deathOf_of_dying hdying
    rw [hfollows.core] at hlocked hdeath hmoved hnot
    rw [hfollows'.core] at hopen
    have hkept : a'.lockTable.locked l = true := by
      rw [hmoved.1, hdeath, Core.deathOf, LockMove.apply, LockTable.death_locked,
        List.count_eq_zero_of_not_mem hnot]
      simpa using (a.lockTable_locked l).mpr hlocked
    rw [(a'.lockTable_open l).mpr hopen] at hkept
    cases hkept

/-- The system over cleared tables. -/
def blank : MutexSystem := boot (fun _ => { goal := 1, now := 0 }) fun _ _ => 0

/-- A task exits with a lock it acquired. -/
theorem blank_exit_exclusive :
    ∃ s, runIf MutexSystem.step DiesClean blank
        [⟨0, .spawn 0⟩, ⟨0, .spawn 0⟩, ⟨0, .timer 5⟩, ⟨0, .acquire 7⟩, ⟨0, .exit⟩,
          ⟨0, .acquire 7⟩] = some s ∧
      s.held = [(7, 2)] ∧
      (∀ l p q, (l, p) ∈ s.held → (l, q) ∈ s.held → p = q) ∧
      (∀ l p, (l, p) ∈ s.held →
        s.kernel.toCore.alive p = true ∧ s.kernel.lockStatus l = .locked) ∧
      ∀ e s' p l, s.DiesClean e → s.step e = some s' →
        s.kernel.toCore.dying e.call = some p → s.kernel.lockStatus l = .locked →
        s'.kernel.lockStatus l = .unlocked → (l, p) ∈ s.held := by
  have hrun : (runIf MutexSystem.step DiesClean blank
      [⟨0, .spawn 0⟩, ⟨0, .spawn 0⟩, ⟨0, .timer 5⟩, ⟨0, .acquire 7⟩, ⟨0, .exit⟩,
        ⟨0, .acquire 7⟩]).map (fun s => s.held) = some [(7, 2)] := by
    decide +kernel
  obtain ⟨s, hs, hheld⟩ := Option.map_eq_some_iff.mp hrun
  exact ⟨s, hs, hheld, mutex_exclusive _ _ (reaches_of_runIf hs)⟩

/-- Task 1 hands the lock to task 2, which leaves it in the record of task 1.
The exit of task 1 unlocks the mutex of task 2, and task 3 acquires it. -/
theorem stale_record_two_holders :
    ¬ ∀ s, Reaches MutexSystem.step EventOk blank s →
      ∀ l p q, (l, p) ∈ s.held → (l, q) ∈ s.held → p = q := by
  intro h
  have hrun : (runIf MutexSystem.step EventOk blank
      [⟨0, .spawn 0⟩, ⟨0, .spawn 0⟩, ⟨0, .spawn 0⟩, ⟨0, .timer 5⟩, ⟨0, .acquire 7⟩,
        ⟨0, .yield⟩, ⟨0, .acquire 7⟩, ⟨0, .yield⟩, ⟨0, .release 7⟩, ⟨0, .exit⟩,
        ⟨0, .acquire 7⟩]).map (fun s => s.held) = some [(7, 2), (7, 3)] := by
    decide +kernel
  obtain ⟨s, hs, hheld⟩ := Option.map_eq_some_iff.mp hrun
  exact absurd (h s (reaches_of_runIf hs) 7 2 3 (by simp [hheld]) (by simp [hheld])) (by decide)

/-! ## At least one holder -/

/-- Every locked mutex that the task alone holds is in its record. -/
def FullRecord (s : MutexSystem) (p : Task) : Prop :=
  ∀ h ∈ s.held, h.2 = p → s.kernel.lockStatus h.1 = .locked →
    (∀ h' ∈ s.held, h'.1 = h.1 → h'.2 = p) → h.1 ∈ (s.kernel.pcb p).recorded

instance (s : MutexSystem) (p : Task) : Decidable (s.FullRecord p) :=
  inferInstanceAs (Decidable (∀ _ ∈ _, _))

/-- A task that dies has a record of all its locks. -/
def DiesRecorded (s : MutexSystem) (e : Event) : Prop :=
  s.EventOk e ∧ ∀ p, s.kernel.toCore.dying e.call = some p → s.FullRecord p

instance (s : MutexSystem) (e : Event) : Decidable (s.DiesRecorded e) :=
  inferInstanceAs (Decidable (_ ∧ ∀ _, _))

/-- A mutex whose status is `LOCKED` is held by a process that has not been
freed. -/
def LockedHeld (s : MutexSystem) : Prop :=
  ∀ l, s.kernel.lockStatus l = .locked →
    ∃ p, (l, p) ∈ s.held ∧ s.kernel.toCore.alive p = true

/-- The mutexes are attended. -/
def AttendedInv (s : MutexSystem) : Prop :=
  ∃ a, Follows a s.kernel ∧ SchedInv a ∧
    Attended a.lockTable a.toCore.alive (holdsOf s.held)

theorem attended_boot (barrier : BarrierId → Barrier) (tables : Nat → Nat → Nat) :
    Attended (bootLists barrier tables).lockTable (bootLists barrier tables).toCore.alive
      (holdsOf []) := by
  refine ⟨?_, fun _ _ => rfl, ?_⟩
  · intro l hl
    cases (Kernel.lockTable_locked _ l).mp hl
  · intro l p hp
    cases of_decide_eq_true hp

theorem attendedInv_boot (barrier : BarrierId → Barrier) (tables : Nat → Nat → Nat) :
    (boot barrier tables).AttendedInv :=
  ⟨bootLists barrier tables, bootLists_follows barrier tables, bootLists_inv barrier tables,
    attended_boot barrier tables⟩

/-- What the condition on the record says of the table. -/
theorem fullRecord_iff {s : MutexSystem} {a : Kernel ListQueues} {p : Task}
    (hfollows : Follows a s.kernel)
    (hatt : Attended a.lockTable a.toCore.alive (holdsOf s.held)) :
    s.FullRecord p ↔ ∀ l, a.lockTable.locked l = true →
      (∀ q, holdsOf s.held l q = true → q = p) → l ∈ (a.pcb p).recorded := by
  unfold FullRecord
  rw [hfollows.core]
  constructor
  · intro h l hlocked honly
    obtain ⟨q, hq⟩ := hatt.locked_held l hlocked
    obtain rfl := honly q hq
    refine h (l, q) (of_decide_eq_true hq) rfl ((a.lockTable_locked l).mp hlocked) ?_
    rintro ⟨m, r⟩ hr rfl
    exact honly r (decide_eq_true hr)
  · rintro h ⟨l, q⟩ _ rfl hlocked honly
    refine h l ((a.lockTable_locked l).mpr hlocked) fun r hr => ?_
    exact honly (l, r) (of_decide_eq_true hr) rfl

/-- The holders that the table counts are alive. -/
theorem lockedHeld_iff {s : MutexSystem} {a : Kernel ListQueues} (hfollows : Follows a s.kernel)
    (halive : ∀ l p, holdsOf s.held l p = true → a.toCore.alive p = true) :
    s.LockedHeld ↔ ∀ l, a.lockTable.locked l = true → ∃ p, holdsOf s.held l p = true := by
  unfold LockedHeld
  rw [hfollows.core]
  refine forall_congr' fun l => imp_congr (a.lockTable_locked l).symm ?_
  refine exists_congr fun p => ⟨fun h => decide_eq_true h.1, fun h => ?_⟩
  exact ⟨of_decide_eq_true h, halive l p h⟩

/-- Attendance over one event. -/
theorem attended_lockStep {s s' : MutexSystem} {e : Event} {a a' : Kernel ListQueues}
    (hfollows : Follows a s.kernel) (hinv : SchedInv a) (hok : s.DiesRecorded e)
    (hlock : LockStep s s' (s.kernel.toCore.lockMove e.call) a a')
    (hatt : Attended a.lockTable a.toCore.alive (holdsOf s.held)) :
    Attended a'.lockTable a'.toCore.alive (holdsOf s'.held) := by
  obtain ⟨⟨_, _, hcaller⟩, hfull⟩ := hok
  obtain ⟨_, _, hmoved, hholds⟩ := hlock
  rw [hholds, hmoved.1]
  simp only [Core.dying, callerOk, hfollows.core] at hfull hcaller hmoved ⊢
  rcases a.toCore.lockMove_cases e.call with ⟨l, hcall, hs, hm⟩ | ⟨l, hcall, hs, hm⟩ |
    ⟨l, hcall, hm⟩ | ⟨_, hm | ⟨p, hm⟩⟩
  all_goals rw [hm] at hmoved ⊢
  · rw [hcall] at hcaller
    have hlive : a.toCore.alive a.currentRunning = true :=
      decide_eq_true (hinv.current_live (by simpa using hcaller))
    exact hatt.lock (hmoved.alive rfl) (hmoved.alive rfl _ hlive)
  · exact hatt.block (hmoved.alive rfl) ((a.lockTable_locked l).mpr hs)
  · exact hatt.release hinv.orderly (hmoved.alive rfl)
  · exact hatt.stay (hmoved.alive rfl)
  · rw [hm] at hfull
    exact hatt.death hinv.orderly (hmoved.2.2 p rfl) hmoved.alive_death
      ((fullRecord_iff hfollows hatt).mp (hfull p rfl))

theorem AttendedInv.step {s s' : MutexSystem} {e : Event} (h : s.AttendedInv)
    (hok : s.DiesRecorded e) (hstep : s.step e = some s') : s'.AttendedInv := by
  obtain ⟨a, hfollows, hinv, hatt⟩ := h
  obtain ⟨a', hlock⟩ := step_lockStep hfollows hinv hok.1 hstep
  exact ⟨a', hlock.follows, hlock.inv, attended_lockStep hfollows hinv hok hlock hatt⟩

/-- The death of a task leaves the locked mutexes held exactly when its record
is full. -/
theorem AttendedInv.death_iff {s s' : MutexSystem} {e : Event} {p : Task}
    (h : s.AttendedInv) (hevent : s.EventOk e) (hstep : s.step e = some s')
    (hdying : s.kernel.toCore.dying e.call = some p) :
    s'.LockedHeld ↔ s.FullRecord p := by
  obtain ⟨a, hfollows, hinv, hatt⟩ := h
  obtain ⟨a', hfollows', hinv', hmoved, hholds⟩ := step_lockStep hfollows hinv hevent hstep
  rw [Core.eq_deathOf_of_dying hdying, hfollows.core] at hmoved hholds
  have hdead := hmoved.2.2 p rfl
  rw [fullRecord_iff hfollows hatt,
    ← hatt.death_locked_held_iff hinv.orderly hdead hmoved.alive_death,
    lockedHeld_iff hfollows', hmoved.1, hholds]
  · rfl
  · intro l q hq
    rw [hholds] at hq
    exact Holds.next_death_alive hinv.orderly hdead hmoved.alive_death hatt.held_alive hq

/-- What becomes of a mutex that a dying task alone holds: its first waiter
obtains it, or it is unlocked. -/
def Inherited (s s' : MutexSystem) (p : Task) (l : LockId) : Prop :=
  ∃ L : Lists QueueId Task, Represents s.kernel.queues L ∧
    match ((L.items (.block (.lock l))).erase p).head? with
    | some w => (l, w) ∈ s'.held
    | none => s'.kernel.lockStatus l = .unlocked

theorem AttendedInv.inherited {s s' : MutexSystem} {e : Event} {p : Task}
    (h : s.AttendedInv) (hevent : s.EventOk e) (hstep : s.step e = some s')
    (hdying : s.kernel.toCore.dying e.call = some p) {l : LockId}
    (hl : l ∈ (s.kernel.pcb p).recorded) : Inherited s s' p l := by
  obtain ⟨a, hfollows, hinv, hatt⟩ := h
  obtain ⟨a', hfollows', hinv', hmoved, hholds⟩ := step_lockStep hfollows hinv hevent hstep
  rw [Core.eq_deathOf_of_dying hdying, hfollows.core] at hmoved hholds
  rw [hfollows.core] at hl
  refine ⟨a.queues, hfollows.queues, ?_⟩
  split
  · rename_i w hw
    refine of_decide_eq_true (p := (l, w) ∈ s'.held) ?_
    change holdsOf s'.held l w = true
    rw [hholds]
    exact death_heir hinv.orderly (hmoved.2.2 p rfl) hmoved.alive_death hatt.held_alive hl hw
  · rename_i hnone
    have hnil : (a.lockTable.queue l).erase p = [] := List.head?_eq_none_iff.mp hnone
    have hopen : a'.lockTable.locked l = false := by
      rw [hmoved.1, Core.deathOf, LockMove.apply, LockTable.death_locked, hnil]
      simp [List.count_pos_iff.mpr hl]
    rw [hfollows'.core]
    exact (a'.lockTable_open l).mp hopen

/-- A run in which every task that dies has a record of all its locks: a locked
mutex is held by a living process, and what a dying task held is inherited.
One more event keeps this exactly when a task that dies in it has a record of
all its locks. -/
theorem locked_mutex_attended (barrier : BarrierId → Barrier) (tables : Nat → Nat → Nat)
    {s : MutexSystem} (h : Reaches MutexSystem.step DiesRecorded (boot barrier tables) s) :
    s.LockedHeld ∧
      ∀ e s', s.EventOk e → s.step e = some s' →
        (s'.LockedHeld ↔ ∀ p, s.kernel.toCore.dying e.call = some p → s.FullRecord p) ∧
        ∀ p l, s.kernel.toCore.dying e.call = some p → s.FullRecord p →
          s.kernel.lockStatus l = .locked → (l, p) ∈ s.held →
          (∀ q, (l, q) ∈ s.held → q = p) → Inherited s s' p l := by
  have hinv := h.invariant _ (attendedInv_boot barrier tables) fun s e s' h => h.step
  have hlocked : ∀ s : MutexSystem, s.AttendedInv → s.LockedHeld := by
    rintro s ⟨a, hfollows, _, hatt⟩
    exact (lockedHeld_iff hfollows hatt.held_alive).mpr hatt.locked_held
  refine ⟨hlocked s hinv, fun e s' hevent hstep => ⟨⟨?_, ?_⟩, ?_⟩⟩
  · intro hheld p hdying
    exact (hinv.death_iff hevent hstep hdying).mp hheld
  · intro hfull
    exact hlocked s' (hinv.step ⟨hevent, hfull⟩ hstep)
  · intro p l hdying hfull hstatus hheld honly
    refine hinv.inherited hevent hstep hdying (hfull (l, p) hheld rfl hstatus ?_)
    rintro ⟨m, q⟩ hq rfl
    exact honly q hq

/-- A task exits with a lock it acquired while another task waits for the
lock. -/
theorem blank_exit_attended :
    ∃ s, runIf MutexSystem.step DiesRecorded blank
        [⟨0, .spawn 0⟩, ⟨0, .spawn 0⟩, ⟨0, .timer 5⟩, ⟨0, .acquire 7⟩, ⟨0, .yield⟩,
          ⟨0, .acquire 7⟩, ⟨0, .exit⟩] = some s ∧
      s.held = [(7, 2)] ∧ s.kernel.lockStatus 7 = .locked ∧ s.LockedHeld := by
  have hrun : (runIf MutexSystem.step DiesRecorded blank
      [⟨0, .spawn 0⟩, ⟨0, .spawn 0⟩, ⟨0, .timer 5⟩, ⟨0, .acquire 7⟩, ⟨0, .yield⟩,
        ⟨0, .acquire 7⟩, ⟨0, .exit⟩]).map (fun s => (s.held, s.kernel.lockStatus 7)) =
      some ([(7, 2)], .locked) := by
    decide +kernel
  obtain ⟨s, hs, hpair⟩ := Option.map_eq_some_iff.mp hrun
  obtain ⟨hheld, hlocked⟩ := Prod.mk.inj hpair
  exact ⟨s, hs, hheld, hlocked, (locked_mutex_attended _ _ (reaches_of_runIf hs)).1⟩

/-- No process holds more than `MAX_LOCK` mutexes. -/
def WithinMaxLock (s : MutexSystem) : Prop :=
  ∀ p, (s.held.filter fun h => h.2 = p).length ≤ maxLock

instance (s : MutexSystem) : Decidable s.WithinMaxLock :=
  inferInstanceAs (Decidable (∀ _, _))

/-- Task 1 hands the lock to task 2, in whose record it is not.  The exit of
task 2 leaves the mutex locked, and nobody holds it. -/
theorem handed_over_lock_orphaned :
    ¬ ∀ s, Reaches MutexSystem.step (fun s e => s.EventOk e ∧ s.WithinMaxLock) blank s →
      s.LockedHeld := by
  intro h
  have hrun : (runIf MutexSystem.step (fun s e => s.EventOk e ∧ s.WithinMaxLock) blank
      [⟨0, .spawn 0⟩, ⟨0, .spawn 0⟩, ⟨0, .timer 5⟩, ⟨0, .acquire 7⟩, ⟨0, .yield⟩,
        ⟨0, .acquire 7⟩, ⟨0, .release 7⟩, ⟨0, .yield⟩, ⟨0, .exit⟩]).map
      (fun s => (s.held, s.kernel.lockStatus 7)) = some ([], .locked) := by
    decide +kernel
  obtain ⟨s, hs, hpair⟩ := Option.map_eq_some_iff.mp hrun
  obtain ⟨hheld, hlocked⟩ := Prod.mk.inj hpair
  obtain ⟨p, hp, _⟩ := h s (reaches_of_runIf hs) 7 hlocked
  rw [hheld] at hp
  cases hp

end MutexSystem

end MipsOs.Sched
