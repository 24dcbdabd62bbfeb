import MipsOs.Sched.Waitpid

/-!
# The next task

`scheduler` takes the next task from `ready_queue` with `queue_dequeue`, which
reads the head of the queue without a test.  The boot task has pid 0 and is
never put back into the queue, so nobody runs when all processes sleep, wait or
have died.

`untilDequeue` is an event up to its call of `queue_dequeue`.  `line` is what the
queue holds there, as a function of the state before the event: who was ready,
and behind them who is woken, in the order of the code.  `HasNext` is the
condition on the state before under which the queue is not empty.
`scheduler_has_next_iff` is the result: the condition is exact in every state
that is reached.
-/

namespace MipsOs.Sched

open MipsOs.Lib

/-! ## The events up to `queue_dequeue` -/

section Source

variable {H : Type} [QueueOps H QueueId Task]

namespace Kernel

/-- `do_scheduler` up to its call of `queue_dequeue`. -/
def toDequeue (k : Kernel H) (sp : Nat) : Except Fault (Kernel H) := do
  let k ← (k.setPcb k.currentRunning { k.cur with kernelSp := sp }).checkSleeping
  k.retire

theorem doScheduler_eq (k : Kernel H) (sp : Nat) :
    k.doScheduler sp = k.toDequeue sp >>= dispatch := by
  rw [doScheduler, toDequeue, scheduler, bind_assoc]

/-- The running task joins a queue and schedules, up to `queue_dequeue`. -/
def joinToDequeue (k : Kernel H) (sp : Nat) (q : QueueId) (s : TaskStatus) :
    Except Fault (Kernel H) := do
  let k ← k.enqueue q k.currentRunning s
  k.toDequeue sp

theorem join_doScheduler_eq (k : Kernel H) (sp : Nat) (q : QueueId) (s : TaskStatus) :
    (k.enqueue q k.currentRunning s >>= fun k => k.doScheduler sp) =
      k.joinToDequeue sp q s >>= dispatch := by
  rw [joinToDequeue, bind_assoc]
  exact congrArg _ (funext fun k => k.doScheduler_eq sp)

end Kernel

/-- The call does not return before it has called `do_scheduler`. -/
def Core.schedules (c : Core) : Call → Bool
  | .yield => true
  | .timer _ => true
  | .sleep _ => true
  | .block _ => true
  | .waitpid pid => (c.findPid pid).isSome
  | .exit => true
  | .acquire lock => c.lockStatus lock = .locked
  | .barrierWait b => (c.barrier b).now + 1 < (c.barrier b).goal
  | _ => false

/-- A call that schedules, up to `queue_dequeue`. -/
def untilDequeue (k : Kernel H) (e : Event) : Except Fault (Kernel H) :=
  match e.call with
  | .yield => k.toDequeue e.sp
  | .timer count => (k.updateTimeElapsed count).toDequeue e.sp
  | .sleep time =>
    let sleepUntil := (k.getTimer + time) % 2 ^ 32
    (k.setPcb k.currentRunning { k.cur with sleepUntil := sleepUntil }).joinToDequeue
      e.sp .sleep .sleeping
  | .block queue => k.joinToDequeue e.sp (.block queue) .blocked
  | .waitpid pid =>
    (k.setPcb k.currentRunning { k.cur with waitpid := pid }).joinToDequeue
      e.sp .waitpid .blocked
  | .exit => do
    let k := k.setPcb k.currentRunning { k.cur with status := .exited }
    let k ← k.freeProc k.currentRunning
    k.toDequeue e.sp
  | .acquire lock => k.joinToDequeue e.sp (.block (.lock lock)) .blocked
  | .barrierWait b =>
    (k.setBarrierNow b ((k.barrier b).now + 1)).joinToDequeue e.sp (.block (.barrier b)) .blocked
  | _ => .ok k

/-- A call that schedules goes on with `queue_dequeue`. -/
theorem kernelStep_eq_untilDequeue (k : Kernel H) (e : Event)
    (h : k.toCore.schedules e.call = true) :
    kernelStep k e = untilDequeue k e >>= Kernel.dispatch := by
  obtain ⟨sp, call⟩ := e
  cases call with
  | yield => exact k.doScheduler_eq sp
  | timer count => exact Kernel.doScheduler_eq _ sp
  | sleep time => exact Kernel.join_doScheduler_eq _ sp _ _
  | block queue => exact Kernel.join_doScheduler_eq _ sp _ _
  | waitpid pid =>
    have hfind : (k.toCore.findPid pid).isSome = true := h
    simp only [kernelStep, Kernel.doWaitpid, if_pos hfind]
    exact Kernel.join_doScheduler_eq _ sp _ _
  | exit =>
    simp only [kernelStep, Kernel.doExit, untilDequeue, bind_assoc]
    exact congrArg _ (funext fun k => k.doScheduler_eq sp)
  | acquire lock =>
    have hlocked : ¬ k.lockStatus lock = .unlocked := by
      have hlock : k.lockStatus lock = .locked := by simpa [Core.schedules] using h
      rw [hlock]
      decide
    simp only [kernelStep, Kernel.doMutexLockAcquire, if_neg hlocked]
    exact Kernel.join_doScheduler_eq _ sp _ _
  | barrierWait b =>
    have hgoal : (k.barrier b).now + 1 < (k.barrier b).goal := by
      simpa [Core.schedules] using h
    have hnow : (((k.setBarrierNow b ((k.barrier b).now + 1)).barrier b).now <
        ((k.setBarrierNow b ((k.barrier b).now + 1)).barrier b).goal) := by
      simpa [Kernel.setBarrierNow] using hgoal
    simp only [kernelStep, Kernel.doBarrierWait, if_pos hnow]
    exact Kernel.join_doScheduler_eq _ sp _ _
  | _ => cases h

/-! ## The condition -/

namespace Kernel

/-- The time at which `i` wakes up has passed. -/
def Due (k : Kernel H) (i : Task) : Prop := (k.pcb i).sleepUntil < k.getTimer % 2 ^ 32

instance (k : Kernel H) (i : Task) : Decidable (k.Due i) :=
  inferInstanceAs (Decidable (_ < _))

/-- A task is ready, or it sleeps and is due. -/
def Awake (k : Kernel H) : Prop :=
  ∃ i, (k.pcb i).status = .ready ∨ (k.pcb i).status = .sleeping ∧ k.Due i

instance (k : Kernel H) : Decidable k.Awake :=
  inferInstanceAs (Decidable (∃ _, _))

/-- The death of `i` wakes a task, which waits for its pid or for a lock in its
record. -/
def WakesByDeath (k : Kernel H) (i : Task) : Prop :=
  ∃ w, (k.pcb w).status = .blocked ∧
    ((k.pcb w).inQueue = some .waitpid ∧ (k.pcb w).waitpid = (k.pcb i).pid ∨
      ∃ l ∈ (k.pcb i).recorded, (k.pcb w).inQueue = some (.block (.lock l)))

instance (k : Kernel H) (i : Task) : Decidable (k.WakesByDeath i) :=
  inferInstanceAs (Decidable (∃ _, _))

/-- A plain switch: a task is awake, the running process goes on, or its death
wakes a task. -/
def SwitchHasNext (k : Kernel H) : Prop :=
  k.Awake ∨ k.cur.pid ≠ 0 ∧ k.cur.status = .running ∨
    k.cur.status = .exited ∧ k.WakesByDeath k.currentRunning

instance (k : Kernel H) : Decidable k.SwitchHasNext :=
  inferInstanceAs (Decidable (_ ∨ _ ∨ _))

/-- A call that schedules has a task to switch to. -/
def HasNext (k : Kernel H) : Call → Prop
  | .yield => k.SwitchHasNext
  | .timer count => (k.updateTimeElapsed count).SwitchHasNext
  | .sleep time =>
    k.Awake ∨ (k.getTimer + time) % 2 ^ 32 < k.getTimer % 2 ^ 32
  | .exit => k.Awake ∨ k.WakesByDeath k.currentRunning
  | _ => k.Awake

end Kernel

/-! ## The queue at `queue_dequeue` -/

/-- Who gets the locks of a list when they are released one after the other: for each
the first that waits. -/
def grantees (waiting : LockId → List Task) : List LockId → List Task
  | [] => []
  | l :: ls =>
    (waiting l).head?.toList ++ grantees (Function.update waiting l (waiting l).tail) ls

namespace Kernel

variable (k : Kernel H) (items : QueueId → List Task)

/-- The sleeping tasks that are due, when the queues are `items`. -/
def dueTasks : List Task := (items .sleep).filter fun w => k.Due w

/-- The tasks that the death of `i` wakes: those that get its locks, and those that wait
for it. -/
def deathWakes (i : Task) : List Task :=
  grantees (fun l => items (.block (.lock l))) (k.pcb i).recorded ++
    (items .waitpid).filter fun w => (k.pcb w).waitpid = (k.pcb i).pid

/-- The ready queue when a plain switch gets to `queue_dequeue`. -/
def switchLine : List Task :=
  items .ready ++ k.dueTasks items ++
    if k.cur.pid ≠ 0 ∧ k.cur.status = .running then [k.currentRunning]
    else if k.cur.status = .exited then k.deathWakes items k.currentRunning
    else []

/-- The ready queue when a call gets to `queue_dequeue`. -/
def line : Call → List Task
  | .yield => k.switchLine items
  | .timer count => (k.updateTimeElapsed count).switchLine items
  | .sleep time =>
    items .ready ++ k.dueTasks items ++
      if (k.getTimer + time) % 2 ^ 32 < k.getTimer % 2 ^ 32 then [k.currentRunning] else []
  | .exit => items .ready ++ k.deathWakes items k.currentRunning ++ k.dueTasks items
  | _ => items .ready ++ k.dueTasks items

end Kernel

end Source

/-! ## The ready queue of the list kernel -/

section Lists

variable {k k' : Kernel ListQueues} {d : Option Task} {i : Task} {q : QueueId} {s : TaskStatus}

theorem Consistent.awake_iff (h : Consistent d k) :
    k.Awake ↔ k.queues.items .ready ≠ [] ∨ k.dueTasks k.queues.items ≠ [] := by
  have hdue : k.dueTasks k.queues.items ≠ [] ↔ ∃ w ∈ k.queues.items .sleep, k.Due w := by
    simp [Kernel.dueTasks]
  rw [hdue]
  constructor
  · rintro ⟨w, hready | ⟨hsleep, hdue⟩⟩
    · refine Or.inl (List.ne_nil_of_mem (a := w) ?_)
      rw [k.queues.mem_iff]
      exact (fits_ready_iff (h.fits w)).mp hready
    · refine Or.inr ⟨w, ?_, hdue⟩
      rw [k.queues.mem_iff]
      exact (fits_sleeping_iff (h.fits w)).mp hsleep
  · rintro (hne | ⟨w, hw, hdue⟩)
    · obtain ⟨w, hw⟩ := List.exists_mem_of_ne_nil _ hne
      rw [k.queues.mem_iff] at hw
      exact ⟨w, Or.inl ((fits_ready_iff (h.fits w)).mpr hw)⟩
    · rw [k.queues.mem_iff] at hw
      exact ⟨w, Or.inr ⟨(fits_sleeping_iff (h.fits w)).mpr hw, hdue⟩⟩

theorem Consistent.blocked_in_iff (h : Consistent d k) (hq : q = .waitpid ∨ ∃ b, q = .block b)
    (w : Task) : (k.pcb w).status = .blocked ∧ (k.pcb w).inQueue = some q ↔
      w ∈ k.queues.items q := by
  rw [k.queues.mem_iff]
  constructor
  · rintro ⟨hs, hname⟩
    obtain ⟨p, hp⟩ : ∃ p, k.queues.owner w = some p := by
      rcases (fits_blocked_iff (h.fits w)).mp hs with hw | ⟨b, hw⟩
      · exact ⟨_, hw⟩
      · exact ⟨_, hw⟩
    rw [hp, ← h.names w p hp]
    exact hname
  · intro hw
    refine ⟨(fits_blocked_iff (h.fits w)).mpr ?_, h.names w q hw⟩
    rcases hq with rfl | ⟨b, rfl⟩
    · exact Or.inl hw
    · exact Or.inr ⟨b, hw⟩

/-- Somebody gets a lock of the list if somebody waits for one. -/
theorem grantees_ne_nil {waiting : LockId → List Task} {ls : List LockId} :
    grantees waiting ls ≠ [] ↔ ∃ l ∈ ls, waiting l ≠ [] := by
  induction ls generalizing waiting with
  | nil => simp [grantees]
  | cons l ls ih =>
    have hhead : (waiting l).head?.toList ≠ [] ↔ waiting l ≠ [] := by
      cases waiting l <;> simp
    rw [grantees, ne_eq, List.append_eq_nil_iff, not_and_or, ← ne_eq, ← ne_eq, hhead, ih]
    constructor
    · rintro (hne | ⟨m, hm, hne⟩)
      · exact ⟨l, List.mem_cons_self .., hne⟩
      · by_cases hml : m = l
        · subst hml
          rw [Function.update_self] at hne
          exact ⟨m, List.mem_cons_self .., fun hnil => hne (by rw [hnil]; rfl)⟩
        · rw [Function.update_of_ne hml] at hne
          exact ⟨m, List.mem_cons_of_mem _ hm, hne⟩
    · rintro ⟨m, hm, hne⟩
      by_cases hml : m = l
      · exact Or.inl (hml ▸ hne)
      · refine Or.inr ⟨m, (List.mem_cons.mp hm).resolve_left hml, ?_⟩
        rwa [Function.update_of_ne hml]

theorem append_ne_nil {α : Type} (xs ys : List α) : xs ++ ys ≠ [] ↔ xs ≠ [] ∨ ys ≠ [] := by
  rw [ne_eq, List.append_eq_nil_iff, not_and_or]

theorem Consistent.wakesByDeath_iff (h : Consistent d k) :
    k.WakesByDeath i ↔ k.deathWakes k.queues.items i ≠ [] := by
  have hin := fun {q} hq => h.blocked_in_iff (q := q) hq
  have hwaits : (k.queues.items .waitpid).filter (fun w => (k.pcb w).waitpid = (k.pcb i).pid) ≠
      [] ↔ ∃ w ∈ k.queues.items .waitpid, (k.pcb w).waitpid = (k.pcb i).pid := by
    simp
  rw [Kernel.deathWakes, append_ne_nil, grantees_ne_nil, hwaits]
  constructor
  · rintro ⟨w, hs, ⟨hname, hpid⟩ | ⟨l, hl, hname⟩⟩
    · exact Or.inr ⟨w, (hin (Or.inl rfl) w).mp ⟨hs, hname⟩, hpid⟩
    · exact Or.inl ⟨l, hl, List.ne_nil_of_mem ((hin (Or.inr ⟨_, rfl⟩) w).mp ⟨hs, hname⟩)⟩
  · rintro (⟨l, hl, hne⟩ | ⟨w, hw, hpid⟩)
    · obtain ⟨w, hw⟩ := List.exists_mem_of_ne_nil _ hne
      obtain ⟨hs, hname⟩ := (hin (Or.inr ⟨_, rfl⟩) w).mpr hw
      exact ⟨w, hs, Or.inr ⟨l, hl, hname⟩⟩
    · obtain ⟨hs, hname⟩ := (hin (Or.inl rfl) w).mpr hw
      exact ⟨w, hs, Or.inl ⟨hname, hpid⟩⟩

/-- What `check_sleeping` leaves alone. -/
structure SameButSleep (k₀ k : Kernel ListQueues) : Prop where
  items : ∀ q, q ≠ .ready → q ≠ .sleep → k.queues.items q = k₀.queues.items q
  pcb : ∀ i, k₀.queues.owner i ≠ some .sleep → k.pcb i = k₀.pcb i
  status : ∀ i s, s ≠ .ready → (k.pcb i).status = s → (k₀.pcb i).status = s
  current : k.currentRunning = k₀.currentRunning

/-- The tasks that are due go to the end of the ready queue. -/
theorem checkSleeping_ready (k : Kernel ListQueues) : Safe k.checkSleeping fun k' =>
    k'.queues.items .ready = k.queues.items .ready ++ k.dueTasks k.queues.items ∧
      SameButSleep k k' := by
  simp only [Kernel.checkSleeping]
  split
  · rename_i hempty
    have hnil : k.queues.items .sleep = [] := List.isEmpty_iff.mp hempty
    refine ⟨?_, fun _ _ _ => rfl, fun _ _ => rfl, fun _ _ _ hs => hs, rfl⟩
    simp [Kernel.dueTasks, hnil]
  · refine Safe.mono (Kernel.wakeAll_splits
      (P := fun k' => (∀ q, q ≠ .ready → q ≠ .sleep →
          k'.queues.items q = k.queues.items q) ∧
        (∀ i s, s ≠ .ready → (k'.pcb i).status = s → (k.pcb i).status = s) ∧
        k'.currentRunning = k.currentRunning)
      (by decide) ?_ ⟨fun _ _ _ => rfl, fun _ _ _ hs => hs, rfl⟩) ?_
    rotate_left
    · rintro k' ⟨⟨hitems, hstatus, hcur⟩, _, hready, hother⟩
      refine ⟨?_, hitems, fun i hi => hother i fun hmem => ?_, hstatus, hcur⟩
      · exact hready
      · exact absurd ((k.queues.mem_iff _ _).mp hmem) hi
    · rintro a i hi ⟨hitems, hstatus, hcur⟩ _
      refine ⟨fun q hready hsleep => ?_, fun j s hs hj => hstatus j s hs ?_, hcur⟩
      · rw [Kernel.woken_items_of_ne hi hsleep hready]
        exact hitems q hready hsleep
      · by_cases hji : j = i
        · subst hji
          rw [Kernel.woken_pcb_self] at hj
          exact absurd hj.symm hs
        · rw [Kernel.woken_pcb_of_ne hi hji] at hj
          exact hj

/-! ## A death -/

/-- A release wakes the first task that waits for the lock. -/
theorem doMutexLockRelease_ready (k : Kernel ListQueues) (l : LockId) :
    Safe (k.doMutexLockRelease l) fun k' =>
      k'.queues.items .ready =
        k.queues.items .ready ++ (k.queues.items (.block (.lock l))).head?.toList ∧
      (fun m => k'.queues.items (.block (.lock m))) =
        Function.update (fun m => k.queues.items (.block (.lock m))) l
          (k.queues.items (.block (.lock l))).tail := by
  rcases doMutexLockRelease_cases k l with ⟨hnil, heq⟩ | ⟨w, rest, hw, hcons, heq⟩
  · rw [heq, hnil]
    refine ⟨(List.append_nil _).symm, ?_⟩
    rw [List.tail_nil, ← hnil]
    exact (Function.update_eq_self l fun m => k.queues.items (.block (.lock m))).symm
  · rw [heq, hcons]
    refine ⟨?_, funext fun m => ?_⟩
    · show (((k.procLoseLock l).procGetLock l).woken _ w hw).queues.items .ready = _
      rw [Kernel.woken, Kernel.enqueued_items, if_pos rfl, Kernel.taken_items, if_neg (by simp)]
      rfl
    · by_cases hml : m = l
      · subst hml
        rw [Function.update_self, Kernel.woken_items_self hw (by simp)]
        show (k.queues.items (.block (.lock m))).erase w = _
        rw [hcons, List.erase_cons_head]
        rfl
      · rw [Function.update_of_ne hml]
        exact Kernel.woken_items_of_ne (p := .block (.lock m)) hw (by simpa using hml) (by simp)

/-- The loop of `free_proc` over `locks_got` wakes the first task that waits for each
lock in the record. -/
theorem releaseLocks_ready (js : List (Fin maxLock)) (hsorted : js.Pairwise (· < ·)) :
    Safe (Kernel.releaseLocks i js k) fun k' => k'.queues.items .ready =
      k.queues.items .ready ++ grantees (fun l => k.queues.items (.block (.lock l)))
        (js.filterMap (k.pcb i).locksGot) := by
  induction js generalizing k with
  | nil => simp [Kernel.releaseLocks, Safe, grantees]
  | cons j rest ih =>
    obtain ⟨hfirst, hrest⟩ := List.pairwise_cons.mp hsorted
    rw [Kernel.releaseLocks]
    split
    · rename_i hnone
      rw [List.filterMap_cons_none hnone]
      exact ih hrest
    · rename_i l hsome
      rw [List.filterMap_cons_some hsome]
      refine ((doMutexLockRelease_ready k l).and
        (doMutexLockRelease_rest hsome hfirst)).bind ?_
      rintro k₁ ⟨⟨hready, hwaiting⟩, hkeep⟩
      have hcongr : ∀ j' ∈ rest, Function.update (k₁.pcb i).locksGot j none j' =
          (k.pcb i).locksGot j' := by
        intro j' hj'
        have hne : j' ≠ j := (hfirst j' hj').ne'
        rw [Function.update_of_ne hne, hkeep j' hj']
      have hgo := ih hrest (k := k₁.setPcb i
        { k₁.pcb i with locksGot := Function.update (k₁.pcb i).locksGot j none })
      rw [Kernel.setPcb_pcb_self] at hgo
      rw [List.filterMap_congr hcongr, Kernel.setPcb_queues] at hgo
      refine hgo.mono fun k' hk' => ?_
      rw [hk', hready, hwaiting, grantees, List.append_assoc]

/-- A field that stays in an update of one PCB. -/
theorem setPcb_field {α : Type} (f : Pcb → α) {p : Pcb} (hf : f p = f (k.pcb i)) (j : Task) :
    f ((k.setPcb i p).pcb j) = f (k.pcb j) := by
  by_cases hj : j = i
  · subst hj
    rw [Kernel.setPcb_pcb_self, hf]
  · rw [Kernel.setPcb_pcb_of_ne hj]

/-- What a death leaves alone. -/
structure SameSleep (k₀ k : Kernel ListQueues) : Prop where
  items : k.queues.items .sleep = k₀.queues.items .sleep
  sleepUntil : ∀ i, (k.pcb i).sleepUntil = (k₀.pcb i).sleepUntil
  time : k.timeElapsed = k₀.timeElapsed

theorem SameSleep.refl (k : Kernel ListQueues) : SameSleep k k := ⟨rfl, fun _ => rfl, rfl⟩

theorem SameSleep.due_iff {k₀ : Kernel ListQueues} (h : SameSleep k₀ k) (i : Task) :
    k.Due i ↔ k₀.Due i := by
  rw [Kernel.Due, Kernel.Due, Kernel.getTimer, Kernel.getTimer, h.sleepUntil, h.time]

theorem SameSleep.setPcb {k₀ : Kernel ListQueues} (h : SameSleep k₀ k) {p : Pcb}
    (hp : p.sleepUntil = (k.pcb i).sleepUntil) : SameSleep k₀ (k.setPcb i p) :=
  ⟨h.items, fun j => (setPcb_field Pcb.sleepUntil hp j).trans (h.sleepUntil j), h.time⟩

theorem SameSleep.woken {k₀ : Kernel ListQueues} (h : SameSleep k₀ k)
    (hi : k.queues.owner i = some q) (hq : q ≠ .sleep) : SameSleep k₀ (k.woken q i hi) := by
  refine ⟨?_, fun j => ?_, h.time⟩
  · rw [Kernel.woken_items_of_ne hi (Ne.symm hq) (by decide)]
    exact h.items
  · rw [← h.sleepUntil j]
    by_cases hj : j = i
    · subst hj
      rw [Kernel.woken_pcb_self]
    · rw [Kernel.woken_pcb_of_ne hi hj]

theorem SameSleep.lockwise (k₀ : Kernel ListQueues) : Lockwise (SameSleep k₀) where
  locks _ _ _ h := h.setPcb rfl
  lock _ _ _ h := ⟨h.items, h.sleepUntil, h.time⟩
  unblocked _ _ _ hi h := h.woken hi (by simp)

/-- The walk over `waitpid_queue` wakes those who wait for the pid. -/
theorem wakeWaiting_ready (k : Kernel ListQueues) (pid : Int) :
    Safe (k.wakeWaiting pid) fun k' =>
      k'.queues.items .ready = k.queues.items .ready ++
        (k.queues.items .waitpid).filter (fun w => (k.pcb w).waitpid = pid) ∧
      SameSleep k k' := by
  have hsame := SameSleep.refl k
  simp only [Kernel.wakeWaiting]
  split
  · rename_i hempty
    have hnil : k.queues.items .waitpid = [] := List.isEmpty_iff.mp hempty
    refine ⟨?_, hsame⟩
    simp [hnil]
  · refine (Kernel.wakeAll_splits (P := SameSleep k) (by decide)
      (fun a i hi ha _ => ha.woken hi (by decide)) hsame).mono ?_
    rintro k' ⟨hsleep, _, hready, _⟩
    exact ⟨hready, hsleep⟩

/-- A death puts those it wakes at the end of the ready queue. -/
theorem freeProc_ready (k : Kernel ListQueues) (i : Task) : Safe (k.freeProc i) fun k' =>
    k'.queues.items .ready = k.queues.items .ready ++ k.deathWakes k.queues.items i ∧
      SameSleep k k' := by
  simp only [Kernel.freeProc]
  split
  · trivial
  · have hgranted : Granted k { k with toCore := k.toCore.freeMemory i } :=
      ⟨rfl, fun _ => rfl, fun _ _ h => h, [], by simp, by simp⟩
    have hsame : SameSleep k { k with toCore := k.toCore.freeMemory i } :=
      ⟨rfl, fun _ => rfl, rfl⟩
    have hlocks := releaseLocks_ready (k := { k with toCore := k.toCore.freeMemory i }) (i := i)
      (List.finRange maxLock) (List.pairwise_lt_finRange maxLock)
    refine (((Granted.lockwise k).releaseLocks hgranted i _).and
      (((SameSleep.lockwise k).releaseLocks hsame i _).and hlocks)).bind ?_
    rintro k₁ ⟨hgranted₁, hsame₁, hready₁⟩
    refine (wakeWaiting_ready k₁ (k.pcb i).pid).bind ?_
    rintro k₂ ⟨hready₂, hsame₂⟩
    refine ⟨?_, ?_⟩
    · show k₂.queues.items .ready = _
      rw [hready₂, hready₁, hgranted₁.waiting, List.append_assoc]
      simp only [hgranted₁.waitpid]
      rfl
    · have hsame₃ : SameSleep k k₂ :=
        ⟨hsame₂.items.trans hsame₁.items, fun j => (hsame₂.sleepUntil j).trans
          (hsame₁.sleepUntil j), hsame₂.time.trans hsame₁.time⟩
      exact hsame₃.setPcb rfl

theorem SameSleep.dueTasks {k₀ : Kernel ListQueues} (h : SameSleep k₀ k) :
    k.dueTasks k.queues.items = k₀.dueTasks k₀.queues.items := by
  rw [Kernel.dueTasks, Kernel.dueTasks, h.items]
  simp only [h.due_iff]

/-! ## `do_scheduler` -/

/-- Who waits for a process or a lock is not touched by `check_sleeping`. -/
theorem SameButSleep.deathWakes {k₀ : Kernel ListQueues} (h : SameButSleep k₀ k)
    (hi : k₀.queues.owner i = none) :
    k.deathWakes k.queues.items i = k₀.deathWakes k₀.queues.items i := by
  have hpcb : k.pcb i = k₀.pcb i := h.pcb i (by rw [hi]; simp)
  have hlock : ∀ l, k.queues.items (.block (.lock l)) = k₀.queues.items (.block (.lock l)) :=
    fun l => h.items _ (by simp) (by simp)
  simp only [Kernel.deathWakes, hpcb, h.items .waitpid (by decide) (by decide), hlock]
  congr 1
  apply List.filter_congr
  intro w hw
  rw [k₀.queues.mem_iff] at hw
  rw [h.pcb w (by rw [hw]; simp)]

/-- A task in no queue is not touched by `check_sleeping`. -/
theorem SameButSleep.cur_eq {k₀ : Kernel ListQueues} (h : SameButSleep k₀ k)
    (hoff : k₀.queues.owner k₀.currentRunning = none) : k.cur = k₀.cur := by
  rw [Kernel.cur, h.current, h.pcb _ (by rw [hoff]; simp)]
  rfl

/-- `do_scheduler` from `check_sleeping` on. -/
theorem Consistent.sleep_retire (h : Consistent none k) :
    Safe (k.checkSleeping >>= Kernel.retire) fun k' =>
      k'.queues.items .ready = k.switchLine k.queues.items := by
  have hcons : Safe k.checkSleeping (Consistent none) :=
    Kernel.checkSleeping_rule (fun _ _ hi hk => hk.woken hi) h
  refine ((checkSleeping_ready k).and hcons).bind ?_
  rintro k₁ ⟨⟨hready, hsame⟩, hcons₁⟩
  have hoff : k.cur.status = .running ∨ k.cur.status = .exited →
      k.queues.owner k.currentRunning = none := by
    have hfits := h.fits k.currentRunning
    rintro (hs | hs)
    · rw [show (k.pcb k.currentRunning).status = .running from hs] at hfits
      exact hfits
    · rw [show (k.pcb k.currentRunning).status = .exited from hs] at hfits
      exact hfits
  have hback : ∀ s, s ≠ .ready → k₁.cur.status = s → k.cur.status = s := by
    intro s hs hcur
    rw [Kernel.cur, hsame.current] at hcur
    exact hsame.status _ s hs hcur
  rw [Kernel.retire]
  split
  · rename_i hrun
    have hkrun := hback .running (by decide) hrun.2
    have hcur := hsame.cur_eq (hoff (Or.inl hkrun))
    have hoff₁ : k₁.queues.owner k₁.currentRunning = none := by
      have hfits := hcons₁.fits k₁.currentRunning
      rw [show (k₁.pcb k₁.currentRunning).status = .running from hrun.2] at hfits
      exact hfits
    apply Kernel.enqueue_rule hoff₁
    rw [hcur] at hrun
    rw [Kernel.enqueued_items, if_pos rfl, hready, Kernel.switchLine, if_pos hrun, hsame.current]
  · rename_i hnotrun
    have hrun : ¬ (k.cur.pid ≠ 0 ∧ k.cur.status = .running) := by
      intro hk
      rw [hsame.cur_eq (hoff (Or.inl hk.2))] at hnotrun
      exact hnotrun hk
    split
    · rename_i hex
      have hkex := hback .exited (by decide) hex
      refine (freeProc_ready k₁ k₁.currentRunning).mono fun k' hk' => ?_
      rw [hk'.1, hready, Kernel.switchLine, if_neg hrun, if_pos hkex, hsame.current,
        hsame.deathWakes (hoff (Or.inr hkex))]
    · rename_i hnotex
      have hex : k.cur.status ≠ .exited := by
        intro hk
        rw [hsame.cur_eq (hoff (Or.inr hk))] at hnotex
        exact hnotex hk
      show k₁.queues.items .ready = _
      rw [hready, Kernel.switchLine, if_neg hrun, if_neg hex, List.append_nil]

theorem deathWakes_setPcb {p : Pcb} (hpid : p.pid = (k.pcb i).pid)
    (hwaitpid : p.waitpid = (k.pcb i).waitpid) (hlocks : p.locksGot = (k.pcb i).locksGot)
    (items : QueueId → List Task) (j : Task) :
    (k.setPcb i p).deathWakes items j = k.deathWakes items j := by
  simp only [Kernel.deathWakes, Pcb.recorded, setPcb_field Pcb.pid hpid,
    setPcb_field Pcb.waitpid hwaitpid, setPcb_field Pcb.locksGot hlocks]

/-- The field that `do_scheduler` saves is not read. -/
theorem switchLine_kernelSp (k : Kernel ListQueues) (sp : Nat) (items : QueueId → List Task) :
    (k.setPcb k.currentRunning { k.cur with kernelSp := sp }).switchLine items =
      k.switchLine items := by
  have hcur : (k.setPcb k.currentRunning { k.cur with kernelSp := sp }).cur =
      { k.cur with kernelSp := sp } := Kernel.setPcb_pcb_self _
  have hdue := (SameSleep.refl k).setPcb (i := k.currentRunning)
    (p := { k.cur with kernelSp := sp }) rfl
  have hdeath := deathWakes_setPcb (k := k) (i := k.currentRunning)
    (p := { k.cur with kernelSp := sp }) rfl rfl rfl items k.currentRunning
  simp only [Kernel.switchLine, Kernel.dueTasks, hdue.due_iff, hcur, Kernel.setPcb_currentRunning,
    hdeath]

theorem Consistent.toDequeue (h : Consistent none k) (sp : Nat) :
    Safe (k.toDequeue sp) fun k' => k'.queues.items .ready = k.switchLine k.queues.items := by
  have hcons : Consistent none (k.setPcb k.currentRunning { k.cur with kernelSp := sp }) :=
    h.setPcb _ rfl rfl rfl
  refine hcons.sleep_retire.mono fun k' hk' => ?_
  rw [hk', switchLine_kernelSp]
  rfl

/-! ## Events -/

/-- A task that leaves the processor for a queue is in line itself if it sleeps and is
due at once. -/
theorem SchedInv.joinToDequeue (h : SchedInv k) (hfits : Fits s (some q)) (hq : q ≠ .ready)
    (sp : Nat) : Safe (k.joinToDequeue sp q s) fun k' => k'.queues.items .ready =
      k.queues.items .ready ++ k.dueTasks k.queues.items ++
        if q = .sleep ∧ k.Due k.currentRunning then [k.currentRunning] else [] := by
  have hoff := h.owner_current
  have hcons := h.toConsistent.enqueued hoff hfits h.current_live
  rw [Kernel.joinToDequeue, Kernel.enqueue_eq hoff]
  refine (hcons.toDequeue sp).mono fun k' hk' => ?_
  have hcur : (k.enqueued q k.currentRunning s hoff).cur.status = s :=
    congrArg Pcb.status (Kernel.enqueued_pcb_self hoff)
  have hrun : ¬ ((k.enqueued q k.currentRunning s hoff).cur.pid ≠ 0 ∧
      (k.enqueued q k.currentRunning s hoff).cur.status = .running) := by
    rw [hcur]
    rintro ⟨_, rfl⟩
    cases hfits
  have hex : (k.enqueued q k.currentRunning s hoff).cur.status ≠ .exited := by
    rw [hcur]
    rintro rfl
    cases hfits
  have hdue : ∀ w, (k.enqueued q k.currentRunning s hoff).Due w ↔ k.Due w := by
    intro w
    by_cases hw : w = k.currentRunning
    · subst hw
      rw [Kernel.Due, Kernel.enqueued_pcb_self]
      rfl
    · rw [Kernel.Due, Kernel.enqueued_pcb_of_ne hoff hw]
      rfl
  rw [hk', Kernel.switchLine, if_neg hrun, if_neg hex, List.append_nil, Kernel.enqueued_items,
    if_neg (Ne.symm hq), List.append_assoc, Kernel.dueTasks, Kernel.enqueued_items]
  simp only [hdue]
  congr 1
  by_cases hsleep : q = .sleep
  · subst hsleep
    rw [if_pos rfl, List.filter_append]
    show k.dueTasks k.queues.items ++ _ = _
    congr 1
    by_cases hself : k.Due k.currentRunning
    · rw [if_pos ⟨rfl, hself⟩]
      simp [hself]
    · rw [if_neg fun hboth => hself hboth.2]
      simp [hself]
  · rw [if_neg (Ne.symm hsleep), if_neg fun hboth => hsleep hboth.1, List.append_nil]
    rfl

theorem SchedInv.exitToDequeue (h : SchedInv k) (sp : Nat) :
    Safe (untilDequeue k ⟨sp, .exit⟩) fun k' =>
      k'.queues.items .ready = k.line k.queues.items .exit := by
  obtain ⟨hcons, hoff⟩ := h.exiting_current
  have hdue := ((SameSleep.refl k).setPcb (i := k.currentRunning)
    (p := { k.cur with status := .exited }) rfl).dueTasks
  have hdeath : (k.setPcb k.currentRunning { k.cur with status := .exited }).deathWakes
      k.queues.items k.currentRunning = k.deathWakes k.queues.items k.currentRunning :=
    deathWakes_setPcb (p := { k.cur with status := .exited }) rfl rfl rfl _ _
  have hcur : (k.setPcb k.currentRunning { k.cur with status := .exited }).currentRunning =
      k.currentRunning := rfl
  have hqueues : (k.setPcb k.currentRunning { k.cur with status := .exited }).queues =
      k.queues := rfl
  simp only [untilDequeue, hcur]
  generalize k.setPcb k.currentRunning { k.cur with status := .exited } = k₁ at *
  refine ((freeProc_ready k₁ k.currentRunning).and (hcons.freeProc hoff)).bind ?_
  rintro k₂ ⟨⟨hready, hsame⟩, hcons₂, hcur₂, hoff₂, _⟩
  refine (hcons₂.toDequeue sp).mono fun k' hk' => ?_
  have hnone : k₂.cur.status = .none := by
    rw [Kernel.cur, hcur₂, hcur]
    exact hoff₂.2
  have hrun : ¬ (k₂.cur.pid ≠ 0 ∧ k₂.cur.status = .running) := by
    rw [hnone]
    rintro ⟨_, ⟨⟩⟩
  have hex : k₂.cur.status ≠ .exited := by
    rw [hnone]
    rintro ⟨⟩
  rw [hk', Kernel.switchLine, if_neg hrun, if_neg hex, List.append_nil, hready, hsame.dueTasks,
    hdue, hqueues, hdeath]
  rfl

/-- What the ready queue holds when a call gets to `queue_dequeue`. -/
theorem SchedInv.untilDequeue (h : SchedInv k) {e : Event}
    (hsched : k.toCore.schedules e.call = true) :
    Safe (untilDequeue k e) fun k' => k'.queues.items .ready = k.line k.queues.items e.call := by
  obtain ⟨sp, call⟩ := e
  cases call with
  | yield => exact h.toConsistent.toDequeue sp
  | timer count =>
    have h' : SchedInv (k.updateTimeElapsed count) := h.congr rfl rfl rfl rfl
    exact h'.toConsistent.toDequeue sp
  | sleep time =>
    have h' := h.setPcb_current
      (p := { k.cur with sleepUntil := (k.getTimer + time) % 2 ^ 32 }) rfl rfl rfl
    refine (h'.joinToDequeue (q := .sleep) (s := .sleeping) rfl (by decide) sp).mono ?_
    intro k' hk'
    have hawake : ∀ w ∈ k.queues.items .sleep, w ≠ k.currentRunning := by
      rintro w hw rfl
      rw [k.queues.mem_iff, h.owner_current] at hw
      cases hw
    have hdue : (k.setPcb k.currentRunning
        { k.cur with sleepUntil := (k.getTimer + time) % 2 ^ 32 }).dueTasks k.queues.items =
          k.dueTasks k.queues.items := by
      apply List.filter_congr
      intro w hw
      simp only [Kernel.Due, Kernel.setPcb_pcb_of_ne (hawake w hw)]
      rfl
    rw [hk', Kernel.setPcb_queues, hdue]
    simp only [Kernel.Due, Kernel.setPcb_currentRunning, Kernel.setPcb_pcb_self, true_and]
    rfl
  | block queue =>
    refine (h.joinToDequeue (q := .block queue) (s := .blocked) (Or.inr ⟨_, rfl⟩) (by simp)
      sp).mono fun k' hk' => ?_
    simpa [Kernel.line] using hk'
  | waitpid pid =>
    have h' := h.setPcb_current (p := { k.cur with waitpid := pid }) rfl rfl rfl
    have hdue := ((SameSleep.refl k).setPcb (i := k.currentRunning)
      (p := { k.cur with waitpid := pid }) rfl).dueTasks
    refine (h'.joinToDequeue (q := .waitpid) (s := .blocked) (Or.inl rfl) (by decide)
      sp).mono fun k' hk' => ?_
    rw [hdue] at hk'
    simpa [Kernel.line] using hk'
  | exit => exact h.exitToDequeue sp
  | acquire lock =>
    refine (h.joinToDequeue (q := .block (.lock lock)) (s := .blocked) (Or.inr ⟨_, rfl⟩)
      (by simp) sp).mono fun k' hk' => ?_
    simpa [Kernel.line] using hk'
  | barrierWait b =>
    have h' : SchedInv (k.setBarrierNow b ((k.barrier b).now + 1)) := h.congr rfl rfl rfl rfl
    refine (h'.joinToDequeue (q := .block (.barrier b)) (s := .blocked) (Or.inr ⟨_, rfl⟩)
      (by simp) sp).mono fun k' hk' => ?_
    rw [hk']
    simp only [reduceCtorEq, false_and, if_false, List.append_nil]
    rfl
  | _ => cases hsched

/-! ## The condition and the queue -/

theorem Consistent.switchLine_ne_nil (h : Consistent none k) :
    k.switchLine k.queues.items ≠ [] ↔ k.SwitchHasNext := by
  rw [Kernel.switchLine, append_ne_nil, append_ne_nil, ← h.awake_iff, Kernel.SwitchHasNext,
    h.wakesByDeath_iff]
  apply or_congr_right
  by_cases hrun : k.cur.pid ≠ 0 ∧ k.cur.status = .running
  · rw [if_pos hrun]
    exact iff_of_true (List.cons_ne_nil _ _) (Or.inl hrun)
  · rw [if_neg hrun, or_iff_right hrun]
    by_cases hex : k.cur.status = .exited
    · rw [if_pos hex, and_iff_right hex]
    · rw [if_neg hex]
      exact iff_of_false (fun hne => hne rfl) fun hk => hex hk.1

/-- The queue is not empty at `queue_dequeue` exactly if the condition holds before the
call. -/
theorem SchedInv.line_ne_nil (h : SchedInv k) (call : Call) :
    k.line k.queues.items call ≠ [] ↔ k.HasNext call := by
  have hawake := h.toConsistent.awake_iff
  cases call with
  | yield => exact h.toConsistent.switchLine_ne_nil
  | timer count =>
    have h' : SchedInv (k.updateTimeElapsed count) := h.congr rfl rfl rfl rfl
    exact h'.toConsistent.switchLine_ne_nil
  | sleep time =>
    rw [Kernel.line, append_ne_nil, append_ne_nil, ← hawake]
    apply or_congr_right
    split
    · rename_i hdue
      exact iff_of_true (List.cons_ne_nil _ _) hdue
    · rename_i hdue
      exact iff_of_false (fun hne => hne rfl) hdue
  | exit =>
    rw [Kernel.line, append_ne_nil, append_ne_nil, Kernel.HasNext, hawake,
      h.toConsistent.wakesByDeath_iff, or_right_comm]
  | _ => exact (append_ne_nil _ _).trans hawake.symm

/-- A call that schedules switches to the first in line. -/
theorem SchedInv.line_head (h : SchedInv k) {e : Event}
    (hsched : k.toCore.schedules e.call = true) : Safe (kernelStep k e) fun k' =>
      (k.line k.queues.items e.call).head? = some k'.currentRunning := by
  rw [kernelStep_eq_untilDequeue k e hsched]
  refine (h.untilDequeue hsched).bind fun k₁ hready => ?_
  apply Kernel.dispatch_rule
  intro i rest hitems
  rw [← hready, hitems]
  rfl

end Lists

/-! ## The pointer kernel -/

section Pointers

variable {a : Kernel ListQueues} {c : Kernel PtrQueues}

theorem toDequeue_sim (h : Follows a c) (sp : Nat) :
    Sim Follows (a.toDequeue sp) (c.toDequeue sp) := by
  have hcur : c.cur = a.cur := by simp only [Kernel.cur, h.core]
  have hrun : c.currentRunning = a.currentRunning := by rw [h.core]
  simp only [Kernel.toDequeue, hcur, hrun]
  exact (Kernel.checkSleeping_sim (Kernel.setPcb_follows h _ _)).bind fun _ _ h₁ =>
    Kernel.retire_sim h₁

theorem joinToDequeue_sim (h : Follows a c) (sp : Nat) (q : QueueId) (s : TaskStatus) :
    Sim Follows (a.joinToDequeue sp q s) (c.joinToDequeue sp q s) := by
  have hrun : c.currentRunning = a.currentRunning := by rw [h.core]
  rw [Kernel.joinToDequeue, Kernel.joinToDequeue, hrun]
  exact (Kernel.enqueue_sim h q _ s).bind fun _ _ h' => toDequeue_sim h' sp

theorem untilDequeue_sim (h : Follows a c) (e : Event) :
    Sim Follows (untilDequeue a e) (untilDequeue c e) := by
  obtain ⟨sp, call⟩ := e
  obtain ⟨core, aq⟩ := a
  obtain ⟨_, cq⟩ := c
  obtain ⟨rfl, hq⟩ := h
  cases call with
  | yield => exact toDequeue_sim ⟨rfl, hq⟩ sp
  | timer count => exact toDequeue_sim (Kernel.updateTimeElapsed_follows ⟨rfl, hq⟩ count) sp
  | sleep time => exact joinToDequeue_sim (Kernel.setPcb_follows ⟨rfl, hq⟩ _ _) sp _ _
  | block queue => exact joinToDequeue_sim ⟨rfl, hq⟩ sp _ _
  | waitpid pid => exact joinToDequeue_sim (Kernel.setPcb_follows ⟨rfl, hq⟩ _ _) sp _ _
  | exit =>
    exact (Kernel.freeProc_sim (Kernel.setPcb_follows ⟨rfl, hq⟩ _ _) _).bind fun _ _ h' =>
      toDequeue_sim h' sp
  | acquire lock => exact joinToDequeue_sim ⟨rfl, hq⟩ sp _ _
  | barrierWait b =>
    exact joinToDequeue_sim (a := Kernel.setBarrierNow ⟨_, aq⟩ b _)
      (c := Kernel.setBarrierNow ⟨_, cq⟩ b _) ⟨rfl, hq⟩ sp _ _
  | _ => exact Sim.ok ⟨rfl, hq⟩

theorem hasNext_iff (h : Follows a c) (call : Call) : c.HasNext call ↔ a.HasNext call := by
  obtain ⟨core, aq⟩ := a
  obtain ⟨_, cq⟩ := c
  obtain ⟨rfl, hq⟩ := h
  cases call <;> exact Iff.rfl

/-- The task that a call switches to: the first in line, if the call schedules. -/
def Kernel.next (k : Kernel PtrQueues) (call : Call) : Option Task :=
  if k.toCore.schedules call then (k.line (k.queues.nodes numMaxTask) call).head? else none

theorem next_eq (h : Follows a c) {call : Call} (hsched : a.toCore.schedules call = true) :
    c.next call = (a.line a.queues.items call).head? := by
  have hnodes : c.queues.nodes numMaxTask = a.queues.items :=
    funext fun q => h.queues.nodes_eq (a.length_items_le q)
  have hsched' : c.toCore.schedules call = true := by
    rw [h.core]
    exact hsched
  rw [Kernel.next, if_pos hsched', hnodes]
  generalize a.queues.items = items
  obtain ⟨core, aq⟩ := a
  obtain ⟨_, cq⟩ := c
  obtain ⟨rfl, hq⟩ := h
  cases call <;> rfl

/-- `queue_dequeue` reads a null head when nobody is ready. -/
theorem dispatch_empty (h : Follows a c) (hempty : a.queues.items .ready = []) :
    c.dispatch = .error .null := by
  have hsim := Kernel.dispatch_sim h
  have hnull : a.dispatch = .error .null := by
    rw [Kernel.dispatch, Kernel.dequeue_nil hempty]
    rfl
  rw [hnull] at hsim
  exact hsim

/-- In every state that is reached from boot without killing pid 0, a call that
gets to `queue_dequeue` finds a task in the ready queue exactly if the condition
holds before the call.  Otherwise it dereferences null. -/
theorem scheduler_has_next_iff (barrier : BarrierId → Barrier) (tables : Nat → Nat → Nat)
    {k k' : Kernel PtrQueues} {e : Event}
    (h : Reaches kernelRun (fun _ e => e.call ≠ .kill 0) (bootKernel barrier tables) k)
    (hsched : k.toCore.schedules e.call = true) (hdequeue : untilDequeue k e = .ok k') :
    (QueueOps.isEmpty k'.queues .ready = false ↔ k.HasNext e.call) ∧
      (¬ k.HasNext e.call → kernelStep k e = .error .null) := by
  obtain ⟨a, hfollows, hinv⟩ := reaches_runInv barrier tables h
  have hsched' : a.toCore.schedules e.call = true := by
    rw [← hfollows.core]
    exact hsched
  obtain ⟨a', _, hfollows', hready⟩ := (untilDequeue_sim hfollows e).of_ok
    (hinv.untilDequeue hsched') hdequeue
  rw [hfollows'.queues.isEmpty, hasNext_iff hfollows, ← hinv.line_ne_nil, ← hready]
  refine ⟨List.isEmpty_eq_false_iff, fun hempty => ?_⟩
  have hnull := dispatch_empty hfollows' (not_not.mp hempty)
  rw [kernelStep_eq_untilDequeue k e hsched, hdequeue]
  exact hnull

/-- The shell yields while a second process is ready. -/
theorem blankKernel_yield_has_next :
    ∃ k k', runIf kernelRun (fun _ e => e.call ≠ .kill 0) blankKernel
        [⟨0, .spawn 0⟩, ⟨0, .spawn 0⟩, ⟨0, .yield⟩] = some k ∧
      untilDequeue k ⟨0, .sleep 5⟩ = .ok k' ∧
      (QueueOps.isEmpty k'.queues .ready = false ↔ k.HasNext (.sleep 5)) ∧
      (¬ k.HasNext (.sleep 5) → kernelStep k ⟨0, .sleep 5⟩ = .error .null) := by
  have hrun : (runIf kernelRun (fun _ e => e.call ≠ .kill 0) blankKernel
      [⟨0, .spawn 0⟩, ⟨0, .spawn 0⟩, ⟨0, .yield⟩]).map
        (fun k => (untilDequeue k ⟨0, .sleep 5⟩).toOption.isSome) = some true := by
    decide +kernel
  obtain ⟨k, hk, hsome⟩ := Option.map_eq_some_iff.mp hrun
  obtain ⟨k', hk'⟩ := Option.isSome_iff_exists.mp hsome
  have hdequeue := toOption_eq_some.mp hk'
  exact ⟨k, k', hk, hdequeue,
    scheduler_has_next_iff _ _ (reaches_of_runIf hk) rfl hdequeue⟩

/-- The shell runs alone and sleeps: `queue_dequeue` is called on an empty
queue, and dereferences null. -/
theorem blankKernel_lone_shell_sleeps :
    ∃ k k', runIf kernelRun (fun _ e => e.call ≠ .kill 0) blankKernel
        [⟨0, .spawn 0⟩, ⟨0, .yield⟩] = some k ∧
      k.toCore.schedules (.sleep 5) = true ∧ untilDequeue k ⟨0, .sleep 5⟩ = .ok k' ∧
      QueueOps.isEmpty k'.queues .ready = true ∧
      kernelStep k ⟨0, .sleep 5⟩ = .error .null := by
  have hrun : (runIf kernelRun (fun _ e => e.call ≠ .kill 0) blankKernel
      [⟨0, .spawn 0⟩, ⟨0, .yield⟩]).map (fun k =>
        ((untilDequeue k ⟨0, .sleep 5⟩).toOption.map fun k => QueueOps.isEmpty k.queues .ready,
          (kernelStep k ⟨0, .sleep 5⟩).map fun _ => ())) =
      some (some true, .error .null) := by
    decide +kernel
  obtain ⟨k, hk, hpair⟩ := Option.map_eq_some_iff.mp hrun
  obtain ⟨hempty, hnull⟩ := Prod.mk.inj hpair
  obtain ⟨k', hk', hempty'⟩ := Option.map_eq_some_iff.mp hempty
  refine ⟨k, k', hk, rfl, toOption_eq_some.mp hk', hempty', ?_⟩
  cases hstep : kernelStep k ⟨0, .sleep 5⟩ with
  | ok k'' =>
    rw [hstep] at hnull
    cases hnull
  | error e =>
    rw [hstep] at hnull
    obtain rfl : e = .null := by simpa [Except.map] using hnull
    rfl

end Pointers

end MipsOs.Sched
