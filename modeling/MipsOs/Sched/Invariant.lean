import MipsOs.Sched.ListKernel

/-!
# The scheduler invariant

The status of a task, the queue it is in and its field `in_queue` agree.
`Consistent` is that invariant over lists; its parameter names a task that
is being freed, which is in no queue and still carries the status `EXITED`.
Between two events the running task is in no queue (`SchedInv`).

`Quiet P` collects the changes that waking and lock records make all over the
kernel, and `Closed P` adds the memory.  A quiet invariant passes through
`do_mutex_lock_release` and `check_sleeping` without a further proof, a closed
one through `free_proc` too.

`SchedInv.step` is the result: an allowed event keeps the invariant, and no
queue is misused on the way.
-/

namespace MipsOs.Sched

open MipsOs.Lib MipsOs.Mm

/-- The queue that goes with a status. -/
def Fits : TaskStatus → Option QueueId → Prop
  | .none, o => o = none
  | .running, o => o = none
  | .exited, o => o = none
  | .ready, o => o = some .ready
  | .sleeping, o => o = some .sleep
  | .blocked, o => o = some .waitpid ∨ ∃ b, o = some (.block b)

theorem fits_ready_iff {s : TaskStatus} {o : Option QueueId} (h : Fits s o) :
    s = .ready ↔ o = some .ready := by
  cases s <;> simp_all [Fits]
  rcases h with rfl | ⟨b, rfl⟩ <;> simp

theorem fits_sleeping_iff {s : TaskStatus} {o : Option QueueId} (h : Fits s o) :
    s = .sleeping ↔ o = some .sleep := by
  cases s <;> simp_all [Fits]
  rcases h with rfl | ⟨b, rfl⟩ <;> simp

theorem fits_blocked_iff {s : TaskStatus} {o : Option QueueId} (h : Fits s o) :
    s = .blocked ↔ o = some .waitpid ∨ ∃ b, o = some (.block b) := by
  cases s <;> simp_all [Fits]

/-- The tasks and the queues agree, while `dying` is being freed. -/
structure Consistent (dying : Option Task) (k : Kernel ListQueues) : Prop where
  fits : ∀ i, Fits (k.pcb i).status (k.queues.owner i)
  names : ∀ i q, k.queues.owner i = some q → (k.pcb i).inQueue = some q
  running : ∀ i, i ≠ 0 → (k.pcb i).status = .running → i = k.currentRunning
  exited : ∀ i, (k.pcb i).status = .exited → i = k.currentRunning ∨ dying = some i
  pid_zero : (k.pcb 0).pid = 0
  pid_live : ∀ i, i ≠ 0 → ((k.pcb i).status = .none ↔ (k.pcb i).pid = 0)
  pid_lt : ∀ i, (k.pcb i).pid < k.nextPid
  pid_inj : ∀ i j, (k.pcb i).pid = (k.pcb j).pid → (k.pcb i).pid ≠ 0 → i = j
  nextPid_pos : 0 < k.nextPid

namespace Consistent

variable {k k' : Kernel ListQueues} {d : Option Task}

/-- The invariant reads the pid, the status and the queue of a task. -/
theorem congr (h : Consistent d k)
    (hpid : ∀ i, (k'.pcb i).pid = (k.pcb i).pid)
    (hstatus : ∀ i, (k'.pcb i).status = (k.pcb i).status)
    (hname : ∀ i, (k'.pcb i).inQueue = (k.pcb i).inQueue)
    (howner : k'.queues.owner = k.queues.owner)
    (hcur : k'.currentRunning = k.currentRunning) (hnext : k'.nextPid = k.nextPid) :
    Consistent d k' := by
  refine ⟨?_, ?_, ?_, ?_, ?_, ?_, ?_, ?_, ?_⟩
  · intro i
    rw [hstatus, howner]
    exact h.fits i
  · intro i q
    rw [howner, hname]
    exact h.names i q
  · intro i
    rw [hstatus, hcur]
    exact h.running i
  · intro i
    rw [hstatus, hcur]
    exact h.exited i
  · rw [hpid]
    exact h.pid_zero
  · intro i
    rw [hstatus, hpid]
    exact h.pid_live i
  · intro i
    rw [hpid, hnext]
    exact h.pid_lt i
  · intro i j
    rw [hpid, hpid]
    exact h.pid_inj i j
  · rw [hnext]
    exact h.nextPid_pos

/-- A change of a PCB that keeps its pid, its status and its queue. -/
theorem setPcb (h : Consistent d k) (i : Task) {p : Pcb} (hpid : p.pid = (k.pcb i).pid)
    (hstatus : p.status = (k.pcb i).status) (hname : p.inQueue = (k.pcb i).inQueue) :
    Consistent d (k.setPcb i p) := by
  refine h.congr (fun j => ?_) (fun j => ?_) (fun j => ?_) rfl rfl rfl
  · rcases eq_or_ne j i with rfl | hj
    · rw [Kernel.setPcb_pcb_self, hpid]
    · rw [Kernel.setPcb_pcb_of_ne hj]
  · rcases eq_or_ne j i with rfl | hj
    · rw [Kernel.setPcb_pcb_self, hstatus]
    · rw [Kernel.setPcb_pcb_of_ne hj]
  · rcases eq_or_ne j i with rfl | hj
    · rw [Kernel.setPcb_pcb_self, hname]
    · rw [Kernel.setPcb_pcb_of_ne hj]

/-- A task in a queue is alive. -/
theorem status_ne_none (h : Consistent d k) {i : Task} {q : QueueId}
    (hi : k.queues.owner i = some q) : (k.pcb i).status ≠ .none := by
  intro hs
  have := h.fits i
  rw [hs, hi] at this
  cases this

/-- The invariant when one task changes its status and its queue. -/
theorem move (h : Consistent d k) {i : Task} {s : TaskStatus} {o : Option QueueId}
    (hfits : Fits s o) (hs : s ≠ .running ∧ s ≠ .exited)
    (hlive : i ≠ 0 → (s = .none ↔ (k'.pcb i).pid = 0))
    (hself : (k'.pcb i).status = s ∧ (k'.pcb i).pid = (k.pcb i).pid)
    (hname : ∀ q, o = some q → (k'.pcb i).inQueue = some q)
    (hother : ∀ j, j ≠ i → k'.pcb j = k.pcb j)
    (howner : ∀ j, k'.queues.owner j = if j = i then o else k.queues.owner j)
    (hcur : k'.currentRunning = k.currentRunning) (hnext : k'.nextPid = k.nextPid) :
    Consistent d k' := by
  have hpid : ∀ j, (k'.pcb j).pid = (k.pcb j).pid := by
    intro j
    rcases eq_or_ne j i with rfl | hj
    · exact hself.2
    · rw [hother j hj]
  refine ⟨?_, ?_, ?_, ?_, ?_, ?_, ?_, ?_, ?_⟩
  · intro j
    rw [howner]
    rcases eq_or_ne j i with rfl | hj
    · rw [hself.1, if_pos rfl]
      exact hfits
    · rw [hother j hj, if_neg hj]
      exact h.fits j
  · intro j q hq
    rw [howner] at hq
    rcases eq_or_ne j i with rfl | hj
    · exact hname q (by rw [if_pos rfl] at hq; exact hq)
    · rw [if_neg hj] at hq
      rw [hother j hj]
      exact h.names j q hq
  · intro j hj0 hrun
    rcases eq_or_ne j i with rfl | hj
    · rw [hself.1] at hrun
      exact absurd hrun hs.1
    · rw [hother j hj] at hrun
      rw [hcur]
      exact h.running j hj0 hrun
  · intro j hex
    rcases eq_or_ne j i with rfl | hj
    · rw [hself.1] at hex
      exact absurd hex hs.2
    · rw [hother j hj] at hex
      rw [hcur]
      exact h.exited j hex
  · rw [hpid]
    exact h.pid_zero
  · intro j hj0
    rcases eq_or_ne j i with rfl | hj
    · rw [hself.1]
      exact hlive hj0
    · rw [hother j hj]
      exact h.pid_live j hj0
  · intro j
    rw [hpid, hnext]
    exact h.pid_lt j
  · intro j l
    rw [hpid, hpid]
    exact h.pid_inj j l
  · rw [hnext]
    exact h.nextPid_pos

/-- A task that is alive and in no queue goes to sleep or waits. -/
theorem enqueued (h : Consistent d k) {q : QueueId} {i : Task} {s : TaskStatus}
    (hi : k.queues.owner i = none) (hfits : Fits s (some q))
    (hlive : i ≠ 0 → (k.pcb i).status ≠ .none) :
    Consistent d (k.enqueued q i s hi) := by
  have hs : s ≠ .running ∧ s ≠ .exited ∧ s ≠ .none := by
    refine ⟨?_, ?_, ?_⟩ <;> rintro rfl <;> cases hfits
  refine h.move (i := i) hfits ⟨hs.1, hs.2.1⟩ ?_ ?_ ?_ ?_ (Kernel.enqueued_owner hi) rfl rfl
  · intro hi0
    rw [Kernel.enqueued_pcb_self]
    have := h.pid_live i hi0
    exact iff_of_false hs.2.2 fun hpid => hlive hi0 (this.mpr hpid)
  · rw [Kernel.enqueued_pcb_self]
    exact ⟨rfl, rfl⟩
  · intro p hp
    rw [Kernel.enqueued_pcb_self]
    exact hp
  · intro j hj
    exact Kernel.enqueued_pcb_of_ne hi hj

theorem woken (h : Consistent d k) {q : QueueId} {i : Task}
    (hi : k.queues.owner i = some q) : Consistent d (k.woken q i hi) := by
  refine h.move (i := i) (s := .ready) (o := some .ready) rfl ⟨by decide, by decide⟩
    ?_ ?_ ?_ ?_ (Kernel.woken_owner hi) rfl rfl
  · intro hi0
    rw [Kernel.woken_pcb_self]
    exact iff_of_false (by decide) fun hpid =>
      h.status_ne_none hi ((h.pid_live i hi0).mpr hpid)
  · rw [Kernel.woken_pcb_self]
    exact ⟨rfl, rfl⟩
  · intro p hp
    rw [Kernel.woken_pcb_self]
    exact hp
  · intro j hj
    exact Kernel.woken_pcb_of_ne hi hj

end Consistent

/-! ## Invariants of waking, lock records and memory -/

/-- The property survives the work on locks. -/
structure Lockwise (P : Kernel ListQueues → Prop) : Prop where
  locks : ∀ k i g, P k → P (k.setPcb i { k.pcb i with locksGot := g })
  lock : ∀ k l s, P k → P (k.setLockStatus l s)
  unblocked : ∀ k b i (h : k.queues.owner i = some (.block b)), P k → P (k.woken (.block b) i h)

/-- The property survives waking and the work on locks. -/
structure Quiet (P : Kernel ListQueues → Prop) : Prop where
  locks : ∀ k i g, P k → P (k.setPcb i { k.pcb i with locksGot := g })
  lock : ∀ k l s, P k → P (k.setLockStatus l s)
  woken : ∀ k q i (h : k.queues.owner i = some q), P k → P (k.woken q i h)

theorem Quiet.lockwise {P : Kernel ListQueues → Prop} (hP : Quiet P) : Lockwise P where
  locks := hP.locks
  lock := hP.lock
  unblocked k b i h := hP.woken k (.block b) i h

/-- The property survives every change that is made on behalf of other
tasks. -/
structure Closed (P : Kernel ListQueues → Prop) : Prop extends Quiet P where
  memory : ∀ k i, P k → P { k with toCore := k.toCore.freeMemory i }

theorem Quiet.and {P Q : Kernel ListQueues → Prop} (hP : Quiet P) (hQ : Quiet Q) :
    Quiet fun k => P k ∧ Q k where
  locks k i g h := ⟨hP.locks k i g h.1, hQ.locks k i g h.2⟩
  lock k l s h := ⟨hP.lock k l s h.1, hQ.lock k l s h.2⟩
  woken k q i hi h := ⟨hP.woken k q i hi h.1, hQ.woken k q i hi h.2⟩

theorem Closed.and {P Q : Kernel ListQueues → Prop} (hP : Closed P) (hQ : Closed Q) :
    Closed fun k => P k ∧ Q k where
  toQuiet := hP.toQuiet.and hQ.toQuiet
  memory k i h := ⟨hP.memory k i h.1, hQ.memory k i h.2⟩

theorem Consistent.closed (d : Option Task) : Closed (Consistent d) where
  locks _ i _ h := h.setPcb i rfl rfl rfl
  lock _ _ _ h := h.congr (fun _ => rfl) (fun _ => rfl) (fun _ => rfl) rfl rfl rfl
  woken _ _ _ hi h := h.woken hi
  memory _ _ h := h.congr (fun _ => rfl) (fun _ => rfl) (fun _ => rfl) rfl rfl rfl

/-- The task is in no queue and has a given status. -/
def Off (i : Task) (s : TaskStatus) (k : Kernel ListQueues) : Prop :=
  k.queues.owner i = none ∧ (k.pcb i).status = s

theorem Off.closed (i : Task) (s : TaskStatus) : Closed (Off i s) where
  locks k j g h := by
    refine ⟨h.1, ?_⟩
    rcases eq_or_ne i j with rfl | hij
    · rw [Kernel.setPcb_pcb_self]
      exact h.2
    · rw [Kernel.setPcb_pcb_of_ne hij]
      exact h.2
  lock _ _ _ h := h
  woken k q j hj h := by
    have hij : i ≠ j := by
      rintro rfl
      rw [h.1] at hj
      cases hj
    refine ⟨?_, ?_⟩
    · rw [Kernel.woken_owner, if_neg hij]
      exact h.1
    · rw [Kernel.woken_pcb_of_ne hj hij]
      exact h.2
  memory _ _ h := h

/-- The tasks in no queue stay as they are. -/
theorem closed_off (k₀ : Kernel ListQueues) :
    Closed fun k => ∀ j s, Off j s k₀ → Off j s k where
  locks k i g h j s hoff := (Off.closed j s).locks k i g (h j s hoff)
  lock k l t h j s hoff := (Off.closed j s).lock k l t (h j s hoff)
  woken k q i hi h j s hoff := (Off.closed j s).woken k q i hi (h j s hoff)
  memory k i h j s hoff := (Off.closed j s).memory k i (h j s hoff)

theorem closed_currentRunning (c : Task) :
    Closed fun k => k.currentRunning = c where
  locks _ _ _ h := h
  lock _ _ _ h := h
  woken _ _ _ _ h := h
  memory _ _ h := h

section Closed

variable {P : Kernel ListQueues → Prop} {k : Kernel ListQueues}

/-- Recording a lock changes `locks_got` only. -/
theorem Pcb.recordLock_eq (p : Pcb) (lock : LockId) :
    ∃ g, p.recordLock lock = { p with locksGot := g } := by
  unfold Pcb.recordLock
  split
  · exact ⟨p.locksGot, rfl⟩
  · exact ⟨_, rfl⟩

theorem Pcb.dropLock_eq (p : Pcb) (lock : LockId) :
    ∃ g, p.dropLock lock = { p with locksGot := g } := by
  unfold Pcb.dropLock
  split
  · exact ⟨p.locksGot, rfl⟩
  · exact ⟨_, rfl⟩

theorem Lockwise.procGetLock (hP : Lockwise P) (h : P k) (lock : LockId) :
    P (k.procGetLock lock) := by
  obtain ⟨g, hg⟩ := k.cur.recordLock_eq lock
  rw [Kernel.procGetLock, hg]
  exact hP.locks k _ g h

theorem Lockwise.procLoseLock (hP : Lockwise P) (h : P k) (lock : LockId) :
    P (k.procLoseLock lock) := by
  obtain ⟨g, hg⟩ := k.cur.dropLock_eq lock
  rw [Kernel.procLoseLock, hg]
  exact hP.locks k _ g h

theorem Lockwise.doUnblockOne (hP : Lockwise P) (h : P k) (queue : BlockQueue) :
    Safe (k.doUnblockOne queue) P :=
  Kernel.doUnblockOne_rule fun i _ hitems =>
    hP.unblocked k _ i (Lists.owner_of_cons hitems) h

theorem Lockwise.doUnblockAll (hP : Lockwise P) (h : P k) (queue : BlockQueue) :
    Safe (k.doUnblockAll queue) P :=
  (Kernel.doUnblockAll_rule (fun k i _ _ hk => hP.unblocked k _ i _ hk) h).mono
    fun _ h => h.1

theorem Lockwise.doMutexLockRelease (hP : Lockwise P) (h : P k) (lock : LockId) :
    Safe (k.doMutexLockRelease lock) P := by
  have hlose := hP.procLoseLock h lock
  simp only [Kernel.doMutexLockRelease]
  split
  · exact hP.lock _ lock _ hlose
  · exact hP.doUnblockOne (hP.procGetLock hlose lock) _

theorem Lockwise.releaseLocks (hP : Lockwise P) (h : P k) (i : Task)
    (js : List (Fin maxLock)) : Safe (Kernel.releaseLocks i js k) P := by
  induction js generalizing k with
  | nil => exact h
  | cons j rest ih =>
    rw [Kernel.releaseLocks]
    split
    · exact ih h
    · exact (hP.doMutexLockRelease h _).bind fun k' h' => ih (hP.locks k' i _ h')

theorem Quiet.procGetLock (hP : Quiet P) (h : P k) (lock : LockId) :
    P (k.procGetLock lock) :=
  hP.lockwise.procGetLock h lock

theorem Quiet.doUnblockOne (hP : Quiet P) (h : P k) (queue : BlockQueue) :
    Safe (k.doUnblockOne queue) P :=
  hP.lockwise.doUnblockOne h queue

theorem Quiet.doMutexLockRelease (hP : Quiet P) (h : P k) (lock : LockId) :
    Safe (k.doMutexLockRelease lock) P :=
  hP.lockwise.doMutexLockRelease h lock

/-- The rule of `free_proc`, from where the memory has been given back. -/
theorem Quiet.freeProc (hP : Quiet P) {Q : Kernel ListQueues → Prop} {i : Task}
    (h : (k.pcb i).pageTable ≠ 0 → P { k with toCore := k.toCore.freeMemory i })
    (hQ : ∀ k, P k → Q (k.freePcb i)) : Safe (k.freeProc i) Q := by
  simp only [Kernel.freeProc]
  split
  · trivial
  · rename_i hpgd
    refine (hP.lockwise.releaseLocks (h hpgd) i _).bind fun k₁ h₁ => ?_
    refine Safe.bind (P := P) ?_ fun k₂ h₂ => hQ k₂ h₂
    exact Kernel.wakeWaiting_rule (fun k j hj hk _ => hP.woken k _ j hj hk) h₁

theorem Closed.freeProc (hP : Closed P) {Q : Kernel ListQueues → Prop} (h : P k)
    (i : Task) (hQ : ∀ k, P k → Q (k.freePcb i)) : Safe (k.freeProc i) Q :=
  hP.toQuiet.freeProc (fun _ => hP.memory k i h) hQ

theorem Quiet.checkSleeping (hP : Quiet P) (h : P k) : Safe k.checkSleeping P :=
  Kernel.checkSleeping_rule (fun k i hi hk => hP.woken k _ i hi hk) h

theorem Quiet.doUnblockAll (hP : Quiet P) (h : P k) (queue : BlockQueue) :
    Safe (k.doUnblockAll queue) P :=
  hP.lockwise.doUnblockAll h queue

end Closed

/-! ## Death and scheduling -/

section Events

variable {k : Kernel ListQueues} {i : Task}

/-- The end of a task that is in no queue. -/
theorem Consistent.freePcb (h : Consistent (some i) k) (hoff : Off i .exited k) :
    Consistent none (k.freePcb i) := by
  have hself : (k.freePcb i).pcb i = { k.pcb i with status := .none, pid := 0 } := by
    simp [Kernel.freePcb]
  have hother : ∀ j, j ≠ i → (k.freePcb i).pcb j = k.pcb j := fun j hj =>
    Kernel.setPcb_pcb_of_ne hj _
  refine ⟨?_, ?_, ?_, ?_, ?_, ?_, ?_, ?_, h.nextPid_pos⟩
  · intro j
    rcases eq_or_ne j i with rfl | hj
    · rw [hself]
      exact hoff.1
    · rw [hother j hj]
      exact h.fits j
  · intro j q hq
    rcases eq_or_ne j i with rfl | hj
    · exact absurd (hoff.1.symm.trans hq) (by simp)
    · rw [hother j hj]
      exact h.names j q hq
  · intro j hj0 hrun
    rcases eq_or_ne j i with rfl | hj
    · rw [hself] at hrun
      cases hrun
    · rw [hother j hj] at hrun
      exact h.running j hj0 hrun
  · intro j hex
    rcases eq_or_ne j i with rfl | hj
    · rw [hself] at hex
      cases hex
    · rw [hother j hj] at hex
      rcases h.exited j hex with hcur | hd
      · exact Or.inl hcur
      · exact absurd (Option.some.inj hd).symm hj
  · rcases eq_or_ne 0 i with rfl | hi
    · rw [hself]
    · rw [hother 0 hi]
      exact h.pid_zero
  · intro j hj0
    rcases eq_or_ne j i with rfl | hj
    · rw [hself]
      simp
    · rw [hother j hj]
      exact h.pid_live j hj0
  · intro j
    rcases eq_or_ne j i with rfl | hj
    · rw [hself]
      exact h.nextPid_pos
    · rw [hother j hj]
      exact h.pid_lt j
  · intro j l hjl hpid
    rcases eq_or_ne j i with rfl | hj
    · rw [hself] at hpid
      exact absurd rfl hpid
    · rcases eq_or_ne l i with rfl | hl
      · rw [hself] at hjl
        exact absurd hjl hpid
      · rw [hother j hj] at hjl hpid
        rw [hother l hl] at hjl
        exact h.pid_inj j l hjl hpid

/-- A consistent kernel with no current task to free is consistent while any
task is freed. -/
theorem Consistent.weaken {d : Option Task} (h : Consistent none k) : Consistent d k :=
  { h with exited := fun i hs => Or.inl ((h.exited i hs).resolve_right (by simp)) }

/-- `free_proc` of a task that is in no queue. -/
theorem Consistent.freeProc (h : Consistent (some i) k) (hoff : Off i .exited k) :
    Safe (k.freeProc i) fun k' => Consistent none k' ∧
      k'.currentRunning = k.currentRunning ∧ Off i .none k' ∧
      ∀ j s, j ≠ i → Off j s k → Off j s k' := by
  have hclosed := (Consistent.closed (some i)).and
    ((closed_currentRunning k.currentRunning).and (closed_off k))
  refine hclosed.freeProc ⟨h, rfl, fun _ _ h => h⟩ i ?_
  rintro k' ⟨hcons, hcur, hkeep⟩
  have hoff' := hkeep i .exited hoff
  refine ⟨hcons.freePcb hoff', hcur, ⟨hoff'.1, by simp [Kernel.freePcb]⟩, ?_⟩
  intro j s hj hjoff
  refine ⟨(hkeep j s hjoff).1, ?_⟩
  rw [Kernel.freePcb, Kernel.setPcb_pcb_of_ne hj]
  exact (hkeep j s hjoff).2

/-- No task but PCB 0 runs, and none waits to be freed. -/
structure Switching (k : Kernel ListQueues) : Prop extends Consistent none k where
  none_running : ∀ i, i ≠ 0 → (k.pcb i).status ≠ .running
  none_exited : ∀ i, (k.pcb i).status ≠ .exited

/-- The invariant between two events. -/
structure SchedInv (k : Kernel ListQueues) : Prop extends Consistent none k where
  current : k.cur.status = .running ∨ k.cur.status = .exited ∨
    k.cur.status = .none ∧ k.currentRunning = 0

/-- The running task is in no queue. -/
theorem SchedInv.owner_current (h : SchedInv k) :
    k.queues.owner k.currentRunning = none := by
  have hfits := h.fits k.currentRunning
  rcases h.current with hs | hs | ⟨hs, _⟩ <;>
    · rw [Kernel.cur] at hs
      rw [hs] at hfits
      exact hfits

theorem SchedInv.current_not_mem (h : SchedInv k) (q : QueueId) :
    k.currentRunning ∉ k.queues.items q := by
  rw [k.queues.mem_iff, h.owner_current]
  simp

/-- The running task is alive, unless it is PCB 0. -/
theorem SchedInv.current_live (h : SchedInv k) (hc : k.currentRunning ≠ 0) :
    (k.pcb k.currentRunning).status ≠ .none := by
  intro hs
  rcases h.current with hrun | hrun | ⟨_, hzero⟩
  · exact absurd (hs.symm.trans hrun) (by decide)
  · exact absurd (hs.symm.trans hrun) (by decide)
  · exact hc hzero

/-- The task that ran is ready again, freed, or already in a queue. -/
theorem Consistent.retire (h : Consistent none k) : Safe k.retire Switching := by
  have hcurrent : ∀ j, j ≠ 0 → (k.pcb j).status = .running → j = k.currentRunning :=
    h.running
  simp only [Kernel.retire]
  split
  · rename_i hrun
    obtain ⟨hpid, hrun⟩ := hrun
    have howner : k.queues.owner k.currentRunning = none := by
      have hfits := h.fits k.currentRunning
      rw [Kernel.cur] at hrun
      rw [hrun] at hfits
      exact hfits
    refine Kernel.enqueue_rule howner ⟨h.enqueued howner rfl fun _ => ?_, ?_, ?_⟩
    · rw [Kernel.cur] at hrun
      rw [hrun]
      decide
    · intro j hj0
      rcases eq_or_ne j k.currentRunning with rfl | hj
      · rw [Kernel.enqueued_pcb_self]
        simp
      · rw [Kernel.enqueued_pcb_of_ne howner hj]
        exact fun hs => hj (h.running j hj0 hs)
    · intro j
      rcases eq_or_ne j k.currentRunning with rfl | hj
      · rw [Kernel.enqueued_pcb_self]
        simp
      · rw [Kernel.enqueued_pcb_of_ne howner hj]
        intro hs
        rcases h.exited j hs with hj' | hd
        · exact hj hj'
        · cases hd
  · rename_i hnot
    split
    · rename_i hex
      have hoff : Off k.currentRunning .exited k := by
        refine ⟨?_, hex⟩
        have hfits := h.fits k.currentRunning
        rw [Kernel.cur] at hex
        rw [hex] at hfits
        exact hfits
      refine (h.weaken.freeProc hoff).mono ?_
      rintro k' ⟨hcons, hcur, hoff', _⟩
      refine ⟨hcons, ?_, ?_⟩
      · intro j hj0 hs
        rw [hcons.running j hj0 hs, hcur, hoff'.2] at hs
        cases hs
      · intro j hs
        obtain rfl := (hcons.exited j hs).resolve_right (by simp)
        rw [hcur, hoff'.2] at hs
        cases hs
    · rename_i hnex
      refine ⟨h, ?_, ?_⟩
      · intro j hj0 hs
        obtain rfl := h.running j hj0 hs
        refine hnot ⟨fun hpid => ?_, hs⟩
        have hnone := (h.pid_live _ hj0).mpr hpid
        rw [hs] at hnone
        cases hnone
      · intro j hs
        rcases h.exited j hs with rfl | hd
        · exact hnex hs
        · cases hd

/-- The switch to the next task. -/
theorem Switching.dispatch (h : Switching k) : Safe k.dispatch SchedInv := by
  refine Kernel.dispatch_rule fun i rest hitems => ?_
  have hi := Lists.owner_of_cons hitems
  have hother : ∀ j, j ≠ i → (k.dispatched i hi).pcb j = k.pcb j := fun j hj =>
    Kernel.dispatched_pcb_of_ne hi hj
  have hpid : ∀ j, ((k.dispatched i hi).pcb j).pid = (k.pcb j).pid := by
    intro j
    rcases eq_or_ne j i with rfl | hj
    · rw [Kernel.dispatched_pcb_self]
    · rw [hother j hj]
  refine ⟨⟨?_, ?_, ?_, ?_, ?_, ?_, ?_, ?_, h.nextPid_pos⟩, Or.inl ?_⟩
  · intro j
    rw [Kernel.dispatched_owner]
    rcases eq_or_ne j i with rfl | hj
    · rw [Kernel.dispatched_pcb_self, if_pos rfl]
      rfl
    · rw [hother j hj, if_neg hj]
      exact h.fits j
  · intro j q hq
    rw [Kernel.dispatched_owner] at hq
    rcases eq_or_ne j i with rfl | hj
    · rw [if_pos rfl] at hq
      cases hq
    · rw [if_neg hj] at hq
      rw [hother j hj]
      exact h.names j q hq
  · intro j hj0 hs
    rcases eq_or_ne j i with rfl | hj
    · rfl
    · rw [hother j hj] at hs
      exact absurd hs (h.none_running j hj0)
  · intro j hs
    rcases eq_or_ne j i with rfl | hj
    · exact Or.inl rfl
    · rw [hother j hj] at hs
      exact absurd hs (h.none_exited j)
  · rw [hpid]
    exact h.pid_zero
  · intro j hj0
    rw [hpid]
    rcases eq_or_ne j i with rfl | hj
    · rw [Kernel.dispatched_pcb_self]
      exact iff_of_false (by simp) fun hp =>
        h.status_ne_none hi ((h.pid_live j hj0).mpr hp)
    · rw [hother j hj]
      exact h.pid_live j hj0
  · intro j
    rw [hpid]
    exact h.pid_lt j
  · intro j l
    rw [hpid, hpid]
    exact h.pid_inj j l
  · exact congrArg Pcb.status (Kernel.dispatched_pcb_self hi)

/-- `do_scheduler` restores the invariant from any consistent kernel. -/
theorem Consistent.doScheduler (h : Consistent none k) (sp : Nat) :
    Safe (k.doScheduler sp) SchedInv := by
  have hsp : Consistent none
      (k.setPcb k.currentRunning { k.cur with kernelSp := sp }) := h.setPcb _ rfl rfl rfl
  refine ((Consistent.closed none).checkSleeping hsp).bind fun k₁ h₁ => ?_
  exact h₁.retire.bind fun k₂ h₂ => h₂.dispatch

/-! ## Events -/

/-- Which events may happen: a task that killed itself can only be switched
away from, and pid 0 is not killed. -/
def Allowed (k : Core) (e : Event) : Prop :=
  ((k.pcb k.currentRunning).status = .exited → e.call.isSwitch = true) ∧
    e.call ≠ .kill 0

instance (k : Core) (e : Event) : Decidable (Allowed k e) :=
  inferInstanceAs (Decidable (_ ∧ _))

/-- The running task goes to a queue: what is left is the switch from there. -/
theorem SchedInv.join_rule (h : SchedInv k) {q : QueueId} {s : TaskStatus}
    (hfits : Fits s (some q)) {sp : Nat} {P : Kernel ListQueues → Prop}
    (hswitch : ∀ hoff : k.queues.owner k.currentRunning = none,
      Consistent none (k.enqueued q k.currentRunning s hoff) →
      Safe ((k.enqueued q k.currentRunning s hoff).doScheduler sp) P) :
    Safe (k.enqueue q k.currentRunning s >>= fun k => k.doScheduler sp) P := by
  have hoff := h.owner_current
  rw [Kernel.enqueue_eq hoff]
  exact hswitch hoff (h.toConsistent.enqueued hoff hfits h.current_live)

theorem SchedInv.enqueue_current (h : SchedInv k) {q : QueueId} {s : TaskStatus}
    (hfits : Fits s (some q)) (sp : Nat) :
    Safe (k.enqueue q k.currentRunning s >>= fun k => k.doScheduler sp) SchedInv :=
  h.join_rule hfits fun _ hcons => hcons.doScheduler sp

theorem SchedInv.setPcb_current (h : SchedInv k) {p : Pcb} (hpid : p.pid = k.cur.pid)
    (hstatus : p.status = k.cur.status) (hname : p.inQueue = k.cur.inQueue) :
    SchedInv (k.setPcb k.currentRunning p) := by
  refine ⟨h.toConsistent.setPcb _ hpid hstatus hname, ?_⟩
  have hcur : (k.setPcb k.currentRunning p).cur.status = k.cur.status := by
    simp [Kernel.cur, hstatus]
  rw [hcur]
  exact h.current

/-- A live task leaves its queue and is marked to be freed. -/
theorem Consistent.exiting (h : Consistent none k) {k' : Kernel ListQueues}
    (hlive : i ≠ 0 → (k.pcb i).status ≠ .none)
    (hself : k'.pcb i = { k.pcb i with status := .exited })
    (hother : ∀ j, j ≠ i → k'.pcb j = k.pcb j)
    (howner : ∀ j, k'.queues.owner j = if j = i then none else k.queues.owner j)
    (hcur : k'.currentRunning = k.currentRunning) (hnext : k'.nextPid = k.nextPid) :
    Consistent (some i) k' ∧ Off i .exited k' := by
  have hpid : ∀ j, (k'.pcb j).pid = (k.pcb j).pid := by
    intro j
    rcases eq_or_ne j i with rfl | hj
    · rw [hself]
    · rw [hother j hj]
  have hoff : Off i .exited k' := ⟨by rw [howner, if_pos rfl], by rw [hself]⟩
  refine ⟨⟨?_, ?_, ?_, ?_, ?_, ?_, ?_, ?_, ?_⟩, hoff⟩
  · intro j
    rcases eq_or_ne j i with rfl | hj
    · rw [hoff.2]
      exact hoff.1
    · rw [hother j hj, howner, if_neg hj]
      exact h.fits j
  · intro j q hq
    rw [howner] at hq
    rcases eq_or_ne j i with rfl | hj
    · rw [if_pos rfl] at hq
      cases hq
    · rw [if_neg hj] at hq
      rw [hother j hj]
      exact h.names j q hq
  · intro j hj0 hs
    rw [hcur]
    rcases eq_or_ne j i with rfl | hj
    · rw [hoff.2] at hs
      cases hs
    · rw [hother j hj] at hs
      exact h.running j hj0 hs
  · intro j hs
    rcases eq_or_ne j i with rfl | hj
    · exact Or.inr rfl
    · rw [hother j hj] at hs
      rw [hcur]
      exact Or.inl ((h.exited j hs).resolve_right (by simp))
  · rw [hpid]
    exact h.pid_zero
  · intro j hj0
    rw [hpid]
    rcases eq_or_ne j i with rfl | hj
    · rw [hoff.2]
      exact iff_of_false (by decide) fun hp => hlive hj0 ((h.pid_live j hj0).mpr hp)
    · rw [hother j hj]
      exact h.pid_live j hj0
  · intro j
    rw [hpid, hnext]
    exact h.pid_lt j
  · intro j l
    rw [hpid, hpid]
    exact h.pid_inj j l
  · rw [hnext]
    exact h.nextPid_pos

/-- The running task is marked to be freed. -/
theorem SchedInv.exiting_current (h : SchedInv k) :
    Consistent (some k.currentRunning)
        (k.setPcb k.currentRunning { k.cur with status := .exited }) ∧
      Off k.currentRunning .exited
        (k.setPcb k.currentRunning { k.cur with status := .exited }) := by
  refine h.toConsistent.exiting h.current_live (Kernel.setPcb_pcb_self _)
    (fun j hj => Kernel.setPcb_pcb_of_ne hj _) (fun j => ?_) rfl rfl
  rw [Kernel.setPcb_queues]
  split
  · rename_i hj
    rw [hj, h.owner_current]
  · rfl

theorem SchedInv.doExit (h : SchedInv k) (sp : Nat) :
    Safe (k.doExit sp) SchedInv := by
  obtain ⟨hcons, hoff⟩ := h.exiting_current
  exact (hcons.freeProc hoff).bind fun k' h' => h'.1.doScheduler sp

/-- `findPid` answers with a task that has the pid. -/
theorem Core.findPid_eq_some {c : Core} {pid : Int} (h : c.findPid pid = some i) :
    (c.pcb i).pid = pid := by
  simpa using List.find?_some h

/-- A live task that does not run is in a queue. -/
theorem Consistent.exists_owner {d : Option Task} (h : Consistent d k)
    (hlive : (k.pcb i).status ≠ .none) (hrun : (k.pcb i).status ≠ .running)
    (hex : (k.pcb i).status ≠ .exited) : ∃ q, k.queues.owner i = some q := by
  have hfits := h.fits i
  cases hs : (k.pcb i).status with
  | none => exact absurd hs hlive
  | running => exact absurd hs hrun
  | exited => exact absurd hs hex
  | ready =>
    rw [hs] at hfits
    exact ⟨_, hfits⟩
  | sleeping =>
    rw [hs] at hfits
    exact ⟨_, hfits⟩
  | blocked =>
    rw [hs] at hfits
    rcases hfits with hfits | ⟨b, hfits⟩
    · exact ⟨_, hfits⟩
    · exact ⟨_, hfits⟩

/-- A process that is killed while it does not run leaves its queue. -/
def Kernel.killed (k : Kernel ListQueues) (i : Task) (q : QueueId)
    (hq : k.queues.owner i = some q) : Kernel ListQueues :=
  (k.setPcb i { k.pcb i with status := .exited }).taken q i hq

theorem Kernel.killed_pcb_self {q : QueueId} (hq : k.queues.owner i = some q) :
    (k.killed i q hq).pcb i = { k.pcb i with status := .exited } :=
  Kernel.setPcb_pcb_self _

theorem Kernel.killed_pcb_of_ne {q : QueueId} (hq : k.queues.owner i = some q) {j : Task}
    (hj : j ≠ i) : (k.killed i q hq).pcb j = k.pcb j :=
  Kernel.setPcb_pcb_of_ne hj _

/-- The three ways of `do_kill`: there is no such process, the process kills
itself, or it is taken out of its queue and freed. -/
theorem SchedInv.doKill_cases (h : SchedInv k) {pid : Int}
    (hex : k.toCore.findPid pid = some k.currentRunning → k.cur.status ≠ .exited)
    (hpid : pid ≠ 0) :
    (k.toCore.findPid pid = none ∧ k.doKill pid = .ok (-1, k)) ∨
      (k.toCore.findPid pid = some k.currentRunning ∧ k.currentRunning ≠ 0 ∧
        (k.pcb k.currentRunning).status = .running ∧
        k.doKill pid =
          .ok (0, k.setPcb k.currentRunning { k.cur with status := .exited })) ∨
      ∃ i q, ∃ hq : k.queues.owner i = some q, k.toCore.findPid pid = some i ∧ i ≠ 0 ∧
        i ≠ k.currentRunning ∧ (k.pcb i).status ≠ .running ∧ (k.pcb i).status ≠ .none ∧
        Consistent (some i) (k.killed i q hq) ∧ Off i .exited (k.killed i q hq) ∧
        k.doKill pid = (k.killed i q hq).freeProc i >>= fun k => .ok (0, k) := by
  simp only [Kernel.doKill]
  cases hfind : k.toCore.findPid pid with
  | none => exact Or.inl ⟨rfl, rfl⟩
  | some i =>
    have hi : (k.pcb i).pid = pid := Core.findPid_eq_some hfind
    have hi0 : i ≠ 0 := by
      rintro rfl
      exact hpid (hi.symm.trans h.pid_zero)
    have hlive : (k.pcb i).status ≠ .none := fun hs =>
      hpid (hi.symm.trans ((h.pid_live i hi0).mp hs))
    by_cases hrun : (k.pcb i).status = .running
    · obtain rfl := h.running i hi0 hrun
      refine Or.inr (Or.inl ⟨rfl, hi0, hrun, ?_⟩)
      simp only
      rw [if_pos hrun]
      rfl
    · have hexi : (k.pcb i).status ≠ .exited := by
        intro hs
        obtain rfl := (h.exited i hs).resolve_right (by simp)
        exact hex hfind hs
      obtain ⟨q, hq⟩ := h.exists_owner hlive hrun hexi
      have hname : ((k.setPcb i { k.pcb i with status := .exited }).pcb i).inQueue = some q := by
        rw [Kernel.setPcb_pcb_self]
        exact h.names i q hq
      obtain ⟨hcons, hoff⟩ :
          Consistent (some i) (k.killed i q hq) ∧ Off i .exited (k.killed i q hq) :=
        h.toConsistent.exiting (fun _ => hlive) (Kernel.killed_pcb_self hq)
          (fun j hj => Kernel.killed_pcb_of_ne hq hj) (Kernel.taken_owner _) rfl rfl
      have hcurne : i ≠ k.currentRunning := by
        rintro rfl
        rcases h.current with hs | hs | ⟨_, hzero⟩
        · exact hrun hs
        · exact hexi hs
        · exact hi0 hzero
      refine Or.inr (Or.inr ⟨i, q, hq, rfl, hi0, hcurne, hrun, hlive, hcons, hoff, ?_⟩)
      simp only
      rw [if_neg hrun]
      simp only [hname]
      rw [Kernel.remove_eq (k := k.setPcb i { k.pcb i with status := .exited }) hq]
      rfl

theorem SchedInv.doKill (h : SchedInv k) {pid : Int}
    (hex : k.toCore.findPid pid = some k.currentRunning → k.cur.status ≠ .exited)
    (hpid : pid ≠ 0) : Safe (k.doKill pid) fun r => SchedInv r.2 := by
  rcases h.doKill_cases hex hpid with ⟨_, heq⟩ | ⟨_, _, _, heq⟩ |
    ⟨i, q, hq, _, _, hcurne, _, _, hcons, hoff, heq⟩
  · rw [heq]
    exact h
  · rw [heq]
    obtain ⟨hcons, hoff⟩ := h.exiting_current
    refine ⟨{ hcons with exited := fun j hs => ?_ }, Or.inr (Or.inl hoff.2)⟩
    rcases hcons.exited j hs with hj | hj
    · exact Or.inl hj
    · exact Or.inl (Option.some.inj hj).symm
  · rw [heq]
    refine (hcons.freeProc hoff).bind fun k₂ h₂ => ?_
    obtain ⟨hcons₂, hcur₂, _, hkeep⟩ := h₂
    refine ⟨hcons₂, ?_⟩
    have hstay := hkeep k.currentRunning k.cur.status hcurne.symm
      ⟨(Kernel.taken_owner (k := k.setPcb i { k.pcb i with status := .exited }) hq _).trans
          ((if_neg hcurne.symm).trans h.owner_current),
        congrArg Pcb.status (Kernel.setPcb_pcb_of_ne hcurne.symm _)⟩
    have hcur₂' : k₂.currentRunning = k.currentRunning := hcur₂
    have hcur : k₂.cur.status = k.cur.status := by
      rw [Kernel.cur, hcur₂']
      exact hstay.2
    rw [hcur, hcur₂']
    exact h.current

/-- A closed property that does not look at the running task can be kept next
to the invariant. -/
theorem SchedInv.closed_keeps (h : SchedInv k) :
    Closed (fun k' => Consistent none k' ∧ k'.currentRunning = k.currentRunning ∧
      ∀ j s, Off j s k → Off j s k') ∧
    ∀ k', (Consistent none k' ∧ k'.currentRunning = k.currentRunning ∧
      ∀ j s, Off j s k → Off j s k') → SchedInv k' := by
  refine ⟨(Consistent.closed none).and ((closed_currentRunning _).and (closed_off k)), ?_⟩
  rintro k' ⟨hcons, hcur, hkeep⟩
  refine ⟨hcons, ?_⟩
  have hstay := hkeep k.currentRunning k.cur.status ⟨h.owner_current, rfl⟩
  have hcur' : k'.cur.status = k.cur.status := by
    rw [Kernel.cur, hcur]
    exact hstay.2
  rw [hcur', hcur]
  exact h.current

theorem SchedInv.doMutexLockRelease (h : SchedInv k) (lock : LockId) :
    Safe (k.doMutexLockRelease lock) SchedInv :=
  (h.closed_keeps.1.doMutexLockRelease ⟨h.toConsistent, rfl, fun _ _ h => h⟩ lock).mono
    h.closed_keeps.2

theorem SchedInv.doUnblockOne (h : SchedInv k) (queue : BlockQueue) :
    Safe (k.doUnblockOne queue) SchedInv :=
  (h.closed_keeps.1.doUnblockOne ⟨h.toConsistent, rfl, fun _ _ h => h⟩ queue).mono
    h.closed_keeps.2

theorem SchedInv.doUnblockAll (h : SchedInv k) (queue : BlockQueue) :
    Safe (k.doUnblockAll queue) SchedInv :=
  (h.closed_keeps.1.doUnblockAll ⟨h.toConsistent, rfl, fun _ _ h => h⟩ queue).mono
    h.closed_keeps.2

/-- The invariant does not read locks, barriers, memory or time. -/
theorem SchedInv.congr {k' : Kernel ListQueues} (h : SchedInv k) (hpcb : k'.pcb = k.pcb)
    (hqueues : k'.queues = k.queues) (hcur : k'.currentRunning = k.currentRunning)
    (hnext : k'.nextPid = k.nextPid) : SchedInv k' := by
  refine ⟨h.toConsistent.congr (fun i => by rw [hpcb]) (fun i => by rw [hpcb])
    (fun i => by rw [hpcb]) (by rw [hqueues]) hcur hnext, ?_⟩
  have hcur' : k'.cur = k.cur := by rw [Kernel.cur, hpcb, hcur, Kernel.cur]
  rw [hcur', hcur]
  exact h.current

theorem SchedInv.doBlock (h : SchedInv k) (sp : Nat) (queue : BlockQueue) :
    Safe (k.doBlock sp queue) SchedInv :=
  h.enqueue_current (q := .block queue) (s := .blocked) (Or.inr ⟨queue, rfl⟩) sp

theorem SchedInv.doMutexLockAcquire (h : SchedInv k) (sp : Nat) (lock : LockId) :
    Safe (k.doMutexLockAcquire sp lock) SchedInv := by
  simp only [Kernel.doMutexLockAcquire]
  split
  · refine h.closed_keeps.2 _ (h.closed_keeps.1.lock _ lock _ ?_)
    exact h.closed_keeps.1.procGetLock ⟨h.toConsistent, rfl, fun _ _ h => h⟩ lock
  · exact h.doBlock sp _

theorem SchedInv.doBarrierWait (h : SchedInv k) (sp : Nat) (b : BarrierId) :
    Safe (k.doBarrierWait sp b) SchedInv := by
  have h₁ : SchedInv (k.setBarrierNow b ((k.barrier b).now + 1)) :=
    h.congr rfl rfl rfl rfl
  simp only [Kernel.doBarrierWait]
  split
  · exact h₁.doBlock sp _
  · exact (h₁.doUnblockAll (.barrier b)).bind fun k' h' => h'.congr rfl rfl rfl rfl

/-- A kernel with one more task, which is ready and has a new pid. -/
theorem SchedInv.born (h : SchedInv k) (hi0 : i ≠ 0) (hnone : (k.pcb i).status = .none)
    {k' : Kernel ListQueues}
    (hself : (k'.pcb i).status = .ready ∧ (k'.pcb i).inQueue = some .ready ∧
      (k'.pcb i).pid = k.nextPid)
    (hother : ∀ j, j ≠ i → k'.pcb j = k.pcb j)
    (howner : ∀ j, k'.queues.owner j = if j = i then some .ready else k.queues.owner j)
    (hcur : k'.currentRunning = k.currentRunning) (hnext : k'.nextPid = k.nextPid + 1) :
    SchedInv k' := by
  have hpos := h.nextPid_pos
  have hfresh : ∀ j, (k.pcb j).pid ≠ k.nextPid := fun j => (h.pid_lt j).ne
  have hcurne : k.currentRunning ≠ i := by
    rintro rfl
    rcases h.current with hs | hs | ⟨_, hzero⟩
    · exact absurd (hnone.symm.trans hs) (by decide)
    · exact absurd (hnone.symm.trans hs) (by decide)
    · exact hi0 hzero
  refine ⟨⟨?_, ?_, ?_, ?_, ?_, ?_, ?_, ?_, by omega⟩, ?_⟩
  · intro j
    rw [howner]
    rcases eq_or_ne j i with rfl | hj
    · rw [hself.1, if_pos rfl]
      rfl
    · rw [hother j hj, if_neg hj]
      exact h.fits j
  · intro j q hq
    rw [howner] at hq
    rcases eq_or_ne j i with rfl | hj
    · rw [if_pos rfl] at hq
      exact hself.2.1.trans hq
    · rw [if_neg hj] at hq
      rw [hother j hj]
      exact h.names j q hq
  · intro j hj0 hs
    rw [hcur]
    rcases eq_or_ne j i with rfl | hj
    · exact absurd (hself.1.symm.trans hs) (by decide)
    · rw [hother j hj] at hs
      exact h.running j hj0 hs
  · intro j hs
    rw [hcur]
    rcases eq_or_ne j i with rfl | hj
    · exact absurd (hself.1.symm.trans hs) (by decide)
    · rw [hother j hj] at hs
      exact h.exited j hs
  · rw [hother 0 hi0.symm]
    exact h.pid_zero
  · intro j hj0
    rcases eq_or_ne j i with rfl | hj
    · rw [hself.1, hself.2.2]
      exact iff_of_false (by decide) (by omega)
    · rw [hother j hj]
      exact h.pid_live j hj0
  · intro j
    rw [hnext]
    rcases eq_or_ne j i with rfl | hj
    · rw [hself.2.2]
      omega
    · rw [hother j hj]
      have := h.pid_lt j
      omega
  · intro j l hjl hpid
    by_cases hj : j = i <;> by_cases hl : l = i
    · rw [hj, hl]
    · rw [hj, hself.2.2, hother l hl] at hjl
      exact absurd hjl.symm (hfresh l)
    · rw [hl, hself.2.2, hother j hj] at hjl
      exact absurd hjl (hfresh j)
    · rw [hother j hj, hother l hl] at hjl
      rw [hother j hj] at hpid
      exact h.pid_inj j l hjl hpid
  · have hcur' : k'.cur = k.cur := by rw [Kernel.cur, hcur, hother _ hcurne, Kernel.cur]
    rw [hcur', hcur]
    exact h.current

theorem Core.allocPcb_eq_some {c : Core} {i : Task} (h : c.allocPcb = some i) :
    i ≠ 0 ∧ (c.pcb i).status = .none := by
  simpa using List.find?_some h

theorem SchedInv.doSpawn (h : SchedInv k) (argc : Nat) :
    Safe (k.doSpawn argc) fun r => SchedInv r.2 := by
  simp only [Kernel.doSpawn]
  cases halloc : k.toCore.allocPcb with
  | none => exact h
  | some i =>
    obtain ⟨hi0, hnone⟩ := Core.allocPcb_eq_some halloc
    have howner : k.queues.owner i = none := by
      have hfits := h.fits i
      rw [hnone] at hfits
      exact hfits
    simp only
    split
    · rw [Kernel.setPcbReady_eq (k := { k with toCore := (k.toCore.newProcess argc).2.2 })
        howner]
      refine h.born hi0 hnone ?_ ?_ ?_ rfl rfl
      · simp [Kernel.born]
      · intro j hj
        simp [Kernel.born, Core.newProcess, hj]
      · intro j
        rcases eq_or_ne j i with rfl | hj
        · simp [Kernel.born, Lists.pushed]
        · simp [Kernel.born, Lists.pushed, hj]
    · trivial

/-- One event keeps the invariant, when pid 0 is not killed and a task does not
kill itself twice. -/
theorem SchedInv.step_of (h : SchedInv k) {e : Event}
    (hkill : ∀ pid, e.call = .kill pid → pid ≠ 0 ∧
      (k.toCore.findPid pid = some k.currentRunning → k.cur.status ≠ .exited)) :
    Safe (kernelStep k e) SchedInv := by
  obtain ⟨sp, call⟩ := e
  cases call with
  | spawn argc => exact (h.doSpawn argc).bind fun _ h' => h'
  | yield => exact h.toConsistent.doScheduler sp
  | timer count =>
    have h' : SchedInv (k.updateTimeElapsed count) := h.congr rfl rfl rfl rfl
    exact h'.toConsistent.doScheduler sp
  | sleep time =>
    have h' := h.setPcb_current
      (p := { k.cur with sleepUntil := (k.getTimer + time) % 2 ^ 32 }) rfl rfl rfl
    exact h'.enqueue_current (q := .sleep) (s := .sleeping) rfl sp
  | block queue => exact h.doBlock sp queue
  | unblockOne queue => exact h.doUnblockOne queue
  | unblockAll queue => exact h.doUnblockAll queue
  | waitpid pid =>
    simp only [kernelStep, Kernel.doWaitpid]
    split
    · have h' := h.setPcb_current (p := { k.cur with waitpid := pid }) rfl rfl rfl
      exact h'.enqueue_current (q := .waitpid) (s := .blocked) (Or.inl rfl) sp
    · exact h
  | exit => exact h.doExit sp
  | kill pid =>
    obtain ⟨hpid, hex⟩ := hkill pid rfl
    exact (h.doKill hex hpid).bind fun _ h' => h'
  | acquire lock => exact h.doMutexLockAcquire sp lock
  | release lock => exact h.doMutexLockRelease lock
  | barrierWait b => exact h.doBarrierWait sp b
  | pageFault addr =>
    simp only [kernelStep, Kernel.pageFault]
    split
    · trivial
    · exact h.congr rfl rfl rfl rfl

/-- One allowed event keeps the invariant. -/
theorem SchedInv.step (h : SchedInv k) {e : Event} (hallowed : Allowed k.toCore e) :
    Safe (kernelStep k e) SchedInv := by
  obtain ⟨hexited, hkill⟩ := hallowed
  refine h.step_of fun pid hcall => ⟨?_, fun _ hs => ?_⟩
  · rintro rfl
    exact hkill hcall
  · have hswitch := hexited hs
    rw [hcall] at hswitch
    cases hswitch

end Events

end MipsOs.Sched
