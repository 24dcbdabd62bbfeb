import MipsOs.Lib.IntrusiveQueue
import MipsOs.Mm.Memory

/-!
# The kernel: processes, scheduling and locks

`kernel/sched/sched.c`, `kernel/locking/lock.c`, `ipc/cond.c`,
`ipc/barrier.c` and `kernel/sched/time.c`, over the queues of
`kernel/sched/queue.c`.

The functions are written over the interface `QueueOps`, so the kernel runs
on the pointer queues (`Kernel PtrQueues`) and on lists
(`Kernel ListQueues`) alike.  A function faults where the code would
dereference null or overflow `next_pid`.

A process is an index into `pcb_list`.  Locks, conditions and barriers live
at addresses that processes choose, so their names are unbounded.  The code
of the kernel runs without preemption: a system call is one step up to its
call of `do_scheduler`.  The argument `sp` of a function that schedules is
the stack pointer which `do_scheduler` saves.

Fields that no function here reads are left out: names, priorities,
cursors, `user_sp` and the open files.
-/

namespace MipsOs.Sched

open MipsOs.Lib MipsOs.Mm

/-- `NUM_MAX_TASK` -/
abbrev numMaxTask : Nat := 32

/-- `MAX_LOCK` -/
abbrev maxLock : Nat := 10

/-- An index into `pcb_list`. -/
abbrev Task := Fin numMaxTask

/-- The address of a `mutex_lock_t`. -/
abbrev LockId := Nat

instance lawfulBEqHeld : LawfulBEq (LockId × Task) := inferInstance

/-- The address of a `condition_t`. -/
abbrev CondId := Nat

/-- The address of a `barrier_t`. -/
abbrev BarrierId := Nat

/-- A field `block_queue`. -/
inductive BlockQueue where
  | lock (l : LockId)
  | cond (c : CondId)
  | barrier (b : BarrierId)
  deriving DecidableEq, Repr

/-- The queues of the kernel. -/
inductive QueueId where
  | ready
  | sleep
  | waitpid
  | block (b : BlockQueue)
  deriving DecidableEq, Repr

/-- `task_status_t` -/
inductive TaskStatus where
  | none
  | sleeping
  | blocked
  | running
  | ready
  | exited
  deriving DecidableEq, Repr

/-- `lock_status_t` -/
inductive LockStatus where
  | unlocked
  | locked
  deriving DecidableEq, Repr

/-- `pcb_t`, without the pointers of the queues. -/
structure Pcb where
  pid : Int
  status : TaskStatus
  inQueue : Option QueueId
  sleepUntil : Nat
  waitpid : Int
  locksGot : Fin maxLock → Option LockId
  pageTable : Nat
  kernelSp : Nat

namespace Pcb

/-- Put a lock into the first free slot of `locks_got`.  A full table stays as
it is. -/
def recordLock (p : Pcb) (lock : LockId) : Pcb :=
  match (List.finRange maxLock).find? fun i => p.locksGot i = none with
  | none => p
  | some i => { p with locksGot := Function.update p.locksGot i (some lock) }

/-- Clear the first slot of `locks_got` that holds a lock. -/
def dropLock (p : Pcb) (lock : LockId) : Pcb :=
  match (List.finRange maxLock).find? fun i => p.locksGot i = some lock with
  | none => p
  | some i => { p with locksGot := Function.update p.locksGot i none }

end Pcb

/-- `barrier_t`, without its queue. -/
structure Barrier where
  goal : Int
  now : Int

/-- Everything but the queues. -/
structure Core where
  pcb : Task → Pcb
  currentRunning : Task
  currentPid : Int
  nextPid : Int
  kernelStackUsed : Nat → Bool
  timeElapsed : Nat
  lastCp0Count : Nat
  lockStatus : LockId → LockStatus
  barrier : BarrierId → Barrier
  mm : Memory

/-- `STACK_TOP` -/
def stackTop : Nat := 0xffffffffa0f00000

/-- `STACK_SIZE` -/
def stackSize : Nat := 0x1000

/-- `sizeof(regs_context_t)` -/
def regsContextSize : Nat := 312

/-- `new_kernel_stack`: the address and the table of used stacks. -/
def newKernelStack (used : Nat → Bool) : Nat × (Nat → Bool) :=
  match (List.range numMaxTask).find? fun i => i ≠ 0 ∧ used i = false with
  | none => (0, used)
  | some i => (stackTop - i * stackSize, Function.update used i true)

/-- `free_kernel_stack`.  An index outside of the array is recorded too. -/
def freeKernelStack (used : Nat → Bool) (stackAddr : Nat) : Nat → Bool :=
  Function.update used ((2 ^ 64 + stackTop - stackAddr) % 2 ^ 64 / stackSize) false

namespace Core

/-- The first process with a pid. -/
def findPid (c : Core) (pid : Int) : Option Task :=
  (List.finRange numMaxTask).find? fun i => (c.pcb i).pid = pid

/-- `alloc_pcb` -/
def allocPcb (c : Core) : Option Task :=
  (List.finRange numMaxTask).find? fun i => i ≠ 0 ∧ (c.pcb i).status = .none

/-- What `do_spawn` takes for a process with `argc` arguments: a pid, a
kernel stack, of which the contexts and the arguments take the top, and a page
directory. -/
def newProcess (c : Core) (argc : Nat) : Nat × Nat × Core :=
  let (kernelStack, used) := newKernelStack c.kernelStackUsed
  let (pageTable, pgd) := allocPage c.mm.pageCtrlPgd
  let frame := 2 * regsContextSize + 64 * argc
  ((2 ^ 64 + kernelStack - frame % 2 ^ 64) % 2 ^ 64, pageTable,
    { c with
      nextPid := c.nextPid + 1
      kernelStackUsed := used
      mm := { c.mm with pageCtrlPgd := pgd }.initPgd pageTable })

/-- What `free_proc` gives back first: the kernel stack, the page tables and
the frames. -/
def freeMemory (c : Core) (i : Task) : Core :=
  { c with
    kernelStackUsed := freeKernelStack c.kernelStackUsed (c.pcb i).kernelSp
    mm := c.mm.freePgd (c.pcb i).pageTable }

end Core

/-- The kernel over an implementation of the queues. -/
structure Kernel (H : Type) extends Core where
  queues : H

/-- The queues of `queue.c`. -/
abbrev PtrQueues := Heap QueueId Task

/-- The queues as lists. -/
abbrev ListQueues := Lists QueueId Task

variable {H : Type} [QueueOps H QueueId Task]

namespace Kernel

/-- Change one entry of `pcb_list`. -/
def setPcb (k : Kernel H) (i : Task) (p : Pcb) : Kernel H :=
  { k with pcb := Function.update k.pcb i p }

/-- `current_running` as a pointer. -/
def cur (k : Kernel H) : Pcb := k.pcb k.currentRunning

/-- Put a task into a queue, with the status and `in_queue` that go with it. -/
def enqueue (k : Kernel H) (q : QueueId) (item : Task) (status : TaskStatus) :
    Except Fault (Kernel H) := do
  let queues ← QueueOps.push k.queues q item
  let p := { k.pcb item with status := status, inQueue := some q }
  return { k.setPcb item p with queues := queues }

/-! ## Time -/

/-- `get_timer` -/
def getTimer (k : Kernel H) : Nat := k.timeElapsed / 300000

/-- `update_time_elapsed`, when the count register reads `current`. -/
def updateTimeElapsed (k : Kernel H) (current : Nat) : Kernel H :=
  { k with
    timeElapsed :=
      if current > k.lastCp0Count then
        (k.timeElapsed + current - k.lastCp0Count) % 2 ^ 64
      else
        (k.timeElapsed + 0xffffffff + current - k.lastCp0Count) % 2 ^ 64
    lastCp0Count := current }

/-! ## Waking -/

/-- The loop of `check_sleeping` and of `free_proc`: walk a queue and make
every task ready that is due. -/
def wakeAll (q : QueueId) (due : Pcb → Bool) :
    Nat → Option Task → Kernel H → Except Fault (Kernel H)
  | _, none, k => .ok k
  | 0, some _, _ => .error .diverges
  | fuel + 1, some item, k =>
    if due (k.pcb item) then do
      let (nextItem, queues) ← QueueOps.remove k.queues q item
      let k ← { k with queues := queues }.enqueue .ready item .ready
      wakeAll q due fuel nextItem k
    else do
      let nextItem ← QueueOps.next k.queues item
      wakeAll q due fuel nextItem k

/-- One round of the loop, and the task that comes next. -/
def wakeOne (q : QueueId) (due : Pcb → Bool) (item : Task) (k : Kernel H) :
    Except Fault (Option Task × Kernel H) :=
  if due (k.pcb item) then do
    let (nextItem, queues) ← QueueOps.remove k.queues q item
    let k ← { k with queues := queues }.enqueue .ready item .ready
    return (nextItem, k)
  else do
    let nextItem ← QueueOps.next k.queues item
    return (nextItem, k)

/-- The loop together with the tasks that it visits. -/
def wakeVisits (q : QueueId) (due : Pcb → Bool) :
    Nat → Option Task → Kernel H → Except Fault (List Task × Kernel H)
  | _, none, k => .ok ([], k)
  | 0, some _, _ => .error .diverges
  | fuel + 1, some item, k => do
    let (nextItem, k) ← wakeOne q due item k
    let (visited, k) ← wakeVisits q due fuel nextItem k
    return (item :: visited, k)

theorem wakeAll_eq (q : QueueId) (due : Pcb → Bool) (fuel : Nat) (item : Option Task)
    (k : Kernel H) : wakeAll q due fuel item k =
      wakeVisits q due fuel item k >>= fun r => .ok r.2 := by
  induction fuel generalizing item k with
  | zero => cases item <;> rfl
  | succ fuel ih =>
    cases item with
    | none => rfl
    | some item =>
      simp only [wakeAll, wakeVisits, wakeOne, ih]
      split <;> simp [bind_assoc]

/-- `check_sleeping` -/
def checkSleeping (k : Kernel H) : Except Fault (Kernel H) :=
  let currentTime := k.getTimer % 2 ^ 32
  if QueueOps.isEmpty k.queues .sleep then
    .ok k
  else
    wakeAll .sleep (fun p => p.sleepUntil < currentTime) numMaxTask
      (QueueOps.head k.queues .sleep) k

/-- `do_unblock_one` -/
def doUnblockOne (k : Kernel H) (queue : BlockQueue) : Except Fault (Kernel H) := do
  let (item, queues) ← QueueOps.dequeue k.queues (.block queue)
  { k with queues := queues }.enqueue .ready item .ready

/-- The loop of `do_unblock_all`. -/
def unblockLoop (queue : BlockQueue) : Nat → Kernel H → Except Fault (Kernel H)
  | fuel, k =>
    if QueueOps.isEmpty k.queues (.block queue) then
      .ok k
    else
      match fuel with
      | 0 => .error .diverges
      | fuel + 1 => do
        let k ← k.doUnblockOne queue
        unblockLoop queue fuel k

/-- `do_unblock_all` -/
def doUnblockAll (k : Kernel H) (queue : BlockQueue) : Except Fault (Kernel H) :=
  unblockLoop queue numMaxTask k

/-! ## The record of locks -/

/-- `proc_get_lock` -/
def procGetLock (k : Kernel H) (lock : LockId) : Kernel H :=
  k.setPcb k.currentRunning (k.cur.recordLock lock)

/-- `proc_lose_lock` -/
def procLoseLock (k : Kernel H) (lock : LockId) : Kernel H :=
  k.setPcb k.currentRunning (k.cur.dropLock lock)

/-- `lock->status = s` -/
def setLockStatus (k : Kernel H) (lock : LockId) (s : LockStatus) : Kernel H :=
  { k with lockStatus := Function.update k.lockStatus lock s }

/-- `do_mutex_lock_release` -/
def doMutexLockRelease (k : Kernel H) (lock : LockId) : Except Fault (Kernel H) :=
  let k := k.procLoseLock lock
  if QueueOps.isEmpty k.queues (.block (.lock lock)) then
    .ok (k.setLockStatus lock .unlocked)
  else
    (k.procGetLock lock).doUnblockOne (.lock lock)

/-! ## Death -/

/-- The loop of `free_proc` over `locks_got`. -/
def releaseLocks (i : Task) : List (Fin maxLock) → Kernel H → Except Fault (Kernel H)
  | [], k => .ok k
  | j :: rest, k =>
    match (k.pcb i).locksGot j with
    | none => releaseLocks i rest k
    | some lock => do
      let k ← k.doMutexLockRelease lock
      let p := k.pcb i
      releaseLocks i rest
        (k.setPcb i { p with locksGot := Function.update p.locksGot j none })

/-- The part of `free_proc` that wakes the processes in `do_waitpid`. -/
def wakeWaiting (k : Kernel H) (pid : Int) : Except Fault (Kernel H) :=
  if QueueOps.isEmpty k.queues .waitpid then
    .ok k
  else
    wakeAll .waitpid (fun p => p.waitpid = pid) numMaxTask
      (QueueOps.head k.queues .waitpid) k

/-- The end of `free_proc`. -/
def freePcb (k : Kernel H) (i : Task) : Kernel H :=
  k.setPcb i { k.pcb i with status := .none, pid := 0 }

/-- `free_proc`.  Memory is freed first, then the locks, and then the waiting processes
are woken. -/
def freeProc (k : Kernel H) (i : Task) : Except Fault (Kernel H) :=
  let pid := (k.pcb i).pid
  if (k.pcb i).pageTable = 0 then
    .error .null
  else do
    let k := { k with toCore := k.toCore.freeMemory i }
    let k ← releaseLocks i (List.finRange maxLock) k
    let k ← k.wakeWaiting pid
    return k.freePcb i

/-! ## Scheduling -/

/-- The first half of `scheduler`: what becomes of the task that ran. -/
def retire (k : Kernel H) : Except Fault (Kernel H) :=
  if k.cur.pid ≠ 0 ∧ k.cur.status = .running then
    k.enqueue .ready k.currentRunning .ready
  else if k.cur.status = .exited then
    k.freeProc k.currentRunning
  else
    .ok k

/-- The second half of `scheduler`: the switch to the next task. -/
def dispatch (k : Kernel H) : Except Fault (Kernel H) := do
  let (next, queues) ← QueueOps.dequeue k.queues .ready
  let p := { k.pcb next with status := .running, inQueue := none }
  return { k.setPcb next p with
    queues := queues
    currentRunning := next
    currentPid := p.pid
    mm := { k.mm with currentPgd := p.pageTable } }

/-- `scheduler` -/
def scheduler (k : Kernel H) : Except Fault (Kernel H) := do
  let k ← k.checkSleeping
  let k ← k.retire
  k.dispatch

/-- `do_scheduler`, which saves the stack pointer `sp`. -/
def doScheduler (k : Kernel H) (sp : Nat) : Except Fault (Kernel H) :=
  (k.setPcb k.currentRunning { k.cur with kernelSp := sp }).scheduler

/-- `irq_timer`, when the count register reads `count`. -/
def irqTimer (k : Kernel H) (sp count : Nat) : Except Fault (Kernel H) :=
  (k.updateTimeElapsed count).doScheduler sp

/-- `do_sleep` -/
def doSleep (k : Kernel H) (sp sleepTime : Nat) : Except Fault (Kernel H) := do
  let sleepUntil := (k.getTimer + sleepTime) % 2 ^ 32
  let k := k.setPcb k.currentRunning { k.cur with sleepUntil := sleepUntil }
  let k ← k.enqueue .sleep k.currentRunning .sleeping
  k.doScheduler sp

/-- `do_exit` -/
def doExit (k : Kernel H) (sp : Nat) : Except Fault (Kernel H) := do
  let k := k.setPcb k.currentRunning { k.cur with status := .exited }
  let k ← k.freeProc k.currentRunning
  k.doScheduler sp

/-- `do_kill`, with its answer. -/
def doKill (k : Kernel H) (pid : Int) : Except Fault (Int × Kernel H) :=
  match k.toCore.findPid pid with
  | none => .ok (-1, k)
  | some i =>
    if (k.pcb i).status = .running then
      .ok (0, k.setPcb i { k.pcb i with status := .exited })
    else do
      let k := k.setPcb i { k.pcb i with status := .exited }
      match (k.pcb i).inQueue with
      | none => .error .null
      | some q =>
        let (_, queues) ← QueueOps.remove k.queues q i
        let k ← { k with queues := queues }.freeProc i
        return (0, k)

/-- `do_block` -/
def doBlock (k : Kernel H) (sp : Nat) (queue : BlockQueue) : Except Fault (Kernel H) := do
  let k ← k.enqueue (.block queue) k.currentRunning .blocked
  k.doScheduler sp

/-- `do_waitpid` -/
def doWaitpid (k : Kernel H) (sp : Nat) (pid : Int) : Except Fault (Kernel H) :=
  if (k.toCore.findPid pid).isSome then do
    let k := k.setPcb k.currentRunning { k.cur with waitpid := pid }
    let k ← k.enqueue .waitpid k.currentRunning .blocked
    k.doScheduler sp
  else
    .ok k

/-! ## Locks and barriers -/

/-- `do_mutex_lock_acquire` -/
def doMutexLockAcquire (k : Kernel H) (sp : Nat) (lock : LockId) :
    Except Fault (Kernel H) :=
  if k.lockStatus lock = .unlocked then
    .ok ((k.procGetLock lock).setLockStatus lock .locked)
  else
    k.doBlock sp (.lock lock)

/-- `barrier->now = now` -/
def setBarrierNow (k : Kernel H) (b : BarrierId) (now : Int) : Kernel H :=
  { k with barrier := Function.update k.barrier b { k.barrier b with now := now } }

/-- `do_barrier_wait` -/
def doBarrierWait (k : Kernel H) (sp : Nat) (b : BarrierId) :
    Except Fault (Kernel H) :=
  let k := k.setBarrierNow b ((k.barrier b).now + 1)
  if (k.barrier b).now < (k.barrier b).goal then
    k.doBlock sp (.barrier b)
  else do
    let k ← k.doUnblockAll (.barrier b)
    return k.setBarrierNow b 0

/-! ## Birth -/

/-- `set_pcb` -/
def setPcbReady (k : Kernel H) (i : Task) (pid : Int) (kernelStack pageTable : Nat) :
    Except Fault (Kernel H) := do
  let k ← (k.setPcb i { k.pcb i with pid := pid }).enqueue .ready i .ready
  return k.setPcb i
    { k.pcb i with
      pageTable := pageTable
      kernelSp := kernelStack
      locksGot := fun _ => none }

/-- `do_spawn` with `argc` arguments, and its answer. -/
def doSpawn (k : Kernel H) (argc : Nat) : Except Fault (Int × Kernel H) :=
  match k.toCore.allocPcb with
  | none => .ok (-1, k)
  | some i =>
    let pid := k.nextPid
    if pid + 1 < 2 ^ 63 then do
      let (kernelStack, pageTable, core) := k.toCore.newProcess argc
      let k ← { k with toCore := core }.setPcbReady i pid kernelStack pageTable
      return (pid, k)
    else
      .error .overflow

/-- A page fault of the running process at `addr`. -/
def pageFault (k : Kernel H) (addr : Nat) : Except Fault (Kernel H) :=
  if k.mm.currentPgd = 0 then .error .null
  else .ok { k with mm := k.mm.doTlbRefill addr }

end Kernel

/-! ## Events -/

/-- What can happen next: a system call or an exception of the running task. -/
inductive Call where
  | spawn (argc : Nat)
  | yield
  | timer (count : Nat)
  | sleep (time : Nat)
  | block (queue : BlockQueue)
  | unblockOne (queue : BlockQueue)
  | unblockAll (queue : BlockQueue)
  | waitpid (pid : Int)
  | exit
  | kill (pid : Int)
  | acquire (lock : LockId)
  | release (lock : LockId)
  | barrierWait (b : BarrierId)
  | pageFault (addr : Nat)
  deriving DecidableEq, Repr

/-- The call does nothing but switch to the next task. -/
def Call.isSwitch : Call → Bool
  | .yield => true
  | .timer _ => true
  | _ => false

/-- The address of a page fault. -/
def Call.faultAddr : Call → Option Nat
  | .pageFault addr => some addr
  | _ => none

/-- A call, with the stack pointer that a switch would save. -/
structure Event where
  sp : Nat
  call : Call

/-- One event. -/
def kernelStep (k : Kernel H) (e : Event) : Except Fault (Kernel H) :=
  match e.call with
  | .spawn argc => Prod.snd <$> k.doSpawn argc
  | .yield => k.doScheduler e.sp
  | .timer count => k.irqTimer e.sp count
  | .sleep time => k.doSleep e.sp time
  | .block queue => k.doBlock e.sp queue
  | .unblockOne queue => k.doUnblockOne queue
  | .unblockAll queue => k.doUnblockAll queue
  | .waitpid pid => k.doWaitpid e.sp pid
  | .exit => k.doExit e.sp
  | .kill pid => Prod.snd <$> k.doKill pid
  | .acquire lock => k.doMutexLockAcquire e.sp lock
  | .release lock => k.doMutexLockRelease lock
  | .barrierWait b => k.doBarrierWait e.sp b
  | .pageFault addr => k.pageFault addr

/-- `pcb_list` before anything runs. -/
def bootPcb : Pcb where
  pid := 0
  status := .none
  inQueue := none
  sleepUntil := 0
  waitpid := 0
  locksGot := fun _ => none
  pageTable := 0
  kernelSp := 0

/-- The kernel when `_start` calls `start_tasks`: the locks are open, PCB 0 is
current, and nothing has been spawned. -/
def bootCore (barrier : BarrierId → Barrier) (tables : Nat → Nat → Nat) : Core where
  pcb := fun i => if i = 0 then { bootPcb with kernelSp := stackTop } else bootPcb
  currentRunning := 0
  currentPid := 0
  nextPid := 1
  kernelStackUsed := fun i => i = 0
  timeElapsed := 0
  lastCp0Count := 0
  lockStatus := fun _ => .unlocked
  barrier := barrier
  mm := Memory.init tables

end MipsOs.Sched
