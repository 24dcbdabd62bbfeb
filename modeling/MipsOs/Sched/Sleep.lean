import MipsOs.Sched.BootTask

/-!
# Sleeping tasks

`do_sleep` stores the deadline `get_timer() + sleep_time` in 32 bits, and
`check_sleeping` compares it with the low 32 bits of `get_timer()`.  A deadline
that passes a multiple of 2^32 is stored as a number below the present time, and
the `check_sleeping` of the same call wakes the task.

* `Naps` is what the steps of a call do to the tasks in `sleep_queue`: they stay
  there with their field `sleep_until`, or they are due.
* `SleepSystem` runs the pointer kernel beside the exact deadlines, with a clock
  that is set from outside and never goes back.
* `sleeps_long_enough_iff` is the result.
-/

namespace MipsOs.Sched

open MipsOs.Lib

/-! ## What leaves the sleepers alone -/

/-- The time of a task is over, as `check_sleeping` sees it. -/
def Due (wake time : Nat) : Prop := wake < time / 300000 % 2 ^ 32

/-- The tasks in `sleep_queue` are among `tasks` and have not changed their field
`sleep_until`, and those of `tasks` that left were due. -/
structure Naps (tasks : List Task) (wake : Task → Nat) (time : Nat) (k : Kernel ListQueues) :
    Prop where
  clock : k.timeElapsed = time
  asleep : ∀ i, k.queues.owner i = some .sleep → i ∈ tasks ∧ (k.pcb i).sleepUntil = wake i
  due : ∀ i ∈ tasks, k.queues.owner i ≠ some .sleep → Due (wake i) time

section Lists

variable {tasks : List Task} {wake : Task → Nat} {time : Nat} {k k' : Kernel ListQueues}
  {i : Task} {q : QueueId} {s : TaskStatus}

theorem naps_start (k : Kernel ListQueues) :
    Naps (k.queues.items .sleep) (fun i => (k.pcb i).sleepUntil) k.timeElapsed k where
  clock := rfl
  asleep _ hi := ⟨(k.queues.mem_iff _ _).mpr hi, rfl⟩
  due _ hi hout := absurd ((k.queues.mem_iff _ _).mp hi) hout

/-- A task outside of `sleep_queue` moves, and stays outside. -/
theorem Naps.of_ne {o : Option QueueId} (h : Naps tasks wake time k)
    (htime : k'.timeElapsed = k.timeElapsed) (ho : o ≠ some .sleep)
    (hi : k.queues.owner i = some .sleep → Due (wake i) time)
    (howner : ∀ j, k'.queues.owner j = if j = i then o else k.queues.owner j)
    (hpcb : ∀ j, j ≠ i → k'.pcb j = k.pcb j) : Naps tasks wake time k' where
  clock := htime.trans h.clock
  asleep := by
    intro j hj
    rw [howner] at hj
    split at hj
    · exact absurd hj ho
    · rename_i hji
      rw [hpcb j hji]
      exact h.asleep j hj
  due := by
    intro j hj hout
    rw [howner] at hout
    split at hout
    · rename_i hji
      subst hji
      by_cases hin : k.queues.owner j = some .sleep
      · exact hi hin
      · exact h.due j hj hin
    · exact h.due j hj hout

/-- A change of a PCB that keeps `sleep_until`. -/
theorem Naps.setPcb {p : Pcb} (h : Naps tasks wake time k)
    (hp : p.sleepUntil = (k.pcb i).sleepUntil) : Naps tasks wake time (k.setPcb i p) where
  clock := h.clock
  asleep := by
    intro j hj
    refine ⟨(h.asleep j hj).1, ?_⟩
    rw [← (h.asleep j hj).2]
    by_cases hji : j = i
    · subst hji
      rw [Kernel.setPcb_pcb_self, hp]
    · rw [Kernel.setPcb_pcb_of_ne hji]
  due := h.due

theorem Naps.congr (h : Naps tasks wake time k) (htime : k'.timeElapsed = k.timeElapsed)
    (hpcb : k'.pcb = k.pcb) (hqueues : k'.queues = k.queues) : Naps tasks wake time k' where
  clock := htime.trans h.clock
  asleep := by
    rw [hqueues, hpcb]
    exact h.asleep
  due := by
    rw [hqueues]
    exact h.due

theorem Naps.woken (h : Naps tasks wake time k) (hi : k.queues.owner i = some q)
    (hdue : q = .sleep → (k.pcb i).sleepUntil < k.getTimer % 2 ^ 32) :
    Naps tasks wake time (k.woken q i hi) := by
  refine h.of_ne rfl (by simp) (fun hin => ?_) (Kernel.woken_owner hi) fun j hj =>
    Kernel.woken_pcb_of_ne hi hj
  obtain rfl := Option.some.inj (hi.symm.trans hin)
  rw [Due, ← (h.asleep i hin).2, ← h.clock]
  exact hdue rfl

theorem Naps.enqueued (h : Naps tasks wake time k) (hoff : k.queues.owner i = none)
    (hq : q ≠ .sleep) : Naps tasks wake time (k.enqueued q i s hoff) := by
  refine h.of_ne rfl (by simpa using hq) (fun hin => ?_) (Kernel.enqueued_owner hoff)
    fun j hj => Kernel.enqueued_pcb_of_ne hoff hj
  rw [hoff] at hin
  cases hin

theorem Naps.lockwise (tasks : List Task) (wake : Task → Nat) (time : Nat) :
    Lockwise (Naps tasks wake time) where
  locks _ _ _ h := h.setPcb rfl
  lock _ _ _ h := h.congr rfl rfl rfl
  unblocked _ _ _ hi h := h.woken hi (by simp)

theorem Naps.freeProc (h : Naps tasks wake time k) (i : Task) :
    Safe (k.freeProc i) (Naps tasks wake time) := by
  simp only [Kernel.freeProc]
  split
  · trivial
  · have hmemory : Naps tasks wake time { k with toCore := k.toCore.freeMemory i } :=
      h.congr rfl rfl rfl
    refine ((Naps.lockwise tasks wake time).releaseLocks hmemory i _).bind fun k₁ h₁ => ?_
    refine Safe.bind (P := Naps tasks wake time) ?_ fun _ hk => hk.setPcb rfl
    exact Kernel.wakeWaiting_rule (fun _ _ hj hk _ => hk.woken hj (by simp)) h₁

/-- `check_sleeping` wakes tasks that are due. -/
theorem Naps.checkSleeping (h : Naps tasks wake time k) :
    Safe k.checkSleeping (Naps tasks wake time) := by
  simp only [Kernel.checkSleeping]
  split
  · exact h
  · refine Kernel.wakeAll_rule (by decide) (fun k₁ i hi hk₁ hdue => hk₁.woken hi fun _ => ?_) h
    have hclock : k₁.getTimer = k.getTimer := by
      rw [Kernel.getTimer, Kernel.getTimer, hk₁.clock, h.clock]
    rw [hclock]
    exact of_decide_eq_true hdue

/-- The part of `scheduler` behind `check_sleeping`. -/
theorem Naps.switch (h : Naps tasks wake time k) (hcons : Consistent none k) :
    Safe (k.retire >>= fun k => k.dispatch) (Naps tasks wake time) := by
  have hretire : Safe k.retire (Naps tasks wake time) := by
    simp only [Kernel.retire]
    split
    · rename_i hrun
      have hfits := hcons.fits k.currentRunning
      rw [show (k.pcb k.currentRunning).status = .running from hrun.2] at hfits
      exact Kernel.enqueue_rule hfits (h.enqueued hfits (by simp))
    · split
      · exact h.freeProc _
      · exact h
  refine hretire.bind fun k₁ h₁ => Kernel.dispatch_rule fun i rest hitems => ?_
  have hi := Lists.owner_of_cons hitems
  refine h₁.of_ne rfl (by simp) (fun hin => ?_) (Kernel.dispatched_owner hi)
    fun j hj => Kernel.dispatched_pcb_of_ne hi hj
  rw [hi] at hin
  cases hin

theorem Naps.doScheduler (h : Naps tasks wake time k) (hcons : Consistent none k) (sp : Nat) :
    Safe (k.doScheduler sp) (Naps tasks wake time) := by
  have hsp : Naps tasks wake time
      (k.setPcb k.currentRunning { k.cur with kernelSp := sp }) := h.setPcb rfl
  have hcons' : Consistent none (k.setPcb k.currentRunning { k.cur with kernelSp := sp }) :=
    hcons.setPcb _ rfl rfl rfl
  exact (hsp.checkSleeping.and ((Consistent.closed none).checkSleeping hcons')).bind
    fun _ h₁ => h₁.1.switch h₁.2

/-- The running task leaves the processor for a queue. -/
theorem Naps.join (h : Naps tasks wake time k) (hinv : SchedInv k) (hfits : Fits s (some q))
    (hq : q ≠ .sleep) (sp : Nat) :
    Safe (k.enqueue q k.currentRunning s >>= fun k => k.doScheduler sp)
      (Naps tasks wake time) := by
  exact hinv.join_rule hfits fun hoff hcons => (h.enqueued hoff hq).doScheduler hcons sp

/-- A call that sets the time or takes tasks out of `sleep_queue` by hand. -/
def Call.stirs : Call → Bool
  | .timer _ => true
  | .sleep _ => true
  | .kill _ => true
  | _ => false

theorem Naps.step (h : Naps tasks wake time k) (hinv : SchedInv k) {e : Event}
    (hcall : e.call.stirs = false) : Safe (kernelStep k e) (Naps tasks wake time) := by
  obtain ⟨sp, call⟩ := e
  have hlocks := Naps.lockwise tasks wake time
  cases call with
  | spawn argc =>
    rcases hinv.doSpawn_cases argc with heq | heq | ⟨i, hoff, _, heq⟩
    · simp only [kernelStep, heq]
      exact h
    · simp only [kernelStep, heq]
      trivial
    · simp only [kernelStep, heq]
      refine h.of_ne rfl (by simp) (fun hin => ?_) (Kernel.spawned_owner hoff)
        fun j hj => Kernel.spawned_pcb_of_ne hoff hj
      rw [hoff] at hin
      cases hin
  | yield => exact h.doScheduler hinv.toConsistent sp
  | block queue =>
    exact h.join hinv (q := .block queue) (s := .blocked) (Or.inr ⟨_, rfl⟩) (by simp) sp
  | unblockOne queue => exact hlocks.doUnblockOne h queue
  | unblockAll queue => exact hlocks.doUnblockAll h queue
  | waitpid pid =>
    simp only [kernelStep, Kernel.doWaitpid]
    split
    · have hinv' := hinv.setPcb_current (p := { k.cur with waitpid := pid }) rfl rfl rfl
      have h' : Naps tasks wake time
          (k.setPcb k.currentRunning { k.cur with waitpid := pid }) := h.setPcb rfl
      exact h'.join hinv' (q := .waitpid) (s := .blocked) (Or.inl rfl) (by simp) sp
    · exact h
  | exit =>
    obtain ⟨hcons, hoff⟩ := hinv.exiting_current
    have hexited : Naps tasks wake time
      (k.setPcb k.currentRunning { k.cur with status := .exited }) := h.setPcb rfl
    refine ((hexited.freeProc k.currentRunning).and (hcons.freeProc hoff)).bind fun k₁ h₁ => ?_
    exact h₁.1.doScheduler h₁.2.1 sp
  | acquire lock =>
    simp only [kernelStep, Kernel.doMutexLockAcquire]
    split
    · exact hlocks.lock _ _ _ (hlocks.procGetLock h lock)
    · exact h.join hinv (q := .block (.lock lock)) (s := .blocked) (Or.inr ⟨_, rfl⟩)
        (by simp) sp
  | release lock => exact hlocks.doMutexLockRelease h lock
  | barrierWait b =>
    have hbar : ∀ {k : Kernel ListQueues} (now : Int), Naps tasks wake time k →
        Naps tasks wake time (k.setBarrierNow b now) := fun _ hk => hk.congr rfl rfl rfl
    have hinv' : SchedInv (k.setBarrierNow b ((k.barrier b).now + 1)) :=
      hinv.congr rfl rfl rfl rfl
    simp only [kernelStep, Kernel.doBarrierWait]
    split
    · exact (hbar _ h).join hinv' (q := .block (.barrier b)) (s := .blocked)
        (Or.inr ⟨_, rfl⟩) (by simp) sp
    · exact (hlocks.doUnblockAll (hbar _ h) (.barrier b)).bind fun _ hk => hbar 0 hk
  | pageFault addr =>
    simp only [kernelStep, Kernel.pageFault]
    split
    · trivial
    · exact h.congr rfl rfl rfl
  | timer count => cases hcall
  | sleep time => cases hcall
  | kill pid => cases hcall

/-! ## Who falls asleep and who dies -/

/-- The tasks that are in `sleep_queue` in the course of a call, without the one it
kills. -/
def Kernel.sleepers (k : Kernel ListQueues) : Call → List Task
  | .sleep _ => k.queues.items .sleep ++ [k.currentRunning]
  | .kill pid =>
    match k.toCore.findPid pid with
    | none => k.queues.items .sleep
    | some i => (k.queues.items .sleep).erase i
  | _ => k.queues.items .sleep

/-- The first line of `do_sleep` that counts: the deadline is stored. -/
def Kernel.drowsy (k : Kernel ListQueues) (time : Nat) : Kernel ListQueues :=
  k.setPcb k.currentRunning { k.cur with sleepUntil := (k.getTimer + time) % 2 ^ 32 }

/-- The fields `sleep_until` in the course of a call. -/
def Kernel.alarm (k : Kernel ListQueues) : Call → Task → Nat
  | .sleep time => fun i => ((k.drowsy time).pcb i).sleepUntil
  | _ => fun i => (k.pcb i).sleepUntil

theorem alarm_self (k : Kernel ListQueues) (time : Nat) :
    k.alarm (.sleep time) k.currentRunning = (k.getTimer + time) % 2 ^ 32 := by
  show ((k.drowsy time).pcb k.currentRunning).sleepUntil = _
  rw [Kernel.drowsy, Kernel.setPcb_pcb_self]

theorem alarm_of_ne {call : Call} (hi : (∃ time, call = .sleep time) → i ≠ k.currentRunning) :
    k.alarm call i = (k.pcb i).sleepUntil := by
  cases call with
  | sleep time =>
    show ((k.drowsy time).pcb i).sleepUntil = _
    rw [Kernel.drowsy, Kernel.setPcb_pcb_of_ne (hi ⟨time, rfl⟩)]
  | _ => rfl

theorem drowsy_inv (hinv : SchedInv k) (time : Nat) : SchedInv (k.drowsy time) :=
  hinv.setPcb_current rfl rfl rfl

/-- The running task falls asleep. -/
theorem naps_asleep (hinv : SchedInv k) (sp : Nat) :
    Safe (k.enqueue .sleep k.currentRunning .sleeping >>= fun k => k.doScheduler sp)
      (Naps (k.queues.items .sleep ++ [k.currentRunning]) (fun i => (k.pcb i).sleepUntil)
        k.timeElapsed) := by
  have hfits : Fits .sleeping (some .sleep) := rfl
  refine hinv.join_rule hfits fun hoff hcons => ?_
  refine Naps.doScheduler ⟨rfl, fun i hi => ⟨?_, ?_⟩, fun i hi hout => absurd ?_ hout⟩ hcons sp
  · rw [Kernel.enqueued_owner] at hi
    rw [List.mem_append, List.mem_singleton, k.queues.mem_iff]
    split at hi
    · rename_i hcur
      exact Or.inr hcur
    · exact Or.inl hi
  · by_cases hcur : i = k.currentRunning
    · subst hcur
      rw [Kernel.enqueued_pcb_self]
    · rw [Kernel.enqueued_pcb_of_ne hoff hcur]
  · rw [List.mem_append, List.mem_singleton, k.queues.mem_iff] at hi
    rw [Kernel.enqueued_owner]
    split
    · rfl
    · rename_i hcur
      exact hi.resolve_right hcur

theorem naps_sleep (hinv : SchedInv k) (sp time : Nat) :
    Safe (kernelStep k ⟨sp, .sleep time⟩)
      (Naps (k.sleepers (.sleep time)) (k.alarm (.sleep time)) k.timeElapsed) :=
  naps_asleep (drowsy_inv hinv time) sp

theorem naps_kill (hinv : RunInv k) {pid : Int} (hpid : pid ≠ 0) (sp : Nat) :
    Safe (kernelStep k ⟨sp, .kill pid⟩)
      (Naps (k.sleepers (.kill pid)) (k.alarm (.kill pid)) k.timeElapsed) := by
  have hstart := naps_start k
  refine hinv.kill_rule hpid sp (fun hfind => ?_) (fun hfind _ => ?_) fun i q hq hfind _ _ _ => ?_
  · simp only [Kernel.sleepers, hfind]
    exact hstart
  · simp only [Kernel.sleepers, hfind]
    rw [List.erase_of_not_mem (hinv.current_not_mem _)]
    exact hstart.setPcb rfl
  · simp only [Kernel.sleepers, hfind]
    have howner := Kernel.taken_owner
      (k := k.setPcb i { k.pcb i with status := .exited }) hq
    have hnodup := k.queues.nodup .sleep
    have hkilled : Naps ((k.queues.items .sleep).erase i) (k.alarm (.kill pid))
        k.timeElapsed (k.killed i q hq) := by
      refine ⟨rfl, fun j hj => ?_, fun j hj hout => absurd ?_ hout⟩
      · rw [Kernel.killed, howner] at hj
        split at hj
        · cases hj
        · rename_i hji
          rw [hnodup.mem_erase_iff, Kernel.killed_pcb_of_ne hq hji]
          exact ⟨⟨hji, (k.queues.mem_iff _ _).mpr hj⟩, rfl⟩
      · obtain ⟨hji, hmem⟩ := hnodup.mem_erase_iff.mp hj
        rw [Kernel.killed, howner, if_neg hji]
        exact (k.queues.mem_iff _ _).mp hmem
    exact hkilled.freeProc i

/-- Every call but a timer interrupt. -/
theorem naps_step (hinv : BootInv k) {e : Event} (htimer : ∀ count, e.call ≠ .timer count) :
    Safe (kernelStep k e)
      (Naps (k.sleepers e.call) (k.alarm e.call) k.timeElapsed) := by
  by_cases hstirs : e.call.stirs = false
  · have hnaps := (naps_start k).step hinv.toSchedInv hstirs
    obtain ⟨sp, call⟩ := e
    cases call with
    | timer count => exact absurd rfl (htimer count)
    | sleep time => cases hstirs
    | kill pid => cases hstirs
    | _ => exact hnaps
  · obtain ⟨sp, call⟩ := e
    cases call with
    | timer count => exact absurd rfl (htimer count)
    | sleep time => exact naps_sleep hinv.toSchedInv sp time
    | kill pid =>
      by_cases hpid : pid = 0
      · subst hpid
        rw [hinv.kill_zero rfl]
        trivial
      · exact naps_kill hinv.toRunInv hpid sp
    | _ => exact absurd rfl hstirs

/-- `check_sleeping` leaves nobody in the queue who is due. -/
theorem checkSleeping_clears (k : Kernel ListQueues)
    (hdue : Due (k.pcb i).sleepUntil k.timeElapsed) :
    Safe k.checkSleeping fun k' => k'.queues.owner i ≠ some .sleep := by
  simp only [Kernel.checkSleeping]
  split
  · rename_i hempty
    have hnil : k.queues.items .sleep = [] := List.isEmpty_iff.mp hempty
    intro hi
    rw [← k.queues.mem_iff, hnil] at hi
    cases hi
  · refine (Kernel.wakeAll_splits (P := fun _ => True) (by decide) (fun _ _ _ _ _ => trivial)
      trivial).mono fun k' hk' hi => ?_
    rw [← k'.queues.mem_iff, hk'.2.1, List.mem_filter] at hi
    have hleft := hi.2
    simp only [Bool.not_eq_true', decide_eq_false_iff_not] at hleft
    exact hleft hdue

/-- A task whose deadline is below the present time in 32 bits is woken by the
`check_sleeping` of its own call. -/
theorem asleep_early (hinv : SchedInv k) (sp : Nat) (hdue : Due k.cur.sleepUntil k.timeElapsed) :
    Safe (k.enqueue .sleep k.currentRunning .sleeping >>= fun k => k.doScheduler sp)
      fun k' => k'.queues.owner k.currentRunning ≠ some .sleep := by
  have hoff := hinv.owner_current
  have hfits : Fits .sleeping (some .sleep) := rfl
  have hcons := hinv.toConsistent.enqueued hoff hfits hinv.current_live
  rw [Kernel.enqueue_eq hoff]
  set k₁ := k.enqueued .sleep k.currentRunning .sleeping hoff with hk₁
  set k₂ := k₁.setPcb k₁.currentRunning { k₁.cur with kernelSp := sp } with hk₂
  have hcons₂ : Consistent none k₂ := hcons.setPcb _ rfl rfl rfl
  have hfield : (k₂.pcb k.currentRunning).sleepUntil = k.cur.sleepUntil := by
    have hself : k₂.pcb k.currentRunning = { k₁.cur with kernelSp := sp } :=
      Kernel.setPcb_pcb_self _
    have hcur : k₁.cur = { k.cur with status := .sleeping, inQueue := some .sleep } :=
      Kernel.enqueued_pcb_self hoff
    rw [hself, hcur]
  have hclears := checkSleeping_clears (i := k.currentRunning) k₂ (by rw [hfield]; exact hdue)
  refine (hclears.and ((Consistent.closed none).checkSleeping hcons₂)).bind fun k₃ h₃ => ?_
  refine ((naps_start k₃).switch h₃.2).mono fun k₄ h₄ hin => ?_
  exact h₃.1 ((k₃.queues.mem_iff _ _).mp (h₄.asleep _ hin).1)

theorem sleep_early (hinv : SchedInv k) (sp time : Nat)
    (hdue : Due ((k.getTimer + time) % 2 ^ 32) k.timeElapsed) :
    Safe (kernelStep k ⟨sp, .sleep time⟩) fun k' =>
      k'.queues.owner k.currentRunning ≠ some .sleep := by
  refine asleep_early (drowsy_inv hinv time) sp ?_
  rw [← alarm_self] at hdue
  exact hdue

end Lists

/-! ## Runs -/

/-- The pointer kernel, and until when each task asked to sleep at its last call
of `do_sleep`. -/
structure SleepSystem where
  kernel : Kernel PtrQueues
  deadline : Task → Nat

/-- An event of the kernel, or the passing of time. -/
inductive SleepEvent where
  /-- The clock is set to a later time. -/
  | clock (elapsed count : Nat)
  | call (e : Event)

/-- A timer interrupt is a change of the clock and a switch. -/
theorem timer_eq_clock {H : Type} [QueueOps H QueueId Task] (k : Kernel H) (sp count : Nat) :
    kernelStep k ⟨sp, .timer count⟩ =
      kernelStep { k with
        timeElapsed := (k.updateTimeElapsed count).timeElapsed
        lastCp0Count := count } ⟨sp, .yield⟩ := rfl

namespace SleepSystem

/-- The exact deadline of a call of `do_sleep`. -/
def deadlineAfter (s : SleepSystem) : Call → Task → Nat
  | .sleep time =>
    Function.update s.deadline s.kernel.currentRunning (s.kernel.getTimer + time)
  | _ => s.deadline

/-- One event, with the deadlines. -/
def step (s : SleepSystem) : SleepEvent → Option SleepSystem
  | .clock elapsed count =>
    some { s with kernel := { s.kernel with timeElapsed := elapsed, lastCp0Count := count } }
  | .call e => (kernelRun s.kernel e).map fun k =>
    { kernel := k, deadline := s.deadlineAfter e.call }

/-- The clock does not go back, and the argument of `do_sleep` has 32 bits. -/
def EventOk (s : SleepSystem) : SleepEvent → Prop
  | .clock elapsed _ => s.kernel.timeElapsed ≤ elapsed
  | .call ⟨sp, .sleep time⟩ => BootOk s.kernel.toCore ⟨sp, .sleep time⟩ ∧ time < 2 ^ 32
  | .call ⟨_, .timer _⟩ => False
  | .call e => BootOk s.kernel.toCore e

/-- The deadline of a call of `do_sleep` is in the same period of 2^32 as the
present time. -/
def FitsPeriod (s : SleepSystem) : SleepEvent → Prop
  | .call ⟨_, .sleep time⟩ => s.kernel.getTimer % 2 ^ 32 + time < 2 ^ 32
  | _ => True

instance (s : SleepSystem) (ev : SleepEvent) : Decidable (s.EventOk ev) := by
  unfold EventOk
  split <;> infer_instance

instance (s : SleepSystem) (ev : SleepEvent) : Decidable (s.FitsPeriod ev) := by
  unfold FitsPeriod
  split <;> infer_instance

/-- The system after initialisation. -/
def boot (barrier : BarrierId → Barrier) (tables : Nat → Nat → Nat) : SleepSystem where
  kernel := bootKernel barrier tables
  deadline := fun _ => 0

/-- The task that calls `do_sleep`. -/
def sleeper (s : SleepSystem) : SleepEvent → Option Task
  | .call ⟨_, .sleep _⟩ => some s.kernel.currentRunning
  | _ => none

/-- The event is a call of `do_kill`. -/
def isKill : SleepEvent → Bool
  | .call ⟨_, .kill _⟩ => true
  | _ => false

/-- A task that slept, or has just called `do_sleep`, is woken at or before its
deadline. -/
def WakesEarly (s s' : SleepSystem) (ev : SleepEvent) (L L' : Lists QueueId Task) : Prop :=
  isKill ev = false ∧ ∃ i, (i ∈ L.items .sleep ∨ s.sleeper ev = some i) ∧
    i ∉ L'.items .sleep ∧ s'.kernel.getTimer ≤ s'.deadline i

/-- The field `sleep_until` holds the low bits of a deadline in a period that
has begun. -/
structure Inv (s : SleepSystem) (a : Kernel ListQueues) : Prop where
  follows : Follows a s.kernel
  run : BootInv a
  field : ∀ i ∈ a.queues.items .sleep, (a.pcb i).sleepUntil = s.deadline i % 2 ^ 32
  period : ∀ i ∈ a.queues.items .sleep, s.deadline i / 2 ^ 32 ≤ a.getTimer / 2 ^ 32

theorem inv_boot (barrier : BarrierId → Barrier) (tables : Nat → Nat → Nat) :
    (boot barrier tables).Inv (bootLists barrier tables) where
  follows := bootLists_follows barrier tables
  run := bootLists_bootInv barrier tables
  field i hi := by cases hi
  period i hi := by cases hi

section Steps

variable {s s' : SleepSystem} {a : Kernel ListQueues} {ev : SleepEvent} {e : Event}

/-- A call with a deadline in the present period, or no call of `do_sleep`. -/
theorem Inv.deadlines (h : s.Inv a) (hfits : s.FitsPeriod (.call e)) :
    ∀ i ∈ a.sleepers e.call,
      a.alarm e.call i = s.deadlineAfter e.call i % 2 ^ 32 ∧
        s.deadlineAfter e.call i / 2 ^ 32 ≤ a.getTimer / 2 ^ 32 := by
  have hcore := h.follows.core
  have hold : ∀ i ∈ a.queues.items .sleep, i ≠ a.currentRunning := by
    rintro i hi rfl
    exact h.run.current_not_mem _ hi
  obtain ⟨sp, call⟩ := e
  intro i hi
  cases call with
  | sleep time =>
    have htimer : s.kernel.getTimer = a.getTimer := by rw [Kernel.getTimer, hcore]; rfl
    have hcur : s.kernel.currentRunning = a.currentRunning := by rw [hcore]
    have hfits : a.getTimer % 2 ^ 32 + time < 2 ^ 32 := by
      rw [← htimer]
      exact hfits
    simp only [deadlineAfter, hcur, htimer]
    rcases List.mem_append.mp hi with hmem | hself
    · have hne := hold i hmem
      rw [Function.update_of_ne hne, alarm_of_ne fun _ => hne]
      exact ⟨h.field i hmem, h.period i hmem⟩
    · obtain rfl := List.mem_singleton.mp hself
      rw [Function.update_self, alarm_self]
      exact ⟨rfl, by omega⟩
  | kill pid =>
    have hmem : i ∈ a.queues.items .sleep := by
      simp only [Kernel.sleepers] at hi
      split at hi
      · exact hi
      · exact List.mem_of_mem_erase hi
    exact ⟨h.field i hmem, h.period i hmem⟩
  | _ => exact ⟨h.field i hi, h.period i hi⟩

/-- The sleepers in the course of a call that is no kill. -/
theorem Inv.mem_sleepers (h : s.Inv a) (hkill : isKill (.call e) = false) {i : Task} :
    i ∈ a.sleepers e.call ↔ i ∈ a.queues.items .sleep ∨ s.sleeper (.call e) = some i := by
  obtain ⟨sp, call⟩ := e
  cases call with
  | sleep time =>
    rw [Kernel.sleepers, List.mem_append, List.mem_singleton, sleeper, h.follows.core,
      Option.some_inj, eq_comm]
  | kill pid => cases hkill
  | _ => simp [Kernel.sleepers, sleeper]

/-- One call. -/
theorem Inv.call (h : s.Inv a) (hok : s.EventOk (.call e)) (hstep : s.step (.call e) = some s') :
    ∃ a', Follows a' s'.kernel ∧ BootInv a' ∧
      Naps (a.sleepers e.call) (a.alarm e.call) a.timeElapsed a' ∧
      s'.deadline = s.deadlineAfter e.call := by
  obtain ⟨k', hk, rfl⟩ := Option.map_eq_some_iff.mp hstep
  have hboot : BootOk a.toCore e ∧ ∀ count, e.call ≠ .timer count := by
    rw [← h.follows.core]
    obtain ⟨sp, call⟩ := e
    cases call with
    | sleep time => exact ⟨hok.1, fun _ => by simp⟩
    | timer count => cases hok
    | _ => exact ⟨hok, fun _ => by simp⟩
  obtain ⟨a', _, hfollows', ⟨hinv', _⟩, hnaps⟩ := (kernelStep_sim h.follows e).of_ok
    ((h.run.step hboot.1).and (naps_step h.run hboot.2)) (kernelRun_eq_some.mp hk)
  exact ⟨a', hfollows', hinv', hnaps, rfl⟩

/-- An event with a deadline in the present period keeps the invariant and wakes
nobody early. -/
theorem Inv.step_fits (h : s.Inv a) (hok : s.EventOk ev) (hfits : s.FitsPeriod ev)
    (hstep : s.step ev = some s') :
    ∃ a', s'.Inv a' ∧ ¬ s.WakesEarly s' ev a.queues a'.queues := by
  cases ev with
  | clock elapsed count =>
    obtain rfl := Option.some.inj hstep
    have hle : a.timeElapsed ≤ elapsed := by
      rw [← h.follows.core]
      exact hok
    refine ⟨{ a with timeElapsed := elapsed, lastCp0Count := count }, ⟨⟨?_, h.follows.queues⟩,
      ⟨⟨h.run.congr rfl rfl rfl rfl, h.run.current_queue⟩, h.run.parked⟩, h.field, ?_⟩, ?_⟩
    · show { s.kernel.toCore with timeElapsed := elapsed, lastCp0Count := count } = _
      rw [h.follows.core]
    · intro i hi
      have hbefore := h.period i hi
      simp only [Kernel.getTimer] at hbefore ⊢
      omega
    · rintro ⟨_, i, hin | hself, hout, _⟩
      · exact hout hin
      · cases hself
  | call e =>
    obtain ⟨a', hfollows', hinv', hnaps, hdeadline⟩ := h.call hok hstep
    have hdeadlines := h.deadlines hfits
    have hclock : a'.getTimer = a.getTimer := by
      rw [Kernel.getTimer, Kernel.getTimer, hnaps.clock]
    refine ⟨a', ⟨hfollows', hinv', fun i hi => ?_, fun i hi => ?_⟩, ?_⟩
    · obtain ⟨hmem, hfield⟩ := hnaps.asleep i ((a'.queues.mem_iff _ _).mp hi)
      rw [hfield, hdeadline]
      exact (hdeadlines i hmem).1
    · obtain ⟨hmem, _⟩ := hnaps.asleep i ((a'.queues.mem_iff _ _).mp hi)
      rw [hclock, hdeadline]
      exact (hdeadlines i hmem).2
    · rintro ⟨hkill, i, hin, hout, hearly⟩
      have hmem := (h.mem_sleepers hkill).mpr hin
      obtain ⟨halarm, hperiod⟩ := hdeadlines i hmem
      have hdue := hnaps.due i hmem fun howner => hout ((a'.queues.mem_iff _ _).mpr howner)
      have htimer : s'.kernel.getTimer = a.getTimer := by
        rw [← hclock, Kernel.getTimer, hfollows'.core]
        rfl
      rw [htimer, hdeadline] at hearly
      have hlt : a.alarm e.call i < a.getTimer % 2 ^ 32 := hdue
      rw [halarm] at hlt
      omega

/-- A deadline in a later period is stored as a time that has passed, and the
task is woken in its call of `do_sleep`. -/
theorem Inv.step_early (h : s.Inv a) (hok : s.EventOk ev) (hlate : ¬ s.FitsPeriod ev)
    (hstep : s.step ev = some s') :
    ∃ a', Follows a' s'.kernel ∧ s.WakesEarly s' ev a.queues a'.queues := by
  obtain ⟨sp, time, rfl⟩ : ∃ sp time, ev = .call ⟨sp, .sleep time⟩ := by
    cases ev with
    | clock elapsed count => exact absurd trivial hlate
    | call e =>
      obtain ⟨sp, call⟩ := e
      cases call with
      | sleep time => exact ⟨sp, time, rfl⟩
      | _ => exact absurd trivial hlate
  have hcore := h.follows.core
  have htimer : s.kernel.getTimer = a.getTimer := by rw [Kernel.getTimer, hcore]; rfl
  have hcur : s.kernel.currentRunning = a.currentRunning := by rw [hcore]
  have hlate : ¬ a.getTimer % 2 ^ 32 + time < 2 ^ 32 := by
    rw [← htimer]
    exact hlate
  have htime : time < 2 ^ 32 := hok.2
  have hdue : Due ((a.getTimer + time) % 2 ^ 32) a.timeElapsed := by
    show (a.getTimer + time) % 2 ^ 32 < a.getTimer % 2 ^ 32
    omega
  obtain ⟨k', hk, rfl⟩ := Option.map_eq_some_iff.mp hstep
  have hnaps := naps_step h.run (e := ⟨sp, .sleep time⟩) (by simp)
  obtain ⟨a', _, hfollows', hnaps', hawake⟩ := (kernelStep_sim h.follows _).of_ok
    (hnaps.and (sleep_early h.run.toSchedInv sp time hdue)) (kernelRun_eq_some.mp hk)
  refine ⟨a', hfollows', rfl, a.currentRunning, Or.inr (congrArg some hcur), ?_, ?_⟩
  · intro hin
    exact hawake ((a'.queues.mem_iff _ _).mp hin)
  · have hclock : k'.getTimer = a.getTimer := by
      rw [Kernel.getTimer, Kernel.getTimer, hfollows'.core, hnaps'.clock]
    show k'.getTimer ≤ s.deadlineAfter (.sleep time) a.currentRunning
    rw [hclock, deadlineAfter, hcur, htimer, Function.update_self]
    omega

end Steps

theorem reaches_inv (barrier : BarrierId → Barrier) (tables : Nat → Nat → Nat)
    {s : SleepSystem}
    (h : Reaches SleepSystem.step (fun s ev => s.EventOk ev ∧ s.FitsPeriod ev)
      (boot barrier tables) s) : ∃ a, s.Inv a := by
  apply h.invariant (fun s => ∃ a, s.Inv a)
  · exact ⟨_, inv_boot barrier tables⟩
  · intro s ev s' ha hok hstep
    obtain ⟨a, hinv⟩ := ha
    obtain ⟨a', hinv', _⟩ := hinv.step_fits hok.1 hok.2 hstep
    exact ⟨a', hinv'⟩

/-- In every state that is reached from boot while every deadline is in the
period of 2^32 of its call, the next event wakes nobody at or before the
deadline exactly when it keeps to that. -/
theorem sleeps_long_enough_iff (barrier : BarrierId → Barrier) (tables : Nat → Nat → Nat)
    {s s' : SleepSystem} {ev : SleepEvent}
    (h : Reaches SleepSystem.step (fun s ev => s.EventOk ev ∧ s.FitsPeriod ev)
      (boot barrier tables) s)
    (hok : s.EventOk ev) (hstep : s.step ev = some s') :
    ∃ L L', Represents s.kernel.queues L ∧ Represents s'.kernel.queues L' ∧
      (¬ s.WakesEarly s' ev L L' ↔ s.FitsPeriod ev) := by
  obtain ⟨a, hinv⟩ := reaches_inv barrier tables h
  by_cases hfits : s.FitsPeriod ev
  · obtain ⟨a', hinv', hlate⟩ := hinv.step_fits hok hfits hstep
    exact ⟨a.queues, a'.queues, hinv.follows.queues, hinv'.follows.queues,
      iff_of_true hlate hfits⟩
  · obtain ⟨a', hfollows', hearly⟩ := hinv.step_early hok hfits hstep
    exact ⟨a.queues, a'.queues, hinv.follows.queues, hfollows'.queues,
      iff_of_false (fun hnot => hnot hearly) hfits⟩

/-- The system over cleared tables. -/
def blank : SleepSystem := boot (fun _ => { goal := 1, now := 0 }) fun _ _ => 0

/-- A task sleeps from time 0 to 5, and is looked at again at time 6. -/
theorem blank_sleeper_wakes_late :
    ∃ s s', runIf SleepSystem.step (fun s ev => s.EventOk ev ∧ s.FitsPeriod ev) blank
        [.call ⟨0, .spawn 0⟩, .call ⟨0, .spawn 0⟩, .call ⟨0, .yield⟩, .call ⟨0, .sleep 5⟩,
          .clock 1800000 0] = some s ∧ s.step (.call ⟨0, .yield⟩) = some s' ∧
      ∃ L L', Represents s.kernel.queues L ∧ Represents s'.kernel.queues L' ∧
        (¬ s.WakesEarly s' (.call ⟨0, .yield⟩) L L' ↔ s.FitsPeriod (.call ⟨0, .yield⟩)) := by
  have hrun : (runIf SleepSystem.step (fun s ev => s.EventOk ev ∧ s.FitsPeriod ev) blank
      [.call ⟨0, .spawn 0⟩, .call ⟨0, .spawn 0⟩, .call ⟨0, .yield⟩, .call ⟨0, .sleep 5⟩,
        .clock 1800000 0]).map
        (fun s => (decide (s.EventOk (.call ⟨0, .yield⟩)),
          (s.step (.call ⟨0, .yield⟩)).isSome)) = some (true, true) := by
    decide +kernel
  obtain ⟨s, hs, hpair⟩ := Option.map_eq_some_iff.mp hrun
  obtain ⟨hok, hsome⟩ := Prod.mk.inj hpair
  obtain ⟨s', hs'⟩ := Option.isSome_iff_exists.mp hsome
  exact ⟨s, s', hs, hs',
    sleeps_long_enough_iff _ _ (reaches_of_runIf hs) (of_decide_eq_true hok) hs'⟩

/-- A task calls `do_sleep(5)` at time 2^32 - 1. -/
theorem blank_sleeper_wakes_early :
    ¬ ∀ (s s' : SleepSystem) (ev : SleepEvent) (L L' : Lists QueueId Task),
      Reaches SleepSystem.step EventOk blank s → s.EventOk ev → s.step ev = some s' →
        Represents s.kernel.queues L → Represents s'.kernel.queues L' →
          ¬ s.WakesEarly s' ev L L' := by
  intro hall
  have hrun : (runIf SleepSystem.step (fun s ev => s.EventOk ev ∧ s.FitsPeriod ev) blank
      [.clock (300000 * (2 ^ 32 - 1)) 0, .call ⟨0, .spawn 0⟩, .call ⟨0, .spawn 0⟩,
        .call ⟨0, .yield⟩]).map
        (fun s => (decide (s.EventOk (.call ⟨0, .sleep 5⟩)),
          decide (s.FitsPeriod (.call ⟨0, .sleep 5⟩)),
          (s.step (.call ⟨0, .sleep 5⟩)).isSome)) = some (true, false, true) := by
    decide +kernel
  obtain ⟨s, hs, htriple⟩ := Option.map_eq_some_iff.mp hrun
  obtain ⟨hok, hpair⟩ := Prod.mk.inj htriple
  obtain ⟨hlate, hsome⟩ := Prod.mk.inj hpair
  obtain ⟨s', hs'⟩ := Option.isSome_iff_exists.mp hsome
  have hreach := reaches_of_runIf hs
  obtain ⟨a, hinv⟩ := reaches_inv _ _ hreach
  obtain ⟨a', hfollows', hearly⟩ := hinv.step_early (of_decide_eq_true hok)
    (of_decide_eq_false hlate) hs'
  exact hall s s' _ _ _ (hreach.mono fun _ _ h => h.1) (of_decide_eq_true hok) hs'
    hinv.follows.queues hfollows'.queues hearly

end SleepSystem

end MipsOs.Sched
