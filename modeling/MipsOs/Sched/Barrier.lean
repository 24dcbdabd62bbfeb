import MipsOs.Sched.Moves

/-!
# The barrier and its generations

`do_barrier_wait` counts the arrivals in `now`, and the arrival that makes it
`goal` wakes all who wait and sets it back to 0.  No generation is kept: a task
that was woken may arrive again before the others have run.

`BarrierSystem` runs the pointer kernel beside the arrivals at one barrier in
their order and the number of completions.  The tasks in the block queue are the
last arrivals, those behind the completed groups of `goal` arrivals.
`barrier_generations` is the result, over every run in which no task is killed.
-/

namespace MipsOs.Sched

open MipsOs.Lib

/-! ## What leaves a barrier alone -/

/-- The barrier and the tasks that wait at it. -/
def Gathers (b : BarrierId) (bar : Barrier) (tasks : List Task) (k : Kernel ListQueues) : Prop :=
  k.barrier b = bar ∧ k.queues.items (.block (.barrier b)) = tasks

section Lists

variable {b : BarrierId} {bar : Barrier} {tasks : List Task} {k : Kernel ListQueues}
  {q : QueueId} {s : TaskStatus} {i : Task}

theorem Gathers.woken (h : Gathers b bar tasks k) (hi : k.queues.owner i = some q)
    (hq : q ≠ .block (.barrier b)) : Gathers b bar tasks (k.woken q i hi) := by
  refine ⟨h.1, ?_⟩
  rw [Kernel.woken_items_of_ne hi hq.symm (by simp)]
  exact h.2

theorem Gathers.enqueued (h : Gathers b bar tasks k) (hi : k.queues.owner i = none)
    (hq : q ≠ .block (.barrier b)) : Gathers b bar tasks (k.enqueued q i s hi) := by
  refine ⟨h.1, ?_⟩
  rw [Kernel.enqueued_items, if_neg hq.symm]
  exact h.2

theorem Gathers.doUnblockOne (h : Gathers b bar tasks k) {queue : BlockQueue}
    (hq : queue ≠ .barrier b) : Safe (k.doUnblockOne queue) (Gathers b bar tasks) :=
  Kernel.doUnblockOne_rule fun _ _ hitems =>
    h.woken (Lists.owner_of_cons hitems) (by simpa using hq)

theorem Gathers.doUnblockAll (h : Gathers b bar tasks k) {queue : BlockQueue}
    (hq : queue ≠ .barrier b) : Safe (k.doUnblockAll queue) (Gathers b bar tasks) :=
  (Kernel.doUnblockAll_rule (fun _ _ _ _ hk => hk.woken _ (by simpa using hq)) h).mono
    fun _ hk => hk.1

theorem Gathers.doMutexLockRelease (h : Gathers b bar tasks k) (lock : LockId) :
    Safe (k.doMutexLockRelease lock) (Gathers b bar tasks) := by
  have hlose : Gathers b bar tasks (k.procLoseLock lock) := h
  simp only [Kernel.doMutexLockRelease]
  split
  · exact hlose
  · have hget : Gathers b bar tasks ((k.procLoseLock lock).procGetLock lock) := hlose
    exact hget.doUnblockOne (by simp)

theorem Gathers.releaseLocks (h : Gathers b bar tasks k) (i : Task) (js : List (Fin maxLock)) :
    Safe (Kernel.releaseLocks i js k) (Gathers b bar tasks) := by
  induction js generalizing k with
  | nil => exact h
  | cons j rest ih =>
    rw [Kernel.releaseLocks]
    split
    · exact ih h
    · exact (h.doMutexLockRelease _).bind fun _ hk => ih hk

theorem Gathers.freeProc (h : Gathers b bar tasks k) (i : Task) :
    Safe (k.freeProc i) (Gathers b bar tasks) := by
  simp only [Kernel.freeProc]
  split
  · trivial
  · have hmemory : Gathers b bar tasks { k with toCore := k.toCore.freeMemory i } := h
    refine (hmemory.releaseLocks i _).bind fun k₁ h₁ => ?_
    refine Safe.bind (P := Gathers b bar tasks) ?_ fun _ hk => hk
    exact Kernel.wakeWaiting_rule (fun _ _ hj hk _ => hk.woken hj (by simp)) h₁

theorem Gathers.doScheduler (h : Gathers b bar tasks k) (hcons : Consistent none k) (sp : Nat) :
    Safe (k.doScheduler sp) (Gathers b bar tasks) := by
  have hsp : Consistent none (k.setPcb k.currentRunning { k.cur with kernelSp := sp }) :=
    hcons.setPcb _ rfl rfl rfl
  have hsleep : Safe (k.setPcb k.currentRunning { k.cur with kernelSp := sp }).checkSleeping
      fun k => Consistent none k ∧ Gathers b bar tasks k := by
    apply Kernel.checkSleeping_rule _ ⟨hsp, h⟩
    intro k i hi hk
    exact ⟨hk.1.woken hi, hk.2.woken hi (by simp)⟩
  refine hsleep.bind fun k₁ h₁ => ?_
  obtain ⟨hcons₁, hgathers₁⟩ := h₁
  have hretire : Safe k₁.retire (Gathers b bar tasks) := by
    simp only [Kernel.retire]
    split
    · rename_i hrun
      have hoff : k₁.queues.owner k₁.currentRunning = none := by
        have hfits := hcons₁.fits k₁.currentRunning
        rw [show (k₁.pcb k₁.currentRunning).status = .running from hrun.2] at hfits
        exact hfits
      exact Kernel.enqueue_rule hoff (hgathers₁.enqueued hoff (by simp))
    · split
      · exact hgathers₁.freeProc _
      · exact hgathers₁
  refine hretire.bind fun k₂ h₂ => Kernel.dispatch_rule fun i rest hitems => ?_
  refine ⟨h₂.1, ?_⟩
  show (k₂.taken .ready i (Lists.owner_of_cons hitems)).queues.items (.block (.barrier b)) = tasks
  rw [Kernel.taken_items, if_neg (by simp)]
  exact h₂.2

/-- The running task leaves the processor for another queue. -/
theorem Gathers.join (h : Gathers b bar tasks k) (hinv : SchedInv k) (hfits : Fits s (some q))
    (hq : q ≠ .block (.barrier b)) (sp : Nat) :
    Safe (k.enqueue q k.currentRunning s >>= fun k => k.doScheduler sp)
      (Gathers b bar tasks) := by
  exact hinv.join_rule hfits fun hoff hcons => (h.enqueued hoff hq).doScheduler hcons sp

/-- The call kills nobody and does not touch the block queue of the barrier
behind its back. -/
def Call.respects (b : BarrierId) : Call → Bool
  | .kill _ => false
  | .block queue => queue ≠ .barrier b
  | .unblockOne queue => queue ≠ .barrier b
  | .unblockAll queue => queue ≠ .barrier b
  | _ => true

/-- Every call but an arrival leaves the barrier alone. -/
theorem Gathers.step (h : Gathers b bar tasks k) (hinv : SchedInv k) {e : Event}
    (hok : e.call.respects b = true) (hcall : e.call ≠ .barrierWait b) :
    Safe (kernelStep k e) (Gathers b bar tasks) := by
  obtain ⟨sp, call⟩ := e
  cases call with
  | spawn argc =>
    rcases hinv.doSpawn_cases argc with heq | heq | ⟨i, hoff, _, heq⟩
    · simp only [kernelStep, heq]
      exact h
    · simp only [kernelStep, heq]
      trivial
    · simp only [kernelStep, heq]
      refine ⟨h.1, ?_⟩
      show (k.queues.pushed .ready i hoff).items (.block (.barrier b)) = tasks
      simpa [Lists.pushed] using h.2
  | yield => exact h.doScheduler hinv.toConsistent sp
  | timer count =>
    have hinv' : SchedInv (k.updateTimeElapsed count) := hinv.congr rfl rfl rfl rfl
    have h' : Gathers b bar tasks (k.updateTimeElapsed count) := h
    exact h'.doScheduler hinv'.toConsistent sp
  | sleep time =>
    have hinv' := hinv.setPcb_current
      (p := { k.cur with sleepUntil := (k.getTimer + time) % 2 ^ 32 }) rfl rfl rfl
    exact Gathers.join (k := k.setPcb k.currentRunning _) h hinv' (q := .sleep)
      (s := .sleeping) rfl (by simp) sp
  | block queue =>
    have hq : queue ≠ .barrier b := by simpa [Call.respects] using hok
    exact h.join hinv (q := .block queue) (s := .blocked) (Or.inr ⟨_, rfl⟩) (by simpa using hq) sp
  | unblockOne queue => exact h.doUnblockOne (by simpa [Call.respects] using hok)
  | unblockAll queue => exact h.doUnblockAll (by simpa [Call.respects] using hok)
  | waitpid pid =>
    simp only [kernelStep, Kernel.doWaitpid]
    split
    · have hinv' := hinv.setPcb_current (p := { k.cur with waitpid := pid }) rfl rfl rfl
      exact Gathers.join (k := k.setPcb k.currentRunning _) h hinv' (q := .waitpid)
        (s := .blocked) (Or.inl rfl) (by simp) sp
    · exact h
  | exit =>
    obtain ⟨hcons, hoff⟩ := hinv.exiting_current
    have hexited : Gathers b bar tasks
      (k.setPcb k.currentRunning { k.cur with status := .exited }) := h
    refine ((hexited.freeProc k.currentRunning).and (hcons.freeProc hoff)).bind fun k₁ h₁ => ?_
    exact h₁.1.doScheduler h₁.2.1 sp
  | kill pid => cases hok
  | acquire lock =>
    simp only [kernelStep, Kernel.doMutexLockAcquire]
    split
    · exact h
    · exact h.join hinv (q := .block (.lock lock)) (s := .blocked) (Or.inr ⟨_, rfl⟩)
        (by simp) sp
  | release lock => exact h.doMutexLockRelease lock
  | barrierWait b' =>
    have hb : b ≠ b' := by
      rintro rfl
      exact hcall rfl
    have hother : ∀ {k : Kernel ListQueues} (now : Int), Gathers b bar tasks k →
        Gathers b bar tasks (k.setBarrierNow b' now) := by
      intro k now hk
      refine ⟨?_, hk.2⟩
      rw [← hk.1]
      exact Function.update_of_ne hb _ _
    have hinv' : SchedInv (k.setBarrierNow b' ((k.barrier b').now + 1)) :=
      hinv.congr rfl rfl rfl rfl
    simp only [kernelStep, Kernel.doBarrierWait]
    split
    · exact (hother _ h).join hinv' (q := .block (.barrier b')) (s := .blocked)
        (Or.inr ⟨_, rfl⟩) (by simpa using hb.symm) sp
    · exact ((hother _ h).doUnblockAll (by simpa using hb.symm)).bind fun _ hk => hother 0 hk
  | pageFault addr =>
    simp only [kernelStep, Kernel.pageFault]
    split
    · trivial
    · exact h

/-! ## An arrival -/

/-- An arrival before the last joins the queue. -/
theorem Gathers.wait (h : Gathers b bar tasks k) (hinv : SchedInv k)
    (hnow : bar.now + 1 < bar.goal) (sp : Nat) :
    Safe (kernelStep k ⟨sp, .barrierWait b⟩)
      (Gathers b { bar with now := bar.now + 1 } (tasks ++ [k.currentRunning])) := by
  obtain ⟨rfl, rfl⟩ := h
  have hinv' : SchedInv (k.setBarrierNow b ((k.barrier b).now + 1)) := hinv.congr rfl rfl rfl rfl
  have hbar : (k.setBarrierNow b ((k.barrier b).now + 1)).barrier b =
      { k.barrier b with now := (k.barrier b).now + 1 } := Function.update_self _ _ _
  have hoff := hinv'.owner_current
  have hlt : ((k.setBarrierNow b ((k.barrier b).now + 1)).barrier b).now <
      ((k.setBarrierNow b ((k.barrier b).now + 1)).barrier b).goal := by
    rw [hbar]
    exact hnow
  simp only [kernelStep, Kernel.doBarrierWait, if_pos hlt, Kernel.doBlock]
  rw [Kernel.enqueue_eq hoff]
  have hfits : Fits .blocked (some (.block (.barrier b))) := Or.inr ⟨_, rfl⟩
  have hjoined : Gathers b { k.barrier b with now := (k.barrier b).now + 1 }
      (k.queues.items (.block (.barrier b)) ++ [k.currentRunning])
      ((k.setBarrierNow b ((k.barrier b).now + 1)).enqueued (.block (.barrier b))
        (k.setBarrierNow b ((k.barrier b).now + 1)).currentRunning .blocked hoff) := by
    refine ⟨hbar, ?_⟩
    rw [Kernel.enqueued_items, if_pos rfl]
    rfl
  exact hjoined.doScheduler
    (hinv'.toConsistent.enqueued hoff hfits hinv'.current_live) sp

/-- The last arrival wakes all who wait, in their order, and goes on. -/
structure Completes (b : BarrierId) (k k' : Kernel ListQueues) : Prop where
  barrier : k'.barrier b = { k.barrier b with now := 0 }
  emptied : k'.queues.items (.block (.barrier b)) = []
  ready : k'.queues.items .ready =
    k.queues.items .ready ++ k.queues.items (.block (.barrier b))
  stays : k'.currentRunning = k.currentRunning

theorem completes_last (k : Kernel ListQueues) (b : BarrierId)
    (hlast : ¬ (k.barrier b).now + 1 < (k.barrier b).goal) (sp : Nat) :
    Safe (kernelStep k ⟨sp, .barrierWait b⟩) (Completes b k) := by
  have hbar : ∀ (k : Kernel ListQueues) now, (k.setBarrierNow b now).barrier b =
      { k.barrier b with now := now } := fun k now => Function.update_self _ _ _
  have hall : ¬ ((k.setBarrierNow b ((k.barrier b).now + 1)).barrier b).now <
      ((k.setBarrierNow b ((k.barrier b).now + 1)).barrier b).goal := by
    rw [hbar]
    exact hlast
  simp only [kernelStep, Kernel.doBarrierWait, if_neg hall]
  have hwake : Safe ((k.setBarrierNow b ((k.barrier b).now + 1)).doUnblockAll (.barrier b))
      fun k' => (∃ woken, k.queues.items (.block (.barrier b)) =
          woken ++ k'.queues.items (.block (.barrier b)) ∧
          k'.queues.items .ready = k.queues.items .ready ++ woken ∧
          k'.currentRunning = k.currentRunning ∧ (k'.barrier b).goal = (k.barrier b).goal) ∧
        k'.queues.items (.block (.barrier b)) = [] := by
    apply Kernel.doUnblockAll_rule
    · intro k' i rest hitems hk'
      obtain ⟨woken, hqueue, hready, hcur, hgoal⟩ := hk'
      refine ⟨woken ++ [i], ?_, ?_, hcur, hgoal⟩
      · rw [Kernel.woken_items_self _ (by simp), hitems, List.erase_cons_head, hqueue, hitems,
          List.append_assoc, List.singleton_append]
      · rw [Kernel.woken, Kernel.enqueued_items, if_pos rfl, Kernel.taken_items, if_neg (by simp),
          hready, List.append_assoc]
    · refine ⟨[], rfl, (List.append_nil _).symm, rfl, ?_⟩
      rw [hbar]
  refine hwake.bind fun k' hk' => ?_
  obtain ⟨⟨woken, hqueue, hready, hcur, hgoal⟩, hempty⟩ := hk'
  rw [hempty, List.append_nil] at hqueue
  refine ⟨?_, hempty, ?_, hcur⟩
  · refine (hbar k' 0).trans ?_
    rw [Barrier.mk.injEq]
    exact ⟨hgoal, rfl⟩
  · exact hready.trans (by rw [hqueue])

end Lists

/-! ## Runs -/

/-- The pointer kernel, the arrivals at a barrier in their order, and how often
the barrier was completed. -/
structure BarrierSystem where
  kernel : Kernel PtrQueues
  arrivals : List Task
  completions : Nat

namespace BarrierSystem

/-- The arrival is the last of its generation. -/
def Last (b : BarrierId) (s : BarrierSystem) (e : Event) : Prop :=
  e.call = .barrierWait b ∧ ¬ (s.kernel.barrier b).now + 1 < (s.kernel.barrier b).goal

instance (b : BarrierId) (s : BarrierSystem) (e : Event) : Decidable (s.Last b e) :=
  inferInstanceAs (Decidable (_ ∧ _))

/-- One event, with the record of the arrivals. -/
def step (b : BarrierId) (s : BarrierSystem) (e : Event) : Option BarrierSystem :=
  (kernelRun s.kernel e).map fun k =>
    { kernel := k
      arrivals :=
        if e.call = .barrierWait b then s.arrivals ++ [s.kernel.currentRunning] else s.arrivals
      completions := if s.Last b e then s.completions + 1 else s.completions }

/-- Nobody is killed, and the queue of the barrier is left to the arrivals. -/
def EventOk (b : BarrierId) (_ : BarrierSystem) (e : Event) : Prop :=
  e.call.respects b = true

instance (b : BarrierId) (s : BarrierSystem) (e : Event) : Decidable (s.EventOk b e) :=
  inferInstanceAs (Decidable (_ = _))

/-- The system after initialisation.  Nobody has arrived. -/
def boot (barrier : BarrierId → Barrier) (tables : Nat → Nat → Nat) : BarrierSystem where
  kernel := bootKernel barrier tables
  arrivals := []
  completions := 0

/-- The rounds that a task has passed: its arrivals that do not wait any more. -/
def passed (s : BarrierSystem) (waiting : List Task) (i : Task) : Nat :=
  s.arrivals.count i - waiting.count i

/-- What a step does to those who wait.  The last arrival of a generation wakes
the tasks of the generation in their order and goes on; nobody else leaves. -/
def Releases (b : BarrierId) (n : Nat) (s s' : BarrierSystem) (e : Event)
    (L L' : Lists QueueId Task) : Prop :=
  if s.Last b e then
    s'.completions = s.completions + 1 ∧ s'.arrivals.length = s'.completions * n ∧
      L.items (.block (.barrier b)) ++ [s.kernel.currentRunning] =
        s'.arrivals.drop (s.completions * n) ∧
      L'.items .ready = L.items .ready ++ L.items (.block (.barrier b)) ∧
      L'.items (.block (.barrier b)) = [] ∧ s'.kernel.currentRunning = s.kernel.currentRunning
  else
    s'.completions = s.completions ∧
      L.items (.block (.barrier b)) <+: L'.items (.block (.barrier b))

/-- The tasks that wait are the arrivals behind the completed generations, and
no task arrived twice in a generation. -/
structure Inv (b : BarrierId) (n : Nat) (s : BarrierSystem) (a : Kernel ListQueues) : Prop where
  follows : Follows a s.kernel
  run : RunInv a
  goal : (a.barrier b).goal = n
  now : (a.barrier b).now = (a.queues.items (.block (.barrier b))).length
  now_lt : (a.queues.items (.block (.barrier b))).length < n
  arrived : s.arrivals.length =
    s.completions * n + (a.queues.items (.block (.barrier b))).length
  waiting : a.queues.items (.block (.barrier b)) = s.arrivals.drop (s.completions * n)
  once : ∀ i, (s.arrivals.take (s.completions * n)).count i ≤ s.completions

section Runs

variable {b : BarrierId} {n : Nat} {s s' : BarrierSystem} {a : Kernel ListQueues} {e : Event}

theorem inv_boot (barrier : BarrierId → Barrier) (tables : Nat → Nat → Nat) (hn : 1 ≤ n)
    (hb : barrier b = { goal := n, now := 0 }) :
    (boot barrier tables).Inv b n (bootLists barrier tables) where
  follows := bootLists_follows barrier tables
  run := bootLists_runInv barrier tables
  goal := congrArg Barrier.goal hb
  now := congrArg Barrier.now hb
  now_lt := hn
  arrived := (Nat.zero_mul n).symm
  waiting := List.drop_nil.symm
  once := by simp [boot]

theorem Inv.passed_le (h : s.Inv b n a) (i : Task) :
    s.passed (a.queues.items (.block (.barrier b))) i ≤ s.completions := by
  have hsplit : s.arrivals.count i = (s.arrivals.take (s.completions * n)).count i +
      (s.arrivals.drop (s.completions * n)).count i := by
    rw [← List.count_append, List.take_append_drop]
  rw [passed, h.waiting, hsplit, Nat.add_sub_cancel]
  exact h.once i

/-- The last arrival ends a generation. -/
theorem Inv.completes {a' : Kernel ListQueues} {k' : Kernel PtrQueues} (h : s.Inv b n a)
    (hfollows : Follows a' k') (hrun : RunInv a') (hlast : ¬ (a.barrier b).now + 1 < n)
    (hcomp : Completes b a a') :
    Inv b n
      { kernel := k'
        arrivals := s.arrivals ++ [a.currentRunning]
        completions := s.completions + 1 } a' ∧
    (s.arrivals ++ [a.currentRunning]).length = (s.completions + 1) * n ∧
    a.queues.items (.block (.barrier b)) ++ [a.currentRunning] =
      (s.arrivals ++ [a.currentRunning]).drop (s.completions * n) := by
  have hlen := h.now_lt
  have harrived := h.arrived
  rw [h.now] at hlast
  have hlength : (s.arrivals ++ [a.currentRunning]).length = (s.completions + 1) * n := by
    rw [List.length_append, List.length_singleton, harrived, Nat.add_mul, Nat.one_mul]
    omega
  have hgroup : a.queues.items (.block (.barrier b)) ++ [a.currentRunning] =
      (s.arrivals ++ [a.currentRunning]).drop (s.completions * n) := by
    rw [List.drop_append_of_le_length (by omega), ← h.waiting]
  refine ⟨⟨hfollows, hrun, ?_, ?_, ?_, ?_, ?_, fun i => ?_⟩, hlength, hgroup⟩
  · rw [hcomp.barrier]
    exact h.goal
  · rw [hcomp.barrier, hcomp.emptied]
    rfl
  · rw [hcomp.emptied, List.length_nil]
    omega
  · rw [hcomp.emptied]
    exact hlength
  · rw [hcomp.emptied]
    exact (List.drop_eq_nil_of_le (le_of_eq hlength)).symm
  · have hnodup : (a.queues.items (.block (.barrier b)) ++ [a.currentRunning]).Nodup := by
      have hnew : a.currentRunning ∉ a.queues.items (.block (.barrier b)) :=
        h.run.current_not_mem _
      exact (a.queues.nodup _).append (List.nodup_singleton _) (by simpa using hnew)
    have hcount := List.nodup_iff_count_le_one.mp hnodup i
    have honce := h.once i
    show ((s.arrivals ++ [a.currentRunning]).take ((s.completions + 1) * n)).count i ≤
      s.completions + 1
    rw [List.take_of_length_le (le_of_eq hlength)]
    have hsplit : (s.arrivals ++ [a.currentRunning]).count i =
        (s.arrivals.take (s.completions * n)).count i +
          (a.queues.items (.block (.barrier b)) ++ [a.currentRunning]).count i := by
      have htake : (s.arrivals ++ [a.currentRunning]).take (s.completions * n) =
          s.arrivals.take (s.completions * n) := List.take_append_of_le_length (by omega)
      rw [hgroup, ← htake, ← List.count_append, List.take_append_drop]
    omega

/-- An arrival before the last waits behind those of its generation. -/
theorem Inv.waits {a' : Kernel ListQueues} {k' : Kernel PtrQueues} (h : s.Inv b n a)
    (hfollows : Follows a' k') (hrun : RunInv a') (hwait : (a.barrier b).now + 1 < n)
    (hgathers : Gathers b { a.barrier b with now := (a.barrier b).now + 1 }
      (a.queues.items (.block (.barrier b)) ++ [a.currentRunning]) a') :
    Inv b n
      { kernel := k'
        arrivals := s.arrivals ++ [a.currentRunning]
        completions := s.completions } a' := by
  obtain ⟨hbar, hitems⟩ := hgathers
  have harrived := h.arrived
  rw [h.now] at hwait
  refine ⟨hfollows, hrun, ?_, ?_, ?_, ?_, ?_, fun i => ?_⟩
  · rw [hbar]
    exact h.goal
  · rw [hbar, hitems, List.length_append, List.length_singleton, Nat.cast_add]
    exact congrArg (· + 1) h.now
  · rw [hitems, List.length_append, List.length_singleton]
    omega
  · rw [hitems, List.length_append, List.length_append, harrived, Nat.add_assoc]
  · have hle : s.completions * n ≤ s.arrivals.length := by omega
    rw [hitems, List.drop_append_of_le_length hle, ← h.waiting]
  · show ((s.arrivals ++ [a.currentRunning]).take (s.completions * n)).count i ≤ s.completions
    rw [List.take_append_of_le_length (by omega)]
    exact h.once i

theorem Inv.stays {a' : Kernel ListQueues} {k' : Kernel PtrQueues} (h : s.Inv b n a)
    (hfollows : Follows a' k') (hrun : RunInv a')
    (hgathers : Gathers b (a.barrier b) (a.queues.items (.block (.barrier b))) a') :
    Inv b n { s with kernel := k' } a' := by
  obtain ⟨hbar, hitems⟩ := hgathers
  refine ⟨hfollows, hrun, ?_, ?_, ?_, ?_, ?_, h.once⟩
  · rw [hbar]
    exact h.goal
  · rw [hbar, hitems]
    exact h.now
  · rw [hitems]
    exact h.now_lt
  · rw [hitems]
    exact h.arrived
  · rw [hitems]
    exact h.waiting

/-- One event keeps the invariant and releases whom it should. -/
theorem Inv.step (h : s.Inv b n a) (hok : s.EventOk b e) (hstep : s.step b e = some s') :
    ∃ a', s'.Inv b n a' ∧ s.Releases b n s' e a.queues a'.queues := by
  obtain ⟨k', hk, rfl⟩ := Option.map_eq_some_iff.mp hstep
  have hcore := h.follows.core
  have hkill : e.call ≠ .kill 0 := by
    intro hcall
    rw [EventOk, hcall] at hok
    cases hok
  have hrun := h.run.step hkill
  have hsim := kernelStep_sim h.follows e
  by_cases hcall : e.call = .barrierWait b
  · obtain ⟨sp, call⟩ := e
    obtain rfl : call = .barrierWait b := hcall
    by_cases hnow : (a.barrier b).now + 1 < n
    · have hnow' : (a.barrier b).now + 1 < (a.barrier b).goal := by
        rw [h.goal]
        exact hnow
      have hwait := (hrun.and (Gathers.wait ⟨rfl, rfl⟩ h.run.toSchedInv hnow' sp))
      obtain ⟨a', _, hfollows', ⟨hrun', _⟩, hgathers⟩ :=
        hsim.of_ok hwait (kernelRun_eq_some.mp hk)
      have hlast : ¬ s.Last b ⟨sp, .barrierWait b⟩ := by
        rintro ⟨_, hlast⟩
        rw [hcore] at hlast
        exact hlast hnow'
      refine ⟨a', ?_, ?_⟩
      · rw [if_pos rfl, if_neg hlast, hcore]
        exact h.waits hfollows' hrun' hnow hgathers
      · rw [Releases, if_neg hlast, if_neg hlast, hgathers.2]
        exact ⟨rfl, List.prefix_append _ _⟩
    · have hlast' : ¬ (a.barrier b).now + 1 < (a.barrier b).goal := by
        rw [h.goal]
        exact hnow
      have hcompletes := hrun.and (completes_last a b hlast' sp)
      obtain ⟨a', _, hfollows', ⟨hrun', _⟩, hcomp⟩ :=
        hsim.of_ok hcompletes (kernelRun_eq_some.mp hk)
      have hlast : s.Last b ⟨sp, .barrierWait b⟩ := by
        refine ⟨rfl, ?_⟩
        rw [hcore]
        exact hlast'
      obtain ⟨hinv', hlength, hgroup⟩ := h.completes hfollows' hrun' hnow hcomp
      refine ⟨a', ?_, ?_⟩
      · rw [if_pos rfl, if_pos hlast, hcore]
        exact hinv'
      · rw [Releases, if_pos hlast, if_pos hlast, if_pos rfl, hcore, hfollows'.core]
        exact ⟨rfl, hlength, hgroup, hcomp.ready, hcomp.emptied, hcomp.stays⟩
  · have hgathers := hrun.and (Gathers.step (b := b) ⟨rfl, rfl⟩ h.run.toSchedInv hok hcall)
    obtain ⟨a', _, hfollows', ⟨hrun', _⟩, hgathers⟩ :=
      hsim.of_ok hgathers (kernelRun_eq_some.mp hk)
    have hlast : ¬ s.Last b e := fun hlast => hcall hlast.1
    refine ⟨a', ?_, ?_⟩
    · rw [if_neg hcall, if_neg hlast]
      exact h.stays hfollows' hrun' hgathers
    · rw [Releases, if_neg hlast, if_neg hlast, hgathers.2]
      exact ⟨rfl, List.prefix_rfl⟩

/-- For a barrier with goal `n`, in every state that is reached from boot while
nobody is killed: `now` is the number of tasks that wait and is below `n`; the
tasks that wait are the arrivals behind the completed generations; the last
arrival of a generation wakes exactly the others of the generation, and nobody
else leaves the queue; and a task has passed at most one round in each of the
completed generations of `n` arrivals. -/
theorem barrier_generations (barrier : BarrierId → Barrier) (tables : Nat → Nat → Nat)
    (hn : 1 ≤ n) (hb : barrier b = { goal := n, now := 0 })
    (h : Reaches (BarrierSystem.step b) (EventOk b) (boot barrier tables) s) :
    ∃ L, Represents s.kernel.queues L ∧
      (s.kernel.barrier b).now = (L.items (.block (.barrier b))).length ∧
      (s.kernel.barrier b).now < n ∧
      s.arrivals.length = s.completions * n + (L.items (.block (.barrier b))).length ∧
      L.items (.block (.barrier b)) = s.arrivals.drop (s.completions * n) ∧
      (∀ e s', s.EventOk b e → s.step b e = some s' →
        ∃ L', Represents s'.kernel.queues L' ∧ s.Releases b n s' e L L') ∧
      ∀ i, s.passed (L.items (.block (.barrier b))) i ≤ s.completions ∧
        s.completions * n ≤ s.arrivals.length := by
  obtain ⟨a, hinv⟩ := h.invariant (fun s => ∃ a, s.Inv b n a)
    ⟨_, inv_boot barrier tables hn hb⟩ (by
      intro s e s' ha hok hstep
      obtain ⟨a, hinv⟩ := ha
      obtain ⟨a', hinv', _⟩ := hinv.step hok hstep
      exact ⟨a', hinv'⟩)
  have harrived := hinv.arrived
  have hlt := hinv.now_lt
  have hnow := hinv.now
  refine ⟨a.queues, hinv.follows.queues, ?_, ?_, harrived, hinv.waiting, ?_, fun i => ?_⟩
  · rw [hinv.follows.core]
    exact hnow
  · rw [hinv.follows.core, hnow]
    exact_mod_cast hlt
  · intro e s' hok hstep
    obtain ⟨a', hinv', hreleases⟩ := hinv.step hok hstep
    exact ⟨a'.queues, hinv'.follows.queues, hreleases⟩
  · exact ⟨hinv.passed_le i, by omega⟩

/-- A barrier with goal 2: two tasks arrive, and the second one arrives again
before the first has run. -/
theorem two_tasks_pass :
    ∃ s, runIf (BarrierSystem.step 7) (EventOk 7)
        (boot (fun _ => { goal := 2, now := 0 }) fun _ _ => 0)
        [⟨0, .spawn 0⟩, ⟨0, .spawn 0⟩, ⟨0, .yield⟩, ⟨0, .barrierWait 7⟩, ⟨0, .barrierWait 7⟩,
          ⟨0, .barrierWait 7⟩] = some s ∧
      s.arrivals = [1, 2, 2] ∧ s.completions = 1 ∧
      ∃ L, Represents s.kernel.queues L ∧
        (s.kernel.barrier 7).now = (L.items (.block (.barrier 7))).length ∧
        L.items (.block (.barrier 7)) = s.arrivals.drop (s.completions * 2) := by
  have hrun : (runIf (BarrierSystem.step 7) (EventOk 7)
      (boot (fun _ => { goal := 2, now := 0 }) fun _ _ => 0)
      [⟨0, .spawn 0⟩, ⟨0, .spawn 0⟩, ⟨0, .yield⟩, ⟨0, .barrierWait 7⟩, ⟨0, .barrierWait 7⟩,
        ⟨0, .barrierWait 7⟩]).map (fun s => (s.arrivals, s.completions)) =
      some ([1, 2, 2], 1) := by
    decide +kernel
  obtain ⟨s, hs, hpair⟩ := Option.map_eq_some_iff.mp hrun
  obtain ⟨harrivals, hcompletions⟩ := Prod.mk.inj hpair
  obtain ⟨L, hL, hnow, _, _, hwaiting, _⟩ :=
    barrier_generations (n := 2) _ _ (by decide) rfl (reaches_of_runIf hs)
  exact ⟨s, hs, harrivals, hcompletions, L, hL, hnow, hwaiting⟩

end Runs

end BarrierSystem

end MipsOs.Sched
