import MipsOs.Sched.Mutex

/-!
# The moves of an event

An event of the list kernel is a sequence of small moves: a task is woken, the
running task joins a queue, a process gives back its memory, its PCB is freed,
the next task is dispatched.  `Move c call` lists the moves of a call that
starts in the core `c`, each with the facts that hold where the code makes it.

`kernelStep_moves` is the result: every event is a sequence of such moves
between consistent kernels.  An invariant of the events then needs one case
for each move (`Moves.invariant`).
-/

namespace MipsOs.Sched

open MipsOs.Lib MipsOs.Mm

/-- The queue that the running task joins when the call does not return at
once. -/
def Call.joins : Call → Option QueueId
  | .sleep _ => some .sleep
  | .block queue => some (.block queue)
  | .waitpid _ => some .waitpid
  | .acquire lock => some (.block (.lock lock))
  | .barrierWait b => some (.block (.barrier b))
  | _ => none

namespace Kernel

/-- A new process in the PCB `i`. -/
def spawned (k : Kernel ListQueues) (i : Task) (argc : Nat) (h : k.queues.owner i = none) :
    Kernel ListQueues :=
  Kernel.born { k with toCore := (k.toCore.newProcess argc).2.2 } i k.nextPid
    (k.toCore.newProcess argc).1 (k.toCore.newProcess argc).2.1 h

variable {k : Kernel ListQueues} {i : Task} {argc : Nat}

theorem spawned_pcb_self (h : k.queues.owner i = none) :
    (k.spawned i argc h).pcb i =
      { k.pcb i with
        pid := k.nextPid
        status := .ready
        inQueue := some .ready
        pageTable := (k.toCore.newProcess argc).2.1
        kernelSp := (k.toCore.newProcess argc).1
        locksGot := fun _ => none } := by
  simp [spawned, born, Core.newProcess]

theorem spawned_pcb_of_ne (h : k.queues.owner i = none) {j : Task} (hj : j ≠ i) :
    (k.spawned i argc h).pcb j = k.pcb j := by
  simp [spawned, born, Core.newProcess, hj]

theorem spawned_owner (h : k.queues.owner i = none) (j : Task) :
    (k.spawned i argc h).queues.owner j = if j = i then some .ready else k.queues.owner j := by
  by_cases hj : j = i
  · subst hj
    simp [spawned, born, Lists.pushed]
  · simp [spawned, born, Lists.pushed, hj]

end Kernel

theorem Call.eq_waitpid_of_joins {call : Call} (h : call.joins = some .waitpid) :
    ∃ pid, call = .waitpid pid := by
  cases call with
  | waitpid pid => exact ⟨pid, rfl⟩
  | _ => simp [Call.joins] at h

/-- One move of a call that starts in the core `c`. -/
inductive Move (c : Core) (call : Call) : Kernel ListQueues → Kernel ListQueues → Prop where
  /-- A change of `locks_got`, `sleep_until` or `kernel_sp`. -/
  | record {k : Kernel ListQueues} {i : Task} {p : Pcb}
      (hpid : p.pid = (k.pcb i).pid) (hstatus : p.status = (k.pcb i).status)
      (hqueue : p.inQueue = (k.pcb i).inQueue) (hwait : p.waitpid = (k.pcb i).waitpid)
      (hpgd : p.pageTable = (k.pcb i).pageTable) : Move c call k (k.setPcb i p)
  /-- A change of the locks, the barriers or the time. -/
  | aside {k k' : Kernel ListQueues} (hpcb : k'.pcb = k.pcb) (hqueues : k'.queues = k.queues)
      (hcur : k'.currentRunning = k.currentRunning) (hpid : k'.currentPid = k.currentPid)
      (hnext : k'.nextPid = k.nextPid) (hmm : k'.mm = k.mm) : Move c call k k'
  /-- `do_waitpid` sets the pid it waits for. -/
  | target {k : Kernel ListQueues} {pid : Int} (hoff : k.queues.owner k.currentRunning = none) :
      Move c call k (k.setPcb k.currentRunning { k.cur with waitpid := pid })
  /-- A task leaves its queue and is ready.  A task in `waitpid_queue` is woken
  by the process it waits for. -/
  | wake {k : Kernel ListQueues} {q : QueueId} {i : Task} (h : k.queues.owner i = some q)
      (hq : q ≠ .ready)
      (hwait : q = .waitpid → ∃ d, c.dying call = some d ∧ (k.pcb d).status = .exited ∧
        (k.pcb i).waitpid = (k.pcb d).pid) :
      Move c call k (k.woken q i h)
  /-- The running task sleeps, waits or blocks. -/
  | join {k : Kernel ListQueues} {q : QueueId} {s : TaskStatus}
      (hoff : k.queues.owner k.currentRunning = none) (hfits : Fits s (some q))
      (hcall : call.joins = some q) (hcur : k.currentRunning = c.currentRunning)
      (hlive : k.currentRunning ≠ 0 → k.cur.status ≠ .none)
      (hwait : ∀ pid, call = .waitpid pid →
        k.cur.waitpid = pid ∧ (k.toCore.findPid pid).isSome = true) :
      Move c call k (k.enqueued q k.currentRunning s hoff)
  /-- The running task is ready again. -/
  | preempt {k : Kernel ListQueues} (hoff : k.queues.owner k.currentRunning = none)
      (hrun : k.cur.status = .running) :
      Move c call k (k.enqueued .ready k.currentRunning .ready hoff)
  /-- The running task calls `do_exit` or kills itself. -/
  | exit {k : Kernel ListQueues} (hoff : k.queues.owner k.currentRunning = none)
      (hcur : k.currentRunning = c.currentRunning)
      (hlive : k.currentRunning ≠ 0 → k.cur.status ≠ .none) :
      Move c call k (k.setPcb k.currentRunning { k.cur with status := .exited })
  /-- A task that does not run is killed. -/
  | kill {k : Kernel ListQueues} {i : Task} {q : QueueId} (h : k.queues.owner i = some q)
      (hdying : c.dying call = some i) (hcur : i ≠ k.currentRunning) :
      Move c call k (k.killed i q h)
  | freeMemory {k : Kernel ListQueues} {i : Task} (hdying : c.dying call = some i)
      (hoff : Off i .exited k) (hpgd : (k.pcb i).pageTable ≠ 0) :
      Move c call k { k with toCore := k.toCore.freeMemory i }
  /-- The PCB is free, and nobody waits for its process. -/
  | bury {k : Kernel ListQueues} {i : Task} (hdying : c.dying call = some i)
      (hoff : Off i .exited k)
      (hwaiters : ∀ w, k.queues.owner w = some .waitpid → (k.pcb w).waitpid ≠ (k.pcb i).pid) :
      Move c call k (k.freePcb i)
  | dispatch {k : Kernel ListQueues} {i : Task} (h : k.queues.owner i = some .ready) :
      Move c call k (k.dispatched i h)
  | spawn {k : Kernel ListQueues} {i : Task} {argc : Nat} (hcall : call = .spawn argc)
      (hstart : k.toCore = c) (halloc : k.toCore.allocPcb = some i)
      (hcur : i ≠ k.currentRunning) (hoff : k.queues.owner i = none) :
      Move c call k (k.spawned i argc hoff)
  | fault {k : Kernel ListQueues} {addr : Nat} (hcall : call = .pageFault addr)
      (hstart : k.toCore = c) (hpgd : k.mm.currentPgd ≠ 0) :
      Move c call k { k with mm := k.mm.doTlbRefill addr }

/-- A sequence of moves between consistent kernels. -/
def Moves (c : Core) (call : Call) : Kernel ListQueues → Kernel ListQueues → Prop :=
  Relation.ReflTransGen fun k k' => Consistent (c.dying call) k ∧ Move c call k k'

/-- What every move keeps, the event keeps. -/
theorem Moves.invariant {c : Core} {call : Call} {k k' : Kernel ListQueues}
    (P : Kernel ListQueues → Prop) (h : Moves c call k k') (hstart : P k)
    (hmove : ∀ a b, Consistent (c.dying call) a → Move c call a b → P a → P b) : P k' := by
  induction h with
  | refl => exact hstart
  | tail _ hlast ih => exact hmove _ _ hlast.1 hlast.2 ih

/-- Reached from `k₀` by moves, and consistent. -/
def Via (c : Core) (call : Call) (k₀ k : Kernel ListQueues) : Prop :=
  Consistent (c.dying call) k ∧ Moves c call k₀ k

section Via

variable {c : Core} {call : Call} {k₀ k k' : Kernel ListQueues} {i : Task}

theorem Via.move (h : Via c call k₀ k) (hmove : Move c call k k')
    (hcons : Consistent (c.dying call) k') : Via c call k₀ k' :=
  ⟨hcons, h.2.tail ⟨h.1, hmove⟩⟩

theorem Via.record (h : Via c call k₀ k) (i : Task) {p : Pcb} (hpid : p.pid = (k.pcb i).pid)
    (hstatus : p.status = (k.pcb i).status) (hqueue : p.inQueue = (k.pcb i).inQueue)
    (hwait : p.waitpid = (k.pcb i).waitpid) (hpgd : p.pageTable = (k.pcb i).pageTable) :
    Via c call k₀ (k.setPcb i p) :=
  h.move (.record hpid hstatus hqueue hwait hpgd) (h.1.setPcb i hpid hstatus hqueue)

theorem Via.aside (h : Via c call k₀ k) (hpcb : k'.pcb = k.pcb) (hqueues : k'.queues = k.queues)
    (hcur : k'.currentRunning = k.currentRunning) (hpid : k'.currentPid = k.currentPid)
    (hnext : k'.nextPid = k.nextPid) (hmm : k'.mm = k.mm) : Via c call k₀ k' := by
  refine h.move (.aside hpcb hqueues hcur hpid hnext hmm) ?_
  exact h.1.congr (fun i => by rw [hpcb]) (fun i => by rw [hpcb]) (fun i => by rw [hpcb])
    (by rw [hqueues]) hcur hnext

theorem Via.wake (h : Via c call k₀ k) {q : QueueId} (hi : k.queues.owner i = some q)
    (hq : q ≠ .ready) (hwait : q ≠ .waitpid) : Via c call k₀ (k.woken q i hi) :=
  h.move (.wake hi hq fun heq => absurd heq hwait) (h.1.woken hi)

theorem Via.lockwise (c : Core) (call : Call) (k₀ : Kernel ListQueues) :
    Lockwise (Via c call k₀) where
  locks _ i _ h := h.record i rfl rfl rfl rfl rfl
  lock _ _ _ h := h.aside rfl rfl rfl rfl rfl rfl
  unblocked _ _ _ hi h := h.wake hi (by simp) (by simp)

/-! ## Death -/

/-- The pid of a task. -/
theorem lockwise_pid (i : Task) (pid : Int) : Lockwise fun k => (k.pcb i).pid = pid where
  locks k j g h := by
    by_cases hij : i = j
    · subst hij
      rw [Kernel.setPcb_pcb_self]
      exact h
    · rw [Kernel.setPcb_pcb_of_ne hij]
      exact h
  lock _ _ _ h := h
  unblocked k b j hj h := by
    by_cases hij : i = j
    · subst hij
      rw [Kernel.woken_pcb_self]
      exact h
    · rw [Kernel.woken_pcb_of_ne hj hij]
      exact h

theorem Lockwise.and {P Q : Kernel ListQueues → Prop} (hP : Lockwise P) (hQ : Lockwise Q) :
    Lockwise fun k => P k ∧ Q k where
  locks k i g h := ⟨hP.locks k i g h.1, hQ.locks k i g h.2⟩
  lock k l s h := ⟨hP.lock k l s h.1, hQ.lock k l s h.2⟩
  unblocked k b i hi h := ⟨hP.unblocked k b i hi h.1, hQ.unblocked k b i hi h.2⟩

/-- The walk over `waitpid_queue` wakes everybody who waits for the pid. -/
theorem wakeWaiting_clears {P : Kernel ListQueues → Prop} {pid : Int}
    (hstep : ∀ k i (h : k.queues.owner i = some .waitpid), P k → (k.pcb i).waitpid = pid →
      P (k.woken .waitpid i h))
    (hP : P k) : Safe (k.wakeWaiting pid) fun k' => P k' ∧
      ∀ w, k'.queues.owner w = some .waitpid → (k'.pcb w).waitpid ≠ pid := by
  simp only [Kernel.wakeWaiting]
  split
  · rename_i hempty
    refine ⟨hP, fun w hw => ?_⟩
    have hnil : k.queues.items .waitpid = [] := List.isEmpty_iff.mp hempty
    rw [← k.queues.mem_iff, hnil] at hw
    cases hw
  · refine (Kernel.wakeAll_splits (by decide) (fun k i h hk hdue =>
      hstep k i h hk (by simpa using hdue)) hP).mono ?_
    rintro k' ⟨hP', hleft, _, hother⟩
    refine ⟨hP', fun w hw => ?_⟩
    rw [← k'.queues.mem_iff, hleft] at hw
    obtain ⟨_, hdue⟩ := List.mem_filter.mp hw
    have hnot : decide ((k.pcb w).waitpid = pid) = false := by simpa using hdue
    rw [hother w fun _ => hnot]
    exact of_decide_eq_false hnot

theorem Via.freeProc (h : Via c call k₀ k) (hdying : c.dying call = some i)
    (hoff : Off i .exited k) : Safe (k.freeProc i) (Via c call k₀) := by
  have hclosed := (Off.closed i .exited).toQuiet.lockwise.and (lockwise_pid i (k.pcb i).pid)
  have hlockwise := (Via.lockwise c call k₀).and hclosed
  simp only [Kernel.freeProc]
  split
  · trivial
  · rename_i hpgd
    have hmemory : Via c call k₀ { k with toCore := k.toCore.freeMemory i } :=
      h.move (.freeMemory hdying hoff hpgd) ((Consistent.closed _).memory k i h.1)
    refine (hlockwise.releaseLocks ⟨hmemory, hoff, rfl⟩ i _).bind fun k₁ h₁ => ?_
    have hwake : Safe (k₁.wakeWaiting (k.pcb i).pid) fun k₂ =>
        (Via c call k₀ k₂ ∧ Off i .exited k₂ ∧ (k₂.pcb i).pid = (k.pcb i).pid) ∧
          ∀ w, k₂.queues.owner w = some .waitpid → (k₂.pcb w).waitpid ≠ (k.pcb i).pid := by
      refine wakeWaiting_clears ?_ h₁
      rintro a w hw ⟨hvia, haoff, hpid⟩ hwait
      have hne : i ≠ w := by
        rintro rfl
        rw [haoff.1] at hw
        cases hw
      refine ⟨?_, (Off.closed i .exited).woken a _ w hw haoff, ?_⟩
      · refine hvia.move (.wake hw (by decide) fun _ => ⟨i, hdying, haoff.2, ?_⟩)
          (hvia.1.woken hw)
        rw [hwait, hpid]
      · rw [Kernel.woken_pcb_of_ne hw hne]
        exact hpid
    refine hwake.bind ?_
    rintro k₂ ⟨⟨hvia, hoff₂, hpid⟩, hwaiters⟩
    refine hvia.move (.bury hdying hoff₂ (by rw [hpid]; exact hwaiters)) ?_
    have hcons := hvia.1
    rw [hdying] at hcons
    exact (hcons.freePcb hoff₂).weaken

/-! ## Scheduling -/

/-- Only the task that dies in this call is marked to be freed. -/
def Marked (c : Core) (call : Call) (k : Kernel ListQueues) : Prop :=
  k.cur.status = .exited → c.dying call = some k.currentRunning

theorem Marked.woken (h : Marked c call k) {q : QueueId} (hi : k.queues.owner i = some q) :
    Marked c call (k.woken q i hi) := by
  intro hs
  rw [Kernel.cur, Kernel.woken_currentRunning] at hs
  by_cases hcur : k.currentRunning = i
  · rw [hcur, Kernel.woken_pcb_self] at hs
    cases hs
  · rw [Kernel.woken_pcb_of_ne hi hcur] at hs
    exact h hs

theorem Via.retire (h : Via c call k₀ k) (hcons : Consistent none k) (hmarked : Marked c call k) :
    Safe k.retire (Via c call k₀) := by
  simp only [Kernel.retire]
  split
  · rename_i hrun
    have hs : (k.pcb k.currentRunning).status = .running := hrun.2
    have hoff := hcons.fits k.currentRunning
    rw [hs] at hoff
    refine Kernel.enqueue_rule hoff (h.move (.preempt hoff hrun.2) ?_)
    refine h.1.enqueued hoff rfl fun _ => ?_
    rw [hs]
    decide
  · split
    · rename_i hex
      have hs : (k.pcb k.currentRunning).status = .exited := hex
      have hoff := hcons.fits k.currentRunning
      rw [hs] at hoff
      exact h.freeProc (hmarked hex) ⟨hoff, hs⟩
    · exact h

/-- `do_scheduler` is a sequence of moves. -/
theorem Via.doScheduler (h : Via c call k₀ k) (hcons : Consistent none k)
    (hmarked : Marked c call k) (sp : Nat) :
    Safe (k.doScheduler sp) fun k' => SchedInv k' ∧ Moves c call k₀ k' := by
  set k₁ := k.setPcb k.currentRunning { k.cur with kernelSp := sp } with hk₁
  have hvia₁ : Via c call k₀ k₁ := h.record _ rfl rfl rfl rfl rfl
  have hcons₁ : Consistent none k₁ := hcons.setPcb _ rfl rfl rfl
  have hmarked₁ : Marked c call k₁ := by
    intro hs
    rw [hk₁, Kernel.cur, Kernel.setPcb_currentRunning, Kernel.setPcb_pcb_self] at hs
    exact hmarked hs
  have hsleep : Safe k₁.checkSleeping fun k =>
      Via c call k₀ k ∧ Consistent none k ∧ Marked c call k := by
    refine Kernel.checkSleeping_rule ?_ ⟨hvia₁, hcons₁, hmarked₁⟩
    rintro a i hi ⟨hvia, hcons, hmarked⟩
    exact ⟨hvia.wake hi (by decide) (by decide), hcons.woken hi, hmarked.woken hi⟩
  refine hsleep.bind ?_
  rintro k₂ ⟨hvia₂, hcons₂, hmarked₂⟩
  refine ((hvia₂.retire hcons₂ hmarked₂).and hcons₂.retire).bind ?_
  rintro k₃ ⟨hvia₃, hswitching⟩
  refine hswitching.dispatch.and (Kernel.dispatch_rule fun i rest hitems => ?_) |>.mono
    fun _ h => h
  exact hvia₃.2.tail ⟨hvia₃.1, .dispatch (Lists.owner_of_cons hitems)⟩

end Via

/-! ## Events -/

section Events

variable {k : Kernel ListQueues} {e : Event}

/-- The start of a call. -/
theorem SchedInv.via (h : SchedInv k) (call : Call) : Via k.toCore call k k :=
  ⟨h.toConsistent.weaken, .refl⟩

/-- The running task joins the queue of the call. -/
theorem Via.enqueue_current {k₀ : Kernel ListQueues} {call : Call}
    (h : Via k₀.toCore call k₀ k) (hinv : SchedInv k) {q : QueueId} {s : TaskStatus}
    (hfits : Fits s (some q)) (hcall : call.joins = some q)
    (hcur : k.currentRunning = k₀.currentRunning)
    (hwait : ∀ pid, call = .waitpid pid →
      k.cur.waitpid = pid ∧ (k.toCore.findPid pid).isSome = true) (sp : Nat) :
    Safe (k.enqueue q k.currentRunning s >>= fun k => k.doScheduler sp)
      fun k' => SchedInv k' ∧ Moves k₀.toCore call k₀ k' := by
  refine hinv.join_rule hfits fun hoff hcons => ?_
  refine (h.move (.join hoff hfits hcall hcur hinv.current_live hwait)
    hcons.weaken).doScheduler hcons ?_ sp
  intro hs
  rw [Kernel.cur] at hs
  have hself := congrArg Pcb.status (Kernel.enqueued_pcb_self (q := q) (s := s) hoff)
  obtain rfl : s = .exited := hself.symm.trans hs
  cases hfits

theorem moves_doExit (h : SchedInv k) (sp : Nat) :
    Safe (k.doExit sp) fun k' => SchedInv k' ∧ Moves k.toCore .exit k k' := by
  obtain ⟨hcons, hoff⟩ := h.exiting_current
  have hdying : k.toCore.dying .exit = some k.currentRunning := rfl
  have hvia : Via k.toCore .exit k
      (k.setPcb k.currentRunning { k.cur with status := .exited }) := by
    refine (h.via .exit).move (.exit h.owner_current rfl h.current_live) ?_
    rw [hdying]
    exact hcons
  refine ((hvia.freeProc hdying hoff).and (hcons.freeProc hoff)).bind ?_
  rintro k₁ ⟨hvia₁, hcons₁, hcur₁, hoff₁, _⟩
  refine hvia₁.doScheduler hcons₁ ?_ sp
  intro hs
  have hcur₁' : k₁.currentRunning = k.currentRunning := hcur₁
  rw [Kernel.cur, hcur₁', hoff₁.2] at hs
  cases hs

theorem moves_doKill (h : SchedInv k) {pid : Int}
    (hex : k.toCore.findPid pid = some k.currentRunning → k.cur.status ≠ .exited)
    (hpid : pid ≠ 0) :
    Safe (k.doKill pid) fun r => Moves k.toCore (.kill pid) k r.2 := by
  rcases h.doKill_cases hex hpid with ⟨_, heq⟩ | ⟨_, _, _, heq⟩ |
    ⟨i, q, hq, hfind, _, hcur, hrun, _, hcons, hoff, heq⟩
  · rw [heq]
    exact .refl
  · rw [heq]
    exact .single ⟨h.toConsistent.weaken, .exit h.owner_current rfl h.current_live⟩
  · rw [heq]
    have hdying : k.toCore.dying (.kill pid) = some i := Core.dying_kill_other hfind hrun
    have hvia : Via k.toCore (.kill pid) k (k.killed i q hq) := by
      refine (h.via _).move (.kill hq hdying hcur) ?_
      rw [hdying]
      exact hcons
    exact (hvia.freeProc hdying hoff).bind fun k' h' => h'.2

/-- The running task is not the one that is born. -/
theorem SchedInv.ne_current (h : SchedInv k) {i : Task} (halloc : k.toCore.allocPcb = some i) :
    i ≠ k.currentRunning := by
  obtain ⟨hi0, hnone⟩ := Core.allocPcb_eq_some halloc
  rintro rfl
  exact h.current_live hi0 hnone

/-- A switch: the task that killed itself dies. -/
theorem marked_switch {call : Call} (h : call.isSwitch = true) : Marked k.toCore call k := by
  intro hs
  rw [Core.dying_switch _ h]
  exact if_pos hs

/-- `do_spawn` makes a process in a free PCB. -/
theorem Kernel.doSpawn_eq {i : Task} (halloc : k.toCore.allocPcb = some i)
    (hoff : k.queues.owner i = none) (argc : Nat) (hpid : k.nextPid + 1 < 2 ^ 63) :
    k.doSpawn argc = .ok (k.nextPid, k.spawned i argc hoff) := by
  simp only [Kernel.doSpawn, halloc]
  rw [if_pos hpid,
    Kernel.setPcbReady_eq (k := { k with toCore := (k.toCore.newProcess argc).2.2 }) hoff]
  rfl

/-- `do_spawn` finds no PCB, runs out of pids, or makes a process. -/
theorem SchedInv.doSpawn_cases (h : SchedInv k) (argc : Nat) :
    k.doSpawn argc = .ok (-1, k) ∨ k.doSpawn argc = .error .overflow ∨
      ∃ i, ∃ hoff : k.queues.owner i = none, k.toCore.allocPcb = some i ∧
        k.doSpawn argc = .ok (k.nextPid, k.spawned i argc hoff) := by
  cases halloc : k.toCore.allocPcb with
  | none =>
    refine Or.inl ?_
    simp only [Kernel.doSpawn, halloc]
  | some i =>
    have hoff : k.queues.owner i = none := by
      have hfits := h.fits i
      rw [(Core.allocPcb_eq_some halloc).2] at hfits
      exact hfits
    by_cases hpid : k.nextPid + 1 < 2 ^ 63
    · exact Or.inr (Or.inr ⟨i, hoff, rfl, Kernel.doSpawn_eq halloc hoff argc hpid⟩)
    · refine Or.inr (Or.inl ?_)
      simp only [Kernel.doSpawn, halloc]
      rw [if_neg hpid]

/-- Every event is a sequence of moves. -/
theorem kernelStep_moves (h : SchedInv k)
    (hkill : ∀ pid, e.call = .kill pid → pid ≠ 0 ∧
      (k.toCore.findPid pid = some k.currentRunning → k.cur.status ≠ .exited)) :
    Safe (kernelStep k e) fun k' => SchedInv k' ∧ Moves k.toCore e.call k k' := by
  have hstep := h.step_of hkill
  obtain ⟨sp, call⟩ := e
  have hvia := h.via call
  have hlockwise := Via.lockwise k.toCore call k
  cases call with
  | spawn argc =>
    refine hstep.and ?_
    rcases h.doSpawn_cases argc with heq | heq | ⟨i, hoff, halloc, heq⟩
    · simp only [kernelStep, heq]
      exact .refl
    · simp only [kernelStep, heq]
      trivial
    · simp only [kernelStep, heq]
      exact .single ⟨h.toConsistent.weaken, .spawn rfl rfl halloc (h.ne_current halloc) hoff⟩
  | yield => exact hvia.doScheduler h.toConsistent (marked_switch rfl) sp
  | timer count =>
    have h' : SchedInv (k.updateTimeElapsed count) := h.congr rfl rfl rfl rfl
    have hvia' : Via k.toCore (.timer count) k (k.updateTimeElapsed count) :=
      hvia.aside rfl rfl rfl rfl rfl rfl
    have hmarked : Marked k.toCore (.timer count) k := marked_switch rfl
    exact hvia'.doScheduler h'.toConsistent hmarked sp
  | sleep time =>
    simp only [kernelStep, Kernel.doSleep]
    generalize (k.getTimer + time) % 2 ^ 32 = sleepUntil
    have h' := h.setPcb_current (p := { k.cur with sleepUntil := sleepUntil }) rfl rfl rfl
    exact (hvia.record k.currentRunning (p := { k.cur with sleepUntil := sleepUntil }) rfl rfl
      rfl rfl rfl).enqueue_current h' (q := .sleep) (s := .sleeping) rfl rfl rfl
      (by rintro _ ⟨⟩) sp
  | block queue =>
    exact hvia.enqueue_current h (q := .block queue) (s := .blocked) (Or.inr ⟨_, rfl⟩) rfl rfl
      (by rintro _ ⟨⟩) sp
  | unblockOne queue => exact hstep.and ((hlockwise.doUnblockOne hvia queue).mono fun _ h => h.2)
  | unblockAll queue => exact hstep.and ((hlockwise.doUnblockAll hvia queue).mono fun _ h => h.2)
  | waitpid pid =>
    simp only [kernelStep, Kernel.doWaitpid]
    split
    · rename_i hfind
      have h' := h.setPcb_current (p := { k.cur with waitpid := pid }) rfl rfl rfl
      have htarget : Move k.toCore (.waitpid pid) k
          (k.setPcb k.currentRunning { k.cur with waitpid := pid }) := .target h.owner_current
      refine (hvia.move htarget h'.toConsistent.weaken).enqueue_current
        h' (q := .waitpid) (s := .blocked) (Or.inl rfl) rfl rfl ?_ sp
      rintro _ ⟨rfl⟩
      refine ⟨by rw [Kernel.cur, Kernel.setPcb_currentRunning, Kernel.setPcb_pcb_self], ?_⟩
      have hpids : ∀ i, ((k.setPcb k.currentRunning { k.cur with waitpid := pid }).pcb i).pid =
          (k.pcb i).pid := by
        intro i
        by_cases hi : i = k.currentRunning
        · subst hi
          rw [Kernel.setPcb_pcb_self]
          rfl
        · rw [Kernel.setPcb_pcb_of_ne hi]
      simp only [Core.findPid, hpids]
      exact hfind
    · exact ⟨h, .refl⟩
  | exit => exact moves_doExit h sp
  | kill pid =>
    obtain ⟨hpid, hex⟩ := hkill pid rfl
    exact hstep.and ((moves_doKill h hex hpid).bind fun _ h => h)
  | acquire lock =>
    simp only [kernelStep, Kernel.doMutexLockAcquire] at hstep ⊢
    split
    · rename_i hopen
      rw [if_pos hopen] at hstep
      exact hstep.and (hlockwise.lock _ lock _ (hlockwise.procGetLock hvia lock)).2
    · exact hvia.enqueue_current h (q := .block (.lock lock)) (s := .blocked)
        (Or.inr ⟨_, rfl⟩) rfl rfl (by rintro _ ⟨⟩) sp
  | release lock => exact hstep.and ((hlockwise.doMutexLockRelease hvia lock).mono fun _ h => h.2)
  | barrierWait b =>
    have h' : SchedInv (k.setBarrierNow b ((k.barrier b).now + 1)) := h.congr rfl rfl rfl rfl
    have hvia' : Via k.toCore (.barrierWait b) k (k.setBarrierNow b ((k.barrier b).now + 1)) :=
      hvia.aside rfl rfl rfl rfl rfl rfl
    simp only [kernelStep, Kernel.doBarrierWait] at hstep ⊢
    split
    · exact hvia'.enqueue_current h' (q := .block (.barrier b)) (s := .blocked)
        (Or.inr ⟨_, rfl⟩) rfl rfl (by rintro _ ⟨⟩) sp
    · rename_i hall
      rw [if_neg hall] at hstep
      refine hstep.and ((hlockwise.doUnblockAll hvia' _).bind fun k₁ h₁ => ?_)
      have hvia₁ : Via k.toCore (.barrierWait b) k (k₁.setBarrierNow b 0) :=
        h₁.aside rfl rfl rfl rfl rfl rfl
      exact hvia₁.2
  | pageFault addr =>
    refine hstep.and ?_
    simp only [kernelStep, Kernel.pageFault]
    split
    · trivial
    · rename_i hpgd
      exact .single ⟨h.toConsistent.weaken, .fault rfl rfl hpgd⟩

/-! ## The running task -/

/-- A running task in no queue has no queue in its field `in_queue`. -/
def QueueField (k : Kernel ListQueues) : Prop :=
  k.queues.owner k.currentRunning = none → k.cur.inQueue = none

/-- A change of a PCB that keeps its field `in_queue`. -/
theorem QueueField.setPcb {i : Task} {p : Pcb} (h : QueueField k)
    (hqueue : p.inQueue = (k.pcb i).inQueue) : QueueField (k.setPcb i p) := by
  intro hoff
  rw [Kernel.cur, Kernel.setPcb_currentRunning]
  by_cases hi : k.currentRunning = i
  · rw [hi, Kernel.setPcb_pcb_self, hqueue, ← hi]
    exact h hoff
  · rw [Kernel.setPcb_pcb_of_ne hi]
    exact h hoff

theorem Move.queueField {c : Core} {call : Call} {a b : Kernel ListQueues}
    (hmove : Move c call a b) (h : QueueField a) :
    QueueField b := by
  have hmoved : ∀ {b : Kernel ListQueues} {i : Task} {q : QueueId},
      b.currentRunning = a.currentRunning → b.queues.owner i = some q →
      (∀ j, j ≠ i → b.queues.owner j = a.queues.owner j ∧ b.pcb j = a.pcb j) →
      QueueField b := by
    intro b i q hcur hown hother hoff
    rw [hcur] at hoff
    have hi : a.currentRunning ≠ i := by
      rintro rfl
      rw [hown] at hoff
      cases hoff
    obtain ⟨howner, hpcb⟩ := hother _ hi
    rw [Kernel.cur, hcur, hpcb]
    exact h (howner.symm.trans hoff)
  cases hmove with
  | record hpid hstatus hqueue hwait hpgd => exact h.setPcb hqueue
  | aside hpcb hqueues hcur hpid hnext hmm =>
    intro hoff
    rw [Kernel.cur, hpcb, hcur]
    rw [hqueues, hcur] at hoff
    exact h hoff
  | target hoff => exact h.setPcb rfl
  | wake hi hq hwait =>
    refine hmoved rfl ((Kernel.woken_owner hi _).trans (if_pos rfl)) fun j hj => ⟨?_, ?_⟩
    · rw [Kernel.woken_owner, if_neg hj]
    · exact Kernel.woken_pcb_of_ne hi hj
  | join hoff hfits hcall hcur hlive hwait =>
    refine hmoved rfl ((Kernel.enqueued_owner hoff _).trans (if_pos rfl)) fun j hj => ⟨?_, ?_⟩
    · rw [Kernel.enqueued_owner, if_neg hj]
    · exact Kernel.enqueued_pcb_of_ne hoff hj
  | preempt hoff hrun =>
    refine hmoved rfl ((Kernel.enqueued_owner hoff _).trans (if_pos rfl)) fun j hj => ⟨?_, ?_⟩
    · rw [Kernel.enqueued_owner, if_neg hj]
    · exact Kernel.enqueued_pcb_of_ne hoff hj
  | exit hoff hcur hlive => exact h.setPcb rfl
  | @kill i q hi hdying hcur =>
    intro hoff
    have howner := Kernel.taken_owner (k := a.setPcb i { a.pcb i with status := .exited }) hi
      a.currentRunning
    rw [if_neg hcur.symm] at howner
    refine Eq.trans ?_ (h (howner.symm.trans hoff))
    exact congrArg Pcb.inQueue (Kernel.killed_pcb_of_ne hi hcur.symm)
  | freeMemory hdying hoff hpgd => exact h
  | bury hdying hoff hwaiters => exact h.setPcb rfl
  | dispatch hi =>
    intro _
    exact congrArg Pcb.inQueue (Kernel.dispatched_pcb_self hi)
  | spawn hcall hstart halloc hcur hoff =>
    refine hmoved rfl ((Kernel.spawned_owner hoff _).trans (if_pos rfl)) fun j hj => ⟨?_, ?_⟩
    · rw [Kernel.spawned_owner, if_neg hj]
    · exact Kernel.spawned_pcb_of_ne hoff hj
  | fault hcall hstart hpgd => exact h

/-- The invariant, and the running task has no queue in its field `in_queue`. -/
structure RunInv (k : Kernel ListQueues) : Prop extends SchedInv k where
  current_queue : k.cur.inQueue = none

/-- A task that kills itself twice is in no queue that it could leave. -/
theorem RunInv.kill_twice (h : RunInv k) {pid : Int} (hcall : e.call = .kill pid)
    (hfind : k.toCore.findPid pid = some k.currentRunning) (hex : k.cur.status = .exited) :
    kernelStep k e = .error .null := by
  have hrun : (k.pcb k.currentRunning).status ≠ .running := by
    rw [show (k.pcb k.currentRunning).status = .exited from hex]
    decide
  have hqueue : ((k.setPcb k.currentRunning
      { k.pcb k.currentRunning with status := .exited }).pcb k.currentRunning).inQueue =
      none := by
    rw [Kernel.setPcb_pcb_self]
    exact h.current_queue
  simp only [kernelStep, hcall, Kernel.doKill, hfind, if_neg hrun, hqueue]
  rfl

/-- What a kill leaves behind when it does not fault: nobody has the pid, the running
task has marked itself, or another task has left its queue and is freed. -/
theorem RunInv.kill_rule (h : RunInv k) {pid : Int} (hpid : pid ≠ 0) (sp : Nat)
    {P : Kernel ListQueues → Prop} (hnobody : k.toCore.findPid pid = none → P k)
    (hself : k.toCore.findPid pid = some k.currentRunning → k.cur.status = .running →
      P (k.setPcb k.currentRunning { k.cur with status := .exited }))
    (hother : ∀ i q (hq : k.queues.owner i = some q), k.toCore.findPid pid = some i → i ≠ 0 →
      (k.pcb i).status ≠ .running → (k.pcb i).status ≠ .none →
      Safe ((k.killed i q hq).freeProc i) P) :
    Safe (kernelStep k ⟨sp, .kill pid⟩) P := by
  by_cases htwice : k.toCore.findPid pid = some k.currentRunning ∧ k.cur.status = .exited
  · rw [h.kill_twice rfl htwice.1 htwice.2]
    trivial
  · rcases h.doKill_cases (fun hfind hex => htwice ⟨hfind, hex⟩) hpid with ⟨hfind, heq⟩ |
      ⟨hfind, _, hrun, heq⟩ | ⟨i, q, hq, hfind, hi0, _, hrun, hlive, _, _, heq⟩
    · simp only [kernelStep, heq]
      exact hnobody hfind
    · simp only [kernelStep, heq]
      exact hself hfind hrun
    · simp only [kernelStep, heq]
      have hfreed : Safe ((k.killed i q hq).freeProc i >>= fun k => .ok ((0 : Int), k))
          fun r => P r.2 := (hother i q hq hfind hi0 hrun hlive).bind fun _ h' => h'
      exact hfreed.bind fun _ h' => h'

/-- One event keeps the invariant, unless pid 0 is killed, and is a sequence of
moves. -/
theorem RunInv.step (h : RunInv k) (hkill : e.call ≠ .kill 0) :
    Safe (kernelStep k e) fun k' => RunInv k' ∧ Moves k.toCore e.call k k' := by
  by_cases htwice : ∃ pid, e.call = .kill pid ∧ k.toCore.findPid pid = some k.currentRunning ∧
      k.cur.status = .exited
  · obtain ⟨pid, hcall, hfind, hex⟩ := htwice
    rw [h.kill_twice hcall hfind hex]
    trivial
  · refine (kernelStep_moves h.toSchedInv fun pid hcall => ⟨?_, fun hfind hex => ?_⟩).mono ?_
    · rintro rfl
      exact hkill hcall
    · exact htwice ⟨pid, hcall, hfind, hex⟩
    · rintro k' ⟨hinv, hmoves⟩
      refine ⟨⟨hinv, ?_⟩, hmoves⟩
      have hfield := hmoves.invariant QueueField (fun _ => h.current_queue)
        fun a b _ hmove ha => hmove.queueField ha
      exact hfield hinv.owner_current

/-- The task that dies in a call is free after it. -/
theorem RunInv.dying_freed (h : RunInv k) (hkill : e.call ≠ .kill 0) {p : Task}
    (hdying : k.toCore.dying e.call = some p) :
    Safe (kernelStep k e) fun k' => (k'.pcb p).status = .none := by
  have hmoved : ∀ {m : Except Fault (Kernel ListQueues)},
      Safe m (Moved k (k.toCore.lockMove e.call)) → Safe m fun k' => (k'.pcb p).status = .none :=
    fun hm => hm.mono fun k' hk' => by simpa [Core.alive] using hk'.2.2 p hdying
  obtain ⟨sp, call⟩ := e
  cases call with
  | yield => exact hmoved (moved_switch h.toSchedInv sp)
  | timer count => exact hmoved (moved_irqTimer h.toSchedInv sp count)
  | exit => exact hmoved (moved_doExit h.toSchedInv sp)
  | kill pid =>
    by_cases htwice : k.toCore.findPid pid = some k.currentRunning ∧ k.cur.status = .exited
    · rw [h.kill_twice rfl htwice.1 htwice.2]
      trivial
    · have hpid : pid ≠ 0 := by
        rintro rfl
        exact hkill rfl
      exact hmoved ((moved_doKill h.toSchedInv (fun hfind hex => htwice ⟨hfind, hex⟩) hpid).bind
        fun _ hk' => hk')
  | acquire lock =>
    simp only [Core.dying, Core.lockMove] at hdying
    split at hdying <;> cases hdying
  | _ => cases hdying

end Events

/-! ## Birth and death -/

section Lives

variable {c : Core} {call : Call} {a b k₀ k : Kernel ListQueues}

/-- A process keeps its pid and its page directory, and it stays alive. -/
def SameLives (a b : Kernel ListQueues) : Prop :=
  ∀ j, j ≠ 0 → (b.pcb j).pid = (a.pcb j).pid ∧ (b.pcb j).pageTable = (a.pcb j).pageTable ∧
    ((b.pcb j).status = .none ↔ (a.pcb j).status = .none)

/-- A change of one PCB keeps the processes. -/
theorem sameLives_of_ne {i : Task}
    (hself : i ≠ 0 → (b.pcb i).pid = (a.pcb i).pid ∧
      (b.pcb i).pageTable = (a.pcb i).pageTable ∧
      ((b.pcb i).status = .none ↔ (a.pcb i).status = .none))
    (hother : ∀ j, j ≠ i → b.pcb j = a.pcb j) : SameLives a b := by
  intro j hj0
  by_cases hj : j = i
  · subst hj
    exact hself hj0
  · rw [hother j hj]
    exact ⟨rfl, rfl, Iff.rfl⟩

/-- A move keeps the processes, frees the one that dies, or makes one. -/
theorem Move.lives_cases (hcons : Consistent (c.dying call) a) (hmove : Move c call a b) :
    SameLives a b ∨
      (∃ i, c.dying call = some i ∧ Off i .exited a ∧
        (∀ w, a.queues.owner w = some .waitpid → (a.pcb w).waitpid ≠ (a.pcb i).pid) ∧
        b = a.freePcb i) ∨
      ∃ i argc, ∃ hoff : a.queues.owner i = none, call = .spawn argc ∧ a.toCore = c ∧
        a.toCore.allocPcb = some i ∧ b = a.spawned i argc hoff := by
  cases hmove with
  | @record i p hpid hstatus hqueue hwait hpgd =>
    refine Or.inl (sameLives_of_ne (i := i) (fun _ => ?_) fun j hj =>
      Kernel.setPcb_pcb_of_ne hj p)
    rw [Kernel.setPcb_pcb_self, hstatus]
    exact ⟨hpid, hpgd, Iff.rfl⟩
  | aside hpcb hqueues hcur hpid hnext hmm =>
    refine Or.inl fun j _ => ?_
    rw [hpcb]
    exact ⟨rfl, rfl, Iff.rfl⟩
  | target hoff =>
    refine Or.inl (sameLives_of_ne (i := a.currentRunning) (fun _ => ?_) fun j hj =>
      Kernel.setPcb_pcb_of_ne hj _)
    rw [Kernel.setPcb_pcb_self]
    exact ⟨rfl, rfl, Iff.rfl⟩
  | @wake q i hi hq hwait =>
    refine Or.inl (sameLives_of_ne (i := i) (fun _ => ?_) fun j hj =>
      Kernel.woken_pcb_of_ne hi hj)
    rw [Kernel.woken_pcb_self]
    exact ⟨rfl, rfl, iff_of_false (by simp) (hcons.status_ne_none hi)⟩
  | join hoff hfits hcall hcur hlive hwait =>
    refine Or.inl (sameLives_of_ne (i := a.currentRunning) (fun h0 => ?_) fun j hj =>
      Kernel.enqueued_pcb_of_ne hoff hj)
    rw [Kernel.enqueued_pcb_self]
    refine ⟨rfl, rfl, iff_of_false ?_ (hlive h0)⟩
    rintro rfl
    cases hfits
  | preempt hoff hrun =>
    refine Or.inl (sameLives_of_ne (i := a.currentRunning) (fun _ => ?_) fun j hj =>
      Kernel.enqueued_pcb_of_ne hoff hj)
    rw [Kernel.enqueued_pcb_self]
    refine ⟨rfl, rfl, iff_of_false (by simp) ?_⟩
    exact ne_of_eq_of_ne hrun (by decide)
  | exit hoff hcur hlive =>
    refine Or.inl (sameLives_of_ne (i := a.currentRunning) (fun h0 => ?_) fun j hj =>
      Kernel.setPcb_pcb_of_ne hj _)
    rw [Kernel.setPcb_pcb_self]
    exact ⟨rfl, rfl, iff_of_false (by simp) (hlive h0)⟩
  | @kill i q hi hdying hcur =>
    refine Or.inl (sameLives_of_ne (i := i) (fun _ => ?_) fun j hj =>
      Kernel.killed_pcb_of_ne hi hj)
    rw [Kernel.killed_pcb_self]
    exact ⟨rfl, rfl, iff_of_false (by simp) (hcons.status_ne_none hi)⟩
  | freeMemory hdying hoff hpgd => exact Or.inl fun _ _ => ⟨rfl, rfl, Iff.rfl⟩
  | bury hdying hoff hwaiters => exact Or.inr (Or.inl ⟨_, hdying, hoff, hwaiters, rfl⟩)
  | @dispatch i hi =>
    refine Or.inl (sameLives_of_ne (i := i) (fun _ => ?_) fun j hj =>
      Kernel.dispatched_pcb_of_ne hi hj)
    rw [Kernel.dispatched_pcb_self]
    exact ⟨rfl, rfl, iff_of_false (by simp) (hcons.status_ne_none hi)⟩
  | spawn hcall hstart halloc hcur hoff =>
    exact Or.inr (Or.inr ⟨_, _, hoff, hcall, hstart, halloc, rfl⟩)
  | fault hcall hstart hpgd => exact Or.inl fun _ _ => ⟨rfl, rfl, Iff.rfl⟩

/-- What one event does to the processes. -/
structure Lifecycle (c : Core) (call : Call) (k₀ k : Kernel ListQueues) : Prop where
  /-- A process that lives on keeps its pid and its page directory. -/
  kept : ∀ j, j ≠ 0 → (k₀.pcb j).status ≠ .none → (k.pcb j).status ≠ .none →
    (k.pcb j).pid = (k₀.pcb j).pid ∧ (k.pcb j).pageTable = (k₀.pcb j).pageTable
  /-- Nobody is freed but the process that dies. -/
  living : ∀ j, j ≠ 0 → (k₀.pcb j).status ≠ .none → c.dying call ≠ some j →
    (k.pcb j).status ≠ .none
  /-- A PCB is taken by `do_spawn`, for a process with a new pid and a new page
  directory. -/
  born : ∀ j, j ≠ 0 → (k₀.pcb j).status = .none → (k.pcb j).status ≠ .none →
    (∃ argc, call = .spawn argc) ∧ k₀.toCore.allocPcb = some j ∧
      (k.pcb j).pid = k₀.nextPid ∧ (k.pcb j).pageTable = (allocPage k₀.mm.pageCtrlPgd).1

theorem Lifecycle.refl (c : Core) (call : Call) (k : Kernel ListQueues) :
    Lifecycle c call k k where
  kept _ _ _ _ := ⟨rfl, rfl⟩
  living _ _ h _ := h
  born _ _ h h' := absurd h h'

theorem Lifecycle.move (h : Lifecycle k₀.toCore call k₀ a)
    (hcons : Consistent (k₀.toCore.dying call) a) (hmove : Move k₀.toCore call a b) :
    Lifecycle k₀.toCore call k₀ b := by
  rcases hmove.lives_cases hcons with hsame | ⟨i, hdying, _, _, rfl⟩ |
    ⟨i, argc, hoff, hcall, hstart, halloc, rfl⟩
  · refine ⟨fun j hj hlive hlive' => ?_, fun j hj hlive hd => ?_, fun j hj hnone hlive => ?_⟩
    · obtain ⟨hpid, hpgd, hs⟩ := hsame j hj
      obtain ⟨hpid', hpgd'⟩ := h.kept j hj hlive fun hn => hlive' (hs.mpr hn)
      exact ⟨hpid.trans hpid', hpgd.trans hpgd'⟩
    · exact fun hn => h.living j hj hlive hd ((hsame j hj).2.2.mp hn)
    · obtain ⟨hcall, halloc, hpid, hpgd⟩ := h.born j hj hnone fun hn =>
        hlive ((hsame j hj).2.2.mpr hn)
      exact ⟨hcall, halloc, (hsame j hj).1.trans hpid, (hsame j hj).2.1.trans hpgd⟩
  · have hself : ((a.freePcb i).pcb i).status = .none := by simp [Kernel.freePcb]
    have hother : ∀ j, j ≠ i → (a.freePcb i).pcb j = a.pcb j := fun j hj =>
      Kernel.setPcb_pcb_of_ne hj _
    refine ⟨fun j hj hlive hlive' => ?_, fun j hj hlive hd => ?_, fun j hj hnone hlive => ?_⟩
    · have hji : j ≠ i := by
        rintro rfl
        exact hlive' hself
      rw [hother j hji] at hlive' ⊢
      exact h.kept j hj hlive hlive'
    · have hji : j ≠ i := by
        rintro rfl
        exact hd hdying
      rw [hother j hji]
      exact h.living j hj hlive hd
    · have hji : j ≠ i := by
        rintro rfl
        exact hlive hself
      rw [hother j hji] at hlive ⊢
      exact h.born j hj hnone hlive
  · have hpcb : a.pcb = k₀.pcb := congrArg Core.pcb hstart
    have hother : ∀ j, j ≠ i → (a.spawned i argc hoff).pcb j = k₀.pcb j := fun j hj =>
      (Kernel.spawned_pcb_of_ne hoff hj).trans (congrFun hpcb j)
    have hnone : (k₀.pcb i).status = .none := by
      rw [← hpcb]
      exact (Core.allocPcb_eq_some halloc).2
    refine ⟨fun j hj hlive hlive' => ?_, fun j hj hlive hd => ?_, fun j hj hn hlive => ?_⟩
    · have hji : j ≠ i := by
        rintro rfl
        exact hlive hnone
      rw [hother j hji]
      exact ⟨rfl, rfl⟩
    · by_cases hji : j = i
      · subst hji
        rw [Kernel.spawned_pcb_self]
        simp
      · rw [hother j hji]
        exact hlive
    · by_cases hji : j = i
      · subst hji
        rw [Kernel.spawned_pcb_self]
        refine ⟨⟨argc, hcall⟩, by rw [← hstart]; exact halloc, congrArg Core.nextPid hstart, ?_⟩
        rw [← hstart]
        rfl
      · rw [hother j hji] at hlive
        exact absurd hn hlive

theorem Moves.lifecycle (h : Moves k₀.toCore call k₀ k) : Lifecycle k₀.toCore call k₀ k :=
  h.invariant (Lifecycle k₀.toCore call k₀) (.refl _ _ _) fun _ _ hcons hmove hl =>
    hl.move hcons hmove

end Lives

/-! ## Joining and leaving a queue -/

section Queues

variable {c : Core} {call : Call} {a b : Kernel ListQueues} {q : QueueId} {w : Task}

/-- Who is in a queue other than the ready queue was in it before, or is the
running task, which joins it. -/
theorem Move.waits (hmove : Move c call a b) (hq : q ≠ .ready)
    (hw : b.queues.owner w = some q) :
    (a.queues.owner w = some q ∧ (b.pcb w).waitpid = (a.pcb w).waitpid) ∨
      w = c.currentRunning ∧ call.joins = some q ∧
        ∀ pid, call = .waitpid pid →
          (b.pcb w).waitpid = pid ∧ (a.toCore.findPid pid).isSome = true := by
  have hother : ∀ {i : Task} {o : Option QueueId}, o ≠ some q →
      (∀ j, b.queues.owner j = if j = i then o else a.queues.owner j) →
      (∀ j, j ≠ i → b.pcb j = a.pcb j) →
      a.queues.owner w = some q ∧ (b.pcb w).waitpid = (a.pcb w).waitpid := by
    intro i o ho howner hpcb
    rw [howner] at hw
    by_cases hwi : w = i
    · rw [if_pos hwi] at hw
      exact absurd hw ho
    · rw [if_neg hwi] at hw
      rw [hpcb w hwi]
      exact ⟨hw, rfl⟩
  have hready : some QueueId.ready ≠ some q := fun heq => hq (Option.some.inj heq).symm
  have hset : ∀ {i : Task} {p : Pcb}, p.waitpid = (a.pcb i).waitpid →
      ((a.setPcb i p).pcb w).waitpid = (a.pcb w).waitpid := by
    intro i p hp
    by_cases hwi : w = i
    · subst hwi
      rw [Kernel.setPcb_pcb_self, hp]
    · rw [Kernel.setPcb_pcb_of_ne hwi]
  cases hmove with
  | record hpid hstatus hqueue hwait hpgd => exact Or.inl ⟨hw, hset hwait⟩
  | aside hpcb hqueues hcur hpid hnext hmm =>
    rw [hqueues] at hw
    exact Or.inl ⟨hw, by rw [hpcb]⟩
  | target hoff =>
    have hwi : w ≠ a.currentRunning := by
      rintro rfl
      rw [Kernel.setPcb_queues, hoff] at hw
      cases hw
    exact Or.inl ⟨hw, by rw [Kernel.setPcb_pcb_of_ne hwi]⟩
  | wake hi hq' hwait =>
    exact Or.inl (hother hready (Kernel.woken_owner hi) fun j hj => Kernel.woken_pcb_of_ne hi hj)
  | @join p t hoff hfits hcall hcur hlive hwait =>
    by_cases hwi : w = a.currentRunning
    · subst hwi
      rw [Kernel.enqueued_owner, if_pos rfl] at hw
      obtain rfl := Option.some.inj hw
      refine Or.inr ⟨hcur, hcall, fun pid hpid => ⟨?_, (hwait pid hpid).2⟩⟩
      rw [Kernel.enqueued_pcb_self]
      exact (hwait pid hpid).1
    · rw [Kernel.enqueued_owner, if_neg hwi] at hw
      exact Or.inl ⟨hw, by rw [Kernel.enqueued_pcb_of_ne hoff hwi]⟩
  | preempt hoff hrun =>
    exact Or.inl (hother hready (Kernel.enqueued_owner hoff) fun j hj =>
      Kernel.enqueued_pcb_of_ne hoff hj)
  | exit hoff hcur hlive => exact Or.inl ⟨hw, hset rfl⟩
  | kill hi hdying hcur =>
    exact Or.inl (hother (by simp) (Kernel.taken_owner _) fun j hj =>
      Kernel.killed_pcb_of_ne hi hj)
  | freeMemory hdying hoff hpgd => exact Or.inl ⟨hw, rfl⟩
  | bury hdying hoff hwaiters => exact Or.inl ⟨hw, hset rfl⟩
  | dispatch hi =>
    exact Or.inl (hother (by simp) (Kernel.dispatched_owner hi) fun j hj =>
      Kernel.dispatched_pcb_of_ne hi hj)
  | spawn hcall hstart halloc hcur hoff =>
    exact Or.inl (hother hready (Kernel.spawned_owner hoff) fun j hj =>
      Kernel.spawned_pcb_of_ne hoff hj)
  | fault hcall hstart hpgd => exact Or.inl ⟨hw, rfl⟩

/-- Who is in a queue stays there, or is woken, dispatched or killed. -/
theorem Move.leaves (hmove : Move c call a b) (hw : a.queues.owner w = some q) :
    (b.queues.owner w = some q ∧ (b.pcb w).waitpid = (a.pcb w).waitpid) ∨
      (b.queues.owner w = some .ready ∧ (q = .waitpid →
        ∃ d, c.dying call = some d ∧ (a.pcb d).status = .exited ∧
          (a.pcb w).waitpid = (a.pcb d).pid)) ∨
      (q = .ready ∧ b.queues.owner w = none ∧ (b.pcb w).status = .running) ∨
      c.dying call = some w := by
  have hother : ∀ {i : Task} {o : Option QueueId}, w ≠ i →
      (∀ j, b.queues.owner j = if j = i then o else a.queues.owner j) →
      (∀ j, j ≠ i → b.pcb j = a.pcb j) →
      b.queues.owner w = some q ∧ (b.pcb w).waitpid = (a.pcb w).waitpid := by
    intro i o hwi howner hpcb
    rw [howner, if_neg hwi, hpcb w hwi]
    exact ⟨hw, rfl⟩
  have hoff : ∀ {i : Task}, a.queues.owner i = none → w ≠ i := by
    rintro i hi rfl
    rw [hi] at hw
    cases hw
  have hset : ∀ {i : Task} {p : Pcb}, p.waitpid = (a.pcb i).waitpid →
      ((a.setPcb i p).pcb w).waitpid = (a.pcb w).waitpid := by
    intro i p hp
    by_cases hwi : w = i
    · subst hwi
      rw [Kernel.setPcb_pcb_self, hp]
    · rw [Kernel.setPcb_pcb_of_ne hwi]
  cases hmove with
  | record hpid hstatus hqueue hwait hpgd => exact Or.inl ⟨hw, hset hwait⟩
  | aside hpcb hqueues hcur hpid hnext hmm =>
    rw [hqueues, hpcb]
    exact Or.inl ⟨hw, rfl⟩
  | target hi => exact Or.inl ⟨hw, by rw [Kernel.setPcb_pcb_of_ne (hoff hi)]⟩
  | @wake p i hi hq' hwait =>
    by_cases hwi : w = i
    · subst hwi
      obtain rfl := Option.some.inj (hi.symm.trans hw)
      exact Or.inr (Or.inl ⟨by rw [Kernel.woken_owner, if_pos rfl], hwait⟩)
    · exact Or.inl (hother hwi (Kernel.woken_owner hi) fun j hj => Kernel.woken_pcb_of_ne hi hj)
  | join hi hfits hcall hcur hlive hwait =>
    exact Or.inl (hother (hoff hi) (Kernel.enqueued_owner hi) fun j hj =>
      Kernel.enqueued_pcb_of_ne hi hj)
  | preempt hi hrun =>
    exact Or.inl (hother (hoff hi) (Kernel.enqueued_owner hi) fun j hj =>
      Kernel.enqueued_pcb_of_ne hi hj)
  | exit hi hcur hlive => exact Or.inl ⟨hw, hset rfl⟩
  | @kill i p hi hdying hcur =>
    by_cases hwi : w = i
    · subst hwi
      exact Or.inr (Or.inr (Or.inr hdying))
    · exact Or.inl (hother hwi (Kernel.taken_owner _) fun j hj => Kernel.killed_pcb_of_ne hi hj)
  | freeMemory hdying hi hpgd => exact Or.inl ⟨hw, rfl⟩
  | bury hdying hi hwaiters => exact Or.inl ⟨hw, hset rfl⟩
  | @dispatch i hi =>
    by_cases hwi : w = i
    · subst hwi
      obtain rfl := Option.some.inj (hw.symm.trans hi)
      refine Or.inr (Or.inr (Or.inl ⟨rfl, ?_, ?_⟩))
      · rw [Kernel.dispatched_owner, if_pos rfl]
      · rw [Kernel.dispatched_pcb_self]
    · exact Or.inl (hother hwi (Kernel.dispatched_owner hi) fun j hj =>
        Kernel.dispatched_pcb_of_ne hi hj)
  | spawn hcall hstart halloc hcur hi =>
    exact Or.inl (hother (hoff hi) (Kernel.spawned_owner hi) fun j hj =>
      Kernel.spawned_pcb_of_ne hi hj)
  | fault hcall hstart hpgd => exact Or.inl ⟨hw, rfl⟩

/-- A task that was dispatched runs on, or is ready again. -/
theorem Move.running (hcons : Consistent (c.dying call) a) (hmove : Move c call a b)
    (hrun : (a.pcb w).status = .running) (hw : w ≠ c.currentRunning) :
    (b.pcb w).status = .running ∨ b.queues.owner w = some .ready := by
  have hnone : a.queues.owner w = none := by
    have hfits := hcons.fits w
    rw [hrun] at hfits
    exact hfits
  have hne : ∀ {i : Task} {q : QueueId}, a.queues.owner i = some q → w ≠ i := by
    rintro i q hi rfl
    rw [hnone] at hi
    cases hi
  have hset : ∀ {i : Task} {p : Pcb}, (w = i → p.status = .running) →
      ((a.setPcb i p).pcb w).status = .running := by
    intro i p hp
    by_cases hwi : w = i
    · rw [← hwi, Kernel.setPcb_pcb_self]
      exact hp hwi
    · rw [Kernel.setPcb_pcb_of_ne hwi]
      exact hrun
  cases hmove with
  | record hpid hstatus hqueue hwait hpgd =>
    refine Or.inl (hset ?_)
    rintro rfl
    exact hstatus.trans hrun
  | aside hpcb hqueues hcur hpid hnext hmm => exact Or.inl (by rw [hpcb]; exact hrun)
  | target hoff =>
    refine Or.inl (hset fun hwi => ?_)
    rw [hwi] at hrun
    exact hrun
  | wake hi hq hwait =>
    exact Or.inl (by rw [Kernel.woken_pcb_of_ne hi (hne hi)]; exact hrun)
  | join hoff hfits hcall hcur hlive hwait =>
    refine Or.inl ?_
    rw [Kernel.enqueued_pcb_of_ne hoff (by rw [hcur]; exact hw)]
    exact hrun
  | preempt hoff hrun' =>
    by_cases hwi : w = a.currentRunning
    · exact Or.inr (by rw [Kernel.enqueued_owner, if_pos hwi])
    · exact Or.inl (by rw [Kernel.enqueued_pcb_of_ne hoff hwi]; exact hrun)
  | exit hoff hcur hlive => exact Or.inl (hset fun hwi => absurd (hwi.trans hcur) hw)
  | kill hi hdying hcur =>
    exact Or.inl (by rw [Kernel.killed_pcb_of_ne hi (hne hi)]; exact hrun)
  | freeMemory hdying hoff hpgd => exact Or.inl hrun
  | bury hdying hoff hwaiters =>
    refine Or.inl (hset fun hwi => ?_)
    rw [hwi, hoff.2] at hrun
    cases hrun
  | dispatch hi => exact Or.inl (by rw [Kernel.dispatched_pcb_of_ne hi (hne hi)]; exact hrun)
  | spawn hcall hstart halloc hcur hoff =>
    refine Or.inl ?_
    rw [Kernel.spawned_pcb_of_ne hoff ?_]
    · exact hrun
    · rintro rfl
      rw [(Core.allocPcb_eq_some halloc).2] at hrun
      cases hrun
  | fault hcall hstart hpgd => exact Or.inl hrun

/-- Who is in a queue other than the ready queue after an event was in it
before, or is the task that ran. -/
theorem Moves.waits {k₀ k : Kernel ListQueues} (h : Moves k₀.toCore call k₀ k) (hq : q ≠ .ready)
    (hw : k.queues.owner w = some q) :
    (k₀.queues.owner w = some q ∧ (k.pcb w).waitpid = (k₀.pcb w).waitpid) ∨
      w = k₀.currentRunning ∧ call.joins = some q ∧
        ∀ pid, call = .waitpid pid → (k.pcb w).waitpid = pid := by
  revert w
  refine h.invariant (fun k => ∀ {w}, k.queues.owner w = some q →
    (k₀.queues.owner w = some q ∧ (k.pcb w).waitpid = (k₀.pcb w).waitpid) ∨
      w = k₀.currentRunning ∧ call.joins = some q ∧
        ∀ pid, call = .waitpid pid → (k.pcb w).waitpid = pid) (fun hw => Or.inl ⟨hw, rfl⟩) ?_
  intro a b _ hmove ih w hw
  rcases hmove.waits hq hw with ⟨hw', hwait⟩ | ⟨hcur, hjoins, hpid⟩
  · rw [hwait]
    exact ih hw'
  · exact Or.inr ⟨hcur, hjoins, fun pid hcall => (hpid pid hcall).1⟩

end Queues

/-! ## The pointer kernel -/

section Pointers

variable {a : Kernel ListQueues} {k k' : Kernel PtrQueues} {e : Event}

/-- One event of a pointer kernel is a sequence of moves of the list kernel it
follows. -/
theorem RunInv.follow (h : RunInv a) (hfollows : Follows a k) (hkill : e.call ≠ .kill 0)
    (hstep : kernelStep k e = .ok k') :
    ∃ a', Follows a' k' ∧ RunInv a' ∧ Moves a.toCore e.call a a' := by
  obtain ⟨a', _, hfollows', hinv', hmoves⟩ :=
    (kernelStep_sim hfollows e).of_ok (h.step hkill) hstep
  exact ⟨a', hfollows', hinv', hmoves⟩

/-- The task that dies in an event of a pointer kernel is free after it. -/
theorem RunInv.follow_freed (h : RunInv a) (hfollows : Follows a k) (hkill : e.call ≠ .kill 0)
    {p : Task} (hdying : a.toCore.dying e.call = some p) (hstep : kernelStep k e = .ok k') :
    (k'.pcb p).status = .none := by
  obtain ⟨a', _, hfollows', hfreed⟩ :=
    (kernelStep_sim hfollows e).of_ok (h.dying_freed hkill hdying) hstep
  rw [hfollows'.core]
  exact hfreed

theorem bootLists_runInv (barrier : BarrierId → Barrier) (tables : Nat → Nat → Nat) :
    RunInv (bootLists barrier tables) where
  toSchedInv := bootLists_inv barrier tables
  current_queue := rfl

/-- A pointer kernel that is reached without killing pid 0 follows a list
kernel with the invariant. -/
theorem reaches_runInv (barrier : BarrierId → Barrier) (tables : Nat → Nat → Nat)
    (h : Reaches kernelRun (fun _ e => e.call ≠ .kill 0) (bootKernel barrier tables) k) :
    ∃ a, Follows a k ∧ RunInv a := by
  refine h.invariant (fun k => ∃ a, Follows a k ∧ RunInv a)
    ⟨_, bootLists_follows barrier tables, bootLists_runInv barrier tables⟩ ?_
  rintro k e k' ⟨a, hfollows, hinv⟩ hkill hstep
  obtain ⟨a', hfollows', hinv', _⟩ := hinv.follow hfollows hkill (kernelRun_eq_some.mp hstep)
  exact ⟨a', hfollows', hinv'⟩

end Pointers

end MipsOs.Sched
