import MipsOs.Sched.Kernel

/-!
# The kernel over lists

Over lists a queue operation that is used as it should be is a function, so
the kernel is built from a few total moves of a task:

* `enqueued`: a task in no queue goes to the end of a queue;
* `taken`: a task leaves its queue;
* `woken`: a task leaves its queue and becomes ready.

This file gives one rule for each function of the kernel that moves tasks.
A rule reduces a statement `Safe (f k) P` to statements about the moves, and
the rules of the loops take an invariant of one move.
-/

namespace MipsOs.Sched

open MipsOs.Lib

namespace Kernel

/-- A task in no queue goes to the end of `q`. -/
def enqueued (k : Kernel ListQueues) (q : QueueId) (i : Task) (s : TaskStatus)
    (h : k.queues.owner i = none) : Kernel ListQueues :=
  { k.setPcb i { k.pcb i with status := s, inQueue := some q } with
    queues := k.queues.pushed q i h }

/-- A task leaves its queue. -/
def taken (k : Kernel ListQueues) (q : QueueId) (i : Task)
    (h : k.queues.owner i = some q) : Kernel ListQueues :=
  { k with queues := k.queues.removed q i h }

theorem taken_owner_self (k : Kernel ListQueues) (q : QueueId) (i : Task)
    (h : k.queues.owner i = some q) : (k.taken q i h).queues.owner i = none := by
  simp [taken, Lists.removed]

/-- A task leaves its queue and becomes ready. -/
def woken (k : Kernel ListQueues) (q : QueueId) (i : Task)
    (h : k.queues.owner i = some q) : Kernel ListQueues :=
  (k.taken q i h).enqueued .ready i .ready (k.taken_owner_self q i h)

variable {k : Kernel ListQueues} {q : QueueId} {i : Task} {s : TaskStatus}
  {P : Kernel ListQueues → Prop}

/-! ## What the moves change -/

@[simp] theorem setPcb_pcb_self (p : Pcb) : (k.setPcb i p).pcb i = p := by
  simp [setPcb]

theorem setPcb_pcb_of_ne {j : Task} (hj : j ≠ i) (p : Pcb) :
    (k.setPcb i p).pcb j = k.pcb j := by
  simp [setPcb, hj]

@[simp] theorem setPcb_queues (p : Pcb) : (k.setPcb i p).queues = k.queues := rfl

@[simp] theorem setPcb_currentRunning (p : Pcb) :
    (k.setPcb i p).currentRunning = k.currentRunning := rfl

@[simp] theorem setPcb_nextPid (p : Pcb) : (k.setPcb i p).nextPid = k.nextPid := rfl

@[simp] theorem setPcb_lockStatus (p : Pcb) : (k.setPcb i p).lockStatus = k.lockStatus := rfl

theorem enqueued_pcb_self (h : k.queues.owner i = none) :
    (k.enqueued q i s h).pcb i = { k.pcb i with status := s, inQueue := some q } := by
  simp [enqueued]

theorem enqueued_pcb_of_ne (h : k.queues.owner i = none) {j : Task} (hj : j ≠ i) :
    (k.enqueued q i s h).pcb j = k.pcb j := by
  simp [enqueued, setPcb_pcb_of_ne hj]

theorem enqueued_owner (h : k.queues.owner i = none) (j : Task) :
    (k.enqueued q i s h).queues.owner j = if j = i then some q else k.queues.owner j := by
  rcases eq_or_ne j i with rfl | hj
  · simp [enqueued, Lists.pushed]
  · simp [enqueued, Lists.pushed, hj]

theorem enqueued_items (h : k.queues.owner i = none) (p : QueueId) :
    (k.enqueued q i s h).queues.items p =
      if p = q then k.queues.items q ++ [i] else k.queues.items p := by
  rcases eq_or_ne p q with rfl | hp
  · simp [enqueued, Lists.pushed]
  · simp [enqueued, Lists.pushed, hp]

theorem taken_owner (h : k.queues.owner i = some q) (j : Task) :
    (k.taken q i h).queues.owner j = if j = i then none else k.queues.owner j := by
  rcases eq_or_ne j i with rfl | hj
  · simp [taken, Lists.removed]
  · simp [taken, Lists.removed, hj]

theorem taken_items (h : k.queues.owner i = some q) (p : QueueId) :
    (k.taken q i h).queues.items p =
      if p = q then (k.queues.items q).erase i else k.queues.items p := by
  rcases eq_or_ne p q with rfl | hp
  · simp [taken, Lists.removed]
  · simp [taken, Lists.removed, hp]

theorem woken_pcb_self (h : k.queues.owner i = some q) :
    (k.woken q i h).pcb i =
      { k.pcb i with status := .ready, inQueue := some .ready } := by
  simp [woken, enqueued_pcb_self, taken]

theorem woken_pcb_of_ne (h : k.queues.owner i = some q) {j : Task} (hj : j ≠ i) :
    (k.woken q i h).pcb j = k.pcb j := by
  simp [woken, enqueued_pcb_of_ne _ hj, taken]

theorem woken_owner (h : k.queues.owner i = some q) (j : Task) :
    (k.woken q i h).queues.owner j =
      if j = i then some .ready else k.queues.owner j := by
  rw [woken, enqueued_owner, taken_owner]
  split <;> rfl

/-- The queue that a task is woken from, when it is not the ready queue. -/
theorem woken_items_self (h : k.queues.owner i = some q) (hq : q ≠ .ready) :
    (k.woken q i h).queues.items q = (k.queues.items q).erase i := by
  rw [woken, enqueued_items, if_neg hq, taken_items, if_pos rfl]

theorem woken_items_of_ne (h : k.queues.owner i = some q) {p : QueueId} (hp : p ≠ q)
    (hready : p ≠ .ready) : (k.woken q i h).queues.items p = k.queues.items p := by
  rw [woken, enqueued_items, if_neg hready, taken_items, if_neg hp]

@[simp] theorem woken_currentRunning (h : k.queues.owner i = some q) :
    (k.woken q i h).currentRunning = k.currentRunning := rfl

@[simp] theorem woken_nextPid (h : k.queues.owner i = some q) :
    (k.woken q i h).nextPid = k.nextPid := rfl

@[simp] theorem woken_lockStatus (h : k.queues.owner i = some q) :
    (k.woken q i h).lockStatus = k.lockStatus := rfl

/-! ## The rules -/

theorem enqueue_eq (h : k.queues.owner i = none) :
    k.enqueue q i s = .ok (k.enqueued q i s h) := by
  simp only [enqueue, QueueOps.push, Lists.push, dif_pos h]
  rfl

theorem enqueue_rule (h : k.queues.owner i = none) (hP : P (k.enqueued q i s h)) :
    Safe (k.enqueue q i s) P := by
  rw [enqueue_eq h]
  exact hP

theorem remove_eq (h : k.queues.owner i = some q) :
    QueueOps.remove k.queues q i =
      .ok (nextIn i (k.queues.items q), (k.taken q i h).queues) := by
  simp only [QueueOps.remove, Lists.remove, dif_pos h]
  rfl

/-- A queue holds at most 32 tasks. -/
theorem length_items_le (k : Kernel ListQueues) (q : QueueId) :
    (k.queues.items q).length ≤ numMaxTask := by
  have := (k.queues.nodup q).length_le_card
  simpa using this

/-- One round at a task with `done` before it and `rest` behind it. -/
theorem wakeOne_eq (due : Pcb → Bool) {done rest : List Task} {item : Task}
    (howner : k.queues.owner item = some q) (hitems : k.queues.items q = done ++ item :: rest)
    (hdone : item ∉ done) :
    wakeOne q due item k =
      .ok (rest.head?, if due (k.pcb item) then k.woken q item howner else k) := by
  have hnext : nextIn item (k.queues.items q) = rest.head? := by
    rw [hitems, nextIn_append hdone]
  unfold wakeOne
  split
  · rename_i hdue
    rw [remove_eq howner, hnext]
    have henq : (k.taken q item howner).enqueue .ready item .ready =
        .ok (k.woken q item howner) := enqueue_eq _
    change ((k.taken q item howner).enqueue .ready item .ready >>= fun k =>
      Except.ok (rest.head?, k)) = _
    rw [henq]
    rfl
  · rename_i hdue
    simp only [QueueOps.next, Lists.next, howner, hnext]
    rfl

/-- The walk over a queue: `done` has been passed, `rest` is to come.  Every task
of `rest` is visited once; those that are due go to the ready queue in order, the
others stay. -/
theorem wakeVisits_walk (due : Pcb → Bool) (hq : q ≠ .ready)
    (hstep : ∀ k i (h : k.queues.owner i = some q), P k → due (k.pcb i) = true →
      P (k.woken q i h))
    (fuel : Nat) (done rest : List Task) (hitems : k.queues.items q = done ++ rest)
    (hfuel : rest.length ≤ fuel) (hP : P k) :
    ∃ k', wakeVisits q due fuel rest.head? k = .ok (rest, k') ∧ P k' ∧
      k'.queues.items q = done ++ rest.filter (fun i => !due (k.pcb i)) ∧
      k'.queues.items .ready = k.queues.items .ready ++ rest.filter (fun i => due (k.pcb i)) ∧
      ∀ i, (i ∈ rest → due (k.pcb i) = false) → k'.pcb i = k.pcb i := by
  induction fuel generalizing k done rest with
  | zero =>
    obtain rfl : rest = [] := List.length_eq_zero_iff.mp (by omega)
    exact ⟨k, rfl, hP, by simpa using hitems, by simp, fun _ _ => rfl⟩
  | succ fuel ih =>
    cases rest with
    | nil => exact ⟨k, rfl, hP, by simpa using hitems, by simp, fun _ _ => rfl⟩
    | cons item rest =>
      have howner : k.queues.owner item = some q := by
        rw [← k.queues.mem_iff, hitems]
        simp
      have hnodup := k.queues.nodup q
      rw [hitems] at hnodup
      have hdone : item ∉ done := fun hmem =>
        (List.nodup_append.mp hnodup).2.2 item hmem item (List.mem_cons_self ..) rfl
      have hrest : item ∉ rest := (List.nodup_cons.mp (List.nodup_append.mp hnodup).2.1).1
      have hshorter : rest.length ≤ fuel := by
        rw [List.length_cons] at hfuel
        omega
      have hround : ∀ k' k'', wakeOne q due item k = .ok (rest.head?, k') →
          wakeVisits q due fuel rest.head? k' = .ok (rest, k'') →
          wakeVisits q due (fuel + 1) (some item) k = .ok (item :: rest, k'') := by
        intro k' k'' hone hvisits
        rw [wakeVisits, hone]
        change (wakeVisits q due fuel rest.head? k' >>= fun r => .ok (item :: r.1, r.2)) = _
        rw [hvisits]
        rfl
      have hone := wakeOne_eq due howner hitems hdone
      by_cases hdue : due (k.pcb item) = true
      · rw [if_pos hdue] at hone
        have hitems' : (k.woken q item howner).queues.items q = done ++ rest := by
          rw [woken_items_self howner hq, hitems, List.erase_append_right _ hdone,
            List.erase_cons_head]
        have hready : (k.woken q item howner).queues.items .ready =
            k.queues.items .ready ++ [item] := by
          rw [woken, enqueued_items, if_pos rfl, taken_items, if_neg (Ne.symm hq)]
        have hpcb : ∀ i ∈ rest, (k.woken q item howner).pcb i = k.pcb i := by
          intro i hi
          refine woken_pcb_of_ne howner ?_
          rintro rfl
          exact hrest hi
        obtain ⟨k', hvisits, hP', hleft, hready', hother⟩ :=
          ih done rest hitems' hshorter (hstep k item howner hP hdue)
        refine ⟨k', hround _ _ hone hvisits, hP', ?_, ?_, fun i hi => ?_⟩
        · rw [hleft, List.filter_cons_of_neg (by simp [hdue])]
          congr 1
          exact List.filter_congr fun i hi => by rw [hpcb i hi]
        · rw [hready', hready, List.filter_cons_of_pos (by simp [hdue]), List.append_assoc,
            List.singleton_append]
          congr 2
          exact List.filter_congr fun i hi => by rw [hpcb i hi]
        · have hne : i ≠ item := by
            rintro rfl
            rw [hi (List.mem_cons_self ..)] at hdue
            cases hdue
          rw [hother i fun hmem => ?_, woken_pcb_of_ne howner hne]
          rw [hpcb i hmem]
          exact hi (List.mem_cons_of_mem _ hmem)
      · rw [if_neg hdue] at hone
        obtain ⟨k', hvisits, hP', hleft, hready', hother⟩ :=
          ih (done ++ [item]) rest (by simp [hitems]) hshorter hP
        refine ⟨k', hround _ _ hone hvisits, hP', ?_, ?_,
          fun i hi => hother i fun hmem => hi (List.mem_cons_of_mem _ hmem)⟩
        · rw [hleft, List.filter_cons_of_pos (by simpa using hdue)]
          simp
        · rw [hready', List.filter_cons_of_neg (by simpa using hdue)]

/-- The rule of the waking loop: an invariant of one wake-up is an invariant of
the loop, the loop ends, and it splits the queue into the tasks that are due and
those that are not. -/
theorem wakeAll_splits {due : Pcb → Bool} (hq : q ≠ .ready)
    (hstep : ∀ k i (h : k.queues.owner i = some q), P k → due (k.pcb i) = true →
      P (k.woken q i h))
    (hP : P k) : Safe (wakeAll q due numMaxTask (QueueOps.head k.queues q) k) fun k' => P k' ∧
      k'.queues.items q = (k.queues.items q).filter (fun i => !due (k.pcb i)) ∧
      k'.queues.items .ready =
        k.queues.items .ready ++ (k.queues.items q).filter (fun i => due (k.pcb i)) ∧
      ∀ i, (i ∈ k.queues.items q → due (k.pcb i) = false) → k'.pcb i = k.pcb i := by
  obtain ⟨k', hvisits, hafter⟩ :=
    wakeVisits_walk due hq hstep numMaxTask [] (k.queues.items q) rfl (k.length_items_le q) hP
  have hhead : QueueOps.head k.queues q = (k.queues.items q).head? := rfl
  rw [wakeAll_eq, hhead, hvisits]
  exact hafter

theorem wakeAll_rule {due : Pcb → Bool} (hq : q ≠ .ready)
    (hstep : ∀ k i (h : k.queues.owner i = some q), P k → due (k.pcb i) = true →
      P (k.woken q i h))
    (hP : P k) : Safe (wakeAll q due numMaxTask (QueueOps.head k.queues q) k) P :=
  (wakeAll_splits hq hstep hP).mono fun _ h => h.1

theorem checkSleeping_rule
    (hstep : ∀ k i (h : k.queues.owner i = some .sleep), P k → P (k.woken .sleep i h))
    (hP : P k) : Safe k.checkSleeping P := by
  simp only [checkSleeping]
  split
  · exact hP
  · exact wakeAll_rule (by decide) (fun k i h hk _ => hstep k i h hk) hP

theorem wakeWaiting_rule {pid : Int}
    (hstep : ∀ k i (h : k.queues.owner i = some .waitpid), P k →
      (k.pcb i).waitpid = pid → P (k.woken .waitpid i h))
    (hP : P k) : Safe (k.wakeWaiting pid) P := by
  simp only [wakeWaiting]
  split
  · exact hP
  · exact wakeAll_rule (by decide)
      (fun k i h hk hdue => hstep k i h hk (by simpa using hdue)) hP

theorem dequeue_nil (h : k.queues.items q = []) :
    QueueOps.dequeue k.queues q = .error .null := by
  simp only [QueueOps.dequeue, Lists.dequeue]
  split
  · rfl
  · rename_i hcons
    rw [h] at hcons
    cases hcons

theorem dequeue_cons {rest : List Task} (h : k.queues.items q = i :: rest) :
    QueueOps.dequeue k.queues q =
      .ok (i, (k.taken q i (Lists.owner_of_cons h)).queues) := by
  simp only [QueueOps.dequeue, Lists.dequeue]
  split
  · rename_i hnil
    rw [h] at hnil
    cases hnil
  · rename_i x tail hcons
    obtain ⟨rfl, rfl⟩ : i = x ∧ rest = tail := by
      rw [h] at hcons
      exact List.cons.inj hcons
    rfl

/-- `do_unblock_one` wakes the first task of the queue. -/
theorem doUnblockOne_cons {queue : BlockQueue} {rest : List Task}
    (h : k.queues.items (.block queue) = i :: rest) :
    k.doUnblockOne queue = .ok (k.woken (.block queue) i (Lists.owner_of_cons h)) := by
  rw [doUnblockOne, dequeue_cons h]
  exact enqueue_eq (k.taken_owner_self _ _ _)

theorem doUnblockOne_rule {queue : BlockQueue}
    (hP : ∀ i rest (h : k.queues.items (.block queue) = i :: rest),
      P (k.woken (.block queue) i (Lists.owner_of_cons h))) :
    Safe (k.doUnblockOne queue) P := by
  cases h : k.queues.items (.block queue) with
  | nil =>
    rw [doUnblockOne, dequeue_nil h]
    trivial
  | cons i rest =>
    rw [doUnblockOne_cons h]
    exact hP i rest h

/-- The rule of the loop of `do_unblock_all`: an invariant of one wake-up holds
at the end, and the queue is empty there. -/
theorem unblockLoop_rule {queue : BlockQueue}
    (hstep : ∀ k i rest (h : k.queues.items (.block queue) = i :: rest), P k →
      P (k.woken (.block queue) i (Lists.owner_of_cons h)))
    (fuel : Nat) (hfuel : (k.queues.items (.block queue)).length ≤ fuel) (hP : P k) :
    Safe (unblockLoop queue fuel k) fun k' => P k' ∧ k'.queues.items (.block queue) = [] := by
  induction fuel generalizing k with
  | zero =>
    have hnil : k.queues.items (.block queue) = [] :=
      List.length_eq_zero_iff.mp (by omega)
    simp only [unblockLoop, QueueOps.isEmpty, hnil, List.isEmpty_nil, if_true]
    exact ⟨hP, hnil⟩
  | succ fuel ih =>
    rw [unblockLoop]
    cases hitems : k.queues.items (.block queue) with
    | nil =>
      simp only [QueueOps.isEmpty, hitems, List.isEmpty_nil, if_true]
      exact ⟨hP, hitems⟩
    | cons i rest =>
      simp only [QueueOps.isEmpty, hitems, List.isEmpty_cons]
      rw [if_neg (by decide), doUnblockOne_cons hitems]
      refine ih ?_ (hstep k i rest hitems hP)
      rw [woken_items_self _ (by simp), hitems, List.erase_cons_head]
      rw [hitems, List.length_cons] at hfuel
      omega

theorem doUnblockAll_rule {queue : BlockQueue}
    (hstep : ∀ k i rest (h : k.queues.items (.block queue) = i :: rest), P k →
      P (k.woken (.block queue) i (Lists.owner_of_cons h)))
    (hP : P k) :
    Safe (k.doUnblockAll queue) fun k' => P k' ∧ k'.queues.items (.block queue) = [] :=
  unblockLoop_rule hstep numMaxTask (k.length_items_le _) hP

/-- The task at the head of the ready queue becomes the running one. -/
def dispatched (k : Kernel ListQueues) (i : Task) (h : k.queues.owner i = some .ready) :
    Kernel ListQueues :=
  { (k.taken .ready i h).setPcb i { k.pcb i with status := .running, inQueue := none } with
    currentRunning := i
    currentPid := (k.pcb i).pid
    mm := { k.mm with currentPgd := (k.pcb i).pageTable } }

theorem dispatch_rule
    (hP : ∀ i rest (h : k.queues.items .ready = i :: rest),
      P (k.dispatched i (Lists.owner_of_cons h))) :
    Safe k.dispatch P := by
  cases h : k.queues.items .ready with
  | nil =>
    rw [dispatch, dequeue_nil h]
    trivial
  | cons i rest =>
    rw [dispatch, dequeue_cons h]
    exact hP i rest h

theorem dispatched_pcb_self (h : k.queues.owner i = some .ready) :
    (k.dispatched i h).pcb i = { k.pcb i with status := .running, inQueue := none } := by
  simp [dispatched, setPcb]

theorem dispatched_pcb_of_ne (h : k.queues.owner i = some .ready) {j : Task} (hj : j ≠ i) :
    (k.dispatched i h).pcb j = k.pcb j := by
  simp [dispatched, setPcb, taken, hj]

theorem dispatched_owner (h : k.queues.owner i = some .ready) (j : Task) :
    (k.dispatched i h).queues.owner j = if j = i then none else k.queues.owner j :=
  taken_owner h j

/-- A new task at the end of the ready queue. -/
def born (k : Kernel ListQueues) (i : Task) (pid : Int) (kernelStack pageTable : Nat)
    (h : k.queues.owner i = none) : Kernel ListQueues :=
  { k with
    pcb := Function.update k.pcb i
      { k.pcb i with
        pid := pid
        status := .ready
        inQueue := some .ready
        pageTable := pageTable
        kernelSp := kernelStack
        locksGot := fun _ => none }
    queues := k.queues.pushed .ready i h }

theorem setPcbReady_eq (h : k.queues.owner i = none) (pid : Int) (kernelStack pageTable : Nat) :
    k.setPcbReady i pid kernelStack pageTable =
      .ok (k.born i pid kernelStack pageTable h) := by
  have henq : (k.setPcb i { k.pcb i with pid := pid }).enqueue .ready i .ready =
      .ok ((k.setPcb i { k.pcb i with pid := pid }).enqueued .ready i .ready h) :=
    enqueue_eq (k := k.setPcb i { k.pcb i with pid := pid }) h
  rw [setPcbReady, henq]
  simp [bind, Except.bind, pure, Except.pure, enqueued, setPcb, born]

end Kernel

end MipsOs.Sched
