import MipsOs.Sched.BootTask

/-!
# The order of the ready queue

Tasks enter `ready_queue` when they are spawned, preempted or woken, and all of
these push at its tail.  They leave it at the head, by `scheduler`, and anywhere
when they are killed.

`ReadyGrows` says what one event does to the queue: the tasks that were there
keep their order, and whoever joins stands behind them.  A call that schedules
takes the first of all.  `no_overtaking` is the result for runs: as long as a
task is neither dispatched nor killed, nobody behind it is dispatched.
-/

namespace MipsOs.Sched

open MipsOs.Lib

/-- The process that a call of `do_kill` finds. -/
def Core.kills (c : Core) : Call → Option Task
  | .kill pid => c.findPid pid
  | _ => none

/-- The tasks that a call does not kill. -/
def Core.spares (c : Core) (call : Call) (ready : List Task) : List Task :=
  ready.filter fun i => c.kills call ≠ some i

/-- The tasks of the ready queue keep their order, others join behind them, and
a call that schedules takes the first. -/
structure ReadyGrows (c c' : Core) (call : Call) (ready ready' : List Task) : Prop where
  order : ∃ joined, c.spares call ready ++ joined =
    if c.schedules call then c'.currentRunning :: ready' else ready'
  stays : c.schedules call = false → c'.currentRunning = c.currentRunning

/-! ## One event -/

section Lists

variable {k k' : Kernel ListQueues} {kept : List Task} {q : QueueId} {s : TaskStatus}

/-- Some tasks have joined the ready queue. -/
def Behind (kept : List Task) (k : Kernel ListQueues) : Prop :=
  ∃ joined, k.queues.items .ready = kept ++ joined

theorem Behind.snoc {i : Task} (h : Behind kept k)
    (hitems : k'.queues.items .ready = k.queues.items .ready ++ [i]) : Behind kept k' := by
  obtain ⟨joined, hready⟩ := h
  use joined ++ [i]
  rw [hitems, hready, List.append_assoc]

theorem Behind.woken {i : Task} (h : Behind kept k) (hi : k.queues.owner i = some q)
    (hq : q ≠ .ready) : Behind kept (k.woken q i hi) := by
  apply h.snoc (i := i)
  rw [Kernel.woken, Kernel.enqueued_items, if_pos rfl, Kernel.taken_items, if_neg (Ne.symm hq)]

theorem Behind.lockwise (kept : List Task) : Lockwise (Behind kept) where
  locks _ _ _ h := h
  lock _ _ _ h := h
  unblocked _ _ _ hi h := h.woken hi (by simp)

theorem Behind.freeProc (h : Behind kept k) (i : Task) : Safe (k.freeProc i) (Behind kept) := by
  apply (freeProc_waiters k i).mono
  intro k' hk'
  obtain ⟨_, got, hready', _⟩ := hk'
  obtain ⟨joined, hready⟩ := h
  unfold Behind
  simp only [hready', hready, List.append_assoc]
  exact ⟨_, rfl⟩

/-- Whoever was ready is first in line. -/
theorem line_eq_append (k : Kernel ListQueues) (items : QueueId → List Task) (call : Call) :
    ∃ joined, k.line items call = items .ready ++ joined := by
  have hswitch : ∀ k : Kernel ListQueues, ∃ joined,
      k.switchLine items = items .ready ++ joined := fun k => by
    rw [Kernel.switchLine, List.append_assoc]
    exact ⟨_, rfl⟩
  cases call with
  | yield => exact hswitch k
  | timer count => exact hswitch (k.updateTimeElapsed count)
  | sleep time =>
    rw [Kernel.line, List.append_assoc]
    exact ⟨_, rfl⟩
  | exit =>
    rw [Kernel.line, List.append_assoc]
    exact ⟨_, rfl⟩
  | _ => exact ⟨_, rfl⟩

/-- A call that schedules comes to `queue_dequeue` with the tasks that were
ready before at the head of the queue. -/
theorem behind_untilDequeue (h : SchedInv k) {e : Event}
    (hsched : k.toCore.schedules e.call = true) :
    Safe (untilDequeue k e) (Behind (k.queues.items .ready)) := by
  refine (h.untilDequeue hsched).mono fun k' hk' => ?_
  obtain ⟨joined, hline⟩ := line_eq_append k k.queues.items e.call
  exact ⟨joined, hk'.trans hline⟩

theorem spares_of_ne {c : Core} {call : Call} {ready : List Task}
    (h : ∀ i ∈ ready, c.kills call ≠ some i) : c.spares call ready = ready := by
  rw [Core.spares, List.filter_eq_self]
  intro i hi
  simpa using h i hi

theorem grows_schedules (h : SchedInv k) {e : Event}
    (hsched : k.toCore.schedules e.call = true) : Safe (kernelStep k e) fun k' =>
      ReadyGrows k.toCore k'.toCore e.call (k.queues.items .ready) (k'.queues.items .ready) := by
  rw [kernelStep_eq_untilDequeue k e hsched]
  refine (behind_untilDequeue h hsched).bind fun k₁ h₁ => ?_
  apply Kernel.dispatch_rule
  intro i rest hitems
  have hspares : k.toCore.spares e.call (k.queues.items .ready) = k.queues.items .ready := by
    apply spares_of_ne
    intro j _ hkills
    cases hcall : e.call with
    | kill pid =>
      rw [hcall] at hsched
      cases hsched
    | _ =>
      rw [hcall] at hkills
      cases hkills
  obtain ⟨joined, hready⟩ := h₁
  refine ⟨⟨joined, ?_⟩, fun hnot => absurd hsched (by simp [hnot])⟩
  rw [hspares, if_pos hsched, ← hready, hitems]
  show i :: rest = i :: (k₁.taken .ready i (Lists.owner_of_cons hitems)).queues.items .ready
  rw [Kernel.taken_items, if_pos rfl, hitems, List.erase_cons_head]

/-- What a call that does not schedule leaves behind. -/
def Stayed (c : Core) (kept : List Task) (k : Kernel ListQueues) : Prop :=
  Behind kept k ∧ k.currentRunning = c.currentRunning

theorem Stayed.lockwise (c : Core) (kept : List Task) : Lockwise (Stayed c kept) :=
  (Behind.lockwise kept).and (closed_currentRunning _).toQuiet.lockwise

theorem Stayed.grows {c : Core} {call : Call} {ready : List Task}
    (h : Stayed c (c.spares call ready) k) (hsched : c.schedules call = false) :
    ReadyGrows c k.toCore call ready (k.queues.items .ready) := by
  obtain ⟨⟨joined, hready⟩, hcur⟩ := h
  refine ⟨⟨joined, ?_⟩, fun _ => hcur⟩
  rw [if_neg (by simp [hsched]), hready]

/-- A process that is killed leaves the ready queue, and the others keep their
order. -/
theorem stayed_doKill (h : SchedInv k) {pid : Int}
    (hex : k.toCore.findPid pid = some k.currentRunning → k.cur.status ≠ .exited)
    (hpid : pid ≠ 0) : Safe (k.doKill pid) fun r =>
      Stayed k.toCore (k.toCore.spares (.kill pid) (k.queues.items .ready)) r.2 := by
  rcases h.doKill_cases hex hpid with ⟨hfind, heq⟩ | ⟨hfind, _, _, heq⟩ |
    ⟨i, q, hq, hfind, _, hne, _, _, hcons, hoff, heq⟩
  · rw [heq, spares_of_ne fun i _ hkills => by simp [Core.kills, hfind] at hkills]
    exact ⟨⟨[], (List.append_nil _).symm⟩, rfl⟩
  · rw [heq, spares_of_ne fun i hi hkills => ?_]
    · exact ⟨⟨[], (List.append_nil _).symm⟩, rfl⟩
    · obtain rfl : k.currentRunning = i := Option.some.inj (hfind.symm.trans hkills)
      exact absurd hi (h.current_not_mem _)
  · rw [heq]
    have hkept : (k.killed i q hq).queues.items .ready =
        k.toCore.spares (.kill pid) (k.queues.items .ready) := by
      have hitems := Kernel.taken_items (k := k.setPcb i { k.pcb i with status := .exited }) hq
        .ready
      rw [Kernel.setPcb_queues] at hitems
      unfold Kernel.killed Core.spares
      rw [hitems]
      simp only [Core.kills, hfind, ne_eq, Option.some.injEq]
      by_cases hready : q = .ready
      · subst hready
        rw [if_pos rfl, (k.queues.nodup _).erase_eq_filter]
        apply List.filter_congr
        intro j _
        simp [bne, eq_comm, Bool.beq_eq_decide_eq]
      · rw [if_neg (Ne.symm hready), eq_comm, List.filter_eq_self]
        intro j hj
        have hji : i ≠ j := by
          rintro rfl
          rw [k.queues.mem_iff, hq] at hj
          exact hready (Option.some.inj hj)
        simpa using hji
    have hbehind : Behind (k.toCore.spares (.kill pid) (k.queues.items .ready))
        (k.killed i q hq) := ⟨[], by rw [hkept, List.append_nil]⟩
    refine ((hbehind.freeProc i).and (hcons.freeProc hoff)).bind fun k' hk' => ?_
    exact ⟨hk'.1, hk'.2.2.1⟩

theorem grows_stays (h : SchedInv k) {e : Event}
    (hkill : ∀ pid, e.call = .kill pid → pid ≠ 0 ∧
      (k.toCore.findPid pid = some k.currentRunning → k.cur.status ≠ .exited))
    (hsched : k.toCore.schedules e.call = false) : Safe (kernelStep k e) fun k' =>
      ReadyGrows k.toCore k'.toCore e.call (k.queues.items .ready) (k'.queues.items .ready) := by
  suffices hstayed : Safe (kernelStep k e)
      (Stayed k.toCore (k.toCore.spares e.call (k.queues.items .ready))) from
    hstayed.mono fun k' hk' => hk'.grows hsched
  obtain ⟨sp, call⟩ := e
  have hself : Stayed k.toCore (k.queues.items .ready) k :=
    ⟨⟨[], (List.append_nil _).symm⟩, rfl⟩
  have hlockwise := Stayed.lockwise k.toCore (k.queues.items .ready)
  have hspares : (∀ pid, call ≠ .kill pid) →
      k.toCore.spares call (k.queues.items .ready) = k.queues.items .ready := by
    intro hnot
    apply spares_of_ne
    intro i _ hkills
    cases call with
    | kill pid => exact hnot pid rfl
    | _ => cases hkills
  cases call with
  | spawn argc =>
    rw [hspares (by simp)]
    rcases h.doSpawn_cases argc with heq | heq | ⟨i, hoff, _, heq⟩
    · simp only [kernelStep, heq]
      exact hself
    · simp only [kernelStep, heq]
      trivial
    · simp only [kernelStep, heq]
      refine ⟨hself.1.snoc (i := i) ?_, rfl⟩
      show (k.queues.pushed .ready i hoff).items .ready = _
      simp [Lists.pushed]
  | unblockOne queue =>
    rw [hspares (by simp)]
    exact hlockwise.doUnblockOne hself queue
  | unblockAll queue =>
    rw [hspares (by simp)]
    exact hlockwise.doUnblockAll hself queue
  | waitpid pid =>
    rw [hspares (by simp)]
    have hfind : ¬ (k.toCore.findPid pid).isSome = true := by
      rw [show (k.toCore.findPid pid).isSome = false from hsched]
      simp
    simp only [kernelStep, Kernel.doWaitpid, if_neg hfind]
    exact hself
  | kill pid =>
    obtain ⟨hpid, hex⟩ := hkill pid rfl
    exact (stayed_doKill h hex hpid).bind fun _ hk' => hk'
  | acquire lock =>
    rw [hspares (by simp)]
    have hopen : k.lockStatus lock = .unlocked := by
      cases hl : k.lockStatus lock with
      | unlocked => rfl
      | locked => simp [Core.schedules, hl] at hsched
    simp only [kernelStep, Kernel.doMutexLockAcquire, if_pos hopen]
    exact hlockwise.lock _ lock _ (hlockwise.procGetLock hself lock)
  | release lock =>
    rw [hspares (by simp)]
    exact hlockwise.doMutexLockRelease hself lock
  | barrierWait b =>
    rw [hspares (by simp)]
    have hall : ¬ ((k.setBarrierNow b ((k.barrier b).now + 1)).barrier b).now <
        ((k.setBarrierNow b ((k.barrier b).now + 1)).barrier b).goal := by
      simpa [Core.schedules, Kernel.setBarrierNow] using hsched
    simp only [kernelStep, Kernel.doBarrierWait, if_neg hall]
    have hnow : Stayed k.toCore (k.queues.items .ready)
        (k.setBarrierNow b ((k.barrier b).now + 1)) := hself
    exact (hlockwise.doUnblockAll hnow (.barrier b)).bind fun _ hk' => hk'
  | pageFault addr =>
    rw [hspares (by simp)]
    simp only [kernelStep, Kernel.pageFault]
    split
    · trivial
    · exact hself
  | _ => cases hsched

/-- What an event does to the ready queue. -/
theorem BootInv.grows (h : BootInv k) (e : Event) :
    Safe (kernelStep k e) fun k' => ReadyGrows k.toCore k'.toCore e.call
      (k.queues.items .ready) (k'.queues.items .ready) := by
  cases hsched : k.toCore.schedules e.call with
  | true => exact grows_schedules h.toSchedInv hsched
  | false =>
    by_cases hzero : e.call = .kill 0
    · rw [h.kill_zero hzero]
      trivial
    · by_cases htwice : ∃ pid, e.call = .kill pid ∧
        k.toCore.findPid pid = some k.currentRunning ∧ k.cur.status = .exited
      · obtain ⟨pid, hcall, hfind, hex⟩ := htwice
        rw [h.kill_twice hcall hfind hex]
        trivial
      · apply grows_stays h.toSchedInv _ hsched
        intro pid hcall
        constructor
        · rintro rfl
          exact hzero hcall
        · intro hfind hex
          exact htwice ⟨pid, hcall, hfind, hex⟩

end Lists

/-! ## Runs -/

/-- The first task stands before the second. -/
def Ahead (ready : List Task) (first second : Task) : Prop := [first, second].Sublist ready

/-- A call that schedules switches to the task. -/
def Dispatches (c c' : Core) (call : Call) (i : Task) : Prop :=
  c.schedules call = true ∧ c'.currentRunning = i

section Orders

variable {c c' : Core} {call : Call} {ready ready' : List Task} {first second : Task}

theorem Ahead.spares (h : Ahead ready first second) (hfirst : c.kills call ≠ some first)
    (hsecond : c.kills call ≠ some second) : Ahead (c.spares call ready) first second := by
  have hfilter := List.Sublist.filter (fun i => decide (c.kills call ≠ some i)) h
  rw [List.filter_cons_of_pos (by simpa using hfirst),
    List.filter_cons_of_pos (by simpa using hsecond)] at hfilter
  exact hfilter

/-- A task behind another one is not the first. -/
theorem Ahead.ne_head {rest : List Task} (h : Ahead ready first second) (hnodup : ready.Nodup) :
    ready ≠ second :: rest := by
  rintro rfl
  obtain ⟨hsecond, _⟩ := List.nodup_cons.mp hnodup
  cases h with
  | cons _ htail => exact hsecond (htail.subset (by simp))
  | cons_cons _ htail => exact hsecond (htail.subset (by simp))

/-- A call does not dispatch a task that stands behind another one. -/
theorem ReadyGrows.not_dispatches (h : ReadyGrows c c' call ready ready')
    (hnodup : ready.Nodup) (hfirst : first ∈ ready)
    (hother : second ∈ ready → Ahead ready first second) : ¬ Dispatches c c' call second := by
  rintro ⟨hsched, hcur⟩
  obtain ⟨joined, hready⟩ := h.order
  rw [if_pos hsched, hcur] at hready
  have hspares : c.spares call ready = ready := by
    apply spares_of_ne
    intro i _ hkills
    cases call with
    | kill pid => cases hsched
    | _ => cases hkills
  rw [hspares] at hready
  cases hlist : ready with
  | nil =>
    rw [hlist] at hfirst
    cases hfirst
  | cons x rest =>
    rw [hlist, List.cons_append] at hready
    obtain ⟨rfl, _⟩ := List.cons.inj hready
    have hahead := hother (by simp [hlist])
    exact hahead.ne_head hnodup hlist

/-- A task that is neither dispatched nor killed stays in the queue, and
whoever was not before it is behind it. -/
theorem ReadyGrows.keeps (h : ReadyGrows c c' call ready ready')
    (hkills : c.kills call ≠ some first) (hnot : ¬ Dispatches c c' call first)
    (hfirst : first ∈ ready) (hother : second ∈ ready → Ahead ready first second) :
    first ∈ ready' ∧ (second ∈ ready' → Ahead ready' first second) := by
  obtain ⟨joined, hready⟩ := h.order
  have hkept : first ∈ c.spares call ready := by
    rw [Core.spares, List.mem_filter]
    exact ⟨hfirst, by simpa using hkills⟩
  have hjoins : second ∈ c.spares call ready ++ joined →
      Ahead (c.spares call ready ++ joined) first second := by
    intro hmem
    rcases List.mem_append.mp hmem with hmem | hmem
    · rw [Core.spares, List.mem_filter] at hmem
      have hahead := (hother hmem.1).spares hkills (by simpa using hmem.2)
      exact hahead.trans (List.sublist_append_left _ _)
    · exact (List.singleton_sublist.mpr hkept).append (List.singleton_sublist.mpr hmem)
  rw [hready] at hjoins
  have hmem : first ∈ c.spares call ready ++ joined := List.mem_append_left _ hkept
  rw [hready] at hmem
  cases hsched : c.schedules call with
  | false =>
    rw [if_neg (by simp [hsched])] at hmem hjoins
    exact ⟨hmem, hjoins⟩
  | true =>
    rw [if_pos hsched] at hmem hjoins
    have hne : first ≠ c'.currentRunning := fun heq => hnot ⟨hsched, heq.symm⟩
    constructor
    · exact (List.mem_cons.mp hmem).resolve_left hne
    · intro hsecond
      cases hjoins (List.mem_cons_of_mem _ hsecond) with
      | cons _ htail => exact htail
      | cons_cons _ htail => exact absurd rfl hne

end Orders

section Pointers

variable {k k' : Kernel PtrQueues} {first : Task}

/-- The event neither dispatches nor kills the task. -/
def Bypasses (first : Task) (k : Kernel PtrQueues) (e : Event) : Prop :=
  BootOk k.toCore e ∧ k.toCore.kills e.call ≠ some first ∧
    ∀ k', kernelRun k e = some k' → ¬ Dispatches k.toCore k'.toCore e.call first

/-- In every state that is reached from boot, an event keeps the order of the
ready queue, and new tasks join at its end.  When a task is ahead of another one,
then in every continuation in which the first is neither dispatched nor killed,
the first stays in the queue and no event dispatches the second. -/
theorem no_overtaking (barrier : BarrierId → Barrier) (tables : Nat → Nat → Nat)
    (h : Reaches kernelRun (fun k e => BootOk k.toCore e) (bootKernel barrier tables) k) :
    ∃ L, Represents k.queues L ∧
      (∀ e k', BootOk k.toCore e → kernelRun k e = some k' → ∃ L', Represents k'.queues L' ∧
        ReadyGrows k.toCore k'.toCore e.call (L.items .ready) (L'.items .ready)) ∧
      ∀ first second k', Ahead (L.items .ready) first second →
        Reaches kernelRun (Bypasses first) k k' →
        (∃ L', Represents k'.queues L' ∧ first ∈ L'.items .ready ∧
          (second ∈ L'.items .ready → Ahead (L'.items .ready) first second)) ∧
        ∀ e k'', BootOk k'.toCore e → kernelRun k' e = some k'' →
          ¬ Dispatches k'.toCore k''.toCore e.call second := by
  obtain ⟨a, hfollows, hinv⟩ := reaches_bootInv barrier tables h
  have hgrows : ∀ {a : Kernel ListQueues} {k k' : Kernel PtrQueues} {e : Event}, BootInv a →
      Follows a k → BootOk k.toCore e → kernelRun k e = some k' → ∃ a', Follows a' k' ∧
        BootInv a' ∧ ReadyGrows k.toCore k'.toCore e.call (a.queues.items .ready)
          (a'.queues.items .ready) := by
    intro a k k' e hinv hfollows hok hstep
    obtain ⟨a', hfollows', hinv', ha', _⟩ := hinv.follow hfollows hok hstep
    use a', hfollows', hinv'
    rw [hfollows.core, hfollows'.core]
    exact (hinv.grows e).of_ok ha'
  refine ⟨a.queues, hfollows.queues, ?_, ?_⟩
  · intro e k' hok hstep
    obtain ⟨a', hfollows', _, hready⟩ := hgrows hinv hfollows hok hstep
    exact ⟨a'.queues, hfollows'.queues, hready⟩
  · intro first second k' hahead hreach
    obtain ⟨a', hfollows', hinv', hfirst, hsecond⟩ := hreach.invariant
      (fun k => ∃ a, Follows a k ∧ BootInv a ∧ first ∈ a.queues.items .ready ∧
        (second ∈ a.queues.items .ready → Ahead (a.queues.items .ready) first second))
      ⟨a, hfollows, hinv, hahead.subset (by simp), fun _ => hahead⟩ (by
        intro k₁ e k₂ hk₁ hbypass hstep
        obtain ⟨a₁, hfollows₁, hinv₁, hfirst, hsecond⟩ := hk₁
        obtain ⟨hok, hkills, hnot⟩ := hbypass
        obtain ⟨a₂, hfollows₂, hinv₂, hready⟩ := hgrows hinv₁ hfollows₁ hok hstep
        exact ⟨a₂, hfollows₂, hinv₂, hready.keeps hkills (hnot k₂ hstep) hfirst hsecond⟩)
    refine ⟨⟨a'.queues, hfollows'.queues, hfirst, hsecond⟩, fun e k'' hok hstep => ?_⟩
    obtain ⟨a'', _, _, hready⟩ := hgrows hinv' hfollows' hok hstep
    exact hready.not_dispatches (a'.queues.nodup _) hfirst hsecond

/-- Three processes are spawned, and the first is dispatched. -/
theorem blank_second_before_third :
    ∃ k, runIf kernelRun (fun k e => BootOk k.toCore e) blankKernel
        [⟨0, .spawn 0⟩, ⟨0, .spawn 0⟩, ⟨0, .spawn 0⟩, ⟨0, .yield⟩] = some k ∧
      ∃ L, Represents k.queues L ∧
        (∀ e k', BootOk k.toCore e → kernelRun k e = some k' → ∃ L', Represents k'.queues L' ∧
          ReadyGrows k.toCore k'.toCore e.call (L.items .ready) (L'.items .ready)) ∧
        ∀ first second k', Ahead (L.items .ready) first second →
          Reaches kernelRun (Bypasses first) k k' →
          (∃ L', Represents k'.queues L' ∧ first ∈ L'.items .ready ∧
            (second ∈ L'.items .ready → Ahead (L'.items .ready) first second)) ∧
          ∀ e k'', BootOk k'.toCore e → kernelRun k' e = some k'' →
            ¬ Dispatches k'.toCore k''.toCore e.call second := by
  have hsome : (runIf kernelRun (fun k e => BootOk k.toCore e) blankKernel
      [⟨0, .spawn 0⟩, ⟨0, .spawn 0⟩, ⟨0, .spawn 0⟩, ⟨0, .yield⟩]).isSome = true := by
    decide +kernel
  obtain ⟨k, hk⟩ := Option.isSome_iff_exists.mp hsome
  exact ⟨k, hk, no_overtaking _ _ (reaches_of_runIf hk)⟩

end Pointers

end MipsOs.Sched
