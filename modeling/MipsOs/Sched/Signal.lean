import MipsOs.Sched.BootTask

/-!
# Signalling a condition

`do_condition_signal` is `do_unblock_one` on the block queue of the condition,
and `do_unblock_one` calls `queue_dequeue` without a look at the queue.  The
other callers of `do_unblock_one` look first.

`SignalSystem` runs the pointer kernel beside a record of when each task joined
the queue of one condition.  The queue is in the order of that record, so its
head has waited longest.  `condition_signal_iff` is the result: a signal does what
it should exactly when somebody waits.
-/

namespace MipsOs.Sched

open MipsOs.Lib

namespace Kernel

variable {H : Type} [QueueOps H QueueId Task]

/-- `do_condition_signal` -/
def doConditionSignal (k : Kernel H) (condition : CondId) : Except Fault (Kernel H) :=
  k.doUnblockOne (.cond condition)

/-- `do_condition_broadcast` -/
def doConditionBroadcast (k : Kernel H) (condition : CondId) : Except Fault (Kernel H) :=
  k.doUnblockAll (.cond condition)

/-- The events of a run include the signals and the broadcasts. -/
theorem kernelStep_signal (k : Kernel H) (sp : Nat) (condition : CondId) :
    kernelStep k ⟨sp, .unblockOne (.cond condition)⟩ = k.doConditionSignal condition := rfl

theorem kernelStep_broadcast (k : Kernel H) (sp : Nat) (condition : CondId) :
    kernelStep k ⟨sp, .unblockAll (.cond condition)⟩ = k.doConditionBroadcast condition := rfl

end Kernel

/-! ## The order of a queue -/

section Moves

variable {c : Core} {call : Call} {a b k₀ k : Kernel ListQueues} {q : QueueId}

/-- A queue other than the ready queue loses tasks, or the running task joins it
at the end. -/
theorem Move.items (hmove : Move c call a b) (hq : q ≠ .ready) :
    (b.queues.items q).Sublist (a.queues.items q) ∨
      b.queues.items q = a.queues.items q ++ [c.currentRunning] ∧ call.joins = some q ∧
        c.currentRunning ∉ a.queues.items q := by
  have htaken : ∀ {p : QueueId} {i : Task} (h : a.queues.owner i = some p),
      ((a.taken p i h).queues.items q).Sublist (a.queues.items q) := by
    intro p i h
    rw [Kernel.taken_items]
    split
    · rename_i hp
      rw [hp]
      exact List.erase_sublist
    · exact List.Sublist.refl _
  cases hmove with
  | aside hpcb hqueues hcur hpid hnext hmm => exact Or.inl (by rw [hqueues])
  | wake hi hq' hwait =>
    refine Or.inl ?_
    rw [Kernel.woken, Kernel.enqueued_items, if_neg hq]
    exact htaken hi
  | @join p t hoff hfits hcall hcur hlive hwait =>
    rw [Kernel.enqueued_items]
    split
    · rename_i hp
      subst hp
      refine Or.inr ⟨by rw [hcur], hcall, fun hmem => ?_⟩
      rw [← hcur, a.queues.mem_iff, hoff] at hmem
      cases hmem
    · exact Or.inl (List.Sublist.refl _)
  | preempt hoff hrun =>
    refine Or.inl ?_
    rw [Kernel.enqueued_items, if_neg hq]
  | kill hi hdying hcur => exact Or.inl (htaken hi)
  | dispatch hi => exact Or.inl (htaken hi)
  | spawn hcall hstart halloc hcur hoff =>
    refine Or.inl ?_
    simp [Kernel.spawned, Kernel.born, Lists.pushed, hq]
  | _ => exact Or.inl (List.Sublist.refl _)

/-- The tasks of a queue are in the order of `since`, and all joined before
`clock`. -/
structure InOrder (since : Task → Nat) (clock : Nat) (q : QueueId) (k : Kernel ListQueues) :
    Prop where
  sorted : (k.queues.items q).Pairwise fun i j => since i < since j
  past : ∀ i ∈ k.queues.items q, since i < clock

/-- When the running task joined the queue, if the call joins it. -/
def sinceAfter (since : Task → Nat) (clock : Nat) (q : QueueId) (cur : Task) (call : Call) :
    Task → Nat :=
  if call.joins = some q then Function.update since cur clock else since

theorem sinceAfter_of_ne {since : Task → Nat} {clock : Nat} {cur i : Task} (hi : i ≠ cur) :
    sinceAfter since clock q cur call i = since i := by
  unfold sinceAfter
  split
  · exact Function.update_of_ne hi _ _
  · rfl

/-- One event keeps the order. -/
theorem InOrder.moves {since : Task → Nat} {clock : Nat} (h : InOrder since clock q k₀)
    (hinv : SchedInv k₀) (hq : q ≠ .ready) (hmoves : Moves k₀.toCore call k₀ k) :
    InOrder (sinceAfter since clock q k₀.currentRunning call) (clock + 1) q k := by
  set after := sinceAfter since clock q k₀.currentRunning call with hafter
  have hne : ∀ i ∈ k₀.queues.items q, i ≠ k₀.currentRunning := by
    rintro i hi rfl
    exact hinv.current_not_mem q hi
  have hkeep := hmoves.invariant (fun k =>
      (k.queues.items q).Pairwise (fun i j => after i < after j) ∧
        ∀ i ∈ k.queues.items q, after i ≤ clock ∧ (i ≠ k₀.currentRunning → after i < clock))
    (by
      constructor
      · refine h.sorted.imp_of_mem fun {i j} hi hj hlt => ?_
        rw [hafter, sinceAfter_of_ne (hne i hi), sinceAfter_of_ne (hne j hj)]
        exact hlt
      · intro i hi
        have hpast := h.past i hi
        rw [hafter, sinceAfter_of_ne (hne i hi)]
        exact ⟨hpast.le, fun _ => hpast⟩)
    (by
      intro a b _ hmove ha
      obtain ⟨hsorted, hpast⟩ := ha
      rcases hmove.items hq with hsub | ⟨hitems, hjoins, hnew⟩
      · exact ⟨hsorted.sublist hsub, fun i hi => hpast i (hsub.subset hi)⟩
      · have hself : after k₀.currentRunning = clock := by
          rw [hafter, sinceAfter, if_pos hjoins, Function.update_self]
        have hbefore : ∀ i ∈ a.queues.items q, after i < clock := by
          intro i hi
          refine (hpast i hi).2 ?_
          rintro rfl
          exact hnew hi
        rw [hitems]
        constructor
        · rw [List.pairwise_append]
          refine ⟨hsorted, List.pairwise_singleton _ _, fun i hi j hj => ?_⟩
          rw [List.mem_singleton.mp hj, hself]
          exact hbefore i hi
        · intro i hi
          rcases List.mem_append.mp hi with hold | hlast
          · exact hpast i hold
          · rw [List.mem_singleton.mp hlast, hself]
            exact ⟨le_refl _, fun hcur => absurd rfl hcur⟩)
  exact ⟨hkeep.1, fun i hi => Nat.lt_succ_of_le (hkeep.2 i hi).1⟩

end Moves

/-! ## Runs -/

/-- The pointer kernel, the number of events so far, and at which of them a task
last joined the queue of the condition. -/
structure SignalSystem where
  kernel : Kernel PtrQueues
  clock : Nat
  since : Task → Nat

namespace SignalSystem

/-- One event, with the clock. -/
def step (condition : CondId) (s : SignalSystem) (e : Event) : Option SignalSystem :=
  (kernelRun s.kernel e).map fun k =>
    { kernel := k
      clock := s.clock + 1
      since := sinceAfter s.since s.clock (.block (.cond condition)) s.kernel.currentRunning
        e.call }

/-- The boot code does not call what puts the running task into a queue. -/
def EventOk (s : SignalSystem) (e : Event) : Prop := BootOk s.kernel.toCore e

instance (s : SignalSystem) (e : Event) : Decidable (s.EventOk e) :=
  inferInstanceAs (Decidable (BootOk _ _))

/-- The system after initialisation. -/
def boot (barrier : BarrierId → Barrier) (tables : Nat → Nat → Nat) : SignalSystem where
  kernel := bootKernel barrier tables
  clock := 0
  since := fun _ => 0

/-- The task that has waited longest goes to the end of the ready queue, and
nothing else changes. -/
def WakesLongest (s : SignalSystem) (condition : CondId) (L : Lists QueueId Task) : Prop :=
  ∀ i rest, L.items (.block (.cond condition)) = i :: rest →
    (∀ j ∈ rest, s.since i < s.since j) ∧
      ∃ k' L', s.kernel.doConditionSignal condition = .ok k' ∧ Represents k'.queues L' ∧
        L'.items (.block (.cond condition)) = rest ∧
        L'.items .ready = L.items .ready ++ [i] ∧
        (∀ q, q ≠ .block (.cond condition) → q ≠ .ready → L'.items q = L.items q) ∧
        k'.toCore = { s.kernel.toCore with
          pcb := Function.update s.kernel.pcb i
            { s.kernel.pcb i with status := .ready, inQueue := some .ready } }

/-- A signal that nobody waits for changes nothing. -/
def IgnoresEmpty (s : SignalSystem) (condition : CondId) (L : Lists QueueId Task) : Prop :=
  L.items (.block (.cond condition)) = [] →
    s.kernel.doConditionSignal condition = .ok s.kernel

/-- The kernel follows a list kernel whose queue is in the order of the clock. -/
structure Inv (condition : CondId) (s : SignalSystem) (a : Kernel ListQueues) : Prop where
  follows : Follows a s.kernel
  run : BootInv a
  order : InOrder s.since s.clock (.block (.cond condition)) a

variable {condition : CondId} {s s' : SignalSystem} {a : Kernel ListQueues} {e : Event}

theorem inv_boot (barrier : BarrierId → Barrier) (tables : Nat → Nat → Nat) :
    Inv condition (boot barrier tables) (bootLists barrier tables) where
  follows := bootLists_follows barrier tables
  run := bootLists_bootInv barrier tables
  order := ⟨List.Pairwise.nil, fun i hi => by cases hi⟩

theorem Inv.step (h : s.Inv condition a) (hok : s.EventOk e)
    (hstep : s.step condition e = some s') : ∃ a', s'.Inv condition a' := by
  obtain ⟨k', hk, rfl⟩ := Option.map_eq_some_iff.mp hstep
  obtain ⟨a', hfollows', hinv', _, hmoves⟩ := h.run.follow h.follows hok hk
  refine ⟨a', hfollows', hinv', ?_⟩
  have horder := h.order.moves h.run.toSchedInv (by simp) hmoves
  rwa [← h.follows.core] at horder

/-- `queue_dequeue` dereferences the null head of an empty queue. -/
theorem Inv.signal_nil (h : s.Inv condition a)
    (hnil : a.queues.items (.block (.cond condition)) = []) :
    s.kernel.doConditionSignal condition = .error .null := by
  have hsim := Kernel.doUnblockOne_sim h.follows (.cond condition)
  rw [Kernel.doUnblockOne, Kernel.dequeue_nil hnil] at hsim
  exact hsim

theorem Inv.signal_cons (h : s.Inv condition a) : s.WakesLongest condition a.queues := by
  intro i rest hitems
  have hsorted := h.order.sorted
  rw [hitems, List.pairwise_cons] at hsorted
  refine ⟨hsorted.1, ?_⟩
  have hsim := Kernel.doUnblockOne_sim h.follows (.cond condition)
  rw [Kernel.doUnblockOne_cons hitems] at hsim
  obtain ⟨k', hk', hfollows'⟩ := hsim
  have howner := Lists.owner_of_cons hitems
  refine ⟨k', _, hk', hfollows'.queues, ?_, ?_, fun q hq hready => ?_, ?_⟩
  · rw [Kernel.woken_items_self howner (by simp), hitems, List.erase_cons_head]
  · rw [Kernel.woken, Kernel.enqueued_items, if_pos rfl, Kernel.taken_items, if_neg (by simp)]
  · exact Kernel.woken_items_of_ne howner hq hready
  · rw [hfollows'.core, h.follows.core]
    rfl

/-- In every state that is reached from boot, `do_condition_signal` wakes the task
that has waited longest, and leaves the state alone when nobody waits, exactly
when somebody waits. -/
theorem condition_signal_iff (barrier : BarrierId → Barrier) (tables : Nat → Nat → Nat)
    (h : Reaches (SignalSystem.step condition) EventOk (boot barrier tables) s) :
    ∃ L, Represents s.kernel.queues L ∧
      (s.WakesLongest condition L ∧ s.IgnoresEmpty condition L ↔
        L.items (.block (.cond condition)) ≠ []) := by
  obtain ⟨a, hinv⟩ := h.invariant (fun s => ∃ a, s.Inv condition a)
    ⟨_, inv_boot barrier tables⟩ (by
      intro s e s' ha hok hstep
      obtain ⟨a, hinv⟩ := ha
      exact hinv.step hok hstep)
  refine ⟨a.queues, hinv.follows.queues, ?_, fun hne => ⟨hinv.signal_cons, ?_⟩⟩
  · rintro ⟨_, hempty⟩ hnil
    have hnull := hinv.signal_nil hnil
    rw [hempty hnil] at hnull
    cases hnull
  · exact fun hnil => absurd hnil hne

/-- The system over cleared tables. -/
def blank : SignalSystem := boot (fun _ => { goal := 1, now := 0 }) fun _ _ => 0

/-- Two tasks wait for a condition, one after the other. -/
theorem blank_two_wait :
    ∃ s, runIf (SignalSystem.step 3) EventOk blank
        [⟨0, .spawn 0⟩, ⟨0, .spawn 0⟩, ⟨0, .spawn 0⟩, ⟨0, .yield⟩, ⟨0, .block (.cond 3)⟩,
          ⟨0, .block (.cond 3)⟩] = some s ∧
      ∃ L, Represents s.kernel.queues L ∧
        (s.WakesLongest 3 L ∧ s.IgnoresEmpty 3 L ↔ L.items (.block (.cond 3)) ≠ []) := by
  have hrun : (runIf (SignalSystem.step 3) EventOk blank
      [⟨0, .spawn 0⟩, ⟨0, .spawn 0⟩, ⟨0, .spawn 0⟩, ⟨0, .yield⟩, ⟨0, .block (.cond 3)⟩,
        ⟨0, .block (.cond 3)⟩]).isSome = true := by
    decide +kernel
  obtain ⟨s, hs⟩ := Option.isSome_iff_exists.mp hrun
  exact ⟨s, hs, condition_signal_iff _ _ (reaches_of_runIf hs)⟩

/-- The first process signals a condition before anybody has waited for it. -/
theorem blank_signal_faults :
    ¬ ∀ (s : SignalSystem) (L : Lists QueueId Task),
      Reaches (SignalSystem.step 3) EventOk blank s → Represents s.kernel.queues L →
        s.WakesLongest 3 L ∧ s.IgnoresEmpty 3 L := by
  intro hall
  have hrun : (runIf (SignalSystem.step 3) EventOk blank [⟨0, .spawn 0⟩, ⟨0, .yield⟩]).map
      (fun s => (s.kernel.doConditionSignal 3).toOption.isSome) = some false := by
    decide +kernel
  obtain ⟨s, hs, hnull⟩ := Option.map_eq_some_iff.mp hrun
  have hreach := reaches_of_runIf hs
  obtain ⟨a, hinv⟩ := hreach.invariant (fun s => ∃ a, s.Inv 3 a) ⟨_, inv_boot _ _⟩ (by
    intro s e s' ha hok hstep
    obtain ⟨a, hinv⟩ := ha
    exact hinv.step hok hstep)
  obtain ⟨hwakes, hempty⟩ := hall s a.queues hreach hinv.follows.queues
  cases hitems : a.queues.items (.block (.cond 3)) with
  | nil =>
    rw [hempty hitems] at hnull
    cases hnull
  | cons i rest =>
    obtain ⟨_, k', _, hk', _⟩ := hwakes i rest hitems
    rw [hk'] at hnull
    cases hnull

end SignalSystem

end MipsOs.Sched
