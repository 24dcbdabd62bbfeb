import MipsOs.Sched.Mutex

/-!
# Mutexes and condition variables of tasks that live on

`do_condition_wait` is interrupted where it blocks: it releases the lock and
blocks in the queue of the condition; when it runs again it acquires the
lock, which can block a second time; when it runs after that it returns.
`CondPc` is the place of a task in that code, and `CondSystem` runs the
mutexes beside the places of the tasks.

The system also records in which order tasks block for a lock and in which
order blocked tasks obtain it.  While nobody dies, mutual exclusion holds, a
mutex is locked exactly when it is held, blocked tasks obtain it in the order
they blocked, and a task that returns from `do_condition_wait` holds the lock.
-/

namespace MipsOs.Sched

open MipsOs.Lib

/-- Where a task is in `do_condition_wait`. -/
inductive CondPc where
  /-- Outside. -/
  | idle
  /-- Behind the release, before `do_block`. -/
  | blocking (lock : LockId) (condition : CondId)
  /-- In `do_block`. -/
  | waiting (lock : LockId)
  /-- In `do_mutex_lock_acquire`, or behind it. -/
  | acquiring (lock : LockId)
  deriving DecidableEq, Repr

/-- An event of the kernel, or a step of `do_condition_wait`. -/
inductive CondEvent where
  /-- Any event of a task that is outside of `do_condition_wait`.  This
  includes `do_condition_signal` and `do_condition_broadcast`, which are
  `do_unblock_one` and `do_unblock_all`. -/
  | event (e : Event)
  /-- A call of `do_condition_wait`. -/
  | wait (sp : Nat) (lock : LockId) (condition : CondId)
  /-- The running task goes on in `do_condition_wait`. -/
  | resume (sp : Nat)

/-- The task goes on in `do_condition_wait`. -/
def CondEvent.isResume : CondEvent → Bool
  | .resume _ => true
  | _ => false

/-- The tasks that obtained a lock they were blocked for. -/
def obtainedNow (c c' : Core) (l : LockId) : List Task :=
  (List.finRange numMaxTask).filter fun p => (l, p) ∈ obtained c c'

/-- The task that blocks for a lock. -/
def Core.blockedNow (c : Core) (call : Call) (l : LockId) : List Task :=
  if call = .acquire l ∧ c.lockStatus l = .locked then [c.currentRunning] else []

/-- The mutexes, the places of the tasks, and who blocked for each lock and obtained it,
in order. -/
structure CondSystem extends MutexSystem where
  pc : Task → CondPc
  blockedOrder : LockId → List Task
  obtainedOrder : LockId → List Task

namespace CondSystem

/-- One event of the mutexes, with the two records. -/
def mutexStep (s : CondSystem) (e : Event) : Option CondSystem :=
  (s.toMutexSystem.step e).map fun m =>
    { s with
      toMutexSystem := m
      blockedOrder := fun l => s.blockedOrder l ++ s.kernel.toCore.blockedNow e.call l
      obtainedOrder := fun l => s.obtainedOrder l ++
        obtainedNow s.kernel.toCore m.kernel.toCore l }

/-- Move a task to a place in `do_condition_wait`. -/
def setPc (s : CondSystem) (i : Task) (pc : CondPc) : CondSystem :=
  { s with pc := Function.update s.pc i pc }

/-- The place of the running task. -/
def curPc (s : CondSystem) : CondPc := s.pc s.kernel.currentRunning

/-- What the running task does next in the kernel. -/
def eventOf (s : CondSystem) : CondEvent → Option Event
  | .event e => some e
  | .wait sp lock _ => some ⟨sp, .release lock⟩
  | .resume sp =>
    match s.curPc with
    | .blocking _ condition => some ⟨sp, .block (.cond condition)⟩
    | .waiting lock => some ⟨sp, .acquire lock⟩
    | _ => none

/-- The place of the running task after that. -/
def nextPc (s : CondSystem) : CondEvent → CondPc
  | .event _ => s.curPc
  | .wait _ lock condition => .blocking lock condition
  | .resume _ =>
    match s.curPc with
    | .blocking lock _ => .waiting lock
    | .waiting lock => .acquiring lock
    | _ => .idle

/-- One event. -/
def step (s : CondSystem) (ev : CondEvent) : Option CondSystem :=
  let s₁ := s.setPc s.kernel.currentRunning (s.nextPc ev)
  match s.eventOf ev with
  | none => some s₁
  | some e => s₁.mutexStep e

/-- Nobody dies, and a task that is in `do_condition_wait` goes on with it. -/
def EventOk (s : CondSystem) (ev : CondEvent) : Prop :=
  (s.curPc = .idle ↔ ev.isResume = false) ∧
    ∀ e ∈ s.eventOf ev, s.toMutexSystem.EventOk e ∧ s.kernel.toCore.dying e.call = none

instance (s : CondSystem) (ev : CondEvent) : Decidable (s.EventOk ev) :=
  inferInstanceAs (Decidable (_ ∧ ∀ _ ∈ _, _))

/-- The system after initialisation. -/
def boot (barrier : BarrierId → Barrier) (tables : Nat → Nat → Nat) : CondSystem where
  toMutexSystem := .boot barrier tables
  pc := fun _ => .idle
  blockedOrder := fun _ => []
  obtainedOrder := fun _ => []

end CondSystem

/-! ## The order of a queue -/

section Order

variable {a a' : Kernel ListQueues} {m : LockMove} {l : LockId}

theorem mem_obtained_iff (h : SchedInv a) (h' : SchedInv a') {p : Task} :
    (l, p) ∈ obtained a.toCore a'.toCore ↔
      p ∈ a.lockTable.queue l ∧ p ∉ a'.lockTable.queue l ∧ a'.toCore.alive p = true := by
  rw [mem_obtained, ← h.waitsFor_iff, ← h'.waitsFor_iff]

/-- A queue that nobody leaves gives the lock to nobody. -/
theorem obtainedNow_eq_nil (h : SchedInv a) (h' : SchedInv a')
    (hstay : ∀ p ∈ a.lockTable.queue l, p ∈ a'.lockTable.queue l) :
    obtainedNow a.toCore a'.toCore l = [] := by
  refine List.filter_eq_nil_iff.mpr fun p _ hp => ?_
  obtain ⟨hin, hout, _⟩ := (mem_obtained_iff h h').mp (of_decide_eq_true hp)
  exact hout (hstay p hin)

/-- A queue that loses its head gives the lock to the head. -/
theorem obtainedNow_eq_head (h : SchedInv a) (h' : SchedInv a')
    (halive : ∀ p, a.toCore.alive p = true → a'.toCore.alive p = true)
    (htail : a'.lockTable.queue l = (a.lockTable.queue l).tail) :
    obtainedNow a.toCore a'.toCore l = (a.lockTable.queue l).head?.toList := by
  have hnodup := h.orderly.nodup l
  cases hqueue : a.lockTable.queue l with
  | nil =>
    refine obtainedNow_eq_nil h h' fun p hp => ?_
    rw [hqueue] at hp
    cases hp
  | cons w rest =>
    rw [hqueue] at hnodup htail
    have hw := (List.nodup_cons.mp hnodup).1
    have hiff : ∀ p, (l, p) ∈ obtained a.toCore a'.toCore ↔ p = w := by
      intro p
      rw [mem_obtained_iff h h', htail, hqueue, List.tail_cons, List.mem_cons]
      constructor
      · rintro ⟨rfl | hin, hout, _⟩
        · rfl
        · exact absurd hin hout
      · rintro rfl
        exact ⟨Or.inl rfl, hw, halive p (h.orderly.alive l p (by rw [hqueue]; simp))⟩
    simp only [obtainedNow, hiff, List.head?_cons, Option.toList_some]
    rw [show (fun p => decide (p = w)) = (· == w) from rfl, List.filter_beq,
      List.count_eq_one_of_mem (List.nodup_finRange _) (List.mem_finRange w)]
    rfl

/-- What is in a queue and what joins it, in order, is what leaves it with the
lock and what is in it afterwards. -/
theorem LockStep.fifo {s s' : MutexSystem} {e : Event} (hfollows : Follows a s.kernel)
    (hinv : SchedInv a) (hlock : LockStep s s' (s.kernel.toCore.lockMove e.call) a a')
    (hdying : s.kernel.toCore.dying e.call = none) (l : LockId) :
    a.lockTable.queue l ++ a.toCore.blockedNow e.call l =
      obtainedNow a.toCore a'.toCore l ++ a'.lockTable.queue l := by
  obtain ⟨_, hinv', hmoved, _⟩ := hlock
  have halive := hmoved.alive hdying
  rw [hfollows.core] at hmoved
  have hsame : a'.lockTable.queue l = a.lockTable.queue l →
      (e.call = .acquire l → a.lockStatus l = .unlocked) →
      a.lockTable.queue l ++ a.toCore.blockedNow e.call l =
        obtainedNow a.toCore a'.toCore l ++ a'.lockTable.queue l := by
    intro hqueue hopen
    have hblocked : a.toCore.blockedNow e.call l = [] := by
      refine if_neg ?_
      rintro ⟨hcall, hs⟩
      rw [hopen hcall] at hs
      cases hs
    rw [obtainedNow_eq_nil hinv hinv' fun p hp => hqueue ▸ hp, hblocked, hqueue]
    simp
  have htable := hmoved.1
  rcases a.toCore.lockMove_cases e.call with ⟨m, hcall, hs, hm⟩ | ⟨m, hcall, hs, hm⟩ |
    ⟨m, hcall, hm⟩ | ⟨hlock, hm | ⟨p, hm⟩⟩
  all_goals rw [hm] at htable
  · refine hsame (by rw [htable]; rfl) fun hl => ?_
    obtain rfl := Call.acquire.inj (hcall.symm.trans hl)
    exact hs
  · by_cases hl : l = m
    · subst hl
      have hqueue : a'.lockTable.queue l = a.lockTable.queue l ++ [a.currentRunning] := by
        rw [htable]
        simp [LockMove.apply, LockTable.block]
      rw [obtainedNow_eq_nil hinv hinv' fun p hp => by rw [hqueue]; simp [hp], hqueue,
        Core.blockedNow, if_pos ⟨hcall, hs⟩, List.nil_append]
    · refine hsame ?_ fun hl' => absurd (Call.acquire.inj (hcall.symm.trans hl')).symm hl
      rw [htable]
      simp [LockMove.apply, LockTable.block, hl]
  · have hnot : e.call = .acquire l → a.lockStatus l = .unlocked := by
      rw [hcall]
      rintro ⟨⟩
    by_cases hl : l = m
    · subst hl
      have hqueue : a'.lockTable.queue l = (a.lockTable.queue l).tail := by
        rw [htable, LockMove.apply, LockTable.release_queue, if_pos rfl]
      rw [obtainedNow_eq_head hinv hinv' halive hqueue, hqueue, Core.blockedNow, hcall,
        if_neg (by simp), List.append_nil]
      cases a.lockTable.queue l <;> rfl
    · refine hsame ?_ hnot
      rw [htable, LockMove.apply, LockTable.release_queue, if_neg hl]
  · refine hsame (by rw [htable]; rfl) fun hcall => ?_
    rw [hcall] at hlock
    cases hlock
  · rw [Core.dying, hfollows.core, hm] at hdying
    cases hdying

end Order

/-! ## Runs -/

namespace CondSystem

/-- A task in the second acquire holds the lock or waits for it. -/
def PcInv (s : CondSystem) : Prop :=
  ∀ p l, s.pc p = .acquiring l → (l, p) ∈ s.held ∨ s.kernel.toCore.waitsFor p = some l

/-- The invariant of the system. -/
structure Inv (s : CondSystem) (a : Kernel ListQueues) : Prop where
  follows : Follows a s.kernel
  sched : SchedInv a
  exclusive : Exclusive a.lockTable a.toCore.alive (holdsOf s.held)
  attended : Attended a.lockTable a.toCore.alive (holdsOf s.held)
  order : ∀ l, s.blockedOrder l = s.obtainedOrder l ++ a.lockTable.queue l
  places : s.PcInv

theorem inv_boot (barrier : BarrierId → Barrier) (tables : Nat → Nat → Nat) :
    (boot barrier tables).Inv (bootLists barrier tables) where
  follows := bootLists_follows barrier tables
  sched := bootLists_inv barrier tables
  exclusive := MutexSystem.exclusive_boot barrier tables
  attended := MutexSystem.attended_boot barrier tables
  order := fun _ => rfl
  places := by rintro _ _ ⟨⟩

/-- A task that holds a lock or waits for it still does after an event in which
nobody dies, unless it releases the lock. -/
theorem held_or_waits {s s' : MutexSystem} {e : Event} {a a' : Kernel ListQueues}
    {l : LockId} {p : Task} (hfollows : Follows a s.kernel) (hinv : SchedInv a)
    (hlock : LockStep s s' (s.kernel.toCore.lockMove e.call) a a')
    (hdying : s.kernel.toCore.dying e.call = none)
    (hexcl : Exclusive a.lockTable a.toCore.alive (holdsOf s.held))
    (h : (l, p) ∈ s.held ∨ s.kernel.toCore.waitsFor p = some l)
    (hgive : ¬ (e.call = .release l ∧ p = s.kernel.currentRunning)) :
    (l, p) ∈ s'.held ∨ s'.kernel.toCore.waitsFor p = some l := by
  obtain ⟨hfollows', hinv', hmoved, hholds⟩ := hlock
  have halive := hmoved.alive hdying
  have hmem : holdsOf s'.held l p = true ↔ (l, p) ∈ s'.held := decide_eq_true_iff
  rw [hfollows.core] at h
  rw [hfollows'.core, hinv'.waitsFor_iff, ← hmem, hholds, ← hmoved.1, Holds.next_iff]
  rw [hinv.waitsFor_iff] at h
  rcases h with hheld | hwait
  · have hheld' : holdsOf s.held l p = true := decide_eq_true hheld
    refine Or.inl (Or.inl ⟨hheld', halive p (hexcl.held_alive l p hheld'), ?_⟩)
    exact (Core.lockMove_gives _ _ l p).mpr hgive
  · by_cases hstill : p ∈ a'.lockTable.queue l
    · exact Or.inr hstill
    · exact Or.inl (Or.inr (Or.inl ⟨hwait, hstill, halive p (hinv.orderly.alive l p hwait)⟩))

/-- An acquire makes the running task a holder or a waiter. -/
theorem acquire_held_or_waits {s s' : MutexSystem} {e : Event} {a a' : Kernel ListQueues}
    {l : LockId} (hlock : LockStep s s' (s.kernel.toCore.lockMove e.call) a a')
    (hcall : e.call = .acquire l) :
    (l, s.kernel.currentRunning) ∈ s'.held ∨
      s'.kernel.toCore.waitsFor s.kernel.currentRunning = some l := by
  obtain ⟨hfollows', hinv', hmoved, hholds⟩ := hlock
  have hmem : holdsOf s'.held l s.kernel.currentRunning = true ↔
      (l, s.kernel.currentRunning) ∈ s'.held := decide_eq_true_iff
  rw [hfollows'.core, hinv'.waitsFor_iff, ← hmem, hholds, ← hmoved.1, Holds.next_iff]
  rw [hcall, Core.lockMove] at hmoved ⊢
  split at hmoved
  · rename_i hs
    rw [if_pos hs]
    exact Or.inl (Or.inr (Or.inr (by simp [LockMove.takes, only])))
  · rw [hmoved.1]
    exact Or.inr (by simp [LockMove.apply, LockTable.block])

/-- The running task reaches the second acquire by resuming behind the block. -/
theorem nextPc_acquiring {s : CondSystem} {ev : CondEvent} {l : LockId} (hok : s.EventOk ev)
    (h : s.nextPc ev = .acquiring l) : ∃ sp, s.eventOf ev = some ⟨sp, .acquire l⟩ := by
  cases ev with
  | event e =>
    have hidle : s.curPc = .idle := hok.1.mpr rfl
    rw [nextPc, hidle] at h
    cases h
  | wait sp lock condition => cases h
  | resume sp =>
    simp only [nextPc] at h
    split at h
    · cases h
    · rename_i lock hpc
      obtain rfl := CondPc.acquiring.inj h
      exact ⟨sp, by simp only [eventOf, hpc]⟩
    · cases h

/-- The places over one event of the mutexes. -/
theorem PcInv.step {s : CondSystem} {m : MutexSystem} {ev : CondEvent} {e : Event}
    {a a' : Kernel ListQueues} (h : s.Inv a) (hok : s.EventOk ev) (he : s.eventOf ev = some e)
    (hlock : LockStep s.toMutexSystem m (s.kernel.toCore.lockMove e.call) a a') {p : Task}
    {l : LockId}
    (hp : Function.update s.pc s.kernel.currentRunning (s.nextPc ev) p = .acquiring l) :
    (l, p) ∈ m.held ∨ m.kernel.toCore.waitsFor p = some l := by
  by_cases hcur : p = s.kernel.currentRunning
  · subst hcur
    rw [Function.update_self] at hp
    obtain ⟨sp, hacquire⟩ := nextPc_acquiring hok hp
    obtain rfl := Option.some.inj (he.symm.trans hacquire)
    exact acquire_held_or_waits hlock rfl
  · rw [Function.update_of_ne hcur] at hp
    exact held_or_waits h.follows h.sched hlock (hok.2 e he).2 h.exclusive (h.places p l hp)
      fun hgive => hcur hgive.2

theorem Inv.step {s s' : CondSystem} {ev : CondEvent} {a : Kernel ListQueues} (h : s.Inv a)
    (hok : s.EventOk ev) (hstep : s.step ev = some s') : ∃ a', s'.Inv a' := by
  simp only [CondSystem.step] at hstep
  split at hstep
  · rename_i hnone
    obtain rfl := Option.some.inj hstep
    refine ⟨a, h.follows, h.sched, h.exclusive, h.attended, h.order, fun p l hp => ?_⟩
    change Function.update s.pc s.kernel.currentRunning (s.nextPc ev) p = .acquiring l at hp
    by_cases hcur : p = s.kernel.currentRunning
    · subst hcur
      rw [Function.update_self] at hp
      obtain ⟨sp, hacquire⟩ := nextPc_acquiring hok hp
      rw [hnone] at hacquire
      cases hacquire
    · rw [Function.update_of_ne hcur] at hp
      exact h.places p l hp
  · rename_i e he
    obtain ⟨hevent, hdying⟩ := hok.2 e he
    obtain ⟨m, hm, rfl⟩ := Option.map_eq_some_iff.mp hstep
    obtain ⟨a', hlock⟩ := MutexSystem.step_lockStep (s := s.toMutexSystem) h.follows h.sched
      hevent hm
    have hnobody : ∀ {P : Task → Prop} (p : Task),
        s.kernel.toCore.dying e.call = some p → P p := by
      intro P p hp
      rw [hdying] at hp
      cases hp
    refine ⟨a', hlock.follows, hlock.inv,
      MutexSystem.exclusive_lockStep h.follows h.sched ⟨hevent, hnobody⟩ hlock h.exclusive,
      MutexSystem.attended_lockStep h.follows h.sched ⟨hevent, hnobody⟩ hlock h.attended,
      fun l => ?_, fun p l hp => PcInv.step h hok he hlock hp⟩
    have hfifo := hlock.fifo h.follows h.sched hdying l
    rw [← h.follows.core, ← hlock.follows.core] at hfifo
    calc s.blockedOrder l ++ s.kernel.toCore.blockedNow e.call l
        = s.obtainedOrder l ++ (a.lockTable.queue l ++
            s.kernel.toCore.blockedNow e.call l) := by rw [h.order l, List.append_assoc]
      _ = s.obtainedOrder l ++ (obtainedNow s.kernel.toCore m.kernel.toCore l ++
            a'.lockTable.queue l) := by rw [hfifo]
      _ = s.obtainedOrder l ++ obtainedNow s.kernel.toCore m.kernel.toCore l ++
            a'.lockTable.queue l := (List.append_assoc _ _ _).symm

/-- While nobody dies: a mutex has at most one holder, is locked exactly when
it has one, and has an empty queue when it is open; blocked tasks obtain it in
the order they blocked; and the running task holds the lock when it returns
from `do_condition_wait`. -/
theorem condition_wait_correct (barrier : BarrierId → Barrier) (tables : Nat → Nat → Nat)
    {s : CondSystem} (h : Reaches CondSystem.step EventOk (boot barrier tables) s) :
    (∀ l p q, (l, p) ∈ s.held → (l, q) ∈ s.held → p = q) ∧
      (∀ l, s.kernel.lockStatus l = .locked ↔ ∃ p, (l, p) ∈ s.held) ∧
      (∀ l, s.kernel.lockStatus l = .unlocked →
        QueueOps.isEmpty s.kernel.queues (.block (.lock l)) = true) ∧
      (∀ l, s.obtainedOrder l <+: s.blockedOrder l) ∧
      ∀ l, s.curPc = .acquiring l → (l, s.kernel.currentRunning) ∈ s.held := by
  obtain ⟨a, hinv⟩ := h.invariant (fun s => ∃ a, s.Inv a)
    ⟨_, inv_boot barrier tables⟩ fun s ev s' ⟨a, ha⟩ hok hstep => ha.step hok hstep
  refine ⟨?_, ?_, ?_, ?_, ?_⟩
  · intro l p q hp hq
    exact hinv.exclusive.unique l p q (decide_eq_true hp) (decide_eq_true hq)
  · intro l
    rw [hinv.follows.core, ← a.lockTable_locked]
    constructor
    · intro hlocked
      obtain ⟨p, hp⟩ := hinv.attended.locked_held l hlocked
      exact ⟨p, of_decide_eq_true hp⟩
    · rintro ⟨p, hp⟩
      exact hinv.exclusive.held_locked l p (decide_eq_true hp)
  · intro l hopen
    rw [hinv.follows.core, ← a.lockTable_open] at hopen
    rw [hinv.follows.queues.isEmpty]
    have hnil : a.queues.items (.block (.lock l)) = [] := hinv.exclusive.open_empty l hopen
    simp [QueueOps.isEmpty, hnil]
  · intro l
    exact ⟨a.lockTable.queue l, (hinv.order l).symm⟩
  · intro l hpc
    refine (hinv.places _ l hpc).resolve_right fun hwait => ?_
    rw [hinv.follows.core, hinv.sched.waitsFor_iff] at hwait
    have howner := (a.queues.mem_iff _ _).mp hwait
    rw [hinv.sched.owner_current] at howner
    cases howner

/-- The system over cleared tables. -/
def blank : CondSystem := boot (fun _ => { goal := 1, now := 0 }) fun _ _ => 0

/-- Task 1 waits for a condition that task 2 signals while it holds the lock.
Task 1 blocks a second time, gets the lock from task 2 and returns with it. -/
theorem blank_condition_wait_returns :
    ∃ s, runIf CondSystem.step EventOk blank
        [.event ⟨0, .spawn 0⟩, .event ⟨0, .spawn 0⟩, .event ⟨0, .timer 5⟩,
          .event ⟨0, .acquire 7⟩, .wait 0 7 3, .resume 0, .event ⟨0, .acquire 7⟩,
          .event ⟨0, .unblockOne (.cond 3)⟩, .event ⟨0, .yield⟩, .resume 0,
          .event ⟨0, .release 7⟩, .event ⟨0, .yield⟩] = some s ∧
      s.kernel.currentRunning = 1 ∧ s.curPc = .acquiring 7 ∧
      (7, s.kernel.currentRunning) ∈ s.held := by
  have hrun : (runIf CondSystem.step EventOk blank
      [.event ⟨0, .spawn 0⟩, .event ⟨0, .spawn 0⟩, .event ⟨0, .timer 5⟩,
        .event ⟨0, .acquire 7⟩, .wait 0 7 3, .resume 0, .event ⟨0, .acquire 7⟩,
        .event ⟨0, .unblockOne (.cond 3)⟩, .event ⟨0, .yield⟩, .resume 0,
        .event ⟨0, .release 7⟩, .event ⟨0, .yield⟩]).map
      (fun s => (s.kernel.currentRunning, s.curPc)) = some (1, .acquiring 7) := by
    decide +kernel
  obtain ⟨s, hs, hpair⟩ := Option.map_eq_some_iff.mp hrun
  obtain ⟨hcur, hpc⟩ := Prod.mk.inj hpair
  obtain ⟨_, _, _, _, hreturn⟩ := condition_wait_correct _ _ (reaches_of_runIf hs)
  exact ⟨s, hs, hcur, hpc, hreturn 7 hpc⟩

end CondSystem

end MipsOs.Sched
