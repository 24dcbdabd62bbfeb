import MipsOs.Lib.QueueFrame
import MipsOs.Sched.Agreement

/-!
# The scans that wake tasks

`check_sleeping` and the end of `free_proc` walk a queue, take the tasks that
are due out of it, and append them to the ready queue through the same `next`
field that the walk follows.  `queue_remove` returns the successor before it
clears the field, so the walk does not come off its queue.

The two queues have to be linked and to share no task; nothing is asked of the
other queues.  Then a scan visits every task of its queue once and in order,
keeps those that are not due, and appends those that are due to the ready queue,
both in their order.
-/

namespace MipsOs.Sched

open MipsOs.Lib

/-! ## Scans and the other queues -/

namespace Kernel

section Masked

variable {S : QueueId → Prop} [DecidablePred S] {head tail : QueueId → Option Task}
  {k : Kernel PtrQueues} {q : QueueId} {due : Pcb → Bool}

/-- Other heads and tails for the queues outside of `S`. -/
def masked (S : QueueId → Prop) [DecidablePred S] (head tail : QueueId → Option Task)
    (k : Kernel PtrQueues) : Kernel PtrQueues :=
  { k with queues := k.queues.masked S head tail }

/-- The answer of a computation with the mask on its kernel. -/
def maskSnd {α : Type} (S : QueueId → Prop) [DecidablePred S]
    (head tail : QueueId → Option Task) (r : α × Kernel PtrQueues) : α × Kernel PtrQueues :=
  (r.1, r.2.masked S head tail)

theorem enqueue_masked (hq : S q) (i : Task) (s : TaskStatus) :
    (k.masked S head tail).enqueue q i s =
      (k.enqueue q i s).map (masked S head tail) := by
  have hpush : QueueOps.push (k.masked S head tail).queues q i =
      (k.queues.push q i).map (Heap.masked S head tail) := Heap.push_masked hq i
  have hplain : QueueOps.push k.queues q i = k.queues.push q i := rfl
  simp only [enqueue, hpush, hplain]
  cases k.queues.push q i <;> rfl

theorem wakeOne_masked (hq : S q) (hready : S .ready) (item : Task) :
    wakeOne q due item (k.masked S head tail) =
      (wakeOne q due item k).map (maskSnd S head tail) := by
  have hremove : QueueOps.remove (k.masked S head tail).queues q item =
      (k.queues.remove q item).map fun r => (r.1, r.2.masked S head tail) :=
    Heap.remove_masked hq item
  have hplain : QueueOps.remove k.queues q item = k.queues.remove q item := rfl
  have hpcb : (k.masked S head tail).pcb = k.pcb := rfl
  unfold wakeOne
  rw [hpcb, hremove, hplain]
  split
  · cases k.queues.remove q item with
    | error e => rfl
    | ok r =>
      have henq := @enqueue_masked S _ head tail { k with queues := r.2 } .ready hready item .ready
      change (({ k with queues := r.2 } : Kernel PtrQueues).masked S head tail).enqueue .ready item
        .ready >>= (fun k => Except.ok (r.1, k)) = Except.map (maskSnd S head tail)
          (({ k with queues := r.2 } : Kernel PtrQueues).enqueue .ready item .ready >>=
            fun k => Except.ok (r.1, k))
      rw [henq]
      cases ({ k with queues := r.2 } : Kernel PtrQueues).enqueue .ready item .ready <;> rfl
  · rfl

/-- A scan does not see the other queues. -/
theorem wakeVisits_masked (hq : S q) (hready : S .ready) (fuel : Nat) (item : Option Task)
    (k : Kernel PtrQueues) :
    wakeVisits q due fuel item (k.masked S head tail) =
      (wakeVisits q due fuel item k).map (maskSnd S head tail) := by
  induction fuel generalizing item k with
  | zero => cases item <;> rfl
  | succ fuel ih =>
    cases item with
    | none => rfl
    | some item =>
      simp only [wakeVisits, wakeOne_masked hq hready]
      cases wakeOne q due item k with
      | error e => rfl
      | ok r =>
        change (wakeVisits q due fuel r.1 (r.2.masked S head tail) >>=
            fun r => Except.ok (item :: r.1, r.2)) =
          Except.map (maskSnd S head tail) (wakeVisits q due fuel r.1 r.2 >>=
            fun r => Except.ok (item :: r.1, r.2))
        rw [ih]
        cases wakeVisits q due fuel r.1 r.2 <;> rfl

end Masked

/-! ## One scan -/

/-- What a scan leaves of a queue with the tasks `l` and a ready queue with the
tasks `r`. -/
structure Scanned (q : QueueId) (due : Pcb → Bool) (l r : List Task)
    (k k' : Kernel PtrQueues) : Prop where
  waiting : Linked k'.queues q (l.filter fun i => !due (k.pcb i))
  ready : Linked k'.queues .ready (r ++ l.filter fun i => due (k.pcb i))
  woken : ∀ i ∈ l, due (k.pcb i) = true →
    k'.pcb i = { k.pcb i with status := .ready, inQueue := some .ready }
  others : ∀ i, (i ∈ l → due (k.pcb i) = false) → k'.pcb i = k.pcb i
  core : k'.toCore = { k.toCore with pcb := k'.pcb }
  queues : ∀ p, p ≠ q → p ≠ .ready →
    k'.queues.head p = k.queues.head p ∧ k'.queues.tail p = k.queues.tail p

/-- A task stays as it is or has been woken, and nothing else of the kernel
changes. -/
structure OnlyWakes (a a' : Kernel ListQueues) : Prop where
  core : a'.toCore = { a.toCore with pcb := a'.pcb }
  task : ∀ i, (a'.pcb i = a.pcb i ∧ a'.queues.owner i = a.queues.owner i) ∨
    a'.pcb i = { a.pcb i with status := .ready, inQueue := some .ready }

theorem OnlyWakes.woken {a a' : Kernel ListQueues} {q : QueueId} {i : Task}
    (h : OnlyWakes a a') (hi : a'.queues.owner i = some q) : OnlyWakes a (a'.woken q i hi) where
  core := by
    have hcore := h.core
    show { a'.toCore with pcb := (a'.woken q i hi).pcb } =
      { a.toCore with pcb := (a'.woken q i hi).pcb }
    rw [hcore]
  task j := by
    rcases eq_or_ne j i with rfl | hj
    · right
      rw [woken_pcb_self]
      rcases h.task j with ⟨hsame, -⟩ | hwoken
      · rw [hsame]
      · rw [hwoken]
    · rw [woken_pcb_of_ne hi hj, woken_owner, if_neg hj]
      exact h.task j

variable {q : QueueId} {due : Pcb → Bool} {l r : List Task} {k : Kernel PtrQueues}

/-- A scan of a linked queue visits its tasks in order and splits them. -/
theorem wakeVisits_splits (due : Pcb → Bool) (hq : q ≠ .ready) (hl : Linked k.queues q l)
    (hr : Linked k.queues .ready r) (hlr : l.Disjoint r) :
    ∃ k', wakeVisits q due numMaxTask (k.queues.head q) k = .ok (l, k') ∧
      Scanned q due l r k k' := by
  let a : Kernel ListQueues :=
    { toCore := k.toCore, queues := Lists.two hq hl.nodup hr.nodup hlr }
  have hfollows : Follows a (k.masked (OneOf q .ready) (fun _ => none) fun _ => none) :=
    ⟨rfl, represents_masked hq hl.nodup hr.nodup hlr hl hr⟩
  have hitems : a.queues.items q = l := if_pos rfl
  have hready : a.queues.items .ready = r := (if_neg (Ne.symm hq)).trans (if_pos rfl)
  have hlength := a.length_items_le q
  rw [hitems] at hlength
  obtain ⟨a', hvisits, hwakes, hleft, hgone, hother⟩ :=
    wakeVisits_walk (P := OnlyWakes a) due hq (fun _ _ hi ha _ => ha.woken hi)
      numMaxTask [] l (hitems.trans (List.nil_append l).symm) hlength
      ⟨rfl, fun i => Or.inl ⟨rfl, rfl⟩⟩
  rw [hready] at hgone
  have hsim := wakeVisits_sim q due numMaxTask l.head? hfollows
  rw [hvisits] at hsim
  obtain ⟨⟨visited, c⟩, hmasked, rfl, hc⟩ := hsim
  rw [wakeVisits_masked (Or.inl rfl) (Or.inr rfl)] at hmasked
  obtain ⟨⟨visited', k'⟩, hrun, hpair⟩ : ∃ r, wakeVisits q due numMaxTask l.head? k = .ok r ∧
      maskSnd (OneOf q .ready) (fun _ => none) (fun _ => none) r = (l, c) := by
    cases hrun : wakeVisits q due numMaxTask l.head? k with
    | error e =>
      rw [hrun] at hmasked
      cases hmasked
    | ok r =>
      rw [hrun] at hmasked
      exact ⟨r, rfl, Except.ok.inj hmasked⟩
  obtain ⟨hvisited, rfl⟩ := Prod.mk.inj hpair
  replace hvisited : visited' = l := hvisited
  rw [hvisited] at hrun
  have hcore : k'.toCore = a'.toCore := hc.core
  have hpcb : k'.pcb = a'.pcb := congrArg Core.pcb hcore
  refine ⟨k', by rw [hl.head]; exact hrun, ?_, ?_, ?_, ?_, ?_, ?_⟩
  · have hlinked := hc.queues.linked (s := q) (Or.inl rfl)
    rwa [hleft] at hlinked
  · have hlinked := hc.queues.linked (s := .ready) (Or.inr rfl)
    rwa [hgone] at hlinked
  · intro i hi hdue
    rw [hpcb]
    rcases hwakes.task i with ⟨-, howner⟩ | hwoken
    · have hmem : i ∈ a'.queues.items q := by
        rw [a'.queues.mem_iff, howner, ← a.queues.mem_iff, hitems]
        exact hi
      rw [hleft, List.nil_append, List.mem_filter] at hmem
      rw [show a.pcb i = k.pcb i from rfl, hdue] at hmem
      exact absurd hmem.2 (by decide)
    · exact hwoken
  · intro i hi
    rw [hpcb]
    exact hother i hi
  · rw [hcore]
    exact hwakes.core
  · intro p hp hpr
    have hself : k.masked (OneOf q .ready) k.queues.head k.queues.tail = k := by
      unfold masked
      rw [Heap.masked_self]
    have hframe := @wakeVisits_masked (OneOf q .ready) _ k.queues.head k.queues.tail q due
      (Or.inl rfl) (Or.inr rfl) numMaxTask l.head? k
    rw [hself, hrun] at hframe
    have hk' : k' = k'.masked (OneOf q .ready) k.queues.head k.queues.tail :=
      congrArg Prod.snd (Except.ok.inj hframe)
    have hout : ¬ OneOf q .ready p := fun h => h.elim hp hpr
    rw [hk']
    exact ⟨if_neg hout, if_neg hout⟩

/-! ## The two scans -/

theorem checkSleeping_splits (hl : Linked k.queues .sleep l) (hr : Linked k.queues .ready r)
    (hlr : l.Disjoint r) :
    ∃ k', k.checkSleeping = .ok k' ∧
      wakeVisits .sleep (fun p => p.sleepUntil < k.getTimer % 2 ^ 32) numMaxTask
        (k.queues.head .sleep) k = .ok (l, k') ∧
      Scanned .sleep (fun p => p.sleepUntil < k.getTimer % 2 ^ 32) l r k k' := by
  obtain ⟨k', hvisits, hscanned⟩ := wakeVisits_splits
    (fun p => p.sleepUntil < k.getTimer % 2 ^ 32) (by decide) hl hr hlr
  refine ⟨k', ?_, hvisits, hscanned⟩
  have hloop : wakeAll .sleep (fun p => p.sleepUntil < k.getTimer % 2 ^ 32) numMaxTask
      (k.queues.head .sleep) k = .ok k' := by
    rw [wakeAll_eq, hvisits]
    rfl
  unfold checkSleeping
  dsimp only
  split
  · rename_i hempty
    rw [show k.queues.head .sleep = none by simpa [QueueOps.isEmpty] using hempty] at hloop
    exact hloop
  · exact hloop

theorem wakeWaiting_splits (pid : Int) (hl : Linked k.queues .waitpid l)
    (hr : Linked k.queues .ready r) (hlr : l.Disjoint r) :
    ∃ k', k.wakeWaiting pid = .ok k' ∧
      wakeVisits .waitpid (fun p => p.waitpid = pid) numMaxTask (k.queues.head .waitpid) k =
        .ok (l, k') ∧
      Scanned .waitpid (fun p => p.waitpid = pid) l r k k' := by
  obtain ⟨k', hvisits, hscanned⟩ := wakeVisits_splits
    (fun p => p.waitpid = pid) (by decide) hl hr hlr
  refine ⟨k', ?_, hvisits, hscanned⟩
  have hloop : wakeAll .waitpid (fun p => p.waitpid = pid) numMaxTask
      (k.queues.head .waitpid) k = .ok k' := by
    rw [wakeAll_eq, hvisits]
    rfl
  unfold wakeWaiting
  split
  · rename_i hempty
    rw [show k.queues.head .waitpid = none by simpa [QueueOps.isEmpty] using hempty] at hloop
    exact hloop
  · exact hloop

/-- Both scans end, visit every task of their queue once and in order, and split
it: the tasks that are not due stay, and those that are due follow the tasks of
the ready queue, both in their order. -/
theorem wake_scans_split (k : Kernel PtrQueues) {r : List Task} (hr : Linked k.queues .ready r) :
    (∀ l, Linked k.queues .sleep l → l.Disjoint r → ∃ k', k.checkSleeping = .ok k' ∧
      wakeVisits .sleep (fun p => p.sleepUntil < k.getTimer % 2 ^ 32) numMaxTask
        (k.queues.head .sleep) k = .ok (l, k') ∧
      Scanned .sleep (fun p => p.sleepUntil < k.getTimer % 2 ^ 32) l r k k') ∧
    ∀ pid l, Linked k.queues .waitpid l → l.Disjoint r → ∃ k', k.wakeWaiting pid = .ok k' ∧
      wakeVisits .waitpid (fun p => p.waitpid = pid) numMaxTask (k.queues.head .waitpid) k =
        .ok (l, k') ∧
      Scanned .waitpid (fun p => p.waitpid = pid) l r k k' :=
  ⟨fun _ hl hlr => checkSleeping_splits hl hr hlr,
    fun pid _ hl hlr => wakeWaiting_splits pid hl hr hlr⟩

/-- Tasks 1, 2 and 3 sleep until 0, 9 and 0, task 4 is ready, and the time
is 5. -/
def napKernel : Kernel PtrQueues where
  toCore :=
    { blankKernel.toCore with
      timeElapsed := 1500000
      pcb := fun i => { bootPcb with sleepUntil := if i = 2 then 9 else 0 } }
  queues :=
    { head := fun q => if q = .sleep then some 1 else if q = .ready then some 4 else none
      tail := fun q => if q = .sleep then some 3 else if q = .ready then some 4 else none
      prev := fun i => if i = 2 then some 1 else if i = 3 then some 2 else none
      next := fun i => if i = 1 then some 2 else if i = 2 then some 3 else none }

theorem napKernel_scan_splits :
    ∃ k', napKernel.checkSleeping = .ok k' ∧ Linked k'.queues .sleep [2] ∧
      Linked k'.queues .ready [4, 1, 3] := by
  obtain ⟨k', hk', -, hscanned⟩ :=
    (wake_scans_split napKernel (r := [4]) ⟨rfl, rfl, ⟨rfl, rfl, trivial⟩, by decide⟩).1 [1, 2, 3]
      ⟨rfl, rfl, ⟨rfl, rfl, rfl, rfl, rfl, rfl, trivial⟩, by decide⟩ (by simp)
  exact ⟨k', hk', hscanned.waiting, hscanned.ready⟩

end Kernel

end MipsOs.Sched
