import MipsOs.Lib.IntrusiveQueue
import MipsOs.Lib.Run

/-!
# The queues of `kernel/sched/queue.c`

Any number of queues over one heap of nodes.  A run calls `queue_init` on
empty queues, pushes nodes that are in no queue, takes the first node of
queues that are not empty, and removes nodes from the queue they are in.

`queues_refine_lists` is the result: in every state of a run the pointers of
every queue are the links of a list, forwards and backwards, no node is in two
queues, and every further call does to the lists what its name says and
touches no other queue and no node outside its queue.
-/

namespace MipsOs.Sched

open MipsOs.Lib

variable {Q N : Type} [DecidableEq Q] [DecidableEq N]

/-- A call of one of the functions of `queue.c` that write. -/
inductive QueueCall (Q N : Type) where
  | init (queue : Q)
  | push (queue : Q) (item : N)
  | dequeue (queue : Q)
  | remove (queue : Q) (item : N)

/-- `queue_init` -/
def queueInit (h : Heap Q N) (queue : Q) : Heap Q N :=
  { h with
    head := Function.update h.head queue none
    tail := Function.update h.tail queue none }

namespace QueueCall

/-- The queue of a call. -/
def queue : QueueCall Q N → Q
  | .init q => q
  | .push q _ => q
  | .dequeue q => q
  | .remove q _ => q

/-- The node that comes to the queue from outside. -/
def pushed : QueueCall Q N → Option N
  | .push _ x => some x
  | _ => none

/-- The code of a call: the node that it returns, and the pointers. -/
def run (h : Heap Q N) : QueueCall Q N → Except Fault (Option N × Heap Q N)
  | .init q => .ok (none, queueInit h q)
  | .push q x => (h.push q x).map fun h => (none, h)
  | .dequeue q => (h.dequeue q).map fun r => (some r.1, r.2)
  | .remove q x => h.remove q x

/-- What a call means: the node that it returns, and the lists. -/
def spec (items : Q → List N) : QueueCall Q N → Option N × (Q → List N)
  | .init _ => (none, items)
  | .push q x => (none, Function.update items q (items q ++ [x]))
  | .dequeue q => ((items q).head?, Function.update items q (items q).tail)
  | .remove q x => (nextIn x (items q), Function.update items q ((items q).erase x))

/-- The contract of the functions. -/
def Legal (items : Q → List N) : QueueCall Q N → Prop
  | .init q => items q = []
  | .push _ x => ∀ q, x ∉ items q
  | .dequeue q => items q ≠ []
  | .remove q x => x ∈ items q

end QueueCall

/-- The pointers, and the lists that they should represent. -/
structure Queues (Q N : Type) where
  heap : Heap Q N
  items : Q → List N

namespace Queues

/-- One call on the pointers and on the lists. -/
def step (s : Queues Q N) (call : QueueCall Q N) : Option (Queues Q N) :=
  (call.run s.heap).toOption.map fun r => { heap := r.2, items := (call.spec s.items).2 }

/-- The call keeps to the contract. -/
def Legal (s : Queues Q N) (call : QueueCall Q N) : Prop := call.Legal s.items

/-- All queues are empty, and the links of the nodes are arbitrary. -/
def start (prev next : N → Option N) : Queues Q N where
  heap := { head := fun _ => none, tail := fun _ => none, prev := prev, next := next }
  items := fun _ => []

end Queues

/-- Following `link` from `first` visits the nodes of a list and ends at
null. -/
def Visits (link : N → Option N) : Option N → List N → Prop
  | first, [] => first = none
  | first, x :: rest => first = some x ∧ Visits link (link x) rest

/-- The pointers are the links of the lists. -/
structure WellLinked (h : Heap Q N) (items : Q → List N) : Prop where
  forward : ∀ q, Visits h.next (h.head q) (items q)
  backward : ∀ q, Visits h.prev (h.tail q) (items q).reverse
  nodup : ∀ q, (items q).Nodup
  disjoint : ∀ p q x, x ∈ items p → x ∈ items q → p = q

/-- A call leaves the other queues alone, and the nodes that are not in its
queue. -/
structure Untouched (h h' : Heap Q N) (items : Q → List N) (call : QueueCall Q N) : Prop where
  queues : ∀ q, q ≠ call.queue → h'.head q = h.head q ∧ h'.tail q = h.tail q
  nodes : ∀ x, x ∉ items call.queue → call.pushed ≠ some x →
    h'.prev x = h.prev x ∧ h'.next x = h.next x

/-! ## Represented lists -/

omit [DecidableEq Q] [DecidableEq N] in
theorem visits_of_seg {h : Heap Q N} {p : Option N} {l : List N} (hseg : h.Seg p l none) :
    Visits h.next l.head? l := by
  induction l generalizing p with
  | nil => rfl
  | cons x rest ih =>
    obtain ⟨_, hnext, hrest⟩ := hseg
    refine ⟨rfl, ?_⟩
    rw [hnext, Option.or_none]
    exact ih hrest

omit [DecidableEq Q] [DecidableEq N] in
theorem visits_reverse_of_seg {h : Heap Q N} {n : Option N} {l : List N}
    (hseg : h.Seg none l n) : Visits h.prev l.getLast? l.reverse := by
  induction l using List.reverseRecOn generalizing n with
  | nil => rfl
  | append_singleton rest x ih =>
    obtain ⟨hrest, hprev, _⟩ := Heap.seg_append.mp hseg
    rw [List.reverse_append, List.getLast?_append]
    refine ⟨rfl, ?_⟩
    rw [hprev, Option.or_none]
    exact ih hrest

omit [DecidableEq Q] [DecidableEq N] in
theorem wellLinked_of_represents {h : Heap Q N} {L : Lists Q N} (hrep : Represents h L) :
    WellLinked h L.items where
  forward q := by
    rw [hrep.head]
    exact visits_of_seg (hrep.seg q)
  backward q := by
    rw [hrep.tail]
    exact visits_reverse_of_seg (hrep.seg q)
  nodup := L.nodup
  disjoint p q x hp hq := by
    rw [L.mem_iff] at hp hq
    exact Option.some.inj (hp.symm.trans hq)

/-! ## What the code leaves alone -/

section Untouched

variable {h h' : Heap Q N} {L : Lists Q N} {q : Q} {x y : N} {answer : Option N}

omit [DecidableEq Q] [DecidableEq N] in
theorem mem_of_head (hrep : Represents h L) (hx : h.head q = some x) : x ∈ L.items q := by
  rw [hrep.head] at hx
  exact List.mem_of_head? hx

omit [DecidableEq Q] [DecidableEq N] in
theorem mem_of_tail (hrep : Represents h L) (hx : h.tail q = some x) : x ∈ L.items q := by
  rw [hrep.tail] at hx
  exact List.mem_of_getLast? hx

omit [DecidableEq Q] [DecidableEq N] in
/-- The links of a node stay in its queue. -/
theorem mem_of_link (hrep : Represents h L) (hx : x ∈ L.items q)
    (hy : h.next x = some y ∨ h.prev x = some y) : y ∈ L.items q := by
  obtain ⟨a, b, hab⟩ := List.append_of_mem hx
  obtain ⟨hprev, hnext⟩ := hrep.links hab
  rw [hab]
  rcases hy with hy | hy
  · rw [hnext] at hy
    simp [List.mem_of_head? hy]
  · rw [hprev] at hy
    simp [List.mem_of_getLast? hy]

theorem untouched_push (hrep : Represents h L) (hrun : h.push q x = .ok h') :
    Untouched h h' L.items (.push q x) := by
  unfold Heap.push at hrun
  split at hrun
  · obtain rfl := Except.ok.inj hrun
    refine ⟨fun p hp => ?_, fun y _ hy => ?_⟩
    · exact ⟨Function.update_of_ne hp _ _, Function.update_of_ne hp _ _⟩
    · have hne : y ≠ x := fun heq => hy (congrArg some heq.symm)
      exact ⟨Function.update_of_ne hne _ _, Function.update_of_ne hne _ _⟩
  · split at hrun
    · cases hrun
    · rename_i last htail
      obtain rfl := Except.ok.inj hrun
      refine ⟨fun p hp => ⟨rfl, Function.update_of_ne hp _ _⟩, fun y hmem hy => ?_⟩
      have hne : y ≠ x := fun heq => hy (congrArg some heq.symm)
      have hlast : y ≠ last := by
        rintro rfl
        exact hmem (mem_of_tail hrep htail)
      refine ⟨Function.update_of_ne hne _ _, ?_⟩
      show Function.update (Function.update h.next last (some x)) x none y = h.next y
      rw [Function.update_of_ne hne, Function.update_of_ne hlast]

theorem untouched_dequeue (hrep : Represents h L) (hrun : h.dequeue q = .ok (x, h')) :
    Untouched h h' L.items (.dequeue q) := by
  unfold Heap.dequeue at hrun
  split at hrun
  · cases hrun
  · rename_i first hhead
    have hfirst := mem_of_head hrep hhead
    split at hrun
    · obtain ⟨rfl, rfl⟩ := Prod.mk.inj (Except.ok.inj hrun)
      refine ⟨fun p hp => ?_, fun y hmem _ => ?_⟩
      · exact ⟨Function.update_of_ne hp _ _, Function.update_of_ne hp _ _⟩
      · have hne : y ≠ first := fun heq => hmem (heq ▸ hfirst)
        exact ⟨Function.update_of_ne hne _ _, Function.update_of_ne hne _ _⟩
    · rename_i second hnext
      obtain ⟨rfl, rfl⟩ := Prod.mk.inj (Except.ok.inj hrun)
      have hsecond := mem_of_link hrep hfirst (Or.inl hnext)
      refine ⟨fun p hp => ⟨Function.update_of_ne hp _ _, rfl⟩, fun y hmem _ => ?_⟩
      have hne : y ≠ first := fun heq => hmem (heq ▸ hfirst)
      have hne' : y ≠ second := fun heq => hmem (heq ▸ hsecond)
      refine ⟨?_, Function.update_of_ne hne _ _⟩
      show Function.update (Function.update h.prev second none) first none y = h.prev y
      rw [Function.update_of_ne hne, Function.update_of_ne hne']

theorem untouched_remove (hrep : Represents h L) (hx : x ∈ L.items q)
    (hrun : h.remove q x = .ok (answer, h')) : Untouched h h' L.items (.remove q x) := by
  have hne : ∀ {y z}, y ∉ L.items q → z ∈ L.items q → y ≠ z := by
    rintro y z hy hz rfl
    exact hy hz
  unfold Heap.remove at hrun
  split at hrun
  · obtain ⟨rfl, rfl⟩ := Prod.mk.inj (Except.ok.inj hrun)
    refine ⟨fun p hp => ?_, fun y hmem _ => ?_⟩
    · exact ⟨Function.update_of_ne hp _ _, Function.update_of_ne hp _ _⟩
    · exact ⟨Function.update_of_ne (hne hmem hx) _ _, Function.update_of_ne (hne hmem hx) _ _⟩
  · split at hrun
    · split at hrun
      · cases hrun
      · rename_i after hnext
        obtain ⟨rfl, rfl⟩ := Prod.mk.inj (Except.ok.inj hrun)
        have hafter := mem_of_link hrep hx (Or.inl hnext)
        refine ⟨fun p hp => ⟨Function.update_of_ne hp _ _, rfl⟩, fun y hmem _ => ?_⟩
        refine ⟨?_, Function.update_of_ne (hne hmem hx) _ _⟩
        show Function.update (Function.update h.prev after none) x none y = h.prev y
        rw [Function.update_of_ne (hne hmem hx), Function.update_of_ne (hne hmem hafter)]
    · split at hrun
      · split at hrun
        · cases hrun
        · rename_i before hprev
          obtain ⟨rfl, rfl⟩ := Prod.mk.inj (Except.ok.inj hrun)
          have hbefore := mem_of_link hrep hx (Or.inr hprev)
          refine ⟨fun p hp => ⟨rfl, Function.update_of_ne hp _ _⟩, fun y hmem _ => ?_⟩
          refine ⟨Function.update_of_ne (hne hmem hx) _ _, ?_⟩
          show Function.update (Function.update h.next before none) x none y = h.next y
          rw [Function.update_of_ne (hne hmem hx), Function.update_of_ne (hne hmem hbefore)]
      · split at hrun
        · rename_i before after hprev hnext
          obtain ⟨rfl, rfl⟩ := Prod.mk.inj (Except.ok.inj hrun)
          have hbefore := mem_of_link hrep hx (Or.inr hprev)
          have hafter := mem_of_link hrep hx (Or.inl hnext)
          refine ⟨fun p _ => ⟨rfl, rfl⟩, fun y hmem _ => ⟨?_, ?_⟩⟩
          · show Function.update (Function.update h.prev after (some before)) x none y = h.prev y
            rw [Function.update_of_ne (hne hmem hx), Function.update_of_ne (hne hmem hafter)]
          · show Function.update (Function.update h.next before (some after)) x none y = h.next y
            rw [Function.update_of_ne (hne hmem hx), Function.update_of_ne (hne hmem hbefore)]
        · cases hrun

end Untouched

/-! ## Calls -/

section Calls

variable {h : Heap Q N} {L : Lists Q N} {call : QueueCall Q N}

/-- The conclusion about one call: it comes back with the node that it should
return, the pointers represent the lists that it should leave, and nothing
else changed. -/
def CallOk (h : Heap Q N) (L : Lists Q N) (call : QueueCall Q N) : Prop :=
  ∃ h' L', call.run h = .ok ((call.spec L.items).1, h') ∧ Represents h' L' ∧
    L'.items = (call.spec L.items).2 ∧ Untouched h h' L.items call

theorem callOk_init (hrep : Represents h L) (q : Q) (hlegal : L.items q = []) :
    CallOk h L (.init q) := by
  refine ⟨queueInit h q, L, rfl, ?_, rfl, ?_⟩
  · refine hrep.of_one (q := q) (fun _ _ => rfl) ?_ ?_ (fun _ _ _ _ => ⟨rfl, rfl⟩) ?_ ?_ ?_
    · exact fun p hp => Function.update_of_ne hp _ _
    · exact fun p hp => Function.update_of_ne hp _ _
    · rw [hlegal]
      exact Function.update_self _ _ _
    · rw [hlegal]
      exact Function.update_self _ _ _
    · rw [hlegal]
      trivial
  · refine ⟨fun p hp => ?_, fun _ _ _ => ⟨rfl, rfl⟩⟩
    exact ⟨Function.update_of_ne hp _ _, Function.update_of_ne hp _ _⟩

theorem callOk_push (hrep : Represents h L) (q : Q) (x : N) (hlegal : ∀ q, x ∉ L.items q) :
    CallOk h L (.push q x) := by
  have hx : L.owner x = none := by
    cases howner : L.owner x with
    | none => rfl
    | some p => exact absurd ((L.mem_iff p x).mpr howner) (hlegal p)
  have hsim := hrep.push q x
  simp only [QueueOps.push, Lists.push, dif_pos hx] at hsim
  obtain ⟨h', hrun, hrep'⟩ := hsim
  refine ⟨h', L.pushed q x hx, ?_, hrep', rfl, untouched_push hrep hrun⟩
  show (h.push q x).map _ = _
  rw [hrun]
  rfl

theorem callOk_dequeue (hrep : Represents h L) (q : Q) (hlegal : L.items q ≠ []) :
    CallOk h L (.dequeue q) := by
  obtain ⟨x, rest, hitems⟩ := List.exists_cons_of_ne_nil hlegal
  have hx := Lists.owner_of_cons hitems
  have hdequeue : L.dequeue q = .ok (x, L.removed q x hx) := by
    unfold Lists.dequeue
    split
    · rename_i hnil
      rw [hitems] at hnil
      cases hnil
    · rename_i y rest' hcons
      obtain ⟨rfl, rfl⟩ := List.cons.inj (hitems.symm.trans hcons)
      rfl
  have hsim := hrep.dequeue q
  simp only [QueueOps.dequeue, hdequeue] at hsim
  obtain ⟨⟨y, h'⟩, hrun, heq, hrep'⟩ := hsim
  obtain rfl : x = y := heq
  refine ⟨h', L.removed q x hx, ?_, hrep', ?_, untouched_dequeue hrep hrun⟩
  · show (h.dequeue q).map _ = _
    rw [hrun]
    show Except.ok (some x, h') = Except.ok ((L.items q).head?, h')
    rw [hitems]
    rfl
  · show Function.update L.items q ((L.items q).erase x) = _
    rw [hitems, List.erase_cons_head]
    show _ = Function.update L.items q (L.items q).tail
    rw [hitems]
    rfl

theorem callOk_remove (hrep : Represents h L) (q : Q) (x : N) (hlegal : x ∈ L.items q) :
    CallOk h L (.remove q x) := by
  have hx := (L.mem_iff q x).mp hlegal
  have hsim := hrep.remove q x
  simp only [QueueOps.remove, Lists.remove, dif_pos hx] at hsim
  obtain ⟨⟨answer, h'⟩, hrun, heq, hrep'⟩ := hsim
  obtain rfl : nextIn x (L.items q) = answer := heq
  exact ⟨h', L.removed q x hx, hrun, hrep', rfl, untouched_remove hrep hlegal hrun⟩

/-- Every call within the contract does what it should. -/
theorem callOk (hrep : Represents h L) (hlegal : call.Legal L.items) : CallOk h L call := by
  cases call with
  | init q => exact callOk_init hrep q hlegal
  | push q x => exact callOk_push hrep q x hlegal
  | dequeue q => exact callOk_dequeue hrep q hlegal
  | remove q x => exact callOk_remove hrep q x hlegal

end Calls

/-! ## Runs -/

/-- In every state of every run the pointers are the links of the lists, and
every further call acts on the lists as it should and touches nothing else. -/
theorem queues_refine_lists {prev next : N → Option N} {s : Queues Q N}
    (hreach : Reaches Queues.step Queues.Legal (Queues.start prev next) s) :
    WellLinked s.heap s.items ∧
      ∀ call : QueueCall Q N, call.Legal s.items →
        ∃ h', call.run s.heap = .ok ((call.spec s.items).1, h') ∧
          WellLinked h' (call.spec s.items).2 ∧ Untouched s.heap h' s.items call := by
  obtain ⟨L, hrep, hitems⟩ : ∃ L : Lists Q N, Represents s.heap L ∧ L.items = s.items := by
    refine hreach.invariant (fun s => ∃ L : Lists Q N, Represents s.heap L ∧ L.items = s.items)
      ⟨Lists.empty, ⟨fun _ => rfl, fun _ => rfl, fun _ => trivial⟩, rfl⟩ ?_
    intro a call b ⟨L, hrep, hitems⟩ hlegal hstep
    rw [Queues.Legal, ← hitems] at hlegal
    obtain ⟨h', L', hrun, hrep', hitems', _⟩ := callOk hrep hlegal
    rw [Queues.step, hrun, ← hitems] at hstep
    obtain rfl := Option.some.inj hstep
    exact ⟨L', hrep', hitems'⟩
  rw [← hitems]
  refine ⟨wellLinked_of_represents hrep, fun call hlegal => ?_⟩
  obtain ⟨h', L', hrun, hrep', hitems', huntouched⟩ := callOk hrep hlegal
  refine ⟨h', hrun, ?_, huntouched⟩
  rw [← hitems']
  exact wellLinked_of_represents hrep'

/-- With two nodes in a queue, a removal of the first returns the second. -/
theorem two_pushed_remove_first :
    ∃ s : Queues Nat Nat, s.items 0 = [5, 6] ∧
      ∃ h', (QueueCall.remove 0 5).run s.heap = .ok (some 6, h') ∧
        Visits h'.next (h'.head 0) [6] := by
  have hfirst : Queues.Legal (Queues.start (fun _ => none) fun _ => none)
      (.push 0 5 : QueueCall Nat Nat) := fun _ => List.not_mem_nil
  have hone := (Reaches.refl _).snoc hfirst (rfl : Queues.step _ _ = some _)
  have htwo := hone.snoc (e := .push 0 6) (fun q => by
    by_cases hq : q = 0
    · subst hq
      decide
    · simp [QueueCall.spec, Queues.start, hq]) (rfl : Queues.step _ _ = some _)
  obtain ⟨h', hrun, hlinked, _⟩ := (queues_refine_lists htwo).2 (.remove 0 5)
    (show (5 : Nat) ∈ [5, 6] by decide)
  exact ⟨_, rfl, h', hrun, hlinked.forward 0⟩

end MipsOs.Sched
