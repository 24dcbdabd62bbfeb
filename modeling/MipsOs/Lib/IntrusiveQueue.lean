import MipsOs.Lib.Fault

/-!
# Intrusive doubly linked queues

A node carries its own `prev` and `next` pointers, so it can be in one queue
at a time.  Any number of queues share one heap of nodes.

`QueueOps` is the interface.  It has two implementations.

* `Heap` is the pointer code.  It faults on a null dereference and checks
  nothing else.
* `Lists` is what the queues mean: a list of nodes for every queue, and for
  every node the queue that it is in.  A push of a node that is in a queue,
  or a removal from a queue that the node is not in, is a misuse.

`Represents H L` relates the two, and the theorems `Represents.push`,
`.dequeue`, `.remove` and `.next` say that the pointer code follows the
lists.  A program written over `QueueOps` can then be proved over lists.
-/

namespace MipsOs.Lib

/-- The operations that a program performs on its queues `Q` of nodes `N`. -/
class QueueOps (H : Type) (Q N : outParam Type) where
  isEmpty : H → Q → Bool
  push : H → Q → N → Except Fault H
  dequeue : H → Q → Except Fault (N × H)
  remove : H → Q → N → Except Fault (Option N × H)
  head : H → Q → Option N
  next : H → N → Except Fault (Option N)

variable {Q N : Type} [DecidableEq Q] [DecidableEq N]

/-! ## Pointers -/

/-- The pointers of the queues and of the nodes.  `none` is null. -/
structure Heap (Q N : Type) where
  head : Q → Option N
  tail : Q → Option N
  prev : N → Option N
  next : N → Option N

namespace Heap

/-- All queues empty. -/
def empty : Heap Q N where
  head := fun _ => none
  tail := fun _ => none
  prev := fun _ => none
  next := fun _ => none

/-- Append a node: to an empty queue, or behind the last one. -/
def push (h : Heap Q N) (q : Q) (item : N) : Except Fault (Heap Q N) :=
  match h.head q with
  | none =>
    .ok
      { head := Function.update h.head q (some item)
        tail := Function.update h.tail q (some item)
        prev := Function.update h.prev item none
        next := Function.update h.next item none }
  | some _ =>
    match h.tail q with
    | none => .error .null
    | some last =>
      .ok
        { h with
          tail := Function.update h.tail q (some item)
          prev := Function.update h.prev item (some last)
          next := Function.update (Function.update h.next last (some item)) item none }

/-- At most `n` nodes from a node on, along the links. -/
def nodesFrom (h : Heap Q N) : Nat → Option N → List N
  | 0, _ => []
  | _, none => []
  | n + 1, some x => x :: h.nodesFrom n (h.next x)

/-- At most `n` nodes of a queue, from its head on. -/
def nodes (h : Heap Q N) (n : Nat) (q : Q) : List N := h.nodesFrom n (h.head q)

/-- Clear the pointers of a node that left its queue. -/
def unlink (h : Heap Q N) (item : N) : Heap Q N :=
  { h with
    prev := Function.update h.prev item none
    next := Function.update h.next item none }

/-- Take the first node. -/
def dequeue (h : Heap Q N) (q : Q) : Except Fault (N × Heap Q N) :=
  match h.head q with
  | none => .error .null
  | some temp =>
    match h.next temp with
    | none =>
      let h' : Heap Q N :=
        { h with
          head := Function.update h.head q none
          tail := Function.update h.tail q none }
      .ok (temp, h'.unlink temp)
    | some second =>
      let h' : Heap Q N :=
        { h with
          head := Function.update h.head q (some second)
          prev := Function.update h.prev second none }
      .ok (temp, h'.unlink temp)

/-- Remove a node and return the one after it. -/
def remove (h : Heap Q N) (q : Q) (item : N) : Except Fault (Option N × Heap Q N) :=
  if h.head q = some item ∧ h.tail q = some item then
    let h' : Heap Q N :=
      { h with
        head := Function.update h.head q none
        tail := Function.update h.tail q none }
    .ok (h.next item, h'.unlink item)
  else if h.head q = some item then
    match h.next item with
    | none => .error .null
    | some after =>
      let h' : Heap Q N :=
        { h with
          head := Function.update h.head q (some after)
          prev := Function.update h.prev after none }
      .ok (h.next item, h'.unlink item)
  else if h.tail q = some item then
    match h.prev item with
    | none => .error .null
    | some before =>
      let h' : Heap Q N :=
        { h with
          tail := Function.update h.tail q (some before)
          next := Function.update h.next before none }
      .ok (h.next item, h'.unlink item)
  else
    match h.prev item, h.next item with
    | some before, some after =>
      let h' : Heap Q N :=
        { h with
          next := Function.update h.next before (some after)
          prev := Function.update h.prev after (some before) }
      .ok (h.next item, h'.unlink item)
    | _, _ => .error .null

instance : QueueOps (Heap Q N) Q N where
  isEmpty h q := (h.head q).isNone
  push := push
  dequeue := dequeue
  remove := remove
  head h q := h.head q
  next h item := .ok (h.next item)

end Heap

/-! ## Lists -/

/-- The node after `x` in a list. -/
def nextIn (x : N) : List N → Option N
  | [] => none
  | y :: rest => if y = x then rest.head? else nextIn x rest

theorem nextIn_append {x : N} {a b : List N} (hx : x ∉ a) :
    nextIn x (a ++ x :: b) = b.head? := by
  induction a with
  | nil => simp [nextIn]
  | cons y rest ih =>
    rw [List.cons_append, nextIn, if_neg (fun heq : y = x => hx (by simp [heq]))]
    exact ih fun h => hx (List.mem_cons_of_mem _ h)

/-- A list for every queue, with no node in two places. -/
@[ext]
structure Lists (Q N : Type) where
  items : Q → List N
  owner : N → Option Q
  mem_iff : ∀ q x, x ∈ items q ↔ owner x = some q
  nodup : ∀ q, (items q).Nodup

namespace Lists

/-- All queues empty. -/
def empty : Lists Q N where
  items := fun _ => []
  owner := fun _ => none
  mem_iff := by simp
  nodup := by simp

/-- Append a node that is in no queue. -/
def pushed (L : Lists Q N) (q : Q) (x : N) (hx : L.owner x = none) : Lists Q N where
  items := Function.update L.items q (L.items q ++ [x])
  owner := Function.update L.owner x (some q)
  mem_iff := by
    intro p y
    have hfresh : ∀ p, x ∉ L.items p := by
      intro p hmem
      rw [L.mem_iff, hx] at hmem
      cases hmem
    rcases eq_or_ne p q with rfl | hp <;> rcases eq_or_ne y x with rfl | hy
    · simp
    · simp [hy, L.mem_iff]
    · simp [hp, hfresh p, Ne.symm hp]
    · simp [hp, hy, L.mem_iff]
  nodup := by
    intro p
    rcases eq_or_ne p q with rfl | hp
    · rw [Function.update_self]
      refine List.nodup_append.mpr ⟨L.nodup p, List.nodup_singleton x, ?_⟩
      intro y hy z hz
      rw [List.mem_singleton] at hz
      rintro rfl
      rw [L.mem_iff, hz, hx] at hy
      cases hy
    · rw [Function.update_of_ne hp]
      exact L.nodup p

/-- Take a node out of its queue. -/
def removed (L : Lists Q N) (q : Q) (x : N) (hx : L.owner x = some q) : Lists Q N where
  items := Function.update L.items q ((L.items q).erase x)
  owner := Function.update L.owner x none
  mem_iff := by
    intro p y
    rcases eq_or_ne p q with rfl | hp <;> rcases eq_or_ne y x with rfl | hy
    · simp [(L.nodup p).mem_erase_iff]
    · simp [hy, (L.nodup p).mem_erase_iff, L.mem_iff]
    · simp [hp, L.mem_iff, hx, Ne.symm hp]
    · simp [hp, hy, L.mem_iff]
  nodup := by
    intro p
    rcases eq_or_ne p q with rfl | hp
    · rw [Function.update_self]
      exact (L.nodup p).erase x
    · rw [Function.update_of_ne hp]
      exact L.nodup p

/-- Append a node.  The contract is that it is in no queue. -/
def push (L : Lists Q N) (q : Q) (x : N) : Except Fault (Lists Q N) :=
  if hx : L.owner x = none then .ok (L.pushed q x hx) else .error .misuse

omit [DecidableEq Q] [DecidableEq N] in
theorem owner_of_cons {L : Lists Q N} {q : Q} {x : N} {rest : List N}
    (h : L.items q = x :: rest) : L.owner x = some q := by
  rw [← L.mem_iff, h]
  exact List.mem_cons_self ..

/-- Take the first node. -/
def dequeue (L : Lists Q N) (q : Q) : Except Fault (N × Lists Q N) :=
  match h : L.items q with
  | [] => .error .null
  | x :: _ => .ok (x, L.removed q x (owner_of_cons h))

/-- Remove a node of the queue and return the one after it. -/
def remove (L : Lists Q N) (q : Q) (x : N) : Except Fault (Option N × Lists Q N) :=
  if hx : L.owner x = some q then .ok (nextIn x (L.items q), L.removed q x hx)
  else .error .misuse

/-- The node after one that is in a queue. -/
def next (L : Lists Q N) (x : N) : Except Fault (Option N) :=
  match L.owner x with
  | none => .error .misuse
  | some q => .ok (nextIn x (L.items q))

instance : QueueOps (Lists Q N) Q N where
  isEmpty L q := (L.items q).isEmpty
  push := push
  dequeue := dequeue
  remove := remove
  head L q := (L.items q).head?
  next := next

end Lists

/-! ## Linked segments -/

namespace Heap

/-- The nodes `l` are linked both ways, between a node `p` before them and a
node `n` after them. -/
def Seg (h : Heap Q N) : Option N → List N → Option N → Prop
  | _, [], _ => True
  | p, x :: rest, n =>
    h.prev x = p ∧ h.next x = rest.head?.or n ∧ h.Seg (some x) rest n

variable {h h' : Heap Q N} {p n : Option N} {a b l : List N} {x : N}

omit [DecidableEq Q]

omit [DecidableEq N] in
theorem seg_append : h.Seg p (a ++ b) n ↔
    h.Seg p a (b.head?.or n) ∧ h.Seg (a.getLast?.or p) b n := by
  induction a generalizing p with
  | nil => simp [Seg]
  | cons x rest ih =>
    have hlast : (x :: rest).getLast?.or p = rest.getLast?.or (some x) := by
      cases rest with
      | nil => simp
      | cons y tail => simp [List.getLast?_cons]
    have hhead : (rest ++ b).head?.or n = rest.head?.or (b.head?.or n) := by
      cases rest <;> simp
    rw [List.cons_append, Seg, Seg, ih, hlast, hhead]
    simp only [and_assoc]

omit [DecidableEq N] in
/-- The links lead through the segment. -/
theorem Seg.nodesFrom {m : Nat} (hseg : h.Seg p l none) (hlen : l.length ≤ m) :
    h.nodesFrom m l.head? = l := by
  induction l generalizing p m with
  | nil => cases m <;> rfl
  | cons x rest ih =>
    obtain ⟨_, hnext, hrest⟩ := hseg
    obtain ⟨m, rfl⟩ : ∃ k, m = k + 1 := ⟨m - 1, by rw [List.length_cons] at hlen; omega⟩
    rw [List.length_cons, Nat.add_le_add_iff_right] at hlen
    rw [Option.or_none] at hnext
    rw [List.head?_cons, Heap.nodesFrom, hnext, ih hrest hlen]

omit [DecidableEq N] in
/-- A segment depends only on the pointers of its nodes. -/
theorem Seg.congr (hseg : h.Seg p l n)
    (heq : ∀ y ∈ l, h'.prev y = h.prev y ∧ h'.next y = h.next y) : h'.Seg p l n := by
  induction l generalizing p with
  | nil => trivial
  | cons y rest ih =>
    obtain ⟨hprev, hnext, hrest⟩ := hseg
    obtain ⟨hp, hn⟩ := heq y (List.mem_cons_self ..)
    exact ⟨hp.trans hprev, hn.trans hnext,
      ih hrest fun z hz => heq z (List.mem_cons_of_mem _ hz)⟩

/-- Give the first node another predecessor. -/
theorem Seg.setFirst {p' : Option N} (hseg : h.Seg p l n) (hnodup : l.Nodup)
    (hprev : ∀ y ∈ l, h'.prev y = if l.head? = some y then p' else h.prev y)
    (hnext : ∀ y ∈ l, h'.next y = h.next y) : h'.Seg p' l n := by
  cases l with
  | nil => trivial
  | cons x rest =>
    obtain ⟨_, hxnext, hrest⟩ := hseg
    have hx : x ∉ rest := (List.nodup_cons.mp hnodup).1
    refine ⟨?_, ?_, hrest.congr fun y hy => ?_⟩
    · simpa using hprev x (List.mem_cons_self ..)
    · rw [hnext x (List.mem_cons_self ..), hxnext]
    · have hne : x ≠ y := fun heq => hx (heq ▸ hy)
      refine ⟨?_, hnext y (List.mem_cons_of_mem _ hy)⟩
      simpa [hne] using hprev y (List.mem_cons_of_mem _ hy)

/-- Give the last node another successor. -/
theorem Seg.setLast {n' : Option N} (hseg : h.Seg p l n) (hnodup : l.Nodup)
    (hprev : ∀ y ∈ l, h'.prev y = h.prev y)
    (hnext : ∀ y ∈ l, h'.next y = if l.getLast? = some y then n' else h.next y) :
    h'.Seg p l n' := by
  induction l generalizing p with
  | nil => trivial
  | cons x rest ih =>
    obtain ⟨hxprev, hxnext, hrest⟩ := hseg
    obtain ⟨hx, hnodup'⟩ := List.nodup_cons.mp hnodup
    have hxn := hnext x (List.mem_cons_self ..)
    refine ⟨(hprev x (List.mem_cons_self ..)).trans hxprev, ?_, ?_⟩
    · cases rest with
      | nil => simpa using hxn
      | cons y tail =>
        have hlast : (x :: y :: tail).getLast? ≠ some x := by
          rw [List.getLast?_cons_cons]
          exact fun heq => hx (List.mem_of_getLast? heq)
        rw [hxn, if_neg hlast, hxnext]
        simp
    · refine ih hrest hnodup' (fun y hy => hprev y (List.mem_cons_of_mem _ hy)) ?_
      intro y hy
      rw [hnext y (List.mem_cons_of_mem _ hy)]
      cases rest with
      | nil => simp at hy
      | cons z tail => rw [List.getLast?_cons_cons]

/-- Take a node out of the middle by linking its neighbours. -/
theorem Seg.splice (hseg : h.Seg none (a ++ x :: b) none) (hnodup : (a ++ x :: b).Nodup)
    (hprev : ∀ y ∈ a ++ b, h'.prev y =
      if b.head? = some y then a.getLast? else h.prev y)
    (hnext : ∀ y ∈ a ++ b, h'.next y =
      if a.getLast? = some y then b.head? else h.next y) :
    h'.Seg none (a ++ b) none := by
  obtain ⟨hseg₁, _, _, hseg₂⟩ := seg_append.mp hseg
  obtain ⟨hnodup₁, hnodup₂, hdisj⟩ := List.nodup_append.mp hnodup
  have hnodup₂' := (List.nodup_cons.mp hnodup₂).2
  have hab : ∀ y ∈ a, y ∉ b := fun y hy hyb =>
    hdisj y hy y (List.mem_cons_of_mem _ hyb) rfl
  rw [seg_append]
  constructor
  · refine hseg₁.setLast hnodup₁ (fun y hy => ?_) (fun y hy => ?_)
    · rw [hprev y (List.mem_append_left _ hy), if_neg]
      exact fun heq => hab y hy (List.mem_of_head? heq)
    · rw [hnext y (List.mem_append_left _ hy), Option.or_none]
  · refine hseg₂.setFirst hnodup₂' (fun y hy => ?_) (fun y hy => ?_)
    · rw [hprev y (List.mem_append_right _ hy), Option.or_none]
    · rw [hnext y (List.mem_append_right _ hy), if_neg]
      exact fun heq => hab y (List.mem_of_getLast? heq) hy

end Heap

/-! ## The pointers represent the lists -/

/-- Every queue of the heap is linked as its list says. -/
structure Represents (H : Heap Q N) (L : Lists Q N) : Prop where
  head : ∀ q, H.head q = (L.items q).head?
  tail : ∀ q, H.tail q = (L.items q).getLast?
  seg : ∀ q, H.Seg none (L.items q) none

section Represents

variable {H : Heap Q N} {L : Lists Q N}

omit [DecidableEq Q] [DecidableEq N] in
theorem represents_empty : Represents (Heap.empty : Heap Q N) Lists.empty where
  head := fun _ => rfl
  tail := fun _ => rfl
  seg := fun _ => trivial

theorem Represents.isEmpty (h : Represents H L) (q : Q) :
    QueueOps.isEmpty H q = QueueOps.isEmpty L q := by
  simp only [QueueOps.isEmpty, h.head q]
  cases L.items q <;> rfl

theorem Represents.head_eq (h : Represents H L) (q : Q) :
    QueueOps.head H q = QueueOps.head L q :=
  h.head q

omit [DecidableEq Q] [DecidableEq N] in
/-- The links from the head lead through the list. -/
theorem Represents.nodes_eq (h : Represents H L) {q : Q} {n : Nat}
    (hlen : (L.items q).length ≤ n) : H.nodes n q = L.items q := by
  rw [Heap.nodes, h.head]
  exact (h.seg q).nodesFrom hlen

omit [DecidableEq Q] in
/-- A node of a list, with what stands before and after it. -/
theorem Lists.split {q : Q} {x : N} (hx : L.owner x = some q) :
    ∃ a b, L.items q = a ++ x :: b ∧ x ∉ a ∧ x ∉ b ∧
      (L.items q).erase x = a ++ b ∧ nextIn x (L.items q) = b.head? := by
  obtain ⟨a, b, hab⟩ := List.append_of_mem ((L.mem_iff q x).mpr hx)
  have hnodup := L.nodup q
  rw [hab] at hnodup
  have hxb := (List.nodup_append.mp hnodup).2.1
  have hxa : x ∉ a := fun hmem =>
    (List.nodup_append.mp hnodup).2.2 x hmem x (List.mem_cons_self ..) rfl
  refine ⟨a, b, hab, hxa, (List.nodup_cons.mp hxb).1, ?_, ?_⟩
  · rw [hab, List.erase_append_right _ hxa, List.erase_cons_head]
  · rw [hab, nextIn_append hxa]

omit [DecidableEq Q] [DecidableEq N] in
/-- The pointers of a node in a queue. -/
theorem Represents.links (h : Represents H L) {q : Q} {x : N} {a b : List N}
    (hab : L.items q = a ++ x :: b) :
    H.prev x = a.getLast? ∧ H.next x = b.head? := by
  have hseg := h.seg q
  rw [hab] at hseg
  obtain ⟨_, hprev, hnext, _⟩ := Heap.seg_append.mp hseg
  exact ⟨by simpa using hprev, by simpa using hnext⟩

/-- Reading `next` of a node in a queue. -/
theorem Represents.next (h : Represents H L) (x : N) :
    Sim (fun a b => a = b) (QueueOps.next L x) (QueueOps.next H x) := by
  simp only [QueueOps.next, Lists.next]
  cases hx : L.owner x with
  | none => trivial
  | some q =>
    obtain ⟨a, b, hab, _, _, _, hnext⟩ := L.split hx
    exact ⟨_, rfl, by rw [hnext, (h.links hab).2]⟩

omit [DecidableEq Q] [DecidableEq N] in
/-- A heap that changes one queue and only nodes of that queue represents the
lists with that queue changed. -/
theorem Represents.of_one {H' : Heap Q N} {L' : Lists Q N} {q : Q} (h : Represents H L)
    (hitems : ∀ p, p ≠ q → L'.items p = L.items p)
    (hhead : ∀ p, p ≠ q → H'.head p = H.head p)
    (htail : ∀ p, p ≠ q → H'.tail p = H.tail p)
    (hframe : ∀ p, p ≠ q → ∀ y ∈ L.items p, H'.prev y = H.prev y ∧ H'.next y = H.next y)
    (hhead' : H'.head q = (L'.items q).head?) (htail' : H'.tail q = (L'.items q).getLast?)
    (hseg' : H'.Seg none (L'.items q) none) : Represents H' L' := by
  refine ⟨fun p => ?_, fun p => ?_, fun p => ?_⟩
  · rcases eq_or_ne p q with rfl | hp
    · exact hhead'
    · rw [hhead p hp, hitems p hp, h.head]
  · rcases eq_or_ne p q with rfl | hp
    · exact htail'
    · rw [htail p hp, hitems p hp, h.tail]
  · rcases eq_or_ne p q with rfl | hp
    · exact hseg'
    · rw [hitems p hp]
      exact (h.seg p).congr (hframe p hp)

/-- A push of a node that is in no queue. -/
theorem Represents.push (h : Represents H L) (q : Q) (x : N) :
    Sim (fun L' H' => Represents H' L') (QueueOps.push L q x) (QueueOps.push H q x) := by
  simp only [QueueOps.push, Lists.push]
  split
  · rename_i hx
    have hfresh : ∀ p, x ∉ L.items p := by
      intro p hmem
      rw [L.mem_iff, hx] at hmem
      cases hmem
    have hne : ∀ p, ∀ y ∈ L.items p, y ≠ x := fun p y hy heq => hfresh p (heq ▸ hy)
    unfold Heap.push
    rcases List.eq_nil_or_concat (L.items q) with hnil | ⟨front, last, hsnoc⟩
    · have hhead : H.head q = none := by rw [h.head, hnil]; rfl
      simp only [hhead]
      refine Sim.ok (h.of_one (q := q) ?_ ?_ ?_ ?_ ?_ ?_ ?_)
      · intro p hp
        simp [Lists.pushed, hp]
      · intro p hp
        simp [hp]
      · intro p hp
        simp [hp]
      · intro p _ y hy
        simp [hne p y hy]
      · simp [Lists.pushed, hnil]
      · simp [Lists.pushed, hnil]
      · simp [Lists.pushed, hnil, Heap.Seg]
    · rw [List.concat_eq_append] at hsnoc
      have hlastOwner : L.owner last = some q := by
        rw [← L.mem_iff, hsnoc]
        simp
      have hlast : last ≠ x := hne q last ((L.mem_iff q last).mpr hlastOwner)
      have htail : H.tail q = some last := by rw [h.tail, hsnoc]; simp
      obtain ⟨first, hhead⟩ : ∃ first, H.head q = some first := by
        rw [h.head, hsnoc]
        cases front <;> simp
      simp only [hhead, htail]
      refine Sim.ok (h.of_one (q := q) ?_ ?_ ?_ ?_ ?_ ?_ ?_)
      · intro p hp
        simp [Lists.pushed, hp]
      · intro p _
        rfl
      · intro p hp
        simp [hp]
      · intro p hp y hy
        have hyl : y ≠ last := by
          rintro rfl
          rw [L.mem_iff, hlastOwner] at hy
          exact hp (Option.some.inj hy).symm
        simp [hne p y hy, hyl]
      · rw [h.head]
        simp [Lists.pushed, hsnoc]
      · simp [Lists.pushed]
      · have hseg := h.seg q
        have hnodup := L.nodup q
        simp only [Lists.pushed, Function.update_self]
        rw [hsnoc] at hseg hnodup ⊢
        rw [Heap.seg_append]
        refine ⟨hseg.setLast hnodup (fun y hy => ?_) (fun y hy => ?_), ?_, ?_, trivial⟩
        · simp [hne q y (hsnoc ▸ hy)]
        · have hyx := hne q y (hsnoc ▸ hy)
          rcases eq_or_ne y last with rfl | hyl
          · simp [hyx]
          · simp [hyx, hyl, Ne.symm hyl]
        · simp
        · simp
  · trivial

/-- A heap in which the neighbours of `x` are linked to each other represents
the lists without `x`. -/
theorem Represents.removed (h : Represents H L) {q : Q} {x : N}
    (hx : L.owner x = some q) {a b : List N} (hab : L.items q = a ++ x :: b)
    (herase : (L.items q).erase x = a ++ b) (hxab : x ∉ a ++ b) {H' : Heap Q N}
    (hhead : H'.head = Function.update H.head q (a ++ b).head?)
    (htail : H'.tail = Function.update H.tail q (a ++ b).getLast?)
    (hprev : ∀ y, y ≠ x →
      H'.prev y = if b.head? = some y then a.getLast? else H.prev y)
    (hnext : ∀ y, y ≠ x →
      H'.next y = if a.getLast? = some y then b.head? else H.next y) :
    Represents (H'.unlink x) (L.removed q x hx) := by
  have hother : ∀ p, p ≠ q → ∀ y ∈ L.items p, y ≠ x ∧ y ∉ L.items q := by
    intro p hp y hy
    rw [L.mem_iff] at hy
    refine ⟨?_, ?_⟩
    · rintro rfl
      exact hp (Option.some.inj (hy.symm.trans hx))
    · rw [L.mem_iff, hy]
      exact fun heq => hp (Option.some.inj heq)
  refine h.of_one (q := q) ?_ ?_ ?_ ?_ ?_ ?_ ?_
  · intro p hp
    simp [Lists.removed, hp]
  · intro p hp
    simp [Heap.unlink, hhead, hp]
  · intro p hp
    simp [Heap.unlink, htail, hp]
  · intro p hp y hy
    obtain ⟨hyx, hyq⟩ := hother p hp y hy
    have hyb : b.head? ≠ some y := fun heq =>
      hyq (hab ▸ List.mem_append_right _ (List.mem_cons_of_mem _ (List.mem_of_head? heq)))
    have hya : a.getLast? ≠ some y := fun heq =>
      hyq (hab ▸ List.mem_append_left _ (List.mem_of_getLast? heq))
    simp only [Heap.unlink, Function.update_of_ne hyx]
    exact ⟨by rw [hprev y hyx, if_neg hyb], by rw [hnext y hyx, if_neg hya]⟩
  · simp [Heap.unlink, hhead, Lists.removed, herase]
  · simp [Heap.unlink, htail, Lists.removed, herase]
  · have hseg := h.seg q
    have hnodup := L.nodup q
    simp only [Lists.removed, Function.update_self, herase]
    rw [hab] at hseg hnodup
    refine hseg.splice hnodup (fun y hy => ?_) (fun y hy => ?_)
    · have hyx : y ≠ x := fun heq => hxab (heq ▸ hy)
      simp only [Heap.unlink, Function.update_of_ne hyx, hprev y hyx]
    · have hyx : y ≠ x := fun heq => hxab (heq ▸ hy)
      simp only [Heap.unlink, Function.update_of_ne hyx, hnext y hyx]

/-- A dequeue. -/
theorem Represents.dequeue (h : Represents H L) (q : Q) :
    Sim (fun r r' => r.1 = r'.1 ∧ Represents r'.2 r.2)
      (QueueOps.dequeue L q) (QueueOps.dequeue H q) := by
  simp only [QueueOps.dequeue]
  unfold Lists.dequeue Heap.dequeue
  split
  · rename_i hnil
    have hhead : H.head q = none := by rw [h.head, hnil]; rfl
    simp only [hhead]
    rfl
  · rename_i x rest hcons
    have hhead : H.head q = some x := by rw [h.head, hcons]; rfl
    have hnext : H.next x = rest.head? := (h.links (a := []) hcons).2
    have hx := L.owner_of_cons hcons
    have hxrest : x ∉ [] ++ rest := (List.nodup_cons.mp (hcons ▸ L.nodup q)).1
    have herase : (L.items q).erase x = [] ++ rest := by rw [hcons]; simp
    simp only [hhead, hnext]
    cases rest with
    | nil =>
      refine Sim.ok ⟨rfl, h.removed hx (a := []) hcons herase hxrest rfl rfl ?_ ?_⟩
      · simp
      · simp
    | cons y tail =>
      have htail : H.tail q = (y :: tail).getLast? := by
        rw [h.tail, hcons, List.getLast?_cons_cons]
      refine Sim.ok ⟨rfl, h.removed hx (a := []) hcons herase hxrest rfl ?_ ?_ ?_⟩
      · simp [← htail]
      · intro z _
        rcases eq_or_ne z y with rfl | hz
        · simp
        · simp [hz, Ne.symm hz]
      · simp

/-- A removal of a node from the queue that it is in. -/
theorem Represents.remove (h : Represents H L) (q : Q) (x : N) :
    Sim (fun r r' => r.1 = r'.1 ∧ Represents r'.2 r.2)
      (QueueOps.remove L q x) (QueueOps.remove H q x) := by
  simp only [QueueOps.remove]
  unfold Lists.remove
  split
  · rename_i hx
    obtain ⟨a, b, hab, hxa, hxb, herase, hnextIn⟩ := L.split hx
    obtain ⟨hprev, hnext⟩ := h.links hab
    have hxab : x ∉ a ++ b := by simp [hxa, hxb]
    have hhead : H.head q = (a ++ x :: b).head? := by rw [h.head, hab]
    have htail : H.tail q = (a ++ x :: b).getLast? := by rw [h.tail, hab]
    unfold Heap.remove
    rw [hnextIn]
    rcases List.eq_nil_or_concat a with rfl | ⟨a', before, rfl⟩
    · cases b with
      | nil =>
        rw [if_pos ⟨by simpa using hhead, by simpa using htail⟩]
        refine Sim.ok ⟨hnext.symm, h.removed hx hab herase hxab rfl rfl ?_ ?_⟩
        · simp
        · simp
      | cons after b' =>
        have htailx : H.tail q ≠ some x := by
          rw [htail]
          simp only [List.nil_append, List.getLast?_cons_cons]
          exact fun heq => hxb (List.mem_of_getLast? heq)
        rw [if_neg (fun hboth => htailx hboth.2), if_pos (by simpa using hhead)]
        simp only [hnext, List.head?_cons]
        refine Sim.ok ⟨rfl, h.removed hx hab herase hxab rfl ?_ ?_ ?_⟩
        · simp only [List.nil_append, List.getLast?_cons_cons] at htail
          simp [← htail]
        · intro z _
          rcases eq_or_ne z after with rfl | hz
          · simp
          · simp [hz, Ne.symm hz]
        · simp
    · rw [List.concat_eq_append] at *
      have hbefore : before ≠ x := fun heq => hxa (by simp [heq])
      have hheadx : H.head q ≠ some x := by
        rw [hhead]
        cases a' with
        | nil => simpa using hbefore
        | cons z _ =>
          have hzx : z ≠ x := fun heq => hxa (by simp [heq])
          simpa using hzx
      have hheadq : H.head q = (a' ++ [before] ++ b).head? := by
        rw [hhead]
        cases a' <;> simp
      simp only [List.getLast?_append, List.getLast?_singleton, Option.some_or] at hprev
      rw [if_neg (fun hboth => hheadx hboth.1), if_neg hheadx]
      cases b with
      | nil =>
        rw [if_pos (by simpa using htail)]
        simp only [hprev]
        refine Sim.ok ⟨hnext.symm, h.removed hx hab herase hxab ?_ ?_ ?_ ?_⟩
        · rw [← hheadq, Function.update_eq_self]
        · simp
        · simp
        · intro z _
          rcases eq_or_ne z before with rfl | hz
          · simp
          · simp [hz, Ne.symm hz]
      | cons after b' =>
        have htailq : H.tail q = (after :: b').getLast? := by
          rw [htail]
          simp [List.getLast?_cons]
        have htailx : H.tail q ≠ some x := by
          rw [htailq]
          exact fun heq => hxb (List.mem_of_getLast? heq)
        rw [if_neg htailx]
        simp only [hprev, hnext, List.head?_cons]
        refine Sim.ok ⟨rfl, h.removed hx hab herase hxab ?_ ?_ ?_ ?_⟩
        · rw [← hheadq, Function.update_eq_self]
        · have hsame : (a' ++ [before] ++ after :: b').getLast? = H.tail q := by
            rw [htailq]
            simp [List.getLast?_cons]
          rw [hsame, Function.update_eq_self]
        · intro z _
          rcases eq_or_ne z after with rfl | hz
          · simp
          · simp [hz, Ne.symm hz]
        · intro z _
          rcases eq_or_ne z before with rfl | hz
          · simp
          · simp [hz, Ne.symm hz]
  · trivial

end Represents

end MipsOs.Lib
