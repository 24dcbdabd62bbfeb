import MipsOs.Lib.IntrusiveQueue

/-!
# Some queues of a heap

`Represents` speaks of all queues of a heap.  A program that uses two of them
should not care what the others look like.

`Linked H q l` says that one queue is linked as the list `l`.  `Heap.masked`
puts other heads and tails into the queues outside of a set.  The operations on
the queues of the set do not see the difference (`push_masked`,
`remove_masked`), which gives two things: with null for the other queues, the
heap represents lists as soon as the queues of the set are linked
(`represents_masked`); and with the heads and tails that are there, the
operations do not change them.
-/

namespace MipsOs.Lib

variable {Q N : Type} {H : Heap Q N} {p q : Q} {l r : List N}

/-- One queue is linked as a list. -/
structure Linked (H : Heap Q N) (q : Q) (l : List N) : Prop where
  head : H.head q = l.head?
  tail : H.tail q = l.getLast?
  seg : H.Seg none l none
  nodup : l.Nodup

/-! ## Other heads and tails outside of a set of queues -/

namespace Heap

variable (S : Q → Prop) [DecidablePred S] (head tail : Q → Option N)

/-- Other heads and tails for the queues outside of `S`. -/
def masked (H : Heap Q N) : Heap Q N :=
  { H with
    head := fun q => if S q then H.head q else head q
    tail := fun q => if S q then H.tail q else tail q }

@[simp] theorem masked_self : H.masked S H.head H.tail = H := by
  simp [masked]

@[simp] theorem masked_prev : (H.masked S head tail).prev = H.prev := rfl

@[simp] theorem masked_next : (H.masked S head tail).next = H.next := rfl

variable {S} {head tail}

@[simp] theorem masked_head (hq : S q) : (H.masked S head tail).head q = H.head q := if_pos hq

@[simp] theorem masked_tail (hq : S q) : (H.masked S head tail).tail q = H.tail q := if_pos hq

theorem masked_seg {a b : Option N} :
    (H.masked S head tail).Seg a l b ↔ H.Seg a l b :=
  ⟨fun h => h.congr fun _ _ => ⟨rfl, rfl⟩, fun h => h.congr fun _ _ => ⟨rfl, rfl⟩⟩

variable [DecidableEq Q]

/-- An update of a queue of `S`, under the mask. -/
theorem update_masked (hq : S q) (f g : Q → Option N) (v : Option N) :
    Function.update (fun q => if S q then f q else g q) q v =
      fun p => if S p then Function.update f q v p else g p := by
  funext p
  rcases eq_or_ne p q with rfl | hp
  · simp [hq]
  · simp [hp]

variable [DecidableEq N]

theorem push_masked (hq : S q) (x : N) :
    (H.masked S head tail).push q x = (H.push q x).map (masked S head tail) := by
  unfold push
  rw [masked_head hq, masked_tail hq]
  cases H.head q with
  | none => simp only [Except.map, masked, update_masked hq]
  | some first =>
    cases H.tail q with
    | none => rfl
    | some last => simp only [Except.map, masked, update_masked hq]

theorem remove_masked (hq : S q) (x : N) :
    (H.masked S head tail).remove q x =
      (H.remove q x).map fun r => (r.1, r.2.masked S head tail) := by
  unfold remove
  rw [masked_head hq, masked_tail hq]
  split
  · simp only [Except.map, masked, unlink, update_masked hq]
  · split
    · rw [masked_next]
      cases H.next x with
      | none => rfl
      | some after => simp only [Except.map, masked, unlink, update_masked hq]
    · split
      · rw [masked_prev]
        cases H.prev x with
        | none => rfl
        | some before => simp only [Except.map, masked, unlink, update_masked hq]
      · rw [masked_prev, masked_next]
        cases H.prev x with
        | none => rfl
        | some before =>
          cases H.next x with
          | none => rfl
          | some after => rfl

end Heap

/-! ## Two linked queues as lists -/

/-- The queues `p` and `q`. -/
def OneOf (p q s : Q) : Prop := s = p ∨ s = q

instance [DecidableEq Q] (p q s : Q) : Decidable (OneOf p q s) :=
  inferInstanceAs (Decidable (_ ∨ _))

section Two

variable [DecidableEq Q] [DecidableEq N] (hpq : p ≠ q) (hl : l.Nodup) (hr : r.Nodup)
  (hlr : l.Disjoint r)

/-- Two lists, and empty lists for the other queues. -/
def Lists.two : Lists Q N where
  items s := if s = p then l else if s = q then r else []
  owner x := if x ∈ l then some p else if x ∈ r then some q else none
  mem_iff s x := by
    have hx : x ∈ l → x ∉ r := fun h h' => hlr h h'
    rcases eq_or_ne s p with rfl | hsp
    · rw [if_pos rfl]
      split
      · simp [*]
      · split <;> simp [*, Ne.symm hpq]
    · rw [if_neg hsp]
      rcases eq_or_ne s q with rfl | hsq
      · rw [if_pos rfl]
        split
        · simp [*]
        · split <;> simp [*]
      · rw [if_neg hsq]
        split
        · simp [Ne.symm hsp]
        · split <;> simp [Ne.symm hsq]
  nodup s := by
    split
    · exact hl
    · split
      · exact hr
      · exact List.nodup_nil

/-- With null in the other queues, two linked queues represent their lists. -/
theorem represents_masked (hp : Linked H p l) (hq : Linked H q r) :
    Represents (H.masked (OneOf p q) (fun _ => none) fun _ => none)
      (Lists.two hpq hl hr hlr) := by
  refine ⟨fun s => ?_, fun s => ?_, fun s => ?_⟩
  · show (if s = p ∨ s = q then H.head s else none) =
      (if s = p then l else if s = q then r else []).head?
    rcases eq_or_ne s p with rfl | hsp
    · simpa using hp.head
    · rcases eq_or_ne s q with rfl | hsq
      · simpa [hsp] using hq.head
      · simp [hsp, hsq]
  · show (if s = p ∨ s = q then H.tail s else none) =
      (if s = p then l else if s = q then r else []).getLast?
    rcases eq_or_ne s p with rfl | hsp
    · simpa using hp.tail
    · rcases eq_or_ne s q with rfl | hsq
      · simpa [hsp] using hq.tail
      · simp [hsp, hsq]
  · show (H.masked _ _ _).Seg none (if s = p then l else if s = q then r else []) none
    rw [Heap.masked_seg]
    split
    · exact hp.seg
    · split
      · exact hq.seg
      · trivial

omit [DecidableEq Q] [DecidableEq N] in
/-- A queue of a masked heap that represents lists is linked in the heap. -/
theorem Represents.linked {L : Lists Q N} {S : Q → Prop} [DecidablePred S]
    {head tail : Q → Option N} {s : Q} (h : Represents (H.masked S head tail) L) (hs : S s) :
    Linked H s (L.items s) where
  head := (Heap.masked_head hs).symm.trans (h.head s)
  tail := (Heap.masked_tail hs).symm.trans (h.tail s)
  seg := Heap.masked_seg.mp (h.seg s)
  nodup := L.nodup s

end Two

end MipsOs.Lib
