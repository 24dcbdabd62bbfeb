import Mathlib

/-!
# Records in a memory

A record is a list of places of a memory with the values that are to be there.  `Records`
says that a memory holds a family of records that share no place.  Each rule below is
about one thing that a program does next to the records it has left in the memory: it
writes elsewhere (`Records.congr`), it leaves one more record or another one in place of
an old one (`Records.set`), or it gives a record up (`Records.clear`).
-/

namespace MipsOs.Lib

/-- Places with the values that are to be there. -/
abbrev Record (α β : Type*) := List (α × β)

variable {α β ι : Type*} {m m' : α → β} {l : Record α β} {a : α}

namespace Record

/-- The places of a record. -/
def places (l : Record α β) : List α := l.map Prod.fst

@[simp] theorem places_nil : places ([] : Record α β) = [] := rfl

@[simp] theorem places_append (l l' : Record α β) : places (l ++ l') = places l ++ places l' :=
  List.map_append

/-- The values are in their places. -/
def In (m : α → β) (l : Record α β) : Prop := ∀ x ∈ l, m x.1 = x.2

@[simp] theorem in_nil (m : α → β) : In m ([] : Record α β) := nofun

theorem In.congr (h : In m l) (heq : ∀ a ∈ places l, m' a = m a) : In m' l := by
  intro x hx
  rw [heq x.1 (List.mem_map_of_mem hx), h x hx]

/-! ## Writing a record -/

section Write

variable [DecidableEq α]

/-- The memory after the values have been written in order. -/
def writeAll (m : α → β) (l : Record α β) : α → β :=
  l.foldl (fun m x => Function.update m x.1 x.2) m

@[simp] theorem writeAll_nil (m : α → β) : writeAll m [] = m := rfl

@[simp] theorem writeAll_cons (m : α → β) (x : α × β) (l : Record α β) :
    writeAll m (x :: l) = writeAll (Function.update m x.1 x.2) l := rfl

theorem writeAll_append (m : α → β) (l l' : Record α β) :
    writeAll m (l ++ l') = writeAll (writeAll m l) l' := List.foldl_append

/-- What is not a place of the record stays. -/
theorem writeAll_of_notMem (h : a ∉ places l) : writeAll m l a = m a := by
  induction l generalizing m with
  | nil => rfl
  | cons x l ih =>
    rw [places, List.map_cons, List.mem_cons, not_or] at h
    rw [writeAll_cons, ih h.2, Function.update_of_ne h.1]

/-- A record that names no place twice is there after it is written. -/
theorem in_writeAll (h : (places l).Nodup) : In (writeAll m l) l := by
  induction l generalizing m with
  | nil => exact in_nil m
  | cons x l ih =>
    obtain ⟨hx, hl⟩ := List.nodup_cons.mp h
    intro y hy
    rcases List.mem_cons.mp hy with rfl | hy
    · rw [writeAll_cons, writeAll_of_notMem hx, Function.update_self]
    · exact ih hl y hy

/-- A place beside the record can be written last. -/
theorem writeAll_update (h : a ∉ places l) (v : β) :
    Function.update (writeAll m l) a v = writeAll (Function.update m a v) l := by
  induction l generalizing m with
  | nil => rfl
  | cons x l ih =>
    rw [places, List.map_cons, List.mem_cons, not_or] at h
    rw [writeAll_cons, writeAll_cons, ih h.2, Function.update_comm h.1]

end Write

end Record

open Record

/-! ## Families of records -/

/-- The memory holds all records, and no two of them share a place. -/
structure Records (m : α → β) (r : ι → Record α β) : Prop where
  holds : ∀ i, In m (r i)
  apart : ∀ i j a, a ∈ places (r i) → a ∈ places (r j) → i = j

/-- The place is one of some record. -/
def Records.Taken (r : ι → Record α β) (a : α) : Prop := ∃ i, a ∈ places (r i)

/-- The place is one of a record besides `i`. -/
def Records.Beside (r : ι → Record α β) (i : ι) (a : α) : Prop := ∃ j ≠ i, a ∈ places (r j)

variable {r : ι → Record α β} {i : ι}

theorem Records.Beside.taken (h : Beside r i a) : Taken r a :=
  let ⟨j, _, hj⟩ := h
  ⟨j, hj⟩

/-- Writes elsewhere leave the records. -/
theorem Records.congr (h : Records m r) (heq : ∀ a, Taken r a → m' a = m a) : Records m' r :=
  ⟨fun i => (h.holds i).congr fun a ha => heq a ⟨i, ha⟩, h.apart⟩

/-- A place that is one of a record is beside the others. -/
theorem Records.not_beside (h : Records m r) (ha : a ∈ places (r i)) : ¬ Beside r i a :=
  fun ⟨j, hne, hj⟩ => hne (h.apart j i a hj ha)

variable [DecidableEq ι]

/-- Another record `i` is left, in places that are free or were those of the old one. -/
theorem Records.set (h : Records m r) (hl : In m' l)
    (hfree : ∀ a ∈ places l, ¬ Beside r i a) (hkeep : ∀ a, Beside r i a → m' a = m a) :
    Records m' (Function.update r i l) := by
  constructor
  · intro j
    by_cases hj : j = i
    · subst hj
      rwa [Function.update_self]
    · rw [Function.update_of_ne hj]
      exact (h.holds j).congr fun a ha => hkeep a ⟨j, hj, ha⟩
  · intro j k a hj hk
    by_cases hji : j = i <;> by_cases hki : k = i
    · rw [hji, hki]
    · subst hji
      rw [Function.update_self] at hj
      rw [Function.update_of_ne hki] at hk
      exact absurd ⟨k, hki, hk⟩ (hfree a hj)
    · subst hki
      rw [Function.update_of_ne hji] at hj
      rw [Function.update_self] at hk
      exact absurd ⟨j, hji, hj⟩ (hfree a hk)
    · rw [Function.update_of_ne hji] at hj
      rw [Function.update_of_ne hki] at hk
      exact h.apart j k a hj hk

/-- A record is given up. -/
theorem Records.clear (h : Records m r) (i : ι) : Records m (Function.update r i []) :=
  h.set (in_nil m) nofun fun _ _ => rfl

end MipsOs.Lib
