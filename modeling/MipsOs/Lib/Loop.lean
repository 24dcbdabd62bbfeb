import Mathlib

/-!
# Loops that can fail

A loop over a list in the option monad, where `none` is a use outside of the
contract.  `Ends m P` says that the computation `m` ends, in a state with `P`.
`Ends.foldlM` is the loop rule: the invariant may speak about the part of the
list that is done.
-/

namespace MipsOs.Lib

variable {α β : Type}

/-- The computation ends, and its answer satisfies `P`. -/
def Ends (m : Option α) (P : α → Prop) : Prop := ∃ a, m = some a ∧ P a

theorem Ends.some {a : α} {P : α → Prop} (h : P a) : Ends (some a) P := ⟨a, rfl, h⟩

theorem Ends.mono {m : Option α} {P Q : α → Prop} (h : Ends m P) (hPQ : ∀ a, P a → Q a) :
    Ends m Q := by
  obtain ⟨a, hm, ha⟩ := h
  exact ⟨a, hm, hPQ a ha⟩

/-- One computation after another. -/
theorem Ends.bind {m : Option α} {f : α → Option β} {P : α → Prop} {Q : β → Prop}
    (h : Ends m P) (hf : ∀ a, P a → Ends (f a) Q) : Ends (m >>= f) Q := by
  obtain ⟨a, rfl, ha⟩ := h
  exact hf a ha

/-- The loop rule. -/
theorem Ends.foldlM {f : α → β → Option α} {a : α} (l : List β) (I : List β → α → Prop)
    (hinit : I [] a)
    (hstep : ∀ done b rest s, l = done ++ b :: rest → I done s →
      Ends (f s b) (I (done ++ [b]))) : Ends (l.foldlM f a) (I l) := by
  have hgo : ∀ done rest s, l = done ++ rest → I done s → Ends (rest.foldlM f s) (I l) := by
    intro done rest
    induction rest generalizing done with
    | nil =>
      intro s hl hs
      rw [List.append_nil] at hl
      subst hl
      exact Ends.some hs
    | cons b rest ih =>
      intro s hl hs
      rw [List.foldlM_cons]
      apply (hstep done b rest s hl hs).bind
      intro s' hs'
      exact ih (done ++ [b]) s' (by rw [hl, List.append_assoc]; rfl) hs'
  exact hgo [] l a rfl hinit

end MipsOs.Lib
