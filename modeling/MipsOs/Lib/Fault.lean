import Mathlib

/-!
# Computations that can fault

Imperative code over pointers either answers or faults.  `Fault` tells a
null dereference and an overflow from a use of an interface outside its
contract.  The kinds matter differently to a refinement: when the abstract
code dereferences null, so does the concrete code; when the abstract code
leaves the contract, nothing is known of the concrete code.

`Safe m P` is the rule of postconditions: the computation `m` stays inside
the contract, and its answer satisfies `P`.  `Sim R m n` is the refinement
of one computation.  Both compose along a program by `bind`.
-/

namespace MipsOs.Lib

/-- Why a computation does not answer: a null dereference, an overflow, a use outside of
the contract, or a loop that does not end. -/
inductive Fault where
  | null
  | overflow
  | misuse
  | diverges
  deriving DecidableEq, Repr

variable {α β γ δ : Type}

/-- An answer of a sequence comes from an answer of its first part. -/
theorem bind_eq_ok {m : Except Fault α} {f : α → Except Fault γ} {c : γ} :
    m >>= f = .ok c ↔ ∃ a, m = .ok a ∧ f a = .ok c := by
  constructor
  · intro h
    cases m with
    | ok a => exact ⟨a, rfl, h⟩
    | error e => cases h
  · rintro ⟨a, rfl, h⟩
    exact h

theorem toOption_eq_some {m : Except Fault α} {a : α} : m.toOption = some a ↔ m = .ok a := by
  cases m with
  | ok b => simp [Except.toOption]
  | error e => simp [Except.toOption]

/-! ## Postconditions -/

/-- The computation stays inside the contract and its answer satisfies `P`.
A null dereference and an overflow have no answer. -/
def Safe (m : Except Fault α) (P : α → Prop) : Prop :=
  match m with
  | .ok a => P a
  | .error .null => True
  | .error .overflow => True
  | .error .misuse => False
  | .error .diverges => False

theorem Safe.bind {m : Except Fault α} {f : α → Except Fault γ} {P : α → Prop}
    {Q : γ → Prop} (h : Safe m P) (hf : ∀ a, P a → Safe (f a) Q) :
    Safe (m >>= f) Q := by
  cases m with
  | ok a => exact hf a h
  | error e => cases e <;> first | exact trivial | exact h

theorem Safe.mono {m : Except Fault α} {P Q : α → Prop} (h : Safe m P)
    (hPQ : ∀ a, P a → Q a) : Safe m Q := by
  cases m with
  | ok a => exact hPQ a h
  | error e => cases e <;> exact h

theorem Safe.and {m : Except Fault α} {P Q : α → Prop} (hP : Safe m P) (hQ : Safe m Q) :
    Safe m fun a => P a ∧ Q a := by
  cases m with
  | ok a => exact ⟨hP, hQ⟩
  | error e => cases e <;> exact hP

theorem Safe.of_ok {m : Except Fault α} {P : α → Prop} {a : α} (h : Safe m P)
    (hm : m = .ok a) : P a := by
  subst hm
  exact h

/-! ## Refinement -/

/-- The concrete computation `n` follows the abstract computation `m`. -/
def Sim (R : α → β → Prop) (m : Except Fault α) (n : Except Fault β) : Prop :=
  match m with
  | .ok a => ∃ b, n = .ok b ∧ R a b
  | .error .null => n = .error .null
  | .error .overflow => n = .error .overflow
  | .error .misuse => True
  | .error .diverges => True

theorem Sim.ok {R : α → β → Prop} {a : α} {b : β} (h : R a b) :
    Sim R (.ok a) (.ok b) :=
  ⟨b, rfl, h⟩

/-- Two programs that start with related computations and go on in related
ways are related. -/
theorem Sim.bind {R : α → β → Prop} {S : γ → δ → Prop} {m : Except Fault α}
    {n : Except Fault β} {f : α → Except Fault γ} {g : β → Except Fault δ}
    (h : Sim R m n) (hk : ∀ a b, R a b → Sim S (f a) (g b)) :
    Sim S (m >>= f) (n >>= g) := by
  cases m with
  | ok a =>
    obtain ⟨b, rfl, hab⟩ := h
    exact hk a b hab
  | error e =>
    cases e with
    | null =>
      obtain rfl : n = .error .null := h
      exact rfl
    | overflow =>
      obtain rfl : n = .error .overflow := h
      exact rfl
    | misuse => trivial
    | diverges => trivial

/-- An answer of the concrete computation comes from an answer of an abstract
one that stays inside the contract. -/
theorem Sim.of_ok {R : α → β → Prop} {m : Except Fault α} {n : Except Fault β}
    {P : α → Prop} {b : β} (h : Sim R m n) (hm : Safe m P) (hn : n = .ok b) :
    ∃ a, m = .ok a ∧ R a b ∧ P a := by
  subst hn
  cases m with
  | ok a =>
    obtain ⟨b', hb, hab⟩ := h
    obtain rfl : b = b' := by simpa using hb
    exact ⟨a, rfl, hab, hm⟩
  | error e =>
    cases e with
    | null => exact absurd h (by simp [Sim])
    | overflow => exact absurd h (by simp [Sim])
    | misuse => exact absurd hm (by simp [Safe])
    | diverges => exact absurd hm (by simp [Safe])

/-- The concrete computation faults only by a null dereference or an overflow
that the abstract one has too. -/
theorem Sim.error {R : α → β → Prop} {m : Except Fault α} {n : Except Fault β}
    {P : α → Prop} {e : Fault} (h : Sim R m n) (hm : Safe m P) (hn : n = .error e) :
    m = .error e ∧ (e = .null ∨ e = .overflow) := by
  subst hn
  cases m with
  | ok a => exact absurd h (by simp [Sim])
  | error e' =>
    cases e' with
    | null =>
      obtain rfl : e = .null := by simpa [Sim] using h
      exact ⟨rfl, Or.inl rfl⟩
    | overflow =>
      obtain rfl : e = .overflow := by simpa [Sim] using h
      exact ⟨rfl, Or.inr rfl⟩
    | misuse => exact absurd hm (by simp [Safe])
    | diverges => exact absurd hm (by simp [Safe])

end MipsOs.Lib
