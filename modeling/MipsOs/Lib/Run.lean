import Mathlib

/-!
# Runs of a partial step function

A system is a step function `step : σ → ε → Option σ`.  The answer `none`
stands for a step that has no defined outcome.  A guard `ok : σ → ε → Prop`
says which events a run may take in which state.

Reachability is the reflexive transitive closure of Mathlib.  This file adds
the two rules that every proof about runs needs: an invariant of the steps is
an invariant of the runs, and a simulation of the steps is a simulation of
the runs.  `both` runs a system twice, side by side, for statements that compare
two runs.
-/

namespace MipsOs.Lib

variable {σ τ ε : Type*}

/-- One guarded step, with the event hidden. -/
def StepOf (step : σ → ε → Option σ) (ok : σ → ε → Prop) (s s' : σ) : Prop :=
  ∃ e, ok s e ∧ step s e = some s'

/-- `s'` is reached from `s` by guarded steps. -/
def Reaches (step : σ → ε → Option σ) (ok : σ → ε → Prop) : σ → σ → Prop :=
  Relation.ReflTransGen (StepOf step ok)

variable {step : σ → ε → Option σ} {ok ok' : σ → ε → Prop}

theorem Reaches.refl (s : σ) : Reaches step ok s s :=
  Relation.ReflTransGen.refl

/-- A run that takes one more step. -/
theorem Reaches.snoc {s t u : σ} {e : ε} (h : Reaches step ok s t)
    (hok : ok t e) (hstep : step t e = some u) : Reaches step ok s u :=
  Relation.ReflTransGen.tail h ⟨e, hok, hstep⟩

/-- The invariant rule: what holds at the start and is kept by every guarded
step holds in every state of every run. -/
theorem Reaches.invariant (Inv : σ → Prop) {s t : σ} (h : Reaches step ok s t)
    (hinit : Inv s)
    (hstep : ∀ a e b, Inv a → ok a e → step a e = some b → Inv b) : Inv t := by
  induction h with
  | refl => exact hinit
  | tail _ hlast ih =>
    obtain ⟨e, hok, he⟩ := hlast
    exact hstep _ e _ ih hok he

/-- A run under a stronger guard is a run under a weaker one. -/
theorem Reaches.mono {s t : σ} (h : Reaches step ok s t)
    (hok : ∀ a e, ok a e → ok' a e) : Reaches step ok' s t := by
  induction h with
  | refl => exact .refl _
  | tail _ hlast ih =>
    obtain ⟨e, he, hstep⟩ := hlast
    exact ih.snoc (hok _ _ he) hstep

/-- The simulation rule.  If related states answer every guarded step of the
first system by a step of the second system under the same event, then every
state the first system reaches is related to a state the second system
reaches. -/
theorem Reaches.simulation {step₂ : τ → ε → Option τ} {ok₂ : τ → ε → Prop}
    {R : σ → τ → Prop} {s t : σ} {s₂ : τ} (h : Reaches step ok s t)
    (hinit : R s s₂)
    (hstep : ∀ a e b a₂, R a a₂ → ok a e → step a e = some b →
      ∃ b₂, ok₂ a₂ e ∧ step₂ a₂ e = some b₂ ∧ R b b₂) :
    ∃ t₂, Reaches step₂ ok₂ s₂ t₂ ∧ R t t₂ := by
  induction h with
  | refl => exact ⟨s₂, .refl _, hinit⟩
  | tail _ hlast ih =>
    obtain ⟨t₂, hreach, hR⟩ := ih
    obtain ⟨e, hok, he⟩ := hlast
    obtain ⟨b₂, hok₂, hb₂, hRb⟩ := hstep _ e _ _ hR hok he
    exact ⟨b₂, hreach.snoc hok₂ hb₂, hRb⟩

/-- Run a list of events, as long as the guard allows them. -/
def runIf (step : σ → ε → Option σ) (ok : σ → ε → Prop) [∀ s e, Decidable (ok s e)] :
    σ → List ε → Option σ
  | s, [] => some s
  | s, e :: es => if ok s e then (step s e).bind fun s' => runIf step ok s' es else none

/-- What a list of events runs to is reached. -/
theorem reaches_of_runIf [∀ s e, Decidable (ok s e)] {s t : σ} {es : List ε}
    (h : runIf step ok s es = some t) : Reaches step ok s t := by
  induction es generalizing s with
  | nil =>
    obtain rfl : s = t := by simpa [runIf] using h
    exact .refl s
  | cons e es ih =>
    rw [runIf] at h
    split at h
    · rename_i hok
      obtain ⟨s', hstep, hrest⟩ := Option.bind_eq_some_iff.mp h
      exact Relation.ReflTransGen.head ⟨e, hok, hstep⟩ (ih hrest)
    · cases h

/-! ## Two runs side by side -/

/-- Two copies of the system take a step each. -/
def both (step : σ → ε → Option σ) (s : σ × σ) (e : ε × ε) : Option (σ × σ) :=
  (step s.1 e.1).bind fun a => (step s.2 e.2).map fun b => (a, b)

theorem both_eq_some {s t : σ × σ} {e : ε × ε} :
    both step s e = some t ↔ step s.1 e.1 = some t.1 ∧ step s.2 e.2 = some t.2 := by
  obtain ⟨a, b⟩ := t
  simp [both, Option.bind_eq_some_iff]

/-- The unwinding rule: a relation between the two states that every pair of steps
keeps relates the states of the two runs. -/
theorem Reaches.unwinding {ok : σ × σ → ε × ε → Prop} (R : σ → σ → Prop) {s t : σ × σ}
    (h : Reaches (both step) ok s t) (hinit : R s.1 s.2)
    (hstep : ∀ a b e f a' b', R a b → ok (a, b) (e, f) → step a e = some a' →
      step b f = some b' → R a' b') : R t.1 t.2 := by
  apply h.invariant (fun s => R s.1 s.2) hinit
  intro s e s' hR hok hs
  obtain ⟨hfirst, hsecond⟩ := both_eq_some.mp hs
  exact hstep _ _ _ _ _ _ hR hok hfirst hsecond

end MipsOs.Lib
